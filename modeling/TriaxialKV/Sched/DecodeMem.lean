import TriaxialKV.Cache.KVAllocator
import TriaxialKV.Sched.PrefillAdder

/-!
# Memory for a decode batch

Speculative decoding is off. Requests are named by their index in the batch.
-/

namespace TriaxialKV
open Tensor

structure ScheduleBatch where
  reqs : List Req
  reqPoolIndices : List Nat
  seqLens : List Nat
  treeCache : RadixCache
  allocator : KVAllocator
  reqToTokenPool : ReqToTokenPool
  reqToToken : Nat → Nat → Nat

namespace ScheduleBatch
variable (order : EvictionOrder)

def evictFromTreeCache (b : ScheduleBatch) (numTokens : Nat) : ScheduleBatch :=
  let (c, a) := b.treeCache.evictFromTreeCache order b.allocator numTokens
  { b with treeCache := c, allocator := a }

def selected (b : ScheduleBatch) : Option (List Nat) → List Req
  | none => b.reqs
  | some indices => gather b.reqs indices

def newTokensRequiredNextDecode (b : ScheduleBatch) (selectedIndices : Option (List Nat)) : Nat :=
  let pageSize := b.allocator.pageSize
  let newPages := (b.selected selectedIndices).countP (fun r => r.kvCommittedLen % pageSize = 0)
  newPages * pageSize

def checkDecodeMem (b : ScheduleBatch) (selectedIndices : Option (List Nat)) : Bool × ScheduleBatch :=
  let numTokens := b.newTokensRequiredNextDecode selectedIndices
  let b := b.evictFromTreeCache order numTokens
  match b.allocator.availableSizeInt4 with
  | some int4 => (decide (int4 ≥ numTokens), b)
  | none => (decide (b.allocator.availableSize ≥ numTokens), b)

def allocTokenSlots (b : ScheduleBatch) (numTokens : Nat) : Except String (List Nat) × ScheduleBatch :=
  let b := b.evictFromTreeCache order numTokens
  match b.allocator.alloc numTokens with
  | (some out, a) => (.ok out, { b with allocator := a })
  | (none, a) =>
    (.error ("Out of memory. Try to lower your batch size.\nTry to allocate " ++ toString numTokens ++ " tokens.\n" ++
      availableAndEvictableStr b.treeCache a), { b with allocator := a })

def allocPagedTokenSlotsDecode (b : ScheduleBatch) (seqLens lastLoc : List Nat) (tokenPerReq : Nat) : Except String (List Nat) × ScheduleBatch :=
  -- over-estimate: a new page for each request
  let b := b.evictFromTreeCache order (seqLens.length * b.allocator.pageSize)
  match b.allocator.allocDecode seqLens lastLoc with
  | (.error message, a) => (.error message, { b with allocator := a })
  | (.ok (some out), a) => (.ok out, { b with allocator := a })
  | (.ok none, a) =>
    (.error ("Decode out of memory. Try to lower your batch size.\nTry to allocate " ++
      toString (seqLens.length * tokenPerReq) ++ " tokens.\n" ++ availableAndEvictableStr b.treeCache a), { b with allocator := a })

/-- `req_to_token[rows, cols] = values` -/
def writeTokens (table : Nat → Nat → Nat) : List Nat → List Nat → List Nat → Nat → Nat → Nat
  | row :: rows, col :: cols, value :: values =>
    writeTokens (fun i j => if i = row ∧ j = col then value else table i j) rows cols values
  | _, _, _ => table

def allocForDecode (b : ScheduleBatch) (tokenPerReq : Nat) : Except String (List Nat) × ScheduleBatch :=
  let bs := b.seqLens.length
  let lastLoc := List.zipWith (fun row len => b.reqToToken row (len - 1)) b.reqPoolIndices b.seqLens
  let allocated :=
    if b.treeCache.pageSize = 1 then b.allocTokenSlots order (bs * tokenPerReq)
    else b.allocPagedTokenSlotsDecode order (b.seqLens.map (· + tokenPerReq)) lastLoc tokenPerReq
  match allocated with
  | (.error message, b) => (.error message, b)
  | (.ok out, b) => (.ok out, { b with reqToToken := writeTokens b.reqToToken b.reqPoolIndices b.seqLens out })

def cacheFinishedReq (b : ScheduleBatch) (r : Req) (reqPoolIdx : Nat) : ScheduleBatch :=
  if b.treeCache.disable then
    { b with allocator := b.allocator.free ((List.range r.kvCommittedLen).map (b.reqToToken reqPoolIdx)) }
  else
    let tokens := min (r.originInputLen + r.outputLen) r.kvCommittedLen
    let kvIndices := (List.range tokens).map (b.reqToToken reqPoolIdx)
    let keys := if b.treeCache.pageSize = 1 then tokens else tokens / b.treeCache.pageSize * b.treeCache.pageSize
    let a := b.allocator.free ((kvIndices.take keys).drop r.cacheProtectedLen)
    -- the unaligned tail
    let a := a.free (kvIndices.drop keys)
    { b with allocator := a, treeCache := b.treeCache.decLockRef r.lastNode }

def releaseKvCache (b : ScheduleBatch) (r : Req) : Except String ScheduleBatch :=
  match r.reqPoolIdx with
  | none => .error "Only MambaRadixCache allow freeing before alloc"
  | some reqPoolIdx =>
    let b := b.cacheFinishedReq r reqPoolIdx
    if r.kvCommittedLen = r.kvAllocatedLen then
      .ok { b with reqToTokenPool := ⟨b.reqToTokenPool.freeSlots ++ [reqPoolIdx]⟩ }
    else
      .error ("Unexpected overallocated KV cache, req.kv_committed_len=" ++ toString r.kvCommittedLen ++
        ", req.kv_allocated_len=" ++ toString r.kvAllocatedLen)

def resetForRetract (r : Req) : Req :=
  { r with
    reqPoolIdx := none
    prefixLen := 0
    extendInputLen := 0
    isChunked := 0
    kvAllocatedLen := 0
    kvCommittedLen := 0 }

def releaseReq (steps : Nat) (b : ScheduleBatch) (idx remainingReqCount : Nat) : Except String ScheduleBatch := do
  let b ← b.releaseKvCache b.reqs[idx]!
  let b := b.evictFromTreeCache order (remainingReqCount * steps)
  return { b with reqs := b.reqs.set idx (resetForRetract b.reqs[idx]!) }

def filterBatch (b : ScheduleBatch) (keepIndices : List Nat) : ScheduleBatch :=
  if keepIndices = [] then { b with reqs := [] }
  else if keepIndices.length = b.reqs.length then b
  else
    { b with
      reqs := gather b.reqs keepIndices
      reqPoolIndices := gather b.reqPoolIndices keepIndices
      seqLens := gather b.seqLens keepIndices }

/-- Most output first, then the shorter prompt: the last ones are retracted first. -/
def sortedIndices (b : ScheduleBatch) : List Nat :=
  (List.range b.reqs.length).insertionSort (fun i j =>
    (b.reqs[j]!).outputLen < (b.reqs[i]!).outputLen ∨
      (b.reqs[j]!).outputLen = (b.reqs[i]!).outputLen ∧ (b.reqs[i]!).originInputLen ≤ (b.reqs[j]!).originInputLen)

/-- The loop of `retract_decode`. `stack` is `sorted_indices` from its end. -/
def retractLoop (steps : Nat) : Bool → List Nat → List Nat → ScheduleBatch → Except String (List Nat × List Nat × ScheduleBatch)
  | _, [], _, _ => .error "pop from empty list"
  | firstIter, idx :: stack, retracted, b =>
    let (fits, b) := if firstIter then (false, b) else b.checkDecodeMem order (some (idx :: stack).reverse)
    if fits then .ok (idx :: stack, retracted, b)
    else if stack = [] then .ok ([idx], retracted, b)
    else
      match b.releaseReq order steps idx stack.length with
      | .error message => .error message
      | .ok b => retractLoop steps false stack (retracted ++ [idx]) b

structure Retraction where
  retracted : List Nat
  newEstimateRatio : ℚ
  aborted : List Nat
  batch : ScheduleBatch

def newEstimateRatio (R : Rounding) (steps : Nat) (b : ScheduleBatch) : ℚ :=
  let totalDecodedTokens := (b.reqs.map (·.outputLen)).sum
  let totalMaxNewTokens := (b.reqs.map (·.maxNewTokens)).sum
  min 1 (R.round ((totalDecodedTokens + steps * b.reqs.length : Nat) / (totalMaxNewTokens + 1 : Nat)))

def retractDecode (R : Rounding) (steps : Nat) (b : ScheduleBatch) : Except String Retraction := do
  let (stack, retracted, b) ← retractLoop order steps true b.sortedIndices.reverse [] b
  let (fits, b) := if stack.length ≤ 1 then b.checkDecodeMem order (some stack.reverse) else (true, b)
  if fits then
    let b := b.filterBatch stack.reverse
    return ⟨retracted, newEstimateRatio R steps b, [], b⟩
  else
    match stack with
    | [] => throw "pop from empty list"
    | last :: stack =>
      -- even the last request does not fit: it is aborted
      let b ← b.releaseReq order steps last 0
      let b := b.filterBatch stack.reverse
      return ⟨retracted, newEstimateRatio R steps b, [last], b⟩

end ScheduleBatch

end TriaxialKV
