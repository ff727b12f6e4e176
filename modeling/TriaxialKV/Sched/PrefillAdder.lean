import TriaxialKV.Cache.AllocExtend
import TriaxialKV.Cache.Locks
import TriaxialKV.Lib.Rounding

/-!
# Admission of prefill requests

Floating-point results are rounded by `R`; the integer parts of the budget are small enough to be exact.
-/

namespace TriaxialKV

/-- A request as the scheduler sees it. Token lists count only by their lengths. -/
structure Req where
  triaxialBits : Option (List Nat)
  originInputLen : Nat
  outputLen : Nat
  prefixLen : Nat
  extendInputLen : Nat
  maxNewTokens : Nat
  ignoreEos : Bool
  lastNode : Nat
  reqPoolIdx : Option Nat
  isChunked : Nat
  kvCommittedLen : Nat
  kvAllocatedLen : Nat
  cacheProtectedLen : Nat
  deriving Inhabited

def Req.extendReq (r : Req) : ExtendReq := ⟨r.triaxialBits, r.prefixLen, r.extendInputLen⟩

def TriaxialKVPool.ofSize (R : Rounding) (size : Nat) (int2Fraction : ℚ) : TriaxialKVPool :=
  let usablePages2 := ⌊R.round (size * int2Fraction)⌋.toNat / 32
  ⟨usablePages2, size - usablePages2 * 32⟩

namespace TriaxialAllocator
variable (R : Rounding)

/-- The share of a mixed prompt that is taken to need INT4 slots. -/
def int4Share (int2Fraction : ℚ) : ℚ := max (R.round (1 - int2Fraction)) (R.round (5 / 100))

def admissionSize (a : TriaxialAllocator) (int2Fraction : ℚ) : Int := min a.availableSize ⌊R.round (a.freeSlots4.length / int4Share R int2Fraction)⌋

end TriaxialAllocator

inductive AddReqResult where
  | continueAdding
  | noToken
  | other
  deriving DecidableEq

structure PrefillAdder where
  pageSize : Nat
  treeCache : RadixCache
  allocator : TriaxialAllocator
  int2Fraction : ℚ
  runningReqs : List Req
  newTokenRatio : ℚ
  clipMaxNewTokens : Int
  /-- Context parallelism admits one request at a time. -/
  contextParallel : Bool
  prefillMaxRequests : Option Nat
  remInputTokens : Int
  remChunkTokens : Option Int
  remTotalTokenOffset : ℚ
  curRemTokenOffset : Int
  reqStates : Option (List (ℚ × Nat))
  canRunList : List Req
  newChunkedReq : Option Req

namespace PrefillAdder
variable (R : Rounding)

def getRunningRequestTotalTokenOffset (newTokenRatio : ℚ) (clip : Int) (r : Req) : ℚ :=
  R.round (((min ((r.maxNewTokens : Int) - r.outputLen) clip : Int) : ℚ) * newTokenRatio)

def create (pageSize : Nat) (treeCache : RadixCache) (allocator : TriaxialAllocator) (int2Fraction : ℚ)
    (runningReqs : List Req) (newTokenRatio : ℚ) (clip : Int) (contextParallel : Bool) (prefillMaxRequests : Option Nat)
    (remInputTokens : Int) (remChunkTokens : Option Int) (mixedWithDecodeTokens : Nat) : PrefillAdder where
  pageSize := pageSize
  treeCache := treeCache
  allocator := allocator
  int2Fraction := int2Fraction
  runningReqs := runningReqs
  newTokenRatio := newTokenRatio
  clipMaxNewTokens := clip
  contextParallel := contextParallel
  prefillMaxRequests := prefillMaxRequests
  remInputTokens := remInputTokens - mixedWithDecodeTokens
  remChunkTokens := remChunkTokens.map (· - mixedWithDecodeTokens)
  remTotalTokenOffset := R.round (mixedWithDecodeTokens +
    (runningReqs.map (getRunningRequestTotalTokenOffset R newTokenRatio clip)).foldl (fun acc x => R.round (acc + x)) 0)
  curRemTokenOffset := mixedWithDecodeTokens
  reqStates := none
  canRunList := []
  newChunkedReq := none

def availableAndEvictable (s : PrefillAdder) : Int := s.allocator.admissionSize R s.int2Fraction + s.treeCache.evictableSize

def remTotalTokens (s : PrefillAdder) : ℚ := R.round (s.availableAndEvictable R - s.remTotalTokenOffset)

def curRemTokens (s : PrefillAdder) : Int := s.availableAndEvictable R - s.curRemTokenOffset

def ceilPagedTokens (s : PrefillAdder) (tokens : Int) : Int := -(-tokens / s.pageSize) * s.pageSize

def budgetState (s : PrefillAdder) : AddReqResult :=
  if s.remTotalTokens R ≤ 0 ∨ s.curRemTokens R ≤ 0 then .noToken
  else if s.remInputTokens ≤ 0 then .other
  else if s.remChunkTokens.any (· ≤ 0) then .other
  else .continueAdding

def updatePrefillBudget (s : PrefillAdder) (extendInputLen maxNewTokens : Int) : PrefillAdder :=
  let extendInputLen := s.ceilPagedTokens extendInputLen
  let pageOverhead : Int := s.pageSize
  { s with
    remTotalTokenOffset := R.round (s.remTotalTokenOffset + ((extendInputLen + maxNewTokens + pageOverhead : Int) : ℚ))
    curRemTokenOffset := s.curRemTokenOffset + (extendInputLen + pageOverhead)
    remInputTokens := s.remInputTokens - extendInputLen
    remChunkTokens := s.remChunkTokens.map (· - extendInputLen) }

def take (s : PrefillAdder) (r : Req) (chunked : Option Req) : PrefillAdder :=
  { s with canRunList := s.canRunList ++ [r], newChunkedReq := chunked }

def IGNORE_EOS_RESERVE_TOKENS : Nat := 1

def reqState (newTokenRatio : ℚ) (r : Req) : Option (ℚ × Nat) :=
  let ratio := if r.ignoreEos then 1 else newTokenRatio
  let tokensLeft := R.round (R.round (r.maxNewTokens * ratio) - r.outputLen)
  if tokensLeft ≤ 0 then none else some (tokensLeft, r.originInputLen + r.outputLen)

/-- The position for an insertion: the last one if no entry is as large. -/
def insertIndex (states : List (ℚ × Nat)) (tokensLeft : ℚ) : Nat := min (states.findIdx (fun entry => tokensLeft ≤ entry.1)) (states.length - 1)

def addReqStates (s : PrefillAdder) (req : Req) : List (ℚ × Nat) :=
  match s.reqStates with
  | none => ((req :: (s.runningReqs ++ s.canRunList)).filterMap (reqState R s.newTokenRatio)).mergeSort
      (fun x y => x.1 ≤ y.1)
  | some states =>
    match reqState R s.newTokenRatio req with
    | none => states
    | some entry => states.insertIdx (insertIndex states entry.1) entry

/-- Whether every request can finish, the states taken in order of their remaining tokens. -/
def statesFit (curRemTokens : Int) : Int → List (ℚ × Nat) → Bool
  | _, [] => true
  | tokensFreed, (tokensLeft, tokensOccupied) :: states =>
    let bs := states.length + 1
    let minFreeTokens := R.round ((curRemTokens + tokensFreed : Int) - R.round (tokensLeft * bs))
    if minFreeTokens ≤ (IGNORE_EOS_RESERVE_TOKENS * bs : Nat) then false
    else statesFit curRemTokens (tokensFreed + tokensOccupied) states

def setExtendInputLen (r : Req) (len : Int) : Req := { r with extendInputLen := len.toNat }

def addOneReqIgnoreEos (s : PrefillAdder) (req : Req) : AddReqResult × PrefillAdder :=
  let extend := s.ceilPagedTokens req.extendInputLen
  if (extend : ℚ) > min (s.curRemTokens R : ℚ) (s.remTotalTokens R) then (.noToken, s) else
  let states := s.addReqStates R req
  let s := { s with reqStates := some states }
  if statesFit R (s.curRemTokens R - extend) 0 states = false then (.noToken, s) else
  let whole := s.take req s.newChunkedReq
  match s.remChunkTokens with
  | none =>
    let s := whole.updatePrefillBudget R req.extendInputLen (min req.maxNewTokens s.clipMaxNewTokens)
    (s.budgetState R, s)
  | some remChunkTokens =>
    if req.extendInputLen ≤ remChunkTokens then
      let s := whole.updatePrefillBudget R req.extendInputLen (min req.maxNewTokens s.clipMaxNewTokens)
      (s.budgetState R, s)
    else if remChunkTokens ≤ 0 then (.other, s)
    else
      let req := setExtendInputLen req remChunkTokens
      let s := (s.take req (some req)).updatePrefillBudget R remChunkTokens 0
      (s.budgetState R, s)

def reqIncLockRef (s : PrefillAdder) (req : Req) : PrefillAdder :=
  { s with treeCache := s.treeCache.incLockRef req.lastNode }

def reqDecLockRef (s : PrefillAdder) (req : Req) : PrefillAdder :=
  { s with treeCache := s.treeCache.decLockRef req.lastNode }

/-- The length of a truncated prefill: whole pages, and a multiple of the alignment. -/
def truncLen (s : PrefillAdder) (remChunkTokens : Int) (truncationAlignSize : Option Nat) : Option Int :=
  let trunc := remChunkTokens / s.pageSize * s.pageSize
  if trunc ≤ 0 then none else
  match truncationAlignSize with
  | none => some trunc
  | some align => if trunc < align then none else some (align * (trunc / align))

/-- The part of `add_one_req` under the lock. A result means that the request was turned away. -/
def addLocked (s : PrefillAdder) (req : Req) (totalTokens : Int) (truncationAlignSize : Option Nat) : Option AddReqResult × PrefillAdder :=
  -- the lock may have taken evictable tokens
  if (totalTokens : ℚ) ≥ s.remTotalTokens R then (some .noToken, s) else
  let inputTokens := s.ceilPagedTokens req.extendInputLen
  if inputTokens ≥ s.remInputTokens ∧ s.canRunList.length ≠ 0 then (some .other, s) else
  let whole := s.take req s.newChunkedReq
  match s.remChunkTokens with
  | none =>
    (none, (whole.reqIncLockRef req).updatePrefillBudget R inputTokens (min req.maxNewTokens s.clipMaxNewTokens))
  | some remChunkTokens =>
    if inputTokens ≤ remChunkTokens then
      (none, (whole.reqIncLockRef req).updatePrefillBudget R inputTokens (min req.maxNewTokens s.clipMaxNewTokens))
    else
      match s.truncLen remChunkTokens truncationAlignSize with
      | none => (some .other, s)
      | some trunc =>
        let req := setExtendInputLen req trunc
        (none, ((s.take req (some req)).reqIncLockRef req).updatePrefillBudget R trunc 0)

/-- `delayed` says that the prefill delayer turned the request away. -/
def addOneReq (s : PrefillAdder) (req : Req) (delayed : Bool) (truncationAlignSize : Option Nat) : AddReqResult × PrefillAdder :=
  if delayed then (.other, s)
  else if s.contextParallel ∧ s.canRunList.length ≥ 1 then (.other, s)
  else if s.prefillMaxRequests.any (fun x => s.canRunList.length ≥ x) then (.other, s)
  else if req.ignoreEos ∧ s.treeCache.disable then s.addOneReqIgnoreEos R req
  else
    let totalTokens : Int := req.extendInputLen + min (max ((req.maxNewTokens : Int) - req.outputLen) 0) s.clipMaxNewTokens
    let realInputTokens := s.ceilPagedTokens req.extendInputLen
    if (totalTokens : ℚ) ≥ s.remTotalTokens R then (.noToken, s)
    else if realInputTokens ≥ s.remInputTokens ∧ s.canRunList.length ≠ 0 then (.other, s)
    else
      match (s.reqIncLockRef req).addLocked R req totalTokens truncationAlignSize with
      | (some result, s) => (result, s.reqDecLockRef req)
      | (none, s) =>
        let s := s.reqDecLockRef req
        (s.budgetState R, s)

end PrefillAdder

structure ReqToTokenPool where
  freeSlots : List Nat

namespace ReqToTokenPool

/-- Requests that hold a slot keep it, the others take the first free ones in order. -/
def assign : List Req → List Nat → List Nat
  | [], _ => []
  | r :: reqs, selectIndex =>
    match r.reqPoolIdx, selectIndex with
    | some idx, _ => idx :: assign reqs selectIndex
    | none, idx :: selectIndex => idx :: assign reqs selectIndex
    | none, [] => assign reqs []

def alloc (pool : ReqToTokenPool) (reqs : List Req) : Except String (Option (List Nat)) × ReqToTokenPool :=
  let reusing := reqs.filter (·.reqPoolIdx.isSome)
  if reusing.all (fun r => r.isChunked > 0 ∨ r.kvCommittedLen > 0) then
    let needSize := reqs.length - reusing.length
    if needSize > pool.freeSlots.length then (.ok none, pool)
    else (.ok (some (assign reqs (pool.freeSlots.take needSize))), ⟨pool.freeSlots.drop needSize⟩)
  else (.error "reusing request must be chunked or have committed KV", pool)

end ReqToTokenPool

def allocReqSlots (pool : ReqToTokenPool) (reqs : List Req) : Except String (List Nat) × ReqToTokenPool :=
  match pool.alloc reqs with
  | (.error message, pool) => (.error message, pool)
  | (.ok (some indices), pool) => (.ok indices, pool)
  | (.ok none, pool) =>
    (.error ("alloc_req_slots runs out of memory. Please set a smaller number for `--max-running-requests`. " ++
      "req_to_token_pool.available_size()=" ++ toString pool.freeSlots.length ++ ", num_reqs=" ++ toString reqs.length ++
      ", "), pool)

/-- `alloc_for_extend` with a TriAxialKV allocator, whose page size is 1: the slots of the new tokens
and of the requests. -/
def allocForExtend (order : EvictionOrder) (c : RadixCache) (a : TriaxialAllocator) (pool : ReqToTokenPool)
    (reqs : List Req) : Except String (List Nat × List Nat) × RadixCache × TriaxialAllocator × ReqToTokenPool :=
  match allocReqSlots pool reqs with
  | (.error message, pool) => (.error message, c, a, pool)
  | (.ok reqPoolIndices, pool) =>
    match allocTokenSlotsTriaxial order c a (reqs.map Req.extendReq) with
    | (.error message, c, a) => (.error message, c, a, pool)
    | (.ok outCacheLoc, c, a) => (.ok (outCacheLoc, reqPoolIndices), c, a, pool)

end TriaxialKV
