import TriaxialKV.Lib.Tensor

/-!
# The mixed INT2/INT4 slot allocator

Slots below `offset` are INT2 and come in pages of `PAGE = 32`; slots from `offset` on are INT4. Page 0 and
the slot `offset` are reserved.
-/

namespace TriaxialKV
open Tensor

structure TriaxialKVPool where
  usablePages2 : Nat
  usableInt4 : Nat
  deriving DecidableEq

namespace TriaxialKVPool

def usableInt2 (pool : TriaxialKVPool) : Nat := pool.usablePages2 * 32

/-- One page more than the usable ones: page 0 is the dummy page. -/
def numPages2 (pool : TriaxialKVPool) : Nat := pool.usablePages2 + 1

def offset (pool : TriaxialKVPool) : Nat := pool.numPages2 * 32

/-- One row more than the usable ones: INT4 row 0 is a dummy. -/
def size4 (pool : TriaxialKVPool) : Nat := pool.usableInt4 + 1

end TriaxialKVPool

def pageSlots (page : Nat) : List Nat := (List.range 32).map (fun j => page * 32 + j)

structure TriaxialAllocator where
  pool : TriaxialKVPool
  freePages2 : List Nat
  freeSlots4 : List Nat
  pageFreeCnt : Nat → Nat
  isNotInFreeGroup : Bool
  freeGroup : List (List Nat)
  fallbackInt2ToInt4 : Nat
  partialSlots : Int

namespace TriaxialAllocator

def clear (pool : TriaxialKVPool) : TriaxialAllocator where
  pool := pool
  freePages2 := List.range' 1 (pool.numPages2 - 1)
  freeSlots4 := List.range' (pool.offset + 1) (pool.size4 - 1)
  pageFreeCnt := fun _ => 0
  isNotInFreeGroup := true
  freeGroup := []
  fallbackInt2ToInt4 := 0
  partialSlots := 0

def availableSizeInt4 (a : TriaxialAllocator) : Nat := a.freeSlots4.length

def availableSize (a : TriaxialAllocator) : Int := a.freePages2.length * 32 + a.freeSlots4.length + a.partialSlots

def alloc (a : TriaxialAllocator) (needSize : Nat) : Option (List Nat) × TriaxialAllocator :=
  if needSize > a.freeSlots4.length then (none, a)
  else (some (a.freeSlots4.take needSize), { a with freeSlots4 := a.freeSlots4.drop needSize })

def allocDecode (a : TriaxialAllocator) (bs : Nat) : Option (List Nat) × TriaxialAllocator := a.alloc bs

/-- The INT2 tokens in a whole group of 32 of their request, whatever the page supply; `rank` is the index among the INT2 tokens of the request. -/
def keepGroups (bits reqLens : List Nat) : List Bool :=
  let seg := repeatInterleave (List.range reqLens.length) reqLens
  let is2 := bits.map (· == 2)
  let c := cumsum (maskInt is2)
  let lens := reqLens.map Int.ofNat
  let segStart := List.zipWith (fun total len => (total - len).toNat) (cumsum lens) lens
  let cBeforeSeg := gather (0 :: c) segStart
  let rank := List.zipWith (fun count s => count - cBeforeSeg[s]! - 1) c seg -- valid where `is2`
  let n2PerSeg := bincount (select is2 seg) reqLens.length
  let fullPerSeg := n2PerSeg.map (fun n2 => n2 / 32 * 32)
  let inFull := List.zipWith (fun r s => decide (r < ((fullPerSeg[s]! : Nat) : Int))) rank seg
  List.zipWith (· && ·) is2 inFull

/-- INT2 tokens of a request are grouped 32 at a time into whole pages; other tokens, and groups without a page, get INT4 slots. -/
def allocMixed (a : TriaxialAllocator) (bits reqLens : List Nat) : Option (List Nat) × TriaxialAllocator :=
  let n := bits.length
  if n = 0 then (some [], a) else
  let keep2 := keepGroups bits reqLens
  let k := (cumsum (maskInt keep2)).map (· - 1)
  let pageIdx := k.map (· / 32)
  let j := k.map (· % 32)
  let numPages := keep2.count true / 32
  let availPages := a.freePages2.length
  let short := numPages > availPages
  let demoted := List.zipWith (fun b p => b && decide (p ≥ (availPages : Int))) keep2 pageIdx
  let a := if short then
    { a with fallbackInt2ToInt4 := a.fallbackInt2ToInt4 + demoted.count true } else a
  let keep2 := if short then
    List.zipWith (fun b p => b && decide (p < (availPages : Int))) keep2 pageIdx else keep2
  let numPages := if short then availPages else numPages
  let n4 := n - numPages * 32
  if n4 > a.freeSlots4.length then (none, a) else
  let pages := a.freePages2.take numPages
  let idx2 := nonzero keep2
  let slots2 := List.zipWith (fun p i => pages[p.toNat]! * 32 + i.toNat)
    (gather pageIdx idx2) (gather j idx2)
  -- `torch.empty`: both index lists together cover every entry
  let out := indexPut (List.replicate n 0) idx2 slots2
  let idx4 := nonzero (keep2.map not)
  let out := indexPut out idx4 (a.freeSlots4.take n4)
  (some out, { a with
    freePages2 := a.freePages2.drop numPages
    freeSlots4 := a.freeSlots4.drop n4 })

def release (a : TriaxialAllocator) (freeIndex : List Nat) : TriaxialAllocator :=
  let s4 := freeIndex.filter (fun s => s ≥ a.pool.offset)
  -- never recycle the dummy page 0
  let s2 := (freeIndex.filter (fun s => !decide (s ≥ a.pool.offset))).filter (fun s => s ≥ 32)
  let a := { a with freeSlots4 := a.freeSlots4 ++ s4 }
  if s2.length > 0 then
    let pages := s2.map (· / 32)
    let counted := fun p => a.pageFreeCnt p + pages.count p
    let cand := unique pages
    let full := cand.filter (fun p => counted p ≥ 32)
    { a with
      pageFreeCnt := fun p => if p ∈ full then 0 else counted p
      freePages2 := a.freePages2 ++ full
      partialSlots := a.partialSlots + (s2.length - full.length * 32) }
  else a

def free (a : TriaxialAllocator) (freeIndex : List Nat) : TriaxialAllocator :=
  if freeIndex = [] then a
  else if !a.isNotInFreeGroup then { a with freeGroup := a.freeGroup ++ [freeIndex] }
  else a.release freeIndex

def freeGroupBegin (a : TriaxialAllocator) : TriaxialAllocator :=
  { a with isNotInFreeGroup := false, freeGroup := [] }

/-- The group is freed in one call; the list `freeGroup` keeps its entries. -/
def freeGroupEnd (a : TriaxialAllocator) : TriaxialAllocator :=
  let a := { a with isNotInFreeGroup := true }
  if a.freeGroup = [] then a else a.free a.freeGroup.flatten

end TriaxialAllocator

end TriaxialKV
