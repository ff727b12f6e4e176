import TriaxialKV.Cache.RadixCache

/-! # The three allocators -/

namespace TriaxialKV
open Tensor

/-- Without `needSort` no page is ever put aside. -/
structure PageAllocator where
  pageSize : Nat
  needSort : Bool
  freePages : List Nat
  releasePages : List Nat
  isNotInFreeGroup : Bool
  freeGroup : List (List Nat)
  unsorted : needSort = false → releasePages = []

variable (a : PageAllocator)

namespace PageAllocator

def availableSize (a : PageAllocator) : Int := (a.freePages.length + a.releasePages.length) * a.pageSize

def mergeAndSortFree (a : PageAllocator) : PageAllocator :=
  if a.releasePages.length > 0 then
    { a with
      freePages := (a.freePages ++ a.releasePages).insertionSort (· ≤ ·)
      releasePages := []
      unsorted := fun _ => rfl }
  else a

def mergeIfShort (a : PageAllocator) (numPages : Nat) : PageAllocator :=
  if a.needSort ∧ numPages > a.freePages.length then a.mergeAndSortFree else a

def freeWith (a : PageAllocator) (insert : List Nat → List Nat) (freeIndex : List Nat) : PageAllocator :=
  if freeIndex = [] then a
  else if a.isNotInFreeGroup then
    if sort : a.needSort then
      { a with releasePages := insert a.releasePages, unsorted := fun off => by rw [off] at sort; cases sort }
    else { a with freePages := insert a.freePages }
  else { a with freeGroup := a.freeGroup ++ [freeIndex] }

def takePages {β : Type} (a : PageAllocator) (numPages : Nat) (out : β) : Option β × PageAllocator :=
  if numPages > a.freePages.length then (none, a)
  else (some out, { a with freePages := a.freePages.drop numPages })

def pages (a : PageAllocator) : Nat := a.freePages.length + a.releasePages.length

theorem sortFree_free : a.mergeAndSortFree.freePages.length = a.pages := by
  unfold mergeAndSortFree pages
  split
  · simp
  · next _ => omega

theorem merge_free {numPages need : Nat} (le : need ≤ numPages) (enough : need ≤ a.pages) :
    need ≤ (a.mergeIfShort numPages).freePages.length := by
  unfold mergeIfShort
  split
  · rwa [sortFree_free]
  · next kept =>
    by_cases sort : a.needSort = true
    · have := not_and.mp kept sort
      omega
    · have aside := a.unsorted (by simpa using sort)
      unfold pages at enough
      rw [aside] at enough
      simpa using enough

theorem merge_pageSize (numPages : Nat) : (a.mergeIfShort numPages).pageSize = a.pageSize := by
  unfold mergeIfShort mergeAndSortFree
  split
  · split <;> rfl
  · rfl

theorem freeWith_pageSize (insert : List Nat → List Nat) (freeIndex : List Nat) : (a.freeWith insert freeIndex).pageSize = a.pageSize := by
  unfold freeWith
  split
  · rfl
  · split
    · split <;> rfl
    · rfl

theorem freeWith_pages {insert : List Nat → List Nat} (grows : ∀ pages, pages.length ≤ (insert pages).length)
    (freeIndex : List Nat) : a.pages ≤ (a.freeWith insert freeIndex).pages := by
  have left := grows a.freePages
  have right := grows a.releasePages
  unfold freeWith
  split
  · exact le_refl _
  · split
    · split
      · simp only [pages]
        omega
      · simp only [pages]
        omega
    · exact le_refl _

theorem take_pageSize {β : Type} (numPages : Nat) (out : β) : (a.takePages numPages out).2.pageSize = a.pageSize := by
  unfold takePages
  split <;> rfl

theorem pages_of_available {a : PageAllocator} {pages : Nat} (pos : 0 < a.pageSize)
    (available : (pages * a.pageSize : Nat) ≤ a.availableSize) : pages ≤ a.pages := by
  unfold availableSize at available
  exact Nat.le_of_mul_le_mul_right (by exact_mod_cast available) pos

theorem takePages_ok {β : Type} {a : PageAllocator} {numPages : Nat} (enough : numPages ≤ a.freePages.length) (out : β) :
    (a.takePages numPages out).1 = some out := by
  unfold takePages
  rw [if_neg (by omega)]

end PageAllocator

structure TokenToKVPoolAllocator extends PageAllocator where
  single : pageSize = 1

namespace TokenToKVPoolAllocator

def clear (size : Nat) (needSort : Bool) : TokenToKVPoolAllocator := ⟨⟨1, needSort, List.range' 1 size, [], true, [], fun _ => rfl⟩, rfl⟩

def alloc (a : TokenToKVPoolAllocator) (needSize : Nat) : Option (List Nat) × TokenToKVPoolAllocator :=
  let b := a.mergeIfShort needSize
  let result := b.takePages needSize (b.freePages.take needSize)
  (result.1, ⟨result.2, ((b.take_pageSize _ _).trans (a.merge_pageSize _)).trans a.single⟩)

def free (a : TokenToKVPoolAllocator) (freeIndex : List Nat) : TokenToKVPoolAllocator :=
  ⟨a.freeWith (fun pages => pages ++ freeIndex) freeIndex, (a.freeWith_pageSize _ _).trans a.single⟩

end TokenToKVPoolAllocator

def getNumNewPages (seqLens : List Nat) (pageSize : Nat) : Nat := seqLens.countP (fun len => len % pageSize = 1)

def allocDecodeKernel (seqLens lastLoc freePages : List Nat) (pageSize pid : Nat) : Nat :=
  let newPages (len : Nat) := (len + pageSize - 1) / pageSize - (len - 1 + pageSize - 1) / pageSize
  let self := newPages seqLens[pid]!
  let newPageStartLoc := ((seqLens.take (pid + 1)).map newPages).sum - self
  if self = 0 then lastLoc[pid]! + 1 else freePages[newPageStartLoc]! * pageSize

/-! The methods of the paged allocator, for any page size. -/

namespace PageAllocator

def pagedClear (size pageSize : Nat) (needSort : Bool) : PageAllocator :=
  ⟨pageSize, needSort, List.range' 1 (size / pageSize), [], true, [], fun _ => rfl⟩

def pagedAlloc (a : PageAllocator) (needSize : Nat) : Option (List Nat) × PageAllocator :=
  let numPages := needSize / a.pageSize
  let b := a.mergeIfShort numPages
  let outIndices := (b.freePages.take numPages).flatMap (fun page => (List.range a.pageSize).map (fun j => page * a.pageSize + j))
  b.takePages numPages outIndices

def pagedAllocDecode (a : PageAllocator) (seqLens lastLoc : List Nat) : Option (List Nat) × PageAllocator :=
  let bs := seqLens.length
  let b := a.mergeIfShort bs
  let outIndices := (List.range bs).map (allocDecodeKernel seqLens lastLoc b.freePages a.pageSize)
  b.takePages (getNumNewPages seqLens a.pageSize) outIndices

def pagedFree (a : PageAllocator) (freeIndex : List Nat) : PageAllocator :=
  let freePageIndices := unique (freeIndex.map (· / a.pageSize))
  a.freeWith (fun pages => freePageIndices ++ pages) freeIndex

theorem pagedAlloc_pageSize (needSize : Nat) : (a.pagedAlloc needSize).2.pageSize = a.pageSize :=
  (take_pageSize _ _ _).trans (a.merge_pageSize _)

theorem paged_pageSize (seqLens lastLoc : List Nat) : (a.pagedAllocDecode seqLens lastLoc).2.pageSize = a.pageSize :=
  (take_pageSize _ _ _).trans (a.merge_pageSize _)

end PageAllocator

structure PagedTokenToKVPoolAllocator extends PageAllocator where
  large : 1 < pageSize

namespace PagedTokenToKVPoolAllocator

def clear (size pageSize : Nat) (needSort : Bool) (large : 1 < pageSize) : PagedTokenToKVPoolAllocator :=
  ⟨PageAllocator.pagedClear size pageSize needSort, large⟩

def alloc (a : PagedTokenToKVPoolAllocator) (needSize : Nat) : Option (List Nat) × PagedTokenToKVPoolAllocator :=
  let result := a.pagedAlloc needSize
  (result.1, ⟨result.2, by rw [a.pagedAlloc_pageSize]; exact a.large⟩)

def allocDecode (a : PagedTokenToKVPoolAllocator) (seqLens lastLoc : List Nat) : Option (List Nat) × PagedTokenToKVPoolAllocator :=
  let result := a.pagedAllocDecode seqLens lastLoc
  (result.1, ⟨result.2, by rw [a.paged_pageSize]; exact a.large⟩)

def free (a : PagedTokenToKVPoolAllocator) (freeIndex : List Nat) : PagedTokenToKVPoolAllocator :=
  ⟨a.pagedFree freeIndex, by rw [PageAllocator.pagedFree, a.freeWith_pageSize]; exact a.large⟩

end PagedTokenToKVPoolAllocator

inductive KVAllocator where
  | token (a : TokenToKVPoolAllocator)
  | paged (a : PagedTokenToKVPoolAllocator)
  | triaxial (a : TriaxialAllocator)

namespace KVAllocator

def pageSize : KVAllocator → Nat
  | .token a => a.pageSize
  | .paged a => a.pageSize
  | .triaxial _ => 1

def free : KVAllocator → List Nat → KVAllocator
  | .token a, freeIndex => .token (a.free freeIndex)
  | .paged a, freeIndex => .paged (a.free freeIndex)
  | .triaxial a, freeIndex => .triaxial (a.free freeIndex)

def availableSize : KVAllocator → Int
  | .token a => a.availableSize
  | .paged a => a.availableSize
  | .triaxial a => a.availableSize

def availableSizeInt4 : KVAllocator → Option Int
  | .token _ => none
  | .paged _ => none
  | .triaxial a => some a.availableSizeInt4

def alloc (a : KVAllocator) (needSize : Nat) : Option (List Nat) × KVAllocator :=
  match a with
  | .token a => ((a.alloc needSize).1, .token (a.alloc needSize).2)
  | .paged a => ((a.alloc needSize).1, .paged (a.alloc needSize).2)
  | .triaxial a => ((a.alloc needSize).1, .triaxial (a.alloc needSize).2)

def allocDecode (a : KVAllocator) (seqLens lastLoc : List Nat) : Except String (Option (List Nat)) × KVAllocator :=
  match a with
  | .token _ => (.error "alloc_decode is only for paged allocator", a)
  | .paged a => (.ok (a.allocDecode seqLens lastLoc).1, .paged (a.allocDecode seqLens lastLoc).2)
  | .triaxial _ => (.error "TriaxialAllocator.alloc_decode() takes 2 positional arguments but 4 were given", a)

instance : SlotAllocator KVAllocator where
  free := free
  availableSize := availableSize
  availableSizeInt4 := availableSizeInt4

/-- The pages that a decode batch can get. -/
def capacity : KVAllocator → Nat
  | .token a => a.pages
  | .paged a => a.pages
  | .triaxial a => a.freeSlots4.length

variable (a : KVAllocator)

theorem free_pageSize (freeIndex : List Nat) : (a.free freeIndex).pageSize = a.pageSize := by
  cases a with
  | token a => exact a.freeWith_pageSize _ _
  | paged a => exact a.freeWith_pageSize _ _
  | triaxial a => rfl

theorem free_capacity (freeIndex : List Nat) : a.capacity ≤ (a.free freeIndex).capacity := by
  cases a with
  | token a => exact a.freeWith_pages (fun pages => by simp) freeIndex
  | paged a => exact a.freeWith_pages (fun pages => by simp) freeIndex
  | triaxial a =>
    unfold free capacity TriaxialAllocator.free
    dsimp only
    split
    · exact le_refl _
    · split
      · exact le_refl _
      · rw [TriaxialAllocator.release_eq]
        simp

theorem pageSize_pos : 0 < a.pageSize := by
  cases a with
  | token a =>
    have single : (token a).pageSize = 1 := a.single
    omega
  | paged a => exact Nat.lt_of_succ_lt a.large
  | triaxial a => exact Nat.one_pos

variable {a : KVAllocator}

theorem capacity_of_available {pages : Nat}
    (available : (pages * a.pageSize : Nat) ≤ a.availableSizeInt4.getD a.availableSize) : pages ≤ a.capacity := by
  have pos := a.pageSize_pos
  cases a with
  | token a => exact PageAllocator.pages_of_available pos available
  | paged a => exact PageAllocator.pages_of_available pos available
  | triaxial a =>
    simpa [pageSize, availableSizeInt4, TriaxialAllocator.availableSizeInt4, capacity] using available

theorem alloc_ok (single : a.pageSize = 1) {needSize : Nat} (enough : needSize ≤ a.capacity) : ∃ out, (a.alloc needSize).1 = some out := by
  cases a with
  | token a => exact ⟨_, PageAllocator.takePages_ok (a.merge_free (le_refl _) enough) _⟩
  | paged a => exact absurd single (Nat.ne_of_gt a.large)
  | triaxial a =>
    refine ⟨a.freeSlots4.take needSize, ?_⟩
    have enough : needSize ≤ a.freeSlots4.length := enough
    simp only [alloc, TriaxialAllocator.alloc]
    rw [if_neg (by omega)]

theorem allocDecode_ok (large : a.pageSize ≠ 1) (seqLens lastLoc : List Nat)
    (enough : getNumNewPages seqLens a.pageSize ≤ a.capacity) : ∃ out, (a.allocDecode seqLens lastLoc).1 = .ok (some out) := by
  cases a with
  | token a => exact absurd a.single large
  | paged a =>
    exact ⟨_, congrArg Except.ok (PageAllocator.takePages_ok (a.merge_free List.countP_le_length enough) _)⟩
  | triaxial a => exact absurd rfl large

end KVAllocator

namespace RadixCache
section
variable {α : Type} [SlotAllocator α] (inv : RadixCache → α → Prop)
  (preserve : ∀ c a x, inv c a → inv (c.deleteLeaf x) (SlotAllocator.free a x.value)) (order : EvictionOrder)
include inv preserve order

theorem evictLoop_invariant (numTokens fuel numEvicted : Nat) (heap : List Nat) {c : RadixCache} {a : α} (initial : inv c a) :
    inv (evictLoop order numTokens fuel numEvicted heap c a).2.1 (evictLoop order numTokens fuel numEvicted heap c a).2.2 := by
  induction fuel generalizing numEvicted heap c a with
  | zero => exact initial
  | succ fuel ih =>
    unfold evictLoop
    split
    · split
      · exact initial
      · exact ih _ _ (preserve c a _ initial)
    · exact initial

theorem evictFromTree_invariant (numTokens : Nat) {c : RadixCache} {a : α} (initial : inv c a) :
    inv (c.evictFromTreeCache order a numTokens).1 (c.evictFromTreeCache order a numTokens).2 := by
  have evicted : inv (evict order c a numTokens).2.1 (evict order c a numTokens).2.2 := by
    unfold evict
    split
    · exact initial
    · exact evictLoop_invariant inv preserve order _ _ _ _ initial
  unfold evictFromTreeCache
  dsimp only
  split
  · split
    · exact evicted
    · exact initial
  · split
    · exact evicted
    · exact initial

end

end RadixCache

end TriaxialKV
