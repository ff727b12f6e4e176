import TriaxialKV.Cache.PagedRuns

/-!
# Two pools for sliding window attention

`full_to_swa_index_mapping` leads from the slots of the full layers to those of the window; entry `-1` always
holds `-1`.
-/

namespace TriaxialKV
open Tensor Stores PageAllocator

variable {full : Option (List Nat)} {lastLoc : List Int} {needSize total : Nat} {preLens prefixLens seqLens : List Nat}
  {swa : Option (List Int)} (a : PageAllocator) (missing : Except String (Option (List Nat)))

namespace PageAllocator

/-! The pools are token allocators for pages of one slot and paged allocators otherwise. -/

def clear (size pageSize : Nat) (needSort : Bool) : PageAllocator :=
  if pageSize = 1 then (TokenToKVPoolAllocator.clear size needSort).toPageAllocator else pagedClear size pageSize needSort

def free (a : PageAllocator) (freeIndex : List Nat) : PageAllocator :=
  if single : a.pageSize = 1 then ((⟨a, single⟩ : TokenToKVPoolAllocator).free freeIndex).toPageAllocator else a.pagedFree freeIndex

theorem clear_pageSize (size pageSize : Nat) (needSort : Bool) : (clear size pageSize needSort).pageSize = pageSize := by
  unfold clear
  split
  · next single => exact single.symm
  · rfl

theorem clear_eq (size pageSize : Nat) (needSort : Bool) : clear size pageSize needSort = pagedClear size pageSize needSort := by
  unfold clear
  split
  · next single =>
    subst single
    unfold pagedClear TokenToKVPoolAllocator.clear
    rw [Nat.div_one]
  · rfl

theorem free_pageSize (freeIndex : List Nat) : (a.free freeIndex).pageSize = a.pageSize := by
  unfold free
  split
  · exact a.freeWith_pageSize _ _
  · exact a.freeWith_pageSize _ _

theorem allocExtend_pageSize (other : Nat) (empty : Nat → Int) (prefixLens seqLens : List Nat) (lastLoc : List Int)
    (extendNumTokens : Nat) : (a.allocExtend other empty prefixLens seqLens lastLoc extendNumTokens).2.pageSize = a.pageSize :=
  (take_pageSize _ _ _).trans (a.merge_pageSize _)

end PageAllocator

structure SWATokenToKVPoolAllocator where
  sizeFull : Nat
  sizeSwa : Nat
  pageSize : Nat
  fullAttnAllocator : PageAllocator
  swaAttnAllocator : PageAllocator
  fullToSwaIndexMapping : Nat → Int
  isNotInFreeGroup : Bool
  freeGroup : List (List Nat)
  fullPage : fullAttnAllocator.pageSize = pageSize
  swaPage : swaAttnAllocator.pageSize = pageSize

namespace SWATokenToKVPoolAllocator

def clear (size sizeSwa pageSize : Nat) (needSort : Bool) : SWATokenToKVPoolAllocator where
  sizeFull := size
  sizeSwa := sizeSwa
  pageSize := pageSize
  fullAttnAllocator := .clear size pageSize needSort
  swaAttnAllocator := .clear sizeSwa pageSize needSort
  fullToSwaIndexMapping := fun _ => 0
  isNotInFreeGroup := true
  freeGroup := []
  fullPage := PageAllocator.clear_pageSize _ _ _
  swaPage := PageAllocator.clear_pageSize _ _ _

def translateLocFromFullToSwa (s : SWATokenToKVPoolAllocator) (loc : Int) : Int :=
  if loc = -1 then -1 else s.fullToSwaIndexMapping loc.toNat

def withPools (s : SWATokenToKVPoolAllocator) (full swa : PageAllocator) (fullSame : full.pageSize = s.fullAttnAllocator.pageSize)
    (swaSame : swa.pageSize = s.swaAttnAllocator.pageSize) : SWATokenToKVPoolAllocator :=
  { s with
    fullAttnAllocator := full
    swaAttnAllocator := swa
    fullPage := fullSame.trans s.fullPage
    swaPage := swaSame.trans s.swaPage }

def assign (s : SWATokenToKVPoolAllocator) (fullIndices : List Nat) (swaIndices : List Int) : SWATokenToKVPoolAllocator :=
  { s with fullToSwaIndexMapping := storeAll s.fullToSwaIndexMapping (fullIndices.zip swaIndices) }

def assignOr (missing : Except String (Option (List Nat))) (s : SWATokenToKVPoolAllocator) :
    Option (List Nat) → Option (List Int) → Except String (Option (List Nat)) × SWATokenToKVPoolAllocator
  | some fullIndices, some swaIndices => (.ok (some fullIndices), s.assign fullIndices swaIndices)
  | _, _ => (missing, s)

def alloc (s : SWATokenToKVPoolAllocator) (needSize : Nat) : Except String (Option (List Nat)) × SWATokenToKVPoolAllocator :=
  if single : s.pageSize = 1 then
    if needSize > s.fullAttnAllocator.availableSize then (.ok none, s)
    else if needSize > s.swaAttnAllocator.availableSize then (.ok none, s)
    else
      let full := (⟨s.fullAttnAllocator, s.fullPage.trans single⟩ : TokenToKVPoolAllocator).alloc needSize
      let swa := (⟨s.swaAttnAllocator, s.swaPage.trans single⟩ : TokenToKVPoolAllocator).alloc needSize
      (s.withPools full.2.toPageAllocator swa.2.toPageAllocator (full.2.single.trans (s.fullPage.trans single).symm)
        (swa.2.single.trans (s.swaPage.trans single).symm)).assignOr (.error "AssertionError") full.1 (swa.1.map (·.map Nat.cast))
  else (.error "AssertionError", s)

/-- `other` and `empty` are the values of the two kernel launches that nothing fixes. -/
def allocExtend (s : SWATokenToKVPoolAllocator) (other : Nat × Nat) (empty : (Nat → Int) × (Nat → Int)) (prefixLens seqLens : List Nat)
    (lastLoc : List Int) (extendNumTokens : Nat) : Except String (Option (List Nat)) × SWATokenToKVPoolAllocator :=
  if s.pageSize > 1 then
    let numTokens := extendNumTokens + seqLens.length * s.pageSize
    if numTokens > s.fullAttnAllocator.availableSize then (.ok none, s)
    else if numTokens > s.swaAttnAllocator.availableSize then (.ok none, s)
    else
      let swaLastLoc := lastLoc.map s.translateLocFromFullToSwa
      let full := s.fullAttnAllocator.allocExtend other.1 empty.1 prefixLens seqLens lastLoc extendNumTokens
      let swa := s.swaAttnAllocator.allocExtend other.2 empty.2 prefixLens seqLens swaLastLoc extendNumTokens
      (s.withPools full.2 swa.2 (PageAllocator.allocExtend_pageSize ..) (PageAllocator.allocExtend_pageSize ..)).assignOr
        (.error "AssertionError") (full.1.map (·.map Int.toNat)) swa.1
  else (.error "AssertionError", s)

def allocDecode (s : SWATokenToKVPoolAllocator) (seqLens : List Nat) (lastLoc : List Int) :
    Except String (Option (List Nat)) × SWATokenToKVPoolAllocator :=
  if s.pageSize > 1 then
    let swaLastLoc := lastLoc.map s.translateLocFromFullToSwa
    let full := s.fullAttnAllocator.pagedAllocDecode seqLens (lastLoc.map Int.toNat)
    let swa := s.swaAttnAllocator.pagedAllocDecode seqLens (swaLastLoc.map Int.toNat)
    (s.withPools full.2 swa.2 (paged_pageSize ..) (paged_pageSize ..)).assignOr
      (.ok none) full.1 (swa.1.map (·.map Nat.cast))
  else (.error "AssertionError", s)

def freeSwa (s : SWATokenToKVPoolAllocator) (freeIndex : List Nat) : SWATokenToKVPoolAllocator :=
  let swaIndices := (freeIndex.map s.fullToSwaIndexMapping).filter (· > 0)
  { s with
    swaAttnAllocator := s.swaAttnAllocator.free (swaIndices.map Int.toNat)
    fullToSwaIndexMapping := storeAll s.fullToSwaIndexMapping (freeIndex.map (·, 0))
    swaPage := (s.swaAttnAllocator.free_pageSize _).trans s.swaPage }

def freeBoth (s : SWATokenToKVPoolAllocator) (freeIndex : List Nat) : SWATokenToKVPoolAllocator :=
  (s.withPools (s.fullAttnAllocator.free freeIndex) s.swaAttnAllocator (s.fullAttnAllocator.free_pageSize _) rfl).freeSwa freeIndex

def free (s : SWATokenToKVPoolAllocator) (freeIndex : List Nat) : Except String Unit × SWATokenToKVPoolAllocator :=
  if freeIndex = [] then (.ok (), s)
  else
    let s := if s.isNotInFreeGroup then s.freeBoth freeIndex else { s with freeGroup := s.freeGroup ++ [freeIndex] }
    if s.fullAttnAllocator.availableSize ≤ s.sizeFull ∧ s.swaAttnAllocator.availableSize ≤ s.sizeSwa then (.ok (), s)
    else (.error "AssertionError", s)

def freeGroupBegin (s : SWATokenToKVPoolAllocator) : SWATokenToKVPoolAllocator := { s with isNotInFreeGroup := false, freeGroup := [] }

def freeGroupEnd (s : SWATokenToKVPoolAllocator) : Except String Unit × SWATokenToKVPoolAllocator :=
  let s := { s with isNotInFreeGroup := true }
  if s.freeGroup ≠ [] then s.free s.freeGroup.flatten else (.ok (), s)

section
variable (s : SWATokenToKVPoolAllocator)

theorem assignOr_pageSize (full : Option (List Nat)) (swa : Option (List Int)) : (s.assignOr missing full swa).2.pageSize = s.pageSize := by
  unfold assignOr
  split <;> rfl

theorem alloc_pageSize (needSize : Nat) : (s.alloc needSize).2.pageSize = s.pageSize := by
  unfold alloc
  split
  · split
    · rfl
    · split
      · rfl
      · exact assignOr_pageSize ..
  · rfl

theorem allocExtend_pageSize (other : Nat × Nat) (empty : (Nat → Int) × (Nat → Int)) (prefixLens seqLens : List Nat) (lastLoc : List Int)
    (extendNumTokens : Nat) : (s.allocExtend other empty prefixLens seqLens lastLoc extendNumTokens).2.pageSize = s.pageSize := by
  unfold allocExtend
  dsimp only
  split
  · split
    · rfl
    · split
      · rfl
      · exact assignOr_pageSize ..
  · rfl

theorem allocDecode_pageSize (seqLens : List Nat) (lastLoc : List Int) : (s.allocDecode seqLens lastLoc).2.pageSize = s.pageSize := by
  unfold allocDecode
  split
  · exact assignOr_pageSize ..
  · rfl

theorem free_pageSize (freeIndex : List Nat) : (s.free freeIndex).2.pageSize = s.pageSize := by
  unfold free
  split
  · rfl
  · dsimp only
    split <;> split <;> rfl

theorem groupEnd_pageSize : s.freeGroupEnd.2.pageSize = s.pageSize := by
  unfold freeGroupEnd
  dsimp only
  split
  · exact free_pageSize ..
  · rfl

end

end SWATokenToKVPoolAllocator

namespace PageAllocator

def SamePages (a b : PageAllocator) : Prop := (b.freePages ++ b.releasePages).Perm (a.freePages ++ a.releasePages)

section
variable {β : Type} {need limit : Nat}

theorem length_pages : (a.freePages ++ a.releasePages).length = a.pages := List.length_append

theorem take_none_iff (out : β) (le : need ≤ limit) : ((a.mergeIfShort limit).takePages need out).1 = none ↔ a.pages < need := by
  have all : (a.mergeIfShort limit).freePages.length ≤ a.pages := by
    have same := (a.merge_perm limit).length_eq
    rw [length_pages, length_pages] at same
    unfold pages at same ⊢
    omega
  have enough := a.merge_free le
  unfold takePages
  split
  · next short => exact ⟨fun _ => by omega, fun _ => rfl⟩
  · next _ =>
    constructor
    · intro none
      cases none
    · intro short
      omega

theorem take_samePages_iff (out : β) (le : need ≤ limit) : a.SamePages ((a.mergeIfShort limit).takePages need out).2 ↔ a.pages < need ∨ need = 0 := by
  have none := take_none_iff a out le
  have merged := a.merge_perm limit
  unfold takePages at none ⊢
  split
  · next short =>
    rw [if_pos short] at none
    exact ⟨fun _ => .inl (none.mp rfl), fun _ => merged⟩
  · next served =>
    rw [if_neg served] at none
    constructor
    · intro same
      have before := merged.length_eq
      have after := List.Perm.length_eq same
      simp only [List.length_append, List.length_drop] at before after
      omega
    · rintro (short | rfl)
      · cases none.mpr short
      · exact merged

end

theorem allocDecode_none_iff (seqLens lastLoc : List Nat) :
    (a.pagedAllocDecode seqLens lastLoc).1 = none ↔ a.pages < getNumNewPages seqLens a.pageSize :=
  take_none_iff a _ List.countP_le_length

theorem samePages_iff (seqLens lastLoc : List Nat) : a.SamePages (a.pagedAllocDecode seqLens lastLoc).2 ↔
      a.pages < getNumNewPages seqLens a.pageSize ∨ getNumNewPages seqLens a.pageSize = 0 :=
  take_samePages_iff a _ List.countP_le_length

theorem tokenAlloc_some {a : TokenToKVPoolAllocator} (enough : needSize ≤ a.availableSize) : ∃ out, (a.alloc needSize).1 = some out := by
  have none := take_none_iff a.toPageAllocator ((a.mergeIfShort needSize).freePages.take needSize) (le_refl needSize)
  refine Option.ne_none_iff_exists'.mp (fun missing => ?_)
  have short := none.mp missing
  rw [availableSize, a.single] at enough
  unfold pages at short
  omega

end PageAllocator

theorem start_newPages_le {pageSize : Nat} (pos : 0 < pageSize) {n : Nat} (grows : ∀ i < n, preLens[i]! ≤ seqLens[i]!) :
    Rows.start (newPages preLens seqLens pageSize) n * pageSize ≤ Rows.start (extendLen preLens seqLens) n + n * pageSize := by
  induction n with
  | zero => simp [Rows.start]
  | succ n ih =>
    have before := ih (fun i lt => grows i (by omega))
    have covers := (pagesOf_bounds pos preLens[n]!).1
    have near := (pagesOf_bounds pos seqLens[n]!).2
    have step : newPages preLens seqLens pageSize n * pageSize ≤ extendLen preLens seqLens n + pageSize := by
      unfold newPages extendLen
      rw [Nat.sub_mul]
      omega
    rw [Rows.start_succ, Rows.start_succ, add_mul, add_mul, one_mul]
    omega

theorem PageAllocator.allocExtend_some {a : PageAllocator} (pos : 0 < a.pageSize) (lastLoc : List Int)
    (lens : seqLens.length = preLens.length) (grows : ∀ i < preLens.length, preLens[i]! ≤ seqLens[i]!) (other : Nat) (empty : Nat → Int)
    (tokens : total = Rows.start (extendLen preLens seqLens) preLens.length)
    (enough : (total + seqLens.length * a.pageSize : Nat) ≤ a.availableSize) :
    ∃ out, (a.allocExtend other empty preLens seqLens lastLoc total).1 = some out := by
  have fits := start_newPages_le pos grows
  rw [← tokens, ← lens] at fits
  have need : Rows.start (newPages preLens seqLens a.pageSize) seqLens.length ≤ total / a.pageSize + preLens.length + 1 := by
    rw [← lens]
    have whole : (Rows.start (newPages preLens seqLens a.pageSize) seqLens.length - seqLens.length) * a.pageSize ≤ total := by
      rw [Nat.sub_mul]
      omega
    have := (Nat.le_div_iff_mul_le pos).mpr whole
    omega
  rw [allocExtend_eq pos grows other empty tokens, numNewPages_eq lens, ← lens]
  rw [← lens] at need
  refine Option.ne_none_iff_exists'.mp (fun missing => ?_)
  have short := (take_none_iff a _ need).mp missing
  have room := pages_of_available pos (le_trans (by exact_mod_cast fits) enough)
  omega

namespace SWATokenToKVPoolAllocator

def SamePages (s t : SWATokenToKVPoolAllocator) : Prop :=
  s.fullAttnAllocator.SamePages t.fullAttnAllocator ∧ s.swaAttnAllocator.SamePages t.swaAttnAllocator

section
variable {s t : SWATokenToKVPoolAllocator}

theorem assignOr_some {missing : Except String (Option (List Nat))} {full : List Nat} {swa : List Int}
    {fullResult : Option (List Nat)} {swaResult : Option (List Int)} (fullSome : fullResult = some full) (swaSome : swaResult = some swa) :
    s.assignOr missing fullResult swaResult = (.ok (some full), s.assign full swa) := by
  subst fullSome swaSome
  rfl

theorem alloc_cases (single : s.pageSize = 1) (needSize : Nat) :
    s.alloc needSize = (.ok none, s) ∨ ∃ out t, s.alloc needSize = (.ok (some out), t) := by
  unfold alloc
  rw [dif_pos single]
  split
  · exact .inl rfl
  · next fullRoom =>
    split
    · exact .inl rfl
    · next swaRoom =>
      obtain ⟨full, fullSome⟩ := PageAllocator.tokenAlloc_some
        (a := ⟨s.fullAttnAllocator, s.fullPage.trans single⟩) (Int.not_lt.mp fullRoom)
      obtain ⟨_, swaSome⟩ := PageAllocator.tokenAlloc_some
        (a := ⟨s.swaAttnAllocator, s.swaPage.trans single⟩) (Int.not_lt.mp swaRoom)
      exact .inr ⟨full, _, assignOr_some fullSome (by rw [swaSome]; rfl)⟩

theorem allocExtend_cases (large : s.pageSize > 1) (other : Nat × Nat) (empty : (Nat → Int) × (Nat → Int))
    (lastLoc : List Int) (lens : seqLens.length = prefixLens.length) (grows : ∀ i < prefixLens.length, prefixLens[i]! ≤ seqLens[i]!)
    (tokens : total = Rows.start (extendLen prefixLens seqLens) prefixLens.length) :
    s.allocExtend other empty prefixLens seqLens lastLoc total = (.ok none, s) ∨
      ∃ out t, s.allocExtend other empty prefixLens seqLens lastLoc total = (.ok (some out), t) := by
  unfold allocExtend
  rw [if_pos large]
  dsimp only
  split
  · exact .inl rfl
  · next fullRoom =>
    split
    · exact .inl rfl
    · next swaRoom =>
      have fullPositive : 0 < s.fullAttnAllocator.pageSize := by rw [s.fullPage]; omega
      have swaPositive : 0 < s.swaAttnAllocator.pageSize := by rw [s.swaPage]; omega
      obtain ⟨_, fullSome⟩ := PageAllocator.allocExtend_some fullPositive lastLoc lens grows other.1 empty.1 tokens
        (by rw [s.fullPage]; exact_mod_cast Int.not_lt.mp fullRoom)
      obtain ⟨_, swaSome⟩ := PageAllocator.allocExtend_some swaPositive (lastLoc.map s.translateLocFromFullToSwa) lens grows
        other.2 empty.2 tokens (by rw [s.swaPage]; exact_mod_cast Int.not_lt.mp swaRoom)
      exact .inr ⟨_, _, assignOr_some (by rw [fullSome]; rfl) swaSome⟩

theorem assignOr_pools (full : Option (List Nat)) (swa : Option (List Int)) :
    (s.assignOr missing full swa).2.fullAttnAllocator = s.fullAttnAllocator ∧
      (s.assignOr missing full swa).2.swaAttnAllocator = s.swaAttnAllocator := by
  unfold assignOr
  split
  · exact ⟨rfl, rfl⟩
  · exact ⟨rfl, rfl⟩

theorem assignOr_none_iff : (s.assignOr (.ok none) full swa).1 = .ok none ↔ full = none ∨ swa = none := by
  cases full with
  | none => exact ⟨fun _ => .inl rfl, fun _ => rfl⟩
  | some full =>
    cases swa with
    | none => exact ⟨fun _ => .inr rfl, fun _ => rfl⟩
    | some swa => exact ⟨nofun, nofun⟩

theorem assignOr_error {message : String} : (s.assignOr (.error message) full swa).1 ≠ .ok none := by
  unfold assignOr
  split
  · nofun
  · nofun

theorem alloc_none (none : s.alloc needSize = (.ok none, t)) : t = s := by
  unfold alloc at none
  split at none
  · split at none
    · exact (Prod.mk.inj none).2.symm
    · split at none
      · exact (Prod.mk.inj none).2.symm
      · exact absurd (congrArg Prod.fst none) assignOr_error
  · cases (Prod.mk.inj none).1

theorem allocExtend_none {other : Nat × Nat} {empty : (Nat → Int) × (Nat → Int)}
    (none : s.allocExtend other empty prefixLens seqLens lastLoc total = (.ok none, t)) : t = s := by
  unfold allocExtend at none
  dsimp only at none
  split at none
  · split at none
    · exact (Prod.mk.inj none).2.symm
    · split at none
      · exact (Prod.mk.inj none).2.symm
      · exact absurd (congrArg Prod.fst none) assignOr_error
  · cases (Prod.mk.inj none).1

/-- Nothing is checked before a decode step: it keeps the pages of both pools only where both are short. -/
theorem allocDecode_none (none : s.allocDecode seqLens lastLoc = (.ok none, t)) :
    s.SamePages t ↔ s.fullAttnAllocator.pages < getNumNewPages seqLens s.pageSize ∧ s.swaAttnAllocator.pages < getNumNewPages seqLens s.pageSize := by
  let lasts := (lastLoc.map s.translateLocFromFullToSwa).map Int.toNat
  have full := s.fullAttnAllocator.samePages_iff seqLens (lastLoc.map Int.toNat)
  have swa := s.swaAttnAllocator.samePages_iff seqLens lasts
  have fullNone := s.fullAttnAllocator.allocDecode_none_iff seqLens (lastLoc.map Int.toNat)
  have swaNone := s.swaAttnAllocator.allocDecode_none_iff seqLens lasts
  rw [s.fullPage] at full fullNone
  rw [s.swaPage] at swa swaNone
  unfold allocDecode at none
  split at none
  · obtain rfl := congrArg Prod.snd none
    have missing := assignOr_none_iff.mp (congrArg Prod.fst none)
    rw [Option.map_eq_none_iff, fullNone, swaNone] at missing
    obtain ⟨fullPool, swaPool⟩ := assignOr_pools (s := s.withPools _ _ (paged_pageSize ..)
      (paged_pageSize ..)) (.ok Option.none)
      (s.fullAttnAllocator.pagedAllocDecode seqLens (lastLoc.map Int.toNat)).1
      ((s.swaAttnAllocator.pagedAllocDecode seqLens lasts).1.map (·.map Nat.cast))
    unfold SamePages
    rw [fullPool, swaPool]
    change s.fullAttnAllocator.SamePages (s.fullAttnAllocator.pagedAllocDecode seqLens (lastLoc.map Int.toNat)).2 ∧ s.swaAttnAllocator.SamePages
      (s.swaAttnAllocator.pagedAllocDecode seqLens lasts).2 ↔ _
    rw [full, swa]
    omega
  · cases (Prod.mk.inj none).1

end

end SWATokenToKVPoolAllocator

end TriaxialKV
