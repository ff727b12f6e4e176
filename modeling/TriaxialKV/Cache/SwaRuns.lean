import TriaxialKV.Cache.PagedSlots
import TriaxialKV.Cache.SwaAllocator

/-! # The two pools over whole runs -/

namespace TriaxialKV
open List Tensor Stores PagedPool SWATokenToKVPoolAllocator

variable {b a : PageAllocator} {i j k needSize pageSize size slot total t : Nat} {result : Except String (Option (List Nat))} {seqLens : List Nat}

/-- `pending` are the pages in the open free group. -/
structure SwaPool where
  allocator : SWATokenToKVPoolAllocator
  fullSeqs : List PageSeq
  swaSeqs : List PageSeq
  pending : List (Nat × Nat)

/-- `parts` are pages of sequences and `freeIndex` their slots in the first pool. -/
inductive SwaOp where
  | join
  | alloc (needSize : Nat)
  | extend (ids seqLens : List Nat) (other : Nat × Nat) (empty : (Nat → Int) × (Nat → Int))
  | decode (ids : List Nat)
  | free (parts : List (Nat × Nat)) (freeIndex : List Nat)
  | freeSwa (parts : List (Nat × Nat)) (freeIndex : List Nat)
  | groupBegin
  | groupEnd

namespace SwaPool

def start (size sizeSwa pageSize : Nat) (needSort : Bool) : SwaPool := ⟨.clear size sizeSwa pageSize needSort, [], [], []⟩

def full (s : SwaPool) : PagedPool := ⟨s.allocator.fullAttnAllocator, s.fullSeqs⟩

def swa (s : SwaPool) : PagedPool := ⟨s.allocator.swaAttnAllocator, s.swaSeqs⟩

def join (s : SwaPool) : SwaPool := { s with fullSeqs := s.fullSeqs ++ [⟨[], []⟩], swaSeqs := s.swaSeqs ++ [⟨[], []⟩] }

def grow (s : SwaPool) (a : SWATokenToKVPoolAllocator) (ids : List Nat) (slice : Nat → List Nat) : SwaPool :=
  { s with
    allocator := a
    fullSeqs := PagedPool.grow s.fullSeqs ids slice ids.length
    swaSeqs := PagedPool.grow s.swaSeqs ids (fun k => (slice k).map (fun slot => (a.fullToSwaIndexMapping slot).toNat)) ids.length }

def settle (s : SwaPool) (result : Except String (Option (List Nat)) × SWATokenToKVPoolAllocator)
    (grown : List Nat → SWATokenToKVPoolAllocator → SwaPool) : SwaPool :=
  match result with
  | (.ok (some out), a) => grown out a
  | (_, a) => { s with allocator := a }

def swaParts (s : SwaPool) (parts : List (Nat × Nat)) : List (Nat × Nat) := parts.filter (fun part => part.2 ∉ s.swaSeqs[part.1]!.gone)

def giveBackSwa (s : SwaPool) (parts : List (Nat × Nat)) : SwaPool := { s with swaSeqs := PagedPool.giveBack s.swaSeqs (s.swaParts parts) }

def giveBack (s : SwaPool) (parts : List (Nat × Nat)) : SwaPool :=
  { s.giveBackSwa parts with fullSeqs := PagedPool.giveBack s.fullSeqs parts }

def step (s : SwaPool) : SwaOp → SwaPool
  | .join => s.join
  | .alloc needSize => s.settle (s.allocator.alloc needSize) (fun out a => s.join.grow a [s.fullSeqs.length] (fun _ => out))
  | .extend ids seqLens other empty =>
    let prefixLens := s.full.lens ids
    let lastLoc := ids.map (fun i => s.fullSeqs[i]!.lastLoc)
    let extendNumTokens := Rows.start (extendLen prefixLens seqLens) ids.length
    s.settle (s.allocator.allocExtend other empty prefixLens seqLens lastLoc extendNumTokens) (fun out a =>
      s.grow a ids (fun k => (out.drop (Rows.start (extendLen prefixLens seqLens) k)).take (extendLen prefixLens seqLens k)))
  | .decode ids =>
    let lastLoc := ids.map (fun i => s.fullSeqs[i]!.lastLoc)
    s.settle (s.allocator.allocDecode ((s.full.lens ids).map (· + 1)) lastLoc) (fun out a => s.grow a ids (fun k => [out[k]!]))
  | .free parts freeIndex =>
    let s' := { s with allocator := (s.allocator.free freeIndex).2 }
    if s.allocator.isNotInFreeGroup then s'.giveBack parts else { s' with pending := s.pending ++ parts }
  | .freeSwa parts freeIndex => { s with allocator := s.allocator.freeSwa freeIndex }.giveBackSwa parts
  | .groupBegin => { s with allocator := s.allocator.freeGroupBegin }
  | .groupEnd => { { s with allocator := s.allocator.freeGroupEnd.2 }.giveBack s.pending with pending := [] }

def Growable (s : SwaPool) (i : Nat) : Prop :=
  i < s.fullSeqs.length ∧ (s.fullSeqs[i]!.slots.length % s.allocator.pageSize ≠ 0 →
    s.fullSeqs[i]!.slots.length / s.allocator.pageSize ∉ s.swaSeqs[i]!.gone ∧ (i, s.fullSeqs[i]!.slots.length / s.allocator.pageSize) ∉ s.pending)

structure Freeable (pageSize : Nat) (seqs : List PageSeq) (parts : List (Nat × Nat)) (freeIndex : List Nat) : Prop where
  distinct : parts.Nodup
  kept : ∀ part ∈ parts, part.1 < seqs.length ∧ part.2 < pagesOf pageSize seqs[part.1]!.slots.length ∧ part.2 ∉ seqs[part.1]!.gone
  once : freeIndex.Nodup
  listed : ∀ slot, slot ∈ freeIndex ↔ ∃ part ∈ parts, ∃ t < seqs[part.1]!.slots.length, t / pageSize = part.2 ∧ seqs[part.1]!.slots[t]! = slot

/-- A decode step either has its pages in both pools or in neither. -/
def guard (s : SwaPool) : SwaOp → Prop
  | .join => True
  | .alloc _ => True
  | .extend ids seqLens _ _ => ids.Nodup ∧ seqLens.length = ids.length ∧
    ∀ k < ids.length, s.Growable ids[k]! ∧ s.fullSeqs[ids[k]!]!.slots.length ≤ seqLens[k]!
  | .decode ids => ids.Nodup ∧ (∀ k < ids.length, s.Growable ids[k]!) ∧
    let numNewPages := getNumNewPages ((s.full.lens ids).map (· + 1)) s.allocator.pageSize
    (numNewPages ≤ s.allocator.fullAttnAllocator.pages ↔ numNewPages ≤ s.allocator.swaAttnAllocator.pages)
  | .free parts freeIndex => Freeable s.allocator.pageSize s.fullSeqs parts freeIndex ∧ ∀ part ∈ parts, part ∉ s.pending
  | .freeSwa parts freeIndex => Freeable s.allocator.pageSize s.fullSeqs parts freeIndex
  | .groupBegin => s.allocator.isNotInFreeGroup = true
  | .groupEnd => s.allocator.isNotInFreeGroup = false

structure Inv (fullPages swaPages : Nat) (s : SwaPool) : Prop where
  full : s.full.Inv s.allocator.pageSize fullPages
  swa : s.swa.Inv s.allocator.pageSize swaPages
  count : s.swaSeqs.length = s.fullSeqs.length
  lens : ∀ i < s.fullSeqs.length, s.swaSeqs[i]!.slots.length = s.fullSeqs[i]!.slots.length
  gone : ∀ i < s.fullSeqs.length, s.fullSeqs[i]!.gone ⊆ s.swaSeqs[i]!.gone
  graph : ∀ slot v, v ≠ 0 → (s.allocator.fullToSwaIndexMapping slot = v ↔ ∃ i < s.fullSeqs.length, ∃ t,
    s.swaSeqs[i]!.Held s.allocator.pageSize t ∧ s.fullSeqs[i]!.slots[t]! = slot ∧ (s.swaSeqs[i]!.slots[t]! : Int) = v)
  group : if s.allocator.isNotInFreeGroup then s.pending = [] else Freeable s.allocator.pageSize s.fullSeqs s.pending s.allocator.freeGroup.flatten

end SwaPool

namespace PageAllocator

theorem free_spare {freeIndex : List Nat} (once : freeIndex.Nodup) (fresh : ∀ page ∈ freeIndex.map (· / a.pageSize), page ∉ a.waiting) :
    (a.free freeIndex).spare.Perm (unique (freeIndex.map (· / a.pageSize)) ++ a.spare) := by
  refine List.Perm.trans ?_ (pagedFree_spare fresh)
  unfold free
  split
  · next single =>
    have pages : (unique (freeIndex.map (· / a.pageSize))).Perm freeIndex := by
      rw [single]
      simp only [Nat.div_one, map_id']
      exact (perm_ext_iff_of_nodup (nodup_unique _) once).mpr (fun _ => mem_unique)
    unfold TokenToKVPoolAllocator.free pagedFree freeWith
    split
    · exact .refl _
    · split
      · split
        · refine perm_iff_count.mpr (fun x => ?_)
          have same := perm_iff_count.mp pages x
          simp only [spare, waiting, count_append]
          omega
        · refine perm_iff_count.mpr (fun x => ?_)
          have same := perm_iff_count.mp pages x
          simp only [spare, waiting, count_append]
          omega
      · exact .refl _
  · exact .refl _

end PageAllocator

namespace SWATokenToKVPoolAllocator
variable (s : SWATokenToKVPoolAllocator)

theorem freeBoth_nil : s.freeBoth [] = s := by
  have same (a : PageAllocator) : a.free [] = a := by
    unfold PageAllocator.free
    split <;> rfl
  unfold freeBoth freeSwa withPools
  simp only [map_nil, filter_nil, same]
  rfl

variable {s : SWATokenToKVPoolAllocator}

theorem free_direct (direct : s.isNotInFreeGroup = true) (freeIndex : List Nat) : (s.free freeIndex).2 = s.freeBoth freeIndex := by
  unfold free
  split
  · next none => rw [none, freeBoth_nil]
  · dsimp only
    split <;> rfl

theorem free_grouped (grouped : s.isNotInFreeGroup = false) (freeIndex : List Nat) :
    ∃ freeGroup, (s.free freeIndex).2 = { s with freeGroup := freeGroup } ∧ freeGroup.flatten = s.freeGroup.flatten ++ freeIndex := by
  unfold free
  split
  · next none => exact ⟨s.freeGroup, rfl, by rw [none, append_nil]⟩
  · have kept : (if s.isNotInFreeGroup then s.freeBoth freeIndex else { s with freeGroup := s.freeGroup ++ [freeIndex] }) =
        { s with freeGroup := s.freeGroup ++ [freeIndex] } := if_neg (by rw [grouped]; exact Bool.false_ne_true)
    refine ⟨s.freeGroup ++ [freeIndex], ?_, by rw [flatten_append, flatten_singleton]⟩
    rw [kept]
    dsimp only
    split <;> rfl

theorem freeGroupEnd_snd : s.freeGroupEnd.2 = { s with isNotInFreeGroup := true }.freeBoth s.freeGroup.flatten := by
  unfold freeGroupEnd
  dsimp only
  split
  · exact free_direct rfl _
  · next none =>
    rw [not_not.mp none, flatten_nil, freeBoth_nil]

end SWATokenToKVPoolAllocator

namespace SwaPool
variable {s s' : SwaPool} {fullPages swaPages : Nat}

section
variable (pos : 0 < s.allocator.pageSize) (inv : s.Inv fullPages swaPages)

theorem Inv.held_full (inv : s.Inv fullPages swaPages) (lt : i < s.fullSeqs.length)
    (here : s.swaSeqs[i]!.Held s.allocator.pageSize t) : s.fullSeqs[i]!.Held s.allocator.pageSize t :=
  ⟨by rw [← inv.lens i lt]; exact here.1, fun back => here.2 (inv.gone i lt back)⟩

include pos inv

section
variable (lt : i < s.fullSeqs.length) (here : s.swaSeqs[i]!.Held s.allocator.pageSize t)
include lt here

theorem Inv.swa_slot_ne_zero : (s.swaSeqs[i]!.slots[t]! : Int) ≠ 0 := by
  have page := (inv.swa.page_range pos (i := i) (by rw [← inv.count] at lt; exact lt) here).1
  intro zero
  have none : s.swa.seqs[i]!.slots[t]! = 0 := Int.natCast_eq_zero.mp zero
  rw [none, Nat.zero_div] at page
  omega

theorem Inv.mapping_held : s.allocator.fullToSwaIndexMapping s.fullSeqs[i]!.slots[t]! = s.swaSeqs[i]!.slots[t]! :=
  (inv.graph _ _ (inv.swa_slot_ne_zero pos lt here)).mpr ⟨i, lt, t, here, rfl, rfl⟩

end

theorem Inv.full_slot_inj {u : Nat} (lt : i < s.fullSeqs.length) (lt' : j < s.fullSeqs.length)
    (here : s.fullSeqs[i]!.Held s.allocator.pageSize t) (there : s.fullSeqs[j]!.Held s.allocator.pageSize u)
    (same : s.fullSeqs[i]!.slots[t]! = s.fullSeqs[j]!.slots[u]!) : i = j ∧ t = u :=
  inv.full.slot_inj pos (i := i) (j := j) lt lt' here there same

theorem Inv.mapping_inj {x y : Nat} (mapped : s.allocator.fullToSwaIndexMapping x ≠ 0)
    (same : s.allocator.fullToSwaIndexMapping x = s.allocator.fullToSwaIndexMapping y) : x = y := by
  obtain ⟨i, lt, t, here, rfl, value⟩ := (inv.graph x _ mapped).mp rfl
  obtain ⟨j, lt', u, there, rfl, value'⟩ := (inv.graph y _ mapped).mp same.symm
  have slots : s.swaSeqs[i]!.slots[t]! = s.swaSeqs[j]!.slots[u]! := Int.ofNat_inj.mp (value.trans value'.symm)
  obtain ⟨rfl, rfl⟩ := inv.swa.slot_inj pos (i := i) (j := j) (by rw [← inv.count] at lt; exact lt)
    (by rw [← inv.count] at lt'; exact lt') here there slots
  rfl

end

section
variable (pos : 0 < s.allocator.pageSize) (inv : s.Inv fullPages swaPages) {parts : List (Nat × Nat)} {freeIndex : List Nat}

def swaIndices (s : SwaPool) (freeIndex : List Nat) : List Nat := ((freeIndex.map s.allocator.fullToSwaIndexMapping).filter (· > 0)).map Int.toNat

theorem mem_swaIndices : slot ∈ s.swaIndices freeIndex ↔
    ∃ x ∈ freeIndex, s.allocator.fullToSwaIndexMapping x > 0 ∧ s.allocator.fullToSwaIndexMapping x = slot := by
  simp only [swaIndices, mem_map, mem_filter, decide_eq_true_eq]
  constructor
  · rintro ⟨v, ⟨⟨x, mem, rfl⟩, mapped⟩, rfl⟩
    exact ⟨x, mem, mapped, (Int.toNat_of_nonneg (Int.le_of_lt mapped)).symm⟩
  · rintro ⟨x, mem, mapped, same⟩
    exact ⟨_, ⟨⟨x, mem, rfl⟩, mapped⟩, by rw [same, Int.toNat_natCast]⟩

theorem Freeable.held {seqs : List PageSeq} (freeable : Freeable pageSize seqs parts freeIndex) {part : Nat × Nat}
    (mem : part ∈ parts) (lt : t < seqs[part.1]!.slots.length) (page : t / pageSize = part.2) :
    seqs[part.1]!.Held pageSize t := ⟨lt, by rw [page]; exact (freeable.kept part mem).2.2⟩

include pos inv

section
variable (freeable : Freeable s.allocator.pageSize s.fullSeqs parts freeIndex)
include freeable

theorem Freeable.mem_iff (lt : i < s.fullSeqs.length) (here : s.fullSeqs[i]!.Held s.allocator.pageSize t) :
    s.fullSeqs[i]!.slots[t]! ∈ freeIndex ↔ (i, t / s.allocator.pageSize) ∈ parts := by
  rw [freeable.listed]
  constructor
  · rintro ⟨part, mem, u, below, page, same⟩
    obtain ⟨rfl, rfl⟩ := inv.full_slot_inj pos (freeable.kept part mem).1 lt (freeable.held mem below page) here same
    rw [page]
    exact mem
  · intro mem
    exact ⟨_, mem, t, here.1, rfl, rfl⟩

theorem Freeable.swa_listed (slot : Nat) : slot ∈ s.swaIndices freeIndex ↔ ∃ part ∈ s.swaParts parts, ∃ t < s.swaSeqs[part.1]!.slots.length,
      t / s.allocator.pageSize = part.2 ∧ s.swaSeqs[part.1]!.slots[t]! = slot := by
  rw [mem_swaIndices]
  constructor
  · rintro ⟨x, mem, mapped, same⟩
    obtain ⟨i, lt, t, here, rfl, value⟩ := (inv.graph x _ (Int.ne_of_gt mapped)).mp rfl
    have part := (freeable.mem_iff pos inv lt (inv.held_full lt here)).mp mem
    exact ⟨_, mem_filter.mpr ⟨part, decide_eq_true here.2⟩, t, here.1, rfl, Int.ofNat_inj.mp (value.trans same)⟩
  · rintro ⟨part, mem, t, below, page, rfl⟩
    obtain ⟨present, kept⟩ := mem_filter.mp mem
    have lt := (freeable.kept part present).1
    have here : s.swaSeqs[part.1]!.Held s.allocator.pageSize t := ⟨below, by rw [page]; exact of_decide_eq_true kept⟩
    have value := inv.mapping_held pos lt here
    have listed := (freeable.mem_iff pos inv lt (inv.held_full lt here)).mpr (by rw [page]; exact present)
    have nonzero := inv.swa_slot_ne_zero pos lt here
    exact ⟨_, listed, by rw [value]; omega, value⟩

theorem Freeable.swa_once : (s.swaIndices freeIndex).Nodup := by
  have values : (s.swaIndices freeIndex) =
      (freeIndex.filter (fun x => s.allocator.fullToSwaIndexMapping x > 0)).map (fun x => (s.allocator.fullToSwaIndexMapping x).toNat) := by
    rw [swaIndices, filter_map, map_map]
    rfl
  rw [values]
  refine (freeable.once.filter _).map_on (fun x here y there same => ?_)
  have mapped := of_decide_eq_true (mem_filter.mp here).2
  have mapped' := of_decide_eq_true (mem_filter.mp there).2
  exact inv.mapping_inj pos (Int.ne_of_gt mapped) (by omega)

end

omit pos inv in
theorem Freeable.swa_kept (freeable : Freeable s.allocator.pageSize s.fullSeqs parts freeIndex) (count : s.swaSeqs.length = s.fullSeqs.length)
    (lens : ∀ i < s.fullSeqs.length, s.swaSeqs[i]!.slots.length = s.fullSeqs[i]!.slots.length) :
    (s.swaParts parts).Nodup ∧ ∀ part ∈ s.swaParts parts, part.1 < s.swaSeqs.length ∧
      part.2 < pagesOf s.allocator.pageSize s.swaSeqs[part.1]!.slots.length ∧ part.2 ∉ s.swaSeqs[part.1]!.gone := by
  refine ⟨freeable.distinct.filter _, fun part mem => ?_⟩
  obtain ⟨present, kept⟩ := mem_filter.mp mem
  obtain ⟨lt, _, _⟩ := freeable.kept part present
  exact ⟨by rwa [count], by rwa [lens part.1 lt], of_decide_eq_true kept⟩

omit pos inv in
theorem giveBackSwa_at (parts : List (Nat × Nat)) (count : s.swaSeqs.length = s.fullSeqs.length) (lt : i < s.fullSeqs.length) :
    (PagedPool.giveBack s.swaSeqs (s.swaParts parts))[i]!.slots = s.swaSeqs[i]!.slots ∧
      ∀ q, q ∈ (PagedPool.giveBack s.swaSeqs (s.swaParts parts))[i]!.gone ↔ q ∈ s.swaSeqs[i]!.gone ∨ (i, q) ∈ parts := by
  obtain ⟨slots, gone⟩ := giveBack_at (s.swaParts parts) (show i < s.swaSeqs.length by rwa [count])
  refine ⟨slots, fun q => (gone q).trans ?_⟩
  constructor
  · rintro (old | new)
    · exact .inl old
    · exact .inr (mem_filter.mp new).1
  · rintro (old | new)
    · exact .inl old
    · by_cases back : q ∈ s.swaSeqs[i]!.gone
      · exact .inl back
      · exact .inr (mem_filter.mpr ⟨new, decide_eq_true back⟩)

theorem step_freeSwa (freeable : Freeable s.allocator.pageSize s.fullSeqs parts freeIndex) :
    (s.step (.freeSwa parts freeIndex)).Inv fullPages swaPages := by
  let rest := PagedPool.giveBack s.swaSeqs (s.swaParts parts)
  obtain ⟨distinct, kept⟩ := freeable.swa_kept inv.count inv.lens
  have at_ {i : Nat} (lt : i < s.fullSeqs.length) := giveBackSwa_at parts inv.count lt
  refine ⟨inv.full, ?_, ?_, fun i lt => ?_, fun i lt q back => ?_, fun slot v nonzero => ?_, ?_⟩
  · refine inv.swa.giveBack pos distinct kept (freeable.swa_listed pos inv) (s.allocator.freeSwa freeIndex).swaPage (fun fresh => ?_)
    rw [← inv.swa.size] at fresh ⊢
    exact PageAllocator.free_spare (freeable.swa_once pos inv) fresh
  · exact (length_giveBack _ _).trans inv.count
  · exact (congrArg List.length (at_ lt).1).trans (inv.lens i lt)
  · exact ((at_ lt).2 q).mpr (.inl (inv.gone i lt back))
  · have held {i t : Nat} (lt : i < s.fullSeqs.length) : rest[i]!.Held s.allocator.pageSize t ↔
          s.swaSeqs[i]!.Held s.allocator.pageSize t ∧ (i, t / s.allocator.pageSize) ∉ parts := by
      unfold PageSeq.Held
      rw [(at_ lt).1, (at_ lt).2, not_or, and_assoc]
    have written : (s.allocator.freeSwa freeIndex).fullToSwaIndexMapping slot =
        if slot ∈ freeIndex then 0 else s.allocator.fullToSwaIndexMapping slot := by
      split
      · next listed => exact storeAll_const (by simpa using listed) (by simp)
      · next absent => exact storeAll_other (by simpa using absent)
    change (s.allocator.freeSwa freeIndex).fullToSwaIndexMapping slot = v ↔ ∃ i < s.fullSeqs.length, ∃ t,
      rest[i]!.Held s.allocator.pageSize t ∧ s.fullSeqs[i]!.slots[t]! = slot ∧
        (rest[i]!.slots[t]! : Int) = v
    rw [written]
    constructor
    · intro value
      split at value
      · exact absurd value.symm nonzero
      · next absent =>
        obtain ⟨i, lt, t, here, rfl, same⟩ := (inv.graph slot v nonzero).mp value
        refine ⟨i, lt, t, (held lt).mpr ⟨here, fun part => absent ?_⟩, rfl, by rw [(at_ lt).1]; exact same⟩
        exact (freeable.mem_iff pos inv lt (inv.held_full lt here)).mpr part
    · rintro ⟨i, lt, t, here, rfl, same⟩
      obtain ⟨here, absent⟩ := (held lt).mp here
      rw [(at_ lt).1] at same
      rw [if_neg (fun listed => absent ((freeable.mem_iff pos inv lt (inv.held_full lt here)).mp listed)), ← same]
      exact inv.mapping_held pos lt here
  · exact inv.group

theorem Inv.freeFull (freeable : Freeable s.allocator.pageSize s.fullSeqs parts freeIndex)
    (behind : ∀ part ∈ parts, part.2 ∈ s.swaSeqs[part.1]!.gone) {a : SWATokenToKVPoolAllocator}
    (page : a.pageSize = s.allocator.pageSize) (fullPool : a.fullAttnAllocator = s.allocator.fullAttnAllocator.free freeIndex)
    (swaPool : a.swaAttnAllocator = s.allocator.swaAttnAllocator) (mapping : a.fullToSwaIndexMapping = s.allocator.fullToSwaIndexMapping)
    (closed : a.isNotInFreeGroup = true) :
    (⟨a, PagedPool.giveBack s.fullSeqs parts, s.swaSeqs, []⟩ : SwaPool).Inv fullPages swaPages := by
  have at_ {i : Nat} (lt : i < s.fullSeqs.length) := giveBack_at parts lt
  have length := length_giveBack s.fullSeqs parts
  constructor
  case full =>
    unfold SwaPool.full
    rw [page, fullPool]
    refine inv.full.giveBack pos freeable.distinct freeable.kept freeable.listed
      ((s.allocator.fullAttnAllocator.free_pageSize _).trans s.allocator.fullPage) (fun fresh => ?_)
    rw [← inv.full.size] at fresh ⊢
    exact PageAllocator.free_spare freeable.once fresh
  case swa =>
    unfold SwaPool.swa
    rw [page, swaPool]
    exact inv.swa
  case count => exact inv.count.trans length.symm
  case lens =>
    intro i lt
    rw [length] at lt
    exact (inv.lens i lt).trans (congrArg List.length (at_ lt).1.symm)
  case gone =>
    intro i lt q back
    rw [length] at lt
    rcases ((at_ lt).2 q).mp back with old | new
    · exact inv.gone i lt old
    · exact behind _ new
  case graph =>
    intro slot v nonzero
    rw [mapping, page, length]
    refine (inv.graph slot v nonzero).trans (exists_congr (fun i => and_congr_right (fun lt => ?_)))
    rw [(at_ lt).1]
  case group => exact (if_pos closed).mpr rfl

theorem step_free_direct (direct : s.allocator.isNotInFreeGroup = true) (freeable : Freeable s.allocator.pageSize s.fullSeqs parts freeIndex) :
    (s.step (.free parts freeIndex)).Inv fullPages swaPages := by
  have first := step_freeSwa pos inv freeable
  have none : s.pending = [] := (if_pos direct).mp inv.group
  have behind : ∀ part ∈ parts, part.2 ∈ (s.step (.freeSwa parts freeIndex)).swaSeqs[part.1]!.gone := fun part mem =>
    ((giveBackSwa_at parts inv.count (freeable.kept part mem).1).2 part.2).mpr (.inr mem)
  have freed := Inv.freeFull (s := s.step (.freeSwa parts freeIndex)) (a := s.allocator.freeBoth freeIndex) pos first freeable behind rfl
    rfl rfl rfl direct
  have same : s.step (.free parts freeIndex) = ⟨s.allocator.freeBoth freeIndex, PagedPool.giveBack s.fullSeqs parts,
      PagedPool.giveBack s.swaSeqs (s.swaParts parts), s.pending⟩ := by
    unfold step
    dsimp only
    rw [if_pos direct, SWATokenToKVPoolAllocator.free_direct direct]
    rfl
  rw [same, none]
  exact freed

theorem step_free_grouped (grouped : s.allocator.isNotInFreeGroup = false)
    (freeable : Freeable s.allocator.pageSize s.fullSeqs parts freeIndex) (fresh : ∀ part ∈ parts, part ∉ s.pending) :
    (s.step (.free parts freeIndex)).Inv fullPages swaPages := by
  have closed : ¬ s.allocator.isNotInFreeGroup = true := by rw [grouped]; exact Bool.false_ne_true
  have waiting : Freeable s.allocator.pageSize s.fullSeqs s.pending s.allocator.freeGroup.flatten := (if_neg closed).mp inv.group
  obtain ⟨freeGroup, after, slots⟩ := SWATokenToKVPoolAllocator.free_grouped grouped freeIndex
  have same : s.step (.free parts freeIndex) =
      { s with allocator := { s.allocator with freeGroup := freeGroup }, pending := s.pending ++ parts } := by
    unfold step
    dsimp only
    rw [if_neg closed, after]
  rw [same]
  refine { inv with group := (if_neg closed).mpr ?_ }
  rw [slots]
  refine ⟨?_, fun part mem => ?_, ?_, fun slot => ?_⟩
  · exact nodup_append'.mpr ⟨waiting.distinct, freeable.distinct, fun part old new => fresh part new old⟩
  · rcases mem_append.mp mem with old | new
    · exact waiting.kept part old
    · exact freeable.kept part new
  · refine nodup_append'.mpr ⟨waiting.once, freeable.once, fun slot old new => ?_⟩
    obtain ⟨part, mem, t, below, page, rfl⟩ := (freeable.listed slot).mp new
    have there := (waiting.mem_iff pos inv (freeable.kept part mem).1 (freeable.held mem below page)).mp old
    rw [page] at there
    exact fresh part mem there
  · rw [mem_append, waiting.listed, freeable.listed]
    simp only [mem_append, or_and_right, exists_or]

theorem step_groupEnd (grouped : s.allocator.isNotInFreeGroup = false) : (s.step .groupEnd).Inv fullPages swaPages := by
  have closed : ¬ s.allocator.isNotInFreeGroup = true := by rw [grouped]; exact Bool.false_ne_true
  have waiting : Freeable s.allocator.pageSize s.fullSeqs s.pending s.allocator.freeGroup.flatten := (if_neg closed).mp inv.group
  -- the pages leave the group and are freed at once
  have before : ({ s with allocator := { s.allocator with isNotInFreeGroup := true }, pending := [] } : SwaPool).Inv fullPages swaPages :=
    { inv with group := rfl }
  have freed := step_free_direct (s := { s with allocator := { s.allocator with isNotInFreeGroup := true }, pending := [] }) pos before
    rfl waiting
  have same : s.step .groupEnd = ({ s with allocator := { s.allocator with isNotInFreeGroup := true }, pending := [] } : SwaPool).step
      (.free s.pending s.allocator.freeGroup.flatten) := by
    unfold step
    dsimp only
    rw [if_pos rfl, SWATokenToKVPoolAllocator.freeGroupEnd_snd, SWATokenToKVPoolAllocator.free_direct rfl]
    rfl
  rw [same]
  exact freed

end

section
variable {a : SWATokenToKVPoolAllocator} {ids : List Nat} {slice : Nat → List Nat} {values : Nat → List Int}
variable (pos : 0 < s.allocator.pageSize) (inv : s.Inv fullPages swaPages) (distinct : ids.Nodup)
  (live : ∀ k < ids.length, s.Growable ids[k]!)
  (fullInv : (⟨a.fullAttnAllocator, PagedPool.grow s.fullSeqs ids slice ids.length⟩ : PagedPool).Inv s.allocator.pageSize fullPages)
include pos inv distinct live

theorem grown_full_held (slice : Nat → List Nat) (lt : i < s.fullSeqs.length) :
    (PagedPool.grow s.fullSeqs ids slice ids.length)[i]!.Held s.allocator.pageSize t ↔ s.fullSeqs[i]!.Held s.allocator.pageSize t ∨
        ∃ k < ids.length, ids[k]! = i ∧ ∃ j < (slice k).length, t = s.fullSeqs[i]!.slots.length + j := by
  refine grow_held pos inv.full.laid distinct (fun k below => (live k below).1) (fun k below partly back => ?_) lt
  exact ((live k below).2 partly).1 (inv.gone _ (live k below).1 back)

theorem grown_swa_held (lt : i < s.fullSeqs.length) :
    (PagedPool.grow s.swaSeqs ids slice ids.length)[i]!.Held s.allocator.pageSize t ↔ s.swaSeqs[i]!.Held s.allocator.pageSize t ∨
        ∃ k < ids.length, ids[k]! = i ∧ ∃ j < (slice k).length, t = s.fullSeqs[i]!.slots.length + j := by
  have laid : ∀ seq ∈ s.swaSeqs, seq.Laid s.allocator.pageSize := inv.swa.laid
  rw [← inv.lens i lt]
  refine grow_held pos laid distinct (fun k below => ?_) (fun k below partly => ?_) (by rwa [inv.count])
  · rw [inv.count]
    exact (live k below).1
  · rw [inv.lens _ (live k below).1] at partly ⊢
    exact ((live k below).2 partly).1

theorem grown_slot (below : k < ids.length) (new : j < (slice k).length) :
    (PagedPool.grow s.fullSeqs ids slice ids.length)[ids[k]!]!.Held s.allocator.pageSize (s.fullSeqs[ids[k]!]!.slots.length + j) ∧
      (PagedPool.grow s.fullSeqs ids slice ids.length)[ids[k]!]!.slots[s.fullSeqs[ids[k]!]!.slots.length + j]! = (slice k)[j]! := by
  constructor
  · exact (grown_full_held pos inv distinct live slice (live k below).1).mpr (.inr ⟨k, below, rfl, j, new, rfl⟩)
  · exact grow_slot_new slice distinct (fun k below => (live k below).1) below new

include fullInv

theorem grown_slot_inj (lt : i < s.fullSeqs.length)
    (here : (PagedPool.grow s.fullSeqs ids slice ids.length)[i]!.Held s.allocator.pageSize t) (below : k < ids.length)
    (new : j < (slice k).length) (same : (PagedPool.grow s.fullSeqs ids slice ids.length)[i]!.slots[t]! = (slice k)[j]!) :
    i = ids[k]! ∧ t = s.fullSeqs[ids[k]!]!.slots.length + j := by
  obtain ⟨there, slot⟩ := grown_slot pos inv distinct live below new
  have length := length_grow s.fullSeqs ids slice ids.length
  exact fullInv.slot_inj pos (i := i) (j := ids[k]!) (by rw [← length] at lt; exact lt)
    (show ids[k]! < (PagedPool.grow s.fullSeqs ids slice ids.length).length by rw [length]; exact (live k below).1) here there
    (same.trans slot.symm)

theorem grown_nodup : ((List.range ids.length).flatMap slice).Nodup := by
  refine nodup_flatMap.mpr ⟨fun k mem => ?_, ?_⟩
  · have below := mem_range.mp mem
    refine nodup_iff_injective_getElem.mpr (fun u v same => Fin.ext ?_)
    obtain ⟨held, slot⟩ := grown_slot pos inv distinct live below u.isLt
    have eq : (slice k)[u.val]! = (slice k)[v.val]! := by
      rw [getElem!_pos (slice k) u.val u.isLt, getElem!_pos (slice k) v.val v.isLt]
      exact same
    have := (grown_slot_inj pos inv distinct live fullInv (live k below).1 held below v.isLt (slot.trans eq)).2
    omega
  · refine nodup_range.imp_of_mem (fun {k l} mem mem' other slot mine yours => other ?_)
    have below := mem_range.mp mem
    have below' := mem_range.mp mem'
    obtain ⟨j, new, rfl⟩ := getElem_of_mem mine
    obtain ⟨j', new', same⟩ := getElem_of_mem yours
    obtain ⟨held, slot⟩ := grown_slot pos inv distinct live below new
    rw [getElem!_pos (slice k) j new, ← same, ← getElem!_pos (slice l) j' new'] at slot
    have eq := (grown_slot_inj pos inv distinct live fullInv (live k below).1 held below' new' slot).1
    rw [getElem!_pos ids k below, getElem!_pos ids l below'] at eq
    exact (List.Nodup.getElem_inj_iff distinct).mp eq

variable (widths : ∀ k < ids.length, (slice k).length = (values k).length)
  (mapping : a.fullToSwaIndexMapping = storeAll s.allocator.fullToSwaIndexMapping
    (((List.range ids.length).flatMap slice).zip ((List.range ids.length).flatMap values)))
include widths mapping

theorem grown_mapping_new (below : k < ids.length) (new : j < (slice k).length) : a.fullToSwaIndexMapping (slice k)[j]! = (values k)[j]! := by
  have new' : j < (values k).length := by rw [← widths k below]; exact new
  have keys : (((List.range ids.length).flatMap slice).zip ((List.range ids.length).flatMap values)).map Prod.fst =
      (List.range ids.length).flatMap slice := by
    rw [Rows.zip_flatMap widths, map_flatMap]
    refine flatMap_congr (fun k mem => map_fst_zip ?_)
    exact (widths k (mem_range.mp mem)).le
  rw [mapping]
  refine storeAll_here (by rw [keys]; exact grown_nodup pos inv distinct live fullInv) ?_
  rw [Rows.zip_flatMap widths]
  refine mem_flatMap.mpr ⟨k, mem_range.mpr below, ?_⟩
  rw [getElem!_pos (slice k) j new, getElem!_pos (values k) j new']
  refine mem_iff_getElem.mpr ⟨j, ?_, getElem_zip⟩
  rw [length_zip]
  omega

omit pos inv distinct live fullInv widths in
theorem grown_mapping_old (absent : slot ∉ (List.range ids.length).flatMap slice) :
    a.fullToSwaIndexMapping slot = s.allocator.fullToSwaIndexMapping slot := by
  rw [mapping]
  refine storeAll_other (fun mem => absent ?_)
  obtain ⟨⟨x, v⟩, pair, rfl⟩ := mem_map.mp mem
  exact (of_mem_zip pair).1

theorem grown_graph (nonneg : ∀ k < ids.length, ∀ v ∈ values k, 0 ≤ v) (slot : Nat) {v : Int} (nonzero : v ≠ 0) :
    let swaSeqs := PagedPool.grow s.swaSeqs ids (fun k => (values k).map Int.toNat) ids.length
    a.fullToSwaIndexMapping slot = v ↔ ∃ i < s.fullSeqs.length, ∃ t, swaSeqs[i]!.Held s.allocator.pageSize t ∧
      (PagedPool.grow s.fullSeqs ids slice ids.length)[i]!.slots[t]! = slot ∧ (swaSeqs[i]!.slots[t]! : Int) = v := by
  intro swaSeqs
  have present : ∀ k < ids.length, ids[k]! < s.fullSeqs.length := fun k below => (live k below).1
  have present' : ∀ k < ids.length, ids[k]! < s.swaSeqs.length := by rwa [inv.count]
  have width {k : Nat} (below : k < ids.length) : ((values k).map Int.toNat).length = (slice k).length := by
    rw [length_map, widths k below]
  have held {i t : Nat} (lt : i < s.fullSeqs.length) : swaSeqs[i]!.Held s.allocator.pageSize t ↔ _ := grown_swa_held pos inv distinct live lt
  have value {k j : Nat} (below : k < ids.length) (new : j < (slice k).length) :
      (swaSeqs[ids[k]!]!.slots[s.fullSeqs[ids[k]!]!.slots.length + j]! : Int) = (values k)[j]! := by
    have inner : j < (values k).length := by rw [← widths k below]; exact new
    have slot := grow_slot_new (fun k => (values k).map Int.toNat) distinct present' below
      (by rw [width below]; exact new)
    rw [inv.lens _ (present k below)] at slot
    rw [slot, getElem!_map _ inner]
    refine Int.toNat_of_nonneg (nonneg k below _ ?_)
    rw [getElem!_pos (values k) j inner]
    exact getElem_mem _
  constructor
  · intro here
    by_cases mem : slot ∈ (List.range ids.length).flatMap slice
    · obtain ⟨k, row, lt⟩ := mem_flatMap.mp mem
      have below := mem_range.mp row
      obtain ⟨j, new, rfl⟩ := getElem_of_mem lt
      rw [← getElem!_pos (slice k) j new] at here ⊢
      rw [grown_mapping_new pos inv distinct live fullInv widths mapping below new] at here
      refine ⟨ids[k]!, present k below, s.fullSeqs[ids[k]!]!.slots.length + j, ?_, ?_, (value below new).trans here⟩
      · exact (held (present k below)).mpr (.inr ⟨k, below, rfl, j, by rw [width below]; exact new, rfl⟩)
      · exact (grown_slot pos inv distinct live below new).2
    · rw [grown_mapping_old mapping mem] at here
      obtain ⟨i, lt, t, old, rfl, same⟩ := (inv.graph slot v nonzero).mp here
      refine ⟨i, lt, t, (held lt).mpr (.inl old), ?_, ?_⟩
      · exact grow_slot_old _ distinct present lt (inv.held_full lt old).1
      · rw [grow_slot_old _ distinct present' (by rwa [inv.count]) old.1]
        exact same
  · rintro ⟨i, lt, t, here, rfl, same⟩
    rcases (held lt).mp here with old | ⟨k, below, rfl, j, new, rfl⟩
    · have inner := inv.held_full lt old
      have there := (grown_full_held pos inv distinct live slice lt).mpr (.inl inner)
      have slots := grow_slot_old slice distinct present lt inner.1
      have absent : (PagedPool.grow s.fullSeqs ids slice ids.length)[i]!.slots[t]! ∉ (List.range ids.length).flatMap slice := by
        intro mem
        obtain ⟨k, row, listed⟩ := mem_flatMap.mp mem
        have below := mem_range.mp row
        obtain ⟨j, new, eq⟩ := getElem_of_mem listed
        rw [← getElem!_pos (slice k) j new] at eq
        obtain ⟨rfl, rfl⟩ := grown_slot_inj pos inv distinct live fullInv lt there below new eq.symm
        have := inner.1
        omega
      rw [grown_mapping_old mapping absent, slots, ← same, grow_slot_old _ distinct present' (by rwa [inv.count]) old.1]
      exact inv.mapping_held pos lt old
    · rw [width below] at new
      rw [(grown_slot pos inv distinct live below new).2, grown_mapping_new pos inv distinct live fullInv widths mapping below new, ← value below new]
      exact same

theorem grown_swaSeqs : (s.grow a ids slice).swaSeqs = PagedPool.grow s.swaSeqs ids (fun k => (values k).map Int.toNat) ids.length := by
  refine grow_congr (fun k below => ext_getElem (by simp [widths k below]) (fun j left right => ?_))
  have new : j < (slice k).length := by simpa using left
  have stored := grown_mapping_new pos inv distinct live fullInv widths mapping below new
  rw [getElem!_pos (slice k) j new, getElem!_pos (values k) j (by rwa [← widths k below])] at stored
  rw [getElem_map, getElem_map, stored]

omit fullInv widths mapping in
theorem Freeable.grow (slice : Nat → List Nat) {freeIndex : List Nat} (freeable : Freeable s.allocator.pageSize s.fullSeqs s.pending freeIndex) :
    Freeable s.allocator.pageSize (PagedPool.grow s.fullSeqs ids slice ids.length) s.pending freeIndex := by
  have present : ∀ k < ids.length, ids[k]! < s.fullSeqs.length := fun k below => (live k below).1
  have length := length_grow s.fullSeqs ids slice ids.length
  refine ⟨freeable.distinct, fun part mem => ?_, freeable.once, fun slot => ?_⟩
  · obtain ⟨lt, below, kept⟩ := freeable.kept part mem
    refine ⟨by rwa [length], below.trans_le (pagesOf_mono _ ?_), by rwa [grow_gone slice distinct present lt]⟩
    rcases grow_cases slice distinct present lt with ⟨k, _, _, grown⟩ | ⟨_, same⟩
    · rw [grown, PageSeq.append, length_append]
      exact Nat.le_add_right _ _
    · rw [same]
  · rw [freeable.listed]
    refine exists_congr (fun part => and_congr_right (fun mem => ?_))
    obtain ⟨lt, below, kept⟩ := freeable.kept part mem
    constructor
    · rintro ⟨t, old, page, rfl⟩
      have here := (grown_full_held pos inv distinct live slice lt).mpr (.inl (freeable.held mem old page))
      exact ⟨t, here.1, page, grow_slot_old slice distinct present lt old⟩
    · rintro ⟨t, inner, page, rfl⟩
      have kept' : t / s.allocator.pageSize ∉ (PagedPool.grow s.fullSeqs ids slice ids.length)[part.1]!.gone := by
        rw [grow_gone slice distinct present lt, page]
        exact kept
      rcases (grown_full_held pos inv distinct live slice lt).mp ⟨inner, kept'⟩ with old | ⟨k, row, same, j, _, rfl⟩
      · exact ⟨t, old.1, page, (grow_slot_old slice distinct present lt old.1).symm⟩
      · obtain ⟨partly, last⟩ := PageSeq.page_with_room pos (Nat.le_add_right _ j) (by rw [page]; exact below)
        rw [← same] at partly last page
        refine absurd ?_ ((live k row).2 partly).2
        rw [← last, page, same]
        exact mem

variable (values) in
theorem Inv.grown (nonneg : ∀ k < ids.length, ∀ v ∈ values k, 0 ≤ v)
    (swaInv : (⟨a.swaAttnAllocator, PagedPool.grow s.swaSeqs ids (fun k => (values k).map Int.toNat) ids.length⟩ : PagedPool).Inv
      s.allocator.pageSize swaPages)
    (page : a.pageSize = s.allocator.pageSize) (flag : a.isNotInFreeGroup = s.allocator.isNotInFreeGroup)
    (waiting : a.freeGroup = s.allocator.freeGroup) : (s.grow a ids slice).Inv fullPages swaPages := by
  have present : ∀ k < ids.length, ids[k]! < s.fullSeqs.length := fun k below => (live k below).1
  have present' : ∀ k < ids.length, ids[k]! < s.swaSeqs.length := by rwa [inv.count]
  have length := length_grow s.fullSeqs ids slice ids.length
  have same : s.grow a ids slice = ⟨a, PagedPool.grow s.fullSeqs ids slice ids.length,
      PagedPool.grow s.swaSeqs ids (fun k => (values k).map Int.toNat) ids.length, s.pending⟩ := by
    rw [← grown_swaSeqs pos inv distinct live fullInv widths mapping]
    rfl
  rw [same]
  constructor
  case full =>
    rw [page]
    exact fullInv
  case swa =>
    rw [page]
    exact swaInv
  case count => exact (length_grow _ _ _ _).trans (inv.count.trans length.symm)
  case lens =>
    intro i lt
    rw [length] at lt
    rcases grow_cases slice distinct present lt with ⟨k, below, rfl, grown⟩ | ⟨absent, kept⟩
    · rw [grown, grow_here distinct present' below (le_refl _), PageSeq.append, PageSeq.append, length_append,
        length_append, inv.lens _ lt, length_map, widths k below]
    · rw [kept, grow_other (by rwa [inv.count]) absent (le_refl _)]
      exact inv.lens i lt
  case gone =>
    intro i lt
    rw [length] at lt
    rw [grow_gone _ distinct present lt, grow_gone _ distinct present' (by rwa [inv.count])]
    exact inv.gone i lt
  case graph =>
    intro slot v nonzero
    rw [page, length]
    exact grown_graph pos inv distinct live fullInv widths mapping nonneg slot nonzero
  case group =>
    have before := inv.group
    rw [flag, page, waiting]
    split at before
    · next closed =>
      rw [if_pos closed]
      exact before
    · next grouped =>
      rw [if_neg grouped]
      exact before.grow pos inv distinct live slice

end

end SwaPool

namespace PageAllocator

theorem pagedAlloc_token (a : TokenToKVPoolAllocator) (needSize : Nat) :
    a.toPageAllocator.pagedAlloc needSize = ((a.alloc needSize).1, (a.alloc needSize).2.toPageAllocator) := by
  unfold pagedAlloc TokenToKVPoolAllocator.alloc
  rw [a.single, Nat.div_one]
  simp

theorem takePages_out {β : Type} {numPages : Nat} {out out' : β} (taken : a.takePages numPages out = (some out', b)) : out' = out := by
  unfold takePages at taken
  split at taken
  · cases taken
  · exact (Option.some.inj (Prod.mk.inj taken).1).symm

theorem pagedAlloc_length {out : List Nat} (served : a.pagedAlloc needSize = (some out, b)) : out.length = needSize / a.pageSize * a.pageSize := by
  obtain ⟨enough, rfl, _, _⟩ := takePages_spare served
  rw [length_flatMap]
  simp [min_eq_left enough]

theorem allocExtend_length {other : Nat} {empty : Nat → Int} {prefixLens : List Nat} {lastLoc : List Int}
    {out : List Int} (served : a.allocExtend other empty prefixLens seqLens lastLoc total = (some out, b)) :
    out.length = total := by
  rw [takePages_out served, length_map, length_range]

theorem paged_length {lastLoc out : List Nat}
    (served : a.pagedAllocDecode seqLens lastLoc = (some out, b)) : out.length = seqLens.length := by
  rw [takePages_out served, length_map, length_range]

theorem allocExtend_nonneg (pos : 0 < a.pageSize) {other : Nat} {empty : Nat → Int} {prefixLens : List Nat}
    {lastLoc : List Int} (grows : ∀ i < prefixLens.length, prefixLens[i]! ≤ seqLens[i]!)
    (tail : ∀ k < prefixLens.length, prefixLens[k]! % a.pageSize ≠ 0 → 0 ≤ lastLoc[k]!) {out : List Int}
    (served : a.allocExtend other empty prefixLens seqLens lastLoc (Rows.start (extendLen prefixLens seqLens) prefixLens.length) = (some out, b)) :
    ∀ v ∈ out, 0 ≤ v := by
  rw [allocExtend_eq pos grows other empty rfl] at served
  rw [takePages_out served]
  intro v mem
  obtain ⟨i, row, column⟩ := mem_flatMap.mp mem
  obtain ⟨j, _, rfl⟩ := mem_map.mp column
  unfold extendSlot
  split
  · next old =>
    have page := (Nat.div_lt_iff_lt_mul pos).mpr old
    have last := tail i (mem_range.mp row) (PageSeq.page_with_room pos (Nat.le_add_right _ j) page).1
    omega
  · exact Int.natCast_nonneg _

end PageAllocator

namespace SWATokenToKVPoolAllocator

structure Served (s t : SWATokenToKVPoolAllocator) (out : List Nat) (swaOut : List Int) : Prop where
  page : t.pageSize = s.pageSize
  flag : t.isNotInFreeGroup = s.isNotInFreeGroup
  waiting : t.freeGroup = s.freeGroup
  mapping : t.fullToSwaIndexMapping = storeAll s.fullToSwaIndexMapping (out.zip swaOut)

section
variable {s t : SWATokenToKVPoolAllocator} {out : List Nat}

theorem assignOr_served {missing : Except String (Option (List Nat))} (none : ∀ out, missing ≠ .ok (some out)) {full : Option (List Nat)}
    {swa : Option (List Int)} (served : s.assignOr missing full swa = (.ok (some out), t)) :
    ∃ swaOut, full = some out ∧ swa = some swaOut ∧ t = s.assign out swaOut := by
  unfold assignOr at served
  split at served
  · obtain ⟨result, rfl⟩ := Prod.mk.inj served
    cases result
    exact ⟨_, rfl, rfl, rfl⟩
  · exact absurd (Prod.mk.inj served).1 (none out)

theorem alloc_kept (called : s.alloc needSize = (result, t)) (none : ∀ out, result ≠ .ok (some out)) : t = s := by
  by_cases single : s.pageSize = 1
  · rcases alloc_cases single needSize with short | ⟨out, _, served⟩
    · exact (Prod.mk.inj (called.symm.trans short)).2
    · exact absurd (Prod.mk.inj (called.symm.trans served)).1 (none out)
  · unfold alloc at called
    rw [dif_neg single] at called
    exact (Prod.mk.inj called).2.symm

theorem alloc_served (served : s.alloc needSize = (.ok (some out), t)) :
    ∃ swaOut, s.fullAttnAllocator.pagedAlloc needSize = (some out, t.fullAttnAllocator) ∧
      s.swaAttnAllocator.pagedAlloc needSize = (some swaOut, t.swaAttnAllocator) ∧ s.Served t out (swaOut.map Nat.cast) := by
  unfold alloc at served
  split at served
  case isFalse => cases served
  case isTrue single =>
    split at served
    · cases served
    split at served
    · cases served
    obtain ⟨_, full, swaCast, rfl⟩ := assignOr_served (fun _ same => by cases same) served
    obtain ⟨swaOut, swa, rfl⟩ := Option.map_eq_some_iff.mp swaCast
    refine ⟨swaOut, ?_, ?_, rfl, rfl, rfl, rfl⟩
    · exact (PageAllocator.pagedAlloc_token ⟨s.fullAttnAllocator, s.fullPage.trans single⟩ needSize).trans (Prod.ext full rfl)
    · exact (PageAllocator.pagedAlloc_token ⟨s.swaAttnAllocator, s.swaPage.trans single⟩ needSize).trans (Prod.ext swa rfl)

variable {other : Nat × Nat} {empty : (Nat → Int) × (Nat → Int)} {prefixLens seqLens : List Nat} {lastLoc : List Int}

theorem allocExtend_kept (lens : seqLens.length = prefixLens.length) (grows : ∀ i < prefixLens.length, prefixLens[i]! ≤ seqLens[i]!)
    (called : s.allocExtend other empty prefixLens seqLens lastLoc (Rows.start (extendLen prefixLens seqLens) prefixLens.length) = (result, t))
    (none : ∀ out, result ≠ .ok (some out)) : t = s := by
  by_cases large : s.pageSize > 1
  · rcases allocExtend_cases large other empty lastLoc lens grows rfl with short | ⟨out, _, served⟩
    · exact (Prod.mk.inj (called.symm.trans short)).2
    · exact absurd (Prod.mk.inj (called.symm.trans served)).1 (none out)
  · unfold allocExtend at called
    rw [if_neg large] at called
    exact (Prod.mk.inj called).2.symm

theorem allocExtend_served (served : s.allocExtend other empty prefixLens seqLens lastLoc total = (.ok (some out), t)) :
    ∃ fullOut swaOut, s.fullAttnAllocator.allocExtend other.1 empty.1 prefixLens seqLens lastLoc total = (some fullOut, t.fullAttnAllocator) ∧
      s.swaAttnAllocator.allocExtend other.2 empty.2 prefixLens seqLens (lastLoc.map s.translateLocFromFullToSwa) total =
        (some swaOut, t.swaAttnAllocator) ∧ out = fullOut.map Int.toNat ∧ s.Served t out swaOut := by
  unfold allocExtend at served
  dsimp only at served
  split at served
  case isFalse => cases served
  case isTrue large =>
    split at served
    · cases served
    split at served
    · cases served
    obtain ⟨swaOut, fullNats, swa, rfl⟩ := assignOr_served (fun _ same => by cases same) served
    obtain ⟨fullOut, full, rfl⟩ := Option.map_eq_some_iff.mp fullNats
    exact ⟨fullOut, swaOut, Prod.ext full rfl, Prod.ext swa rfl, rfl, rfl, rfl, rfl, rfl⟩

theorem allocDecode_kept
    (even : getNumNewPages seqLens s.pageSize ≤ s.fullAttnAllocator.pages ↔ getNumNewPages seqLens s.pageSize ≤ s.swaAttnAllocator.pages)
    (called : s.allocDecode seqLens lastLoc = (result, t)) (none : ∀ out, result ≠ .ok (some out)) :
    t = s ∨ 1 < s.pageSize ∧ s.fullAttnAllocator.pagedAllocDecode seqLens (lastLoc.map Int.toNat) = (Option.none, t.fullAttnAllocator) ∧
      s.swaAttnAllocator.pagedAllocDecode seqLens ((lastLoc.map s.translateLocFromFullToSwa).map Int.toNat) =
        (Option.none, t.swaAttnAllocator) ∧ s.Served t [] [] := by
  have fullNone := s.fullAttnAllocator.allocDecode_none_iff seqLens (lastLoc.map Int.toNat)
  have swaNone := s.swaAttnAllocator.allocDecode_none_iff seqLens ((lastLoc.map s.translateLocFromFullToSwa).map Int.toNat)
  rw [s.fullPage] at fullNone
  rw [s.swaPage] at swaNone
  unfold allocDecode at called
  dsimp only at called
  split at called
  case isFalse => exact .inl (Prod.mk.inj called).2.symm
  case isTrue large =>
    unfold assignOr at called
    split at called
    · exact absurd (Prod.mk.inj called).1.symm (none _)
    · next missing =>
      obtain ⟨_, rfl⟩ := Prod.mk.inj called
      have both : (s.fullAttnAllocator.pagedAllocDecode seqLens (lastLoc.map Int.toNat)).1 = Option.none ∧
          (s.swaAttnAllocator.pagedAllocDecode seqLens ((lastLoc.map s.translateLocFromFullToSwa).map Int.toNat)).1 = Option.none := by
        rw [fullNone, swaNone]
        by_contra served
        have enough : getNumNewPages seqLens s.pageSize ≤ s.fullAttnAllocator.pages := by omega
        obtain ⟨_, full⟩ := Option.ne_none_iff_exists'.mp (fun short => (fullNone.mp short).not_ge enough)
        obtain ⟨_, swa⟩ := Option.ne_none_iff_exists'.mp (fun short => (swaNone.mp short).not_ge (even.mp enough))
        exact missing _ _ full (by rw [swa]; rfl)
      exact .inr ⟨large, Prod.ext both.1 rfl, Prod.ext both.2 rfl, rfl, rfl, rfl, rfl⟩

theorem allocDecode_served (served : s.allocDecode seqLens lastLoc = (.ok (some out), t)) : ∃ swaOut, 1 < s.pageSize ∧
      s.fullAttnAllocator.pagedAllocDecode seqLens (lastLoc.map Int.toNat) = (some out, t.fullAttnAllocator) ∧
      s.swaAttnAllocator.pagedAllocDecode seqLens ((lastLoc.map s.translateLocFromFullToSwa).map Int.toNat) =
        (some swaOut, t.swaAttnAllocator) ∧ s.Served t out (swaOut.map Nat.cast) := by
  unfold allocDecode at served
  split at served
  case isFalse => cases served
  case isTrue large =>
    obtain ⟨_, full, swaCast, rfl⟩ := assignOr_served (fun _ same => by cases same) served
    obtain ⟨swaOut, swa, rfl⟩ := Option.map_eq_some_iff.mp swaCast
    exact ⟨swaOut, large, Prod.ext full rfl, Prod.ext swa rfl, rfl, rfl, rfl, rfl⟩

end

end SWATokenToKVPoolAllocator

namespace SwaPool
variable {s : SwaPool} {fullPages swaPages : Nat} {grown : List Nat → SWATokenToKVPoolAllocator → SwaPool}

theorem Inv.join (pos : 0 < s.allocator.pageSize) (inv : s.Inv fullPages swaPages) : s.join.Inv fullPages swaPages := by
  have length : s.join.fullSeqs.length = s.fullSeqs.length + 1 := by simp [SwaPool.join]
  have full_old {i : Nat} (lt : i < s.fullSeqs.length) : s.join.fullSeqs[i]! = s.fullSeqs[i]! := getElem!_append_left _ lt
  have swa_old {i : Nat} (lt : i < s.fullSeqs.length) : s.join.swaSeqs[i]! = s.swaSeqs[i]! := getElem!_append_left _ (by rwa [inv.count])
  have full_new : s.join.fullSeqs[s.fullSeqs.length]! = ⟨[], []⟩ := by simp [SwaPool.join]
  have swa_new : s.join.swaSeqs[s.fullSeqs.length]! = ⟨[], []⟩ := by simp [SwaPool.join, ← inv.count]
  have split {i : Nat} (lt : i < s.join.fullSeqs.length) : i < s.fullSeqs.length ∨ i = s.fullSeqs.length := by omega
  refine ⟨step_join pos inv.full, step_join pos inv.swa, ?_, fun i lt => ?_, fun i lt => ?_, fun slot v nonzero => ?_, ?_⟩
  · simp [SwaPool.join, inv.count]
  · rcases split lt with old | rfl
    · rw [full_old old, swa_old old]
      exact inv.lens i old
    · rw [full_new, swa_new]
  · rcases split lt with old | rfl
    · rw [full_old old, swa_old old]
      exact inv.gone i old
    · rw [full_new, swa_new]
      exact fun _ => id
  · refine (inv.graph slot v nonzero).trans ⟨?_, ?_⟩
    · rintro ⟨i, lt, t, here, same, value⟩
      refine ⟨i, by omega, t, ?_⟩
      rw [full_old lt, swa_old lt]
      exact ⟨here, same, value⟩
    · rintro ⟨i, lt, t, here, same, value⟩
      rcases split lt with old | rfl
      · rw [full_old old] at same
        rw [swa_old old] at here value
        exact ⟨i, old, t, here, same, value⟩
      · rw [swa_new] at here
        exact absurd here.1 (Nat.not_lt_zero _)
  · have before := inv.group
    change if s.allocator.isNotInFreeGroup then s.pending = [] else
      Freeable s.allocator.pageSize s.join.fullSeqs s.pending s.allocator.freeGroup.flatten
    split at before
    · next closed =>
      rw [if_pos closed]
      exact before
    · next grouped =>
      rw [if_neg grouped]
      refine ⟨before.distinct, fun part mem => ?_, before.once, fun slot => (before.listed slot).trans ?_⟩
      · obtain ⟨lt, kept⟩ := before.kept part mem
        rw [full_old lt]
        exact ⟨by omega, kept⟩
      · refine exists_congr (fun part => and_congr_right (fun mem => ?_))
        rw [full_old (before.kept part mem).1]

theorem grow_last (seqs : List PageSeq) (out : List Nat) {n : Nat} (last : n = seqs.length) :
    PagedPool.grow (seqs ++ [⟨[], []⟩]) [n] (fun _ => out) 1 = seqs ++ [⟨out, []⟩] := by
  subst last
  rw [grow_succ]
  change (seqs ++ [(⟨[], []⟩ : PageSeq)]).modify seqs.length (fun s => s.append out) = _
  simp [modify_eq_take_cons_drop, PageSeq.append]

theorem settle_inv {result : Except String (Option (List Nat)) × SWATokenToKVPoolAllocator}
    (kept : ∀ r a, result = (r, a) → (∀ out, r ≠ .ok (some out)) → ({ s with allocator := a } : SwaPool).Inv fullPages swaPages)
    (served : ∀ out a, result = (.ok (some out), a) → (grown out a).Inv fullPages swaPages) :
    (s.settle result grown).Inv fullPages swaPages := by
  unfold SwaPool.settle
  split
  · exact served _ _ rfl
  · next r a other => exact kept r a rfl (fun out same => other out same)

theorem map_toNat_cast (slots : List Nat) : (slots.map (Nat.cast : Nat → Int)).map Int.toNat = slots := by
  rw [map_map]
  exact map_id'' Int.toNat_natCast slots

section
variable (pos : 0 < s.allocator.pageSize) (inv : s.Inv fullPages swaPages) {ids : List Nat}
include pos inv

theorem step_alloc (needSize : Nat) : (s.step (.alloc needSize)).Inv fullPages swaPages := by
  refine settle_inv (fun result a called none => ?_) (fun out a called => ?_)
  · rw [SWATokenToKVPoolAllocator.alloc_kept called none]
    exact inv
  obtain ⟨swaOut, full, swa, after⟩ := SWATokenToKVPoolAllocator.alloc_served called
  have fullInv := PagedPool.step_alloc pos inv.full needSize
  have swaInv := PagedPool.step_alloc pos inv.swa needSize
  unfold PagedPool.step SwaPool.full at fullInv
  unfold PagedPool.step SwaPool.swa at swaInv
  dsimp only at fullInv swaInv
  rw [full] at fullInv
  rw [swa] at swaInv
  have grown : ∀ seqs : List PageSeq, seqs.length = s.fullSeqs.length → ∀ out : List Nat,
      PagedPool.grow (seqs ++ [⟨[], []⟩]) [s.fullSeqs.length] (fun _ => out) [s.fullSeqs.length].length = seqs ++ [⟨out, []⟩] :=
    fun seqs length out => grow_last seqs out length.symm
  have last {k : Nat} (below : k < [s.fullSeqs.length].length) : [s.fullSeqs.length][k]! = s.fullSeqs.length := by
    obtain rfl : k = 0 := by simpa using below
    rfl
  refine Inv.grown (fun _ => swaOut.map Nat.cast) (s := s.join) pos (inv.join pos) (nodup_singleton _) (fun k below => ?_) ?_
    (fun k below => ?_) ?_ (fun k below v mem => ?_) ?_ after.page after.flag after.waiting
  · rw [last below]
    refine ⟨by simp [SwaPool.join], fun partly => absurd ?_ partly⟩
    simp [SwaPool.join]
  · exact (congrArg (fun seqs => (⟨a.fullAttnAllocator, seqs⟩ : PagedPool).Inv _ _) (grown s.fullSeqs rfl out)).mpr fullInv
  · rw [length_map, PageAllocator.pagedAlloc_length full, PageAllocator.pagedAlloc_length swa, s.allocator.fullPage, s.allocator.swaPage]
  · exact after.mapping.trans (by simp [SwaPool.join])
  · obtain ⟨n, _, rfl⟩ := mem_map.mp mem
    exact Int.natCast_nonneg n
  · rw [map_toNat_cast]
    exact (congrArg (fun seqs => (⟨a.swaAttnAllocator, seqs⟩ : PagedPool).Inv _ _) (grown s.swaSeqs inv.count swaOut)).mpr swaInv

theorem translate_lastLoc (live : s.Growable i) (partly : s.fullSeqs[i]!.slots.length % s.allocator.pageSize ≠ 0) :
    s.allocator.translateLocFromFullToSwa s.fullSeqs[i]!.lastLoc = (s.swaSeqs[i]!.slots[s.swaSeqs[i]!.slots.length - 1]! : Nat) := by
  obtain ⟨lt, room⟩ := live
  have some : 0 < s.fullSeqs[i]!.slots.length := Nat.pos_of_ne_zero (fun none => partly (by rw [none, Nat.zero_mod]))
  have page : (s.fullSeqs[i]!.slots.length - 1) / s.allocator.pageSize = s.fullSeqs[i]!.slots.length / s.allocator.pageSize := by
    have whole := Nat.div_add_mod' s.fullSeqs[i]!.slots.length s.allocator.pageSize
    have rest := Nat.mod_lt s.fullSeqs[i]!.slots.length pos
    refine Nat.div_eq_of_lt_le (by omega) ?_
    rw [add_mul, one_mul]
    omega
  have held : s.swaSeqs[i]!.Held s.allocator.pageSize (s.fullSeqs[i]!.slots.length - 1) := by
    refine ⟨by rw [inv.lens i lt]; omega, ?_⟩
    rw [page]
    exact (room partly).1
  rw [lastLoc_eq partly, inv.lens i lt, ← inv.mapping_held pos lt held]
  unfold translateLocFromFullToSwa
  rw [if_neg (by omega), Int.toNat_natCast]

omit pos in
theorem lens_eq (live : ∀ k < ids.length, s.Growable ids[k]!) : s.swa.lens ids = s.full.lens ids := by
  refine map_congr_left (fun i mem => ?_)
  obtain ⟨k, below, rfl⟩ := getElem_of_mem mem
  have lt := (live k below).1
  rw [getElem!_pos ids k below] at lt
  exact inv.lens _ lt

theorem step_extend {other : Nat × Nat} {empty : (Nat → Int) × (Nat → Int)}
    (allowed : s.guard (.extend ids seqLens other empty)) : (s.step (.extend ids seqLens other empty)).Inv fullPages swaPages := by
  let lasts := ids.map (fun i => s.fullSeqs[i]!.lastLoc)
  obtain ⟨distinct, lens, allowed⟩ := allowed
  have live : ∀ k < ids.length, s.Growable ids[k]! := fun k below => (allowed k below).1
  have batch := s.full.lens_length ids
  have grows : ∀ k < (s.full.lens ids).length, (s.full.lens ids)[k]! ≤ seqLens[k]! := by
    intro k below
    rw [batch] at below
    rw [s.full.getElem!_lens below]
    exact (allowed k below).2
  refine settle_inv (fun result a called none => ?_) (fun out a called => ?_)
  · rw [← batch] at called
    rw [SWATokenToKVPoolAllocator.allocExtend_kept (by rw [lens, batch]) grows called none]
    exact inv
  obtain ⟨fullOut, swaOut, full, swa, rfl, after⟩ := SWATokenToKVPoolAllocator.allocExtend_served called
  have lastLoc {k : Nat} (below : k < ids.length) : lasts[k]! = s.fullSeqs[ids[k]!]!.lastLoc :=
    getElem!_map _ below
  have swaLast {k : Nat} (below : k < ids.length) : (lasts.map s.allocator.translateLocFromFullToSwa)[k]! =
        s.allocator.translateLocFromFullToSwa s.fullSeqs[ids[k]!]!.lastLoc := by
    rw [map_map]
    exact getElem!_map _ below
  have fullInv := settle_extend pos inv.full other.1 empty.1 lasts distinct lens
    (fun k below => ⟨(live k below).1, (allowed k below).2⟩) (fun k below partly => by rw [lastLoc below]; exact lastLoc_eq partly)
  have swaInv := settle_extend pos inv.swa other.2 empty.2
    (lasts.map s.allocator.translateLocFromFullToSwa) distinct lens
    (fun k below => ⟨inv.count.symm ▸ (live k below).1, (inv.lens _ (live k below).1).trans_le (allowed k below).2⟩)
    (fun k below partly => by rw [swaLast below]; exact translate_lastLoc pos inv (live k below) (inv.lens _ (live k below).1 ▸ partly))
  rw [show s.full.allocator = s.allocator.fullAttnAllocator from rfl, full] at fullInv
  rw [show s.swa.allocator = s.allocator.swaAttnAllocator from rfl, lens_eq inv live, swa] at swaInv
  have fullLength := PageAllocator.allocExtend_length full
  have swaLength := PageAllocator.allocExtend_length swa
  have slices : (fun k => ((fullOut.map Int.toNat).drop (Rows.start (extendLen (s.full.lens ids) seqLens) k)).take
      (extendLen (s.full.lens ids) seqLens k)) = fun k => ((fullOut.drop (Rows.start (extendLen (s.full.lens ids) seqLens) k)).take
        (extendLen (s.full.lens ids) seqLens k)).map Int.toNat := by
    funext k
    rw [map_take, map_drop]
  refine Inv.grown (fun k => (swaOut.drop (Rows.start (extendLen (s.full.lens ids) seqLens) k)).take (extendLen (s.full.lens ids) seqLens k))
    pos inv distinct live ?_ (fun k below => ?_) ?_ (fun k below v mem => ?_) swaInv after.page after.flag after.waiting
  · rw [slices]
    exact fullInv
  · simp [fullLength, swaLength]
  · rw [Rows.flatMap_take_drop, Rows.flatMap_take_drop, take_of_length_le (by rw [length_map, fullLength]), take_of_length_le (by rw [swaLength])]
    exact after.mapping
  · rw [← batch] at swa
    refine PageAllocator.allocExtend_nonneg (by rw [s.allocator.swaPage]; exact pos) grows (fun k below partly => ?_) swa v
      (mem_of_mem_drop (mem_of_mem_take mem))
    rw [batch] at below
    rw [s.allocator.swaPage, s.full.getElem!_lens below] at partly
    rw [swaLast below, translate_lastLoc pos inv (live k below) partly]
    exact Int.natCast_nonneg _

theorem step_decode (allowed : s.guard (.decode ids)) : (s.step (.decode ids)).Inv fullPages swaPages := by
  let lasts := ids.map (fun i => s.fullSeqs[i]!.lastLoc)
  obtain ⟨distinct, live, even⟩ := allowed
  have batch := s.full.lens_length ids
  have lastLoc {k : Nat} (below : k < ids.length) :
      (lasts.map Int.toNat)[k]! = s.fullSeqs[ids[k]!]!.lastLoc.toNat := by
    rw [map_map]
    exact getElem!_map _ below
  have swaLast {k : Nat} (below : k < ids.length) :
      ((lasts.map s.allocator.translateLocFromFullToSwa).map Int.toNat)[k]! =
        (s.allocator.translateLocFromFullToSwa s.fullSeqs[ids[k]!]!.lastLoc).toNat := by
    rw [map_map, map_map]
    exact getElem!_map _ below
  have fullInv (large : 1 < s.allocator.pageSize) := settle_decode large inv.full
    (lasts.map Int.toNat) distinct (fun k below => (live k below).1)
    (fun k below partly => (lastLoc below).trans ((congrArg Int.toNat (lastLoc_eq partly)).trans (Int.toNat_natCast _)))
  have swaInv (large : 1 < s.allocator.pageSize) := settle_decode large inv.swa
    ((lasts.map s.allocator.translateLocFromFullToSwa).map Int.toNat) distinct
    (fun k below => inv.count.symm ▸ (live k below).1)
    (fun k below partly => by
      rw [swaLast below, translate_lastLoc pos inv (live k below) (inv.lens _ (live k below).1 ▸ partly), Int.toNat_natCast]
      rfl)
  rw [lens_eq inv live] at swaInv
  refine settle_inv (fun result a called none => ?_) (fun out a called => ?_)
  · rcases SWATokenToKVPoolAllocator.allocDecode_kept even called none with rfl | ⟨large, full, swa, after⟩
    · exact inv
    · have fullInv := fullInv large
      have swaInv := swaInv large
      rw [show s.full.allocator = s.allocator.fullAttnAllocator from rfl, full] at fullInv
      rw [show s.swa.allocator = s.allocator.swaAttnAllocator from rfl, swa] at swaInv
      have merged : (s.grow a [] (fun _ => [])).Inv fullPages swaPages :=
        Inv.grown (fun _ => []) pos inv nodup_nil nofun fullInv (fun _ _ => rfl) after.mapping nofun swaInv after.page after.flag
          after.waiting
      exact merged
  obtain ⟨swaOut, large, full, swa, after⟩ := SWATokenToKVPoolAllocator.allocDecode_served called
  have fullInv := fullInv large
  have swaInv := swaInv large
  rw [show s.full.allocator = s.allocator.fullAttnAllocator from rfl, full] at fullInv
  rw [show s.swa.allocator = s.allocator.swaAttnAllocator from rfl, swa] at swaInv
  have fullLength : out.length = ids.length := by rw [PageAllocator.paged_length full, length_map, batch]
  have swaLength : swaOut.length = ids.length := by rw [PageAllocator.paged_length swa, length_map, batch]
  refine Inv.grown (fun k => [((swaOut[k]! : Nat) : Int)]) pos inv distinct live fullInv (fun k below => rfl) ?_ (fun k below v mem => ?_) swaInv
    after.page after.flag after.waiting
  · have slots (xs : List Nat) (length : xs.length = ids.length) : (List.range ids.length).map (fun k => xs[k]!) = xs := by
      rw [← length]
      exact (map_getElem!_range xs).symm
    have values : swaOut.map (Nat.cast : Nat → Int) = (List.range ids.length).map (fun k => ((swaOut[k]! : Nat) : Int)) := by
      conv_lhs => rw [← slots swaOut swaLength, map_map]
      rfl
    rw [← map_eq_flatMap, ← map_eq_flatMap, slots out fullLength, ← values]
    exact after.mapping
  · rw [mem_singleton.mp mem]
    exact Int.natCast_nonneg _

theorem step_inv (op : SwaOp) (allowed : s.guard op) : (s.step op).Inv fullPages swaPages := by
  cases op with
  | join => exact inv.join pos
  | alloc needSize => exact step_alloc pos inv needSize
  | extend ids seqLens other empty => exact step_extend pos inv allowed
  | decode ids => exact step_decode pos inv allowed
  | free parts freeIndex =>
    obtain ⟨freeable, fresh⟩ := allowed
    cases direct : s.allocator.isNotInFreeGroup with
    | true => exact step_free_direct pos inv direct freeable
    | false => exact step_free_grouped pos inv direct freeable fresh
  | freeSwa parts freeIndex => exact step_freeSwa pos inv allowed
  | groupBegin =>
    have none : s.pending = [] := (if_pos allowed).mp inv.group
    refine { inv with group := ?_ }
    change Freeable s.allocator.pageSize s.fullSeqs s.pending []
    rw [none]
    exact ⟨nodup_nil, nofun, nodup_nil, fun slot => by simp⟩
  | groupEnd => exact step_groupEnd pos inv allowed

end

theorem settle_allocator (s : SwaPool) (result : Except String (Option (List Nat)) × SWATokenToKVPoolAllocator)
    (same : ∀ out a, (grown out a).allocator = a) :
    (s.settle result grown).allocator = result.2 := by
  unfold settle
  split
  · exact same _ _
  · rfl

theorem step_pageSize (s : SwaPool) (op : SwaOp) : (s.step op).allocator.pageSize = s.allocator.pageSize := by
  cases op with
  | join => rfl
  | alloc needSize => exact (congrArg _ (s.settle_allocator _ (fun _ _ => rfl))).trans (s.allocator.alloc_pageSize _)
  | extend ids seqLens other empty =>
    exact (congrArg _ (s.settle_allocator _ (fun _ _ => rfl))).trans (s.allocator.allocExtend_pageSize ..)
  | decode ids => exact (congrArg _ (s.settle_allocator _ (fun _ _ => rfl))).trans (s.allocator.allocDecode_pageSize ..)
  | free parts freeIndex =>
    unfold step
    dsimp only
    split
    · exact s.allocator.free_pageSize freeIndex
    · exact s.allocator.free_pageSize freeIndex
  | freeSwa parts freeIndex => rfl
  | groupBegin => rfl
  | groupEnd => exact s.allocator.groupEnd_pageSize

theorem start_inv (size sizeSwa pageSize : Nat) (needSort : Bool) :
    (start size sizeSwa pageSize needSort).Inv (size / pageSize) (sizeSwa / pageSize) := by
  have clear (size : Nat) : (⟨.clear size pageSize needSort, []⟩ : PagedPool).Inv pageSize (size / pageSize) := by
    rw [PageAllocator.clear_eq]
    exact .clear size pageSize needSort
  refine ⟨clear size, clear sizeSwa, rfl, nofun, nofun, fun slot v nonzero => ⟨fun zero => absurd zero.symm nonzero, ?_⟩, rfl⟩
  rintro ⟨i, lt, _⟩
  exact absurd lt (Nat.not_lt_zero i)

theorem reachable_inv {sizeSwa : Nat} (pos : 0 < pageSize) {needSort : Bool} {s : SwaPool}
    (reachable : Runs.Reachable step guard (start size sizeSwa pageSize needSort) s) :
    s.allocator.pageSize = pageSize ∧ s.Inv (size / pageSize) (sizeSwa / pageSize) := by
  refine reachable.invariant (fun s => s.allocator.pageSize = pageSize ∧ s.Inv (size / pageSize) (sizeSwa / pageSize))
    ⟨rfl, start_inv size sizeSwa pageSize needSort⟩ ?_
  rintro s op ⟨page, inv⟩ allowed
  exact ⟨(s.step_pageSize op).trans page, step_inv (by rw [page]; exact pos) inv op allowed⟩

theorem Inv.mapped_perm (pos : 0 < s.allocator.pageSize) (inv : s.Inv (size / s.allocator.pageSize) swaPages) :
    (((List.range (size + s.allocator.pageSize)).filter (fun x => s.allocator.fullToSwaIndexMapping x ≠ 0)).map
      (fun x => (s.allocator.fullToSwaIndexMapping x).toNat)).Perm (s.swaSeqs.flatMap (PageSeq.held s.allocator.pageSize)) := by
  have natural {x : Nat} (mapped : s.allocator.fullToSwaIndexMapping x ≠ 0) : 0 ≤ s.allocator.fullToSwaIndexMapping x := by
    obtain ⟨i, lt, t, here, same, value⟩ := (inv.graph x _ mapped).mp rfl
    rw [← value]
    exact Int.natCast_nonneg _
  have nodup : (s.swaSeqs.flatMap (PageSeq.held s.allocator.pageSize)).Nodup := inv.swa.held_nodup pos
  refine (perm_ext_iff_of_nodup ?_ nodup).mpr (fun slot => ?_)
  · refine (nodup_range.filter _).map_on (fun x here y there same => ?_)
    have mapped := of_decide_eq_true (mem_filter.mp here).2
    have mapped' := of_decide_eq_true (mem_filter.mp there).2
    have left := natural mapped
    exact inv.mapping_inj pos mapped (by omega)
  · simp only [mem_map, mem_filter, mem_range, decide_eq_true_eq, mem_flatMap, PageSeq.mem_held]
    constructor
    · rintro ⟨x, ⟨_, mapped⟩, rfl⟩
      obtain ⟨i, lt, t, here, same, value⟩ := (inv.graph x _ mapped).mp rfl
      refine ⟨s.swaSeqs[i]!, ?_, t, here, by rw [← value, Int.toNat_natCast]⟩
      rw [getElem!_pos s.swaSeqs i (by rwa [inv.count])]
      exact getElem_mem _
    · rintro ⟨_, mem, t, here, rfl⟩
      obtain ⟨i, below, rfl⟩ := getElem_of_mem mem
      have lt : i < s.fullSeqs.length := by rwa [← inv.count]
      rw [← getElem!_pos s.swaSeqs i below] at here ⊢
      have value := inv.mapping_held pos lt here
      have range := (inv.full.page_range pos (i := i) lt (inv.held_full lt here)).2
      refine ⟨s.fullSeqs[i]!.slots[t]!, ⟨?_, ?_⟩, by rw [value, Int.toNat_natCast]⟩
      · have page : s.fullSeqs[i]!.slots[t]! / s.allocator.pageSize ≤ size / s.allocator.pageSize := range
        have whole := Nat.mul_le_mul_right s.allocator.pageSize page
        have slots := Nat.div_mul_le_self size s.allocator.pageSize
        have rest := Nat.mod_lt s.fullSeqs[i]!.slots[t]! pos
        have split := Nat.div_add_mod' s.fullSeqs[i]!.slots[t]! s.allocator.pageSize
        omega
      · rw [value]
        exact inv.swa_slot_ne_zero pos lt here

theorem Inv.mapping_live (pos : 0 < s.allocator.pageSize) (inv : s.Inv fullPages swaPages) (lt : i < s.fullSeqs.length)
    (here : s.fullSeqs[i]!.Held s.allocator.pageSize t) : s.allocator.fullToSwaIndexMapping s.fullSeqs[i]!.slots[t]! =
      if s.swaSeqs[i]!.Held s.allocator.pageSize t then (s.swaSeqs[i]!.slots[t]! : Int) else 0 := by
  split
  · next held => exact inv.mapping_held pos lt held
  · next back =>
    by_contra mapped
    obtain ⟨j, lt', u, there, same, _⟩ := (inv.graph _ _ mapped).mp rfl
    obtain ⟨rfl, rfl⟩ := inv.full_slot_inj pos lt' lt (inv.held_full lt' there) here same
    exact back there

/-- A call that returns no slots takes no pages, `alloc_decode` where both pools are short; the mapping is one to one onto the second pool. -/
theorem allocations_all_or_nothing {size sizeSwa pageSize : Nat} (positive : 0 < pageSize) (needSort : Bool) :
    (∀ a b : SWATokenToKVPoolAllocator, (∀ needSize, a.alloc needSize = (.ok none, b) → b = a) ∧
      (∀ other empty prefixLens seqLens lastLoc extendNumTokens,
        a.allocExtend other empty prefixLens seqLens lastLoc extendNumTokens = (.ok none, b) → b = a) ∧
      ∀ seqLens lastLoc, a.allocDecode seqLens lastLoc = (.ok none, b) →
        (a.SamePages b ↔ a.fullAttnAllocator.pages < getNumNewPages seqLens a.pageSize ∧
          a.swaAttnAllocator.pages < getNumNewPages seqLens a.pageSize)) ∧
    ∀ s, Runs.Reachable step guard (start size sizeSwa pageSize needSort) s → (∀ x y, s.allocator.fullToSwaIndexMapping x ≠ 0 →
        s.allocator.fullToSwaIndexMapping x = s.allocator.fullToSwaIndexMapping y → x = y) ∧
      (((List.range (size + pageSize)).filter (fun x => s.allocator.fullToSwaIndexMapping x ≠ 0)).map
        (fun x => (s.allocator.fullToSwaIndexMapping x).toNat)).Perm (s.swaSeqs.flatMap (PageSeq.held pageSize)) ∧
      (∀ i < s.fullSeqs.length, ∀ t, s.fullSeqs[i]!.Held pageSize t → s.allocator.fullToSwaIndexMapping s.fullSeqs[i]!.slots[t]! =
        if s.swaSeqs[i]!.Held pageSize t then (s.swaSeqs[i]!.slots[t]! : Int) else 0) ∧
      (s.allocator.fullAttnAllocator.spare ++ s.fullSeqs.flatMap (PageSeq.owned pageSize)).Perm (List.range' 1 (size / pageSize)) ∧
      (s.allocator.swaAttnAllocator.spare ++ s.swaSeqs.flatMap (PageSeq.owned pageSize)).Perm (List.range' 1 (sizeSwa / pageSize)) := by
  constructor
  · intro a b
    refine ⟨fun needSize none => ?_, fun other empty prefixLens seqLens lastLoc total none => ?_, fun seqLens lastLoc none => ?_⟩
    · exact alloc_none none
    · exact allocExtend_none none
    · exact allocDecode_none none
  · intro s reachable
    obtain ⟨rfl, inv⟩ := reachable_inv positive reachable
    refine ⟨fun x y mapped same => inv.mapping_inj positive mapped same, inv.mapped_perm positive,
      fun i inside t here => inv.mapping_live positive inside here, ?_, ?_⟩
    · rw [← owned_mk s.allocator.fullAttnAllocator s.fullSeqs s.allocator.fullPage]
      exact inv.full.partition
    · rw [← owned_mk s.allocator.swaAttnAllocator s.swaSeqs s.allocator.swaPage]
      exact inv.swa.partition

theorem allocations_all_or_nothing_window : ∃ s, Runs.Reachable step guard (start 8 6 2 false) s ∧
      (List.range (8 + 2)).filter (fun x => s.allocator.fullToSwaIndexMapping x ≠ 0) = [4, 5] ∧
      (s.allocator.swaAttnAllocator.spare ++ s.swaSeqs.flatMap (PageSeq.owned 2)).Perm (List.range' 1 (6 / 2)) := by
  have guarded : Runs.Guarded step guard (start 8 6 2 false)
      [.join, .extend [0] [3] (0, 0) (fun _ => 0, fun _ => 0), .freeSwa [(0, 0)] [2, 3], .decode [0]] := by
    refine ⟨trivial, ?_, ⟨by decide, by decide +kernel, by decide, fun slot => ⟨fun member => ?_, ?_⟩⟩, ?_, trivial⟩
    · unfold guard Growable
      decide +kernel
    · revert slot
      decide +kernel
    · rintro ⟨_, member, t, _, page, rfl⟩
      obtain rfl := mem_singleton.mp member
      revert t
      decide +kernel
    · unfold guard Growable
      decide +kernel
  have reachable := guarded.reachable .start
  exact ⟨_, reachable, by decide +kernel, ((allocations_all_or_nothing (by decide) false).2 _ reachable).2.2.2.2⟩

/-- Two sequences need a page each, and the other pool has one: the pages of the full pool are taken and not given back. -/
theorem decode_loses_page : let a := SWATokenToKVPoolAllocator.clear 6 2 2 false
    (a.allocDecode [1, 1] [-1, -1]).1 = .ok none ∧ a.fullAttnAllocator.freePages = [1, 2, 3] ∧ a.swaAttnAllocator.freePages = [1] ∧
      (a.allocDecode [1, 1] [-1, -1]).2.fullAttnAllocator.freePages = [3] ∧
      (a.allocDecode [1, 1] [-1, -1]).2.swaAttnAllocator.freePages = [1] ∧ ¬ a.SamePages (a.allocDecode [1, 1] [-1, -1]).2 := by
  refine ⟨by rfl, by decide +kernel, by decide +kernel, by decide +kernel, by decide +kernel, ?_⟩
  unfold SWATokenToKVPoolAllocator.SamePages PageAllocator.SamePages
  decide +kernel

end SwaPool

end TriaxialKV
