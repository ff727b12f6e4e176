import TriaxialKV.Cache.PagedRuns

/-!
# The slots of live places

A place of a sequence is held while its page is not given back.
-/

namespace TriaxialKV
open List

variable {n : Nat} {slots : List Nat}

namespace PageSeq

def Held (pageSize : Nat) (s : PageSeq) (t : Nat) : Prop := t < s.slots.length ∧ t / pageSize ∉ s.gone

instance (pageSize : Nat) (s : PageSeq) : DecidablePred (s.Held pageSize) := fun _ => inferInstanceAs (Decidable (_ ∧ _))

def held (pageSize : Nat) (s : PageSeq) : List Nat := ((range s.slots.length).filter (s.Held pageSize)).map (fun t => s.slots[t]!)

variable {pageSize : Nat} {s : PageSeq} {t : Nat}

theorem mem_held {slot : Nat} : slot ∈ s.held pageSize ↔ ∃ t, s.Held pageSize t ∧ s.slots[t]! = slot := by
  simp only [held, mem_map, mem_filter, mem_range, decide_eq_true_eq]
  constructor
  · rintro ⟨t, ⟨_, here⟩, same⟩
    exact ⟨t, here, same⟩
  · rintro ⟨t, here, same⟩
    exact ⟨t, ⟨here.1, here⟩, same⟩

section
variable (pos : 0 < pageSize) (laid : s.Laid pageSize)
include pos laid

theorem Laid.slot (lt : t < s.slots.length) :
    s.slots[t]! % pageSize = t % pageSize ∧ s.slots[t]! / pageSize = s.slots[t / pageSize * pageSize]! / pageSize := by
  obtain ⟨_, _, _, places⟩ := laid
  have first : t / pageSize * pageSize < s.slots.length := (Nat.div_mul_le_self t pageSize).trans_lt lt
  constructor
  · rw [places, getElem!_layout lt, Nat.mul_add_mod', Nat.mod_mod]
  · rw [places, layout_page pos lt, layout_page pos first, Nat.mul_div_cancel _ pos]

theorem Held.page (here : s.Held pageSize t) : s.slots[t]! / pageSize ∈ s.owned pageSize := by
  rw [(laid.slot pos here.1).2]
  refine mem_map.mpr ⟨t / pageSize, mem_filter.mpr ⟨mem_range.mpr ((lt_pagesOf pos).mpr ?_), decide_eq_true here.2⟩, rfl⟩
  exact (Nat.div_mul_le_self t pageSize).trans_lt here.1

theorem Held.inj (nodup : (s.owned pageSize).Nodup) {u : Nat} (here : s.Held pageSize t)
    (there : s.Held pageSize u) (same : s.slots[t]! = s.slots[u]!) : t = u := by
  obtain ⟨place, page⟩ := laid.slot pos here.1
  obtain ⟨place', page'⟩ := laid.slot pos there.1
  have quotient : t / pageSize = u / pageSize := by
    refine inj_on_of_nodup_map nodup ?_ ?_ (by rw [← page, ← page', same])
    · refine mem_filter.mpr ⟨mem_range.mpr ((lt_pagesOf pos).mpr ?_), decide_eq_true here.2⟩
      exact (Nat.div_mul_le_self t pageSize).trans_lt here.1
    · refine mem_filter.mpr ⟨mem_range.mpr ((lt_pagesOf pos).mpr ?_), decide_eq_true there.2⟩
      exact (Nat.div_mul_le_self u pageSize).trans_lt there.1
  rw [← Nat.div_add_mod' t pageSize, ← Nat.div_add_mod' u pageSize, quotient, ← place, ← place', same]

end

theorem append_slot_old (lt : t < s.slots.length) : (s.append slots).slots[t]! = s.slots[t]! := by
  unfold append
  rw [getElem!_pos _ t (by rw [length_append]; omega), getElem!_pos s.slots t lt]
  exact getElem_append_left lt

theorem append_slot_new {j : Nat} (lt : j < slots.length) : (s.append slots).slots[s.slots.length + j]! = slots[j]! := by
  unfold append
  rw [getElem!_pos _ _ (by rw [length_append]; omega), getElem!_pos slots j lt, getElem_append_right (by omega)]
  simp

theorem page_with_room (pos : 0 < pageSize) {len : Nat} (behind : len ≤ t) (old : t / pageSize < pagesOf pageSize len) :
    len % pageSize ≠ 0 ∧ t / pageSize = len / pageSize := by
  have whole := (lt_pagesOf pos).mp old
  have order : len / pageSize ≤ t / pageSize := Nat.div_le_div_right behind
  have eq := le_antisymm ((Nat.le_div_iff_mul_le pos).mpr whole.le) order
  refine ⟨fun none => ?_, eq⟩
  have first := Nat.div_add_mod' len pageSize
  rw [eq] at whole
  omega

theorem append_held_new (pos : 0 < pageSize) (laid : s.Laid pageSize)
    (room : s.slots.length % pageSize ≠ 0 → s.slots.length / pageSize ∉ s.gone) {j : Nat} (lt : j < slots.length) :
    (s.append slots).Held pageSize (s.slots.length + j) := by
  constructor
  · change _ < (s.slots ++ slots).length
    rw [length_append]
    omega
  · intro back
    obtain ⟨partly, page⟩ := page_with_room pos (Nat.le_add_right _ j) (laid.1 _ back)
    exact room partly (page ▸ back)

theorem append_held_old (lt : t < s.slots.length) : (s.append slots).Held pageSize t ↔ s.Held pageSize t := by
  unfold Held append
  rw [length_append]
  exact ⟨fun here => ⟨lt, here.2⟩, fun here => ⟨by omega, here.2⟩⟩

end PageSeq

namespace PagedPool
section
variable {seqs : List PageSeq} {ids : List Nat} {slice : Nat → List Nat} {i k : Nat}

theorem grow_here (nodup : ids.Nodup) (present : ∀ k < ids.length, ids[k]! < seqs.length) (earlier : k < n) (le : n ≤ ids.length) :
    (grow seqs ids slice n)[ids[k]!]! = seqs[ids[k]!]!.append (slice k) := by
  have lt : k < ids.length := by omega
  induction n with
  | zero => omega
  | succ n ih =>
    rw [grow_succ, getElem!_modify _ (by rw [length_grow]; exact present k lt)]
    split
    · next same =>
      have eq : n = k := by
        rw [getElem!_pos ids n (by omega), getElem!_pos ids k lt] at same
        exact (List.Nodup.getElem_inj_iff nodup).mp same
      rw [← eq, getElem!_grow nodup present (le_refl n) (by omega)]
    · next other =>
      refine ih ?_ (by omega)
      have : k ≠ n := fun eq => other (by rw [eq])
      omega

theorem grow_other (present : i < seqs.length) (absent : i ∉ ids) (le : n ≤ ids.length) : (grow seqs ids slice n)[i]! = seqs[i]! := by
  induction n with
  | zero => rfl
  | succ n ih =>
    have other : ids[n]! ≠ i := fun same => absent (by rw [← same, getElem!_pos ids n (by omega)]; exact getElem_mem _)
    rw [grow_succ, getElem!_modify _ (by rwa [length_grow]), if_neg other]
    exact ih (by omega)

/-- Every sequence of a grown batch is an old one with a slice behind it, which is empty for the others. -/
theorem grow_cases (slice : Nat → List Nat) (nodup : ids.Nodup) (present : ∀ k < ids.length, ids[k]! < seqs.length) (lt : i < seqs.length) :
    (∃ k < ids.length, ids[k]! = i ∧ (grow seqs ids slice ids.length)[i]! = seqs[i]!.append (slice k)) ∨
      i ∉ ids ∧ (grow seqs ids slice ids.length)[i]! = seqs[i]! := by
  by_cases mem : i ∈ ids
  · obtain ⟨k, below, rfl⟩ := getElem_of_mem mem
    have same : ids[k]! = ids[k] := getElem!_pos ids k below
    refine .inl ⟨k, below, same, ?_⟩
    rw [← same]
    exact grow_here nodup present below (le_refl _)
  · exact .inr ⟨mem, grow_other lt mem (le_refl _)⟩

theorem grow_congr {slice' : Nat → List Nat} (same : ∀ k < n, slice k = slice' k) : grow seqs ids slice n = grow seqs ids slice' n := by
  induction n with
  | zero => rfl
  | succ n ih => rw [grow_succ, grow_succ, ih (fun k below => same k (by omega)), same n (by omega)]

section
variable (slice) (nodup : ids.Nodup) (present : ∀ k < ids.length, ids[k]! < seqs.length)
include nodup present

theorem grow_gone (lt : i < seqs.length) : (grow seqs ids slice ids.length)[i]!.gone = seqs[i]!.gone := by
  rcases grow_cases slice nodup present lt with ⟨k, _, _, grown⟩ | ⟨_, same⟩
  · rw [grown]
    rfl
  · rw [same]

theorem grow_slot_old (lt : i < seqs.length) {t : Nat} (old : t < seqs[i]!.slots.length) :
    (grow seqs ids slice ids.length)[i]!.slots[t]! = seqs[i]!.slots[t]! := by
  rcases grow_cases slice nodup present lt with ⟨k, _, _, grown⟩ | ⟨_, same⟩
  · rw [grown, PageSeq.append_slot_old old]
  · rw [same]

theorem grow_slot_new (lt : k < ids.length) {j : Nat} (new : j < (slice k).length) :
    (grow seqs ids slice ids.length)[ids[k]!]!.slots[seqs[ids[k]!]!.slots.length + j]! = (slice k)[j]! := by
  rw [grow_here nodup present lt (le_refl _), PageSeq.append_slot_new new]

end

theorem grow_held {pageSize : Nat} (pos : 0 < pageSize) (laid : ∀ seq ∈ seqs, seq.Laid pageSize) (nodup : ids.Nodup)
    (present : ∀ k < ids.length, ids[k]! < seqs.length)
    (room : ∀ k < ids.length, seqs[ids[k]!]!.slots.length % pageSize ≠ 0 → seqs[ids[k]!]!.slots.length / pageSize ∉ seqs[ids[k]!]!.gone)
    (lt : i < seqs.length) {t : Nat} : (grow seqs ids slice ids.length)[i]!.Held pageSize t ↔
      seqs[i]!.Held pageSize t ∨ ∃ k < ids.length, ids[k]! = i ∧ ∃ j < (slice k).length, t = seqs[i]!.slots.length + j := by
  have laid : seqs[i]!.Laid pageSize := laid _ (by rw [getElem!_pos seqs i lt]; exact getElem_mem _)
  rcases grow_cases slice nodup present lt with ⟨k, below, rfl, grown⟩ | ⟨absent, same⟩
  · rw [grown]
    constructor
    · intro here
      by_cases old : t < seqs[ids[k]!]!.slots.length
      · exact .inl ((PageSeq.append_held_old old).mp here)
      · have length : t < (seqs[ids[k]!]!.slots ++ slice k).length := here.1
        rw [length_append] at length
        exact .inr ⟨k, below, rfl, t - seqs[ids[k]!]!.slots.length, by omega, by omega⟩
    · rintro (old | ⟨k', below', same, j, new, rfl⟩)
      · exact (PageSeq.append_held_old old.1).mpr old
      · rw [getElem!_pos ids k' below', getElem!_pos ids k below] at same
        obtain rfl := (List.Nodup.getElem_inj_iff nodup).mp same
        exact PageSeq.append_held_new pos laid (room k' below') new
  · rw [same]
    refine ⟨.inl, ?_⟩
    rintro (old | ⟨k, below, rfl, _⟩)
    · exact old
    · exact absurd (by rw [getElem!_pos ids k below]; exact getElem_mem _) absent

end

section
variable {seqs : List PageSeq} {parts : List (Nat × Nat)} {i : Nat}

theorem length_giveBack (seqs : List PageSeq) (parts : List (Nat × Nat)) : (giveBack seqs parts).length = seqs.length := by
  induction parts generalizing seqs with
  | nil => rfl
  | cons part parts ih => exact (ih _).trans (length_modify _ _ _)

theorem giveBack_at (parts : List (Nat × Nat)) (lt : i < seqs.length) : (giveBack seqs parts)[i]!.slots = seqs[i]!.slots ∧
    ∀ q, q ∈ (giveBack seqs parts)[i]!.gone ↔ q ∈ seqs[i]!.gone ∨ (i, q) ∈ parts := by
  induction parts generalizing seqs with
  | nil => exact ⟨rfl, fun q => by simp [giveBack]⟩
  | cons part parts ih =>
    obtain ⟨slots, gone⟩ := @ih (seqs.modify part.1 (fun s => s.giveBack part.2)) (by rwa [length_modify])
    have entry := getElem!_modify (i := part.1) (fun s : PageSeq => s.giveBack part.2) lt
    rw [entry] at slots gone
    refine ⟨slots.trans (by split <;> rfl), fun q => (gone q).trans ?_⟩
    split
    · next same =>
      subst same
      simp only [PageSeq.giveBack, mem_cons, Prod.ext_iff, true_and]
      tauto
    · next other =>
      have : ¬ i = part.1 := fun same => other same.symm
      simp [Prod.ext_iff, this]

end

section
variable {pageSize numPages : Nat} {s : PagedPool} (pos : 0 < pageSize) (inv : s.Inv pageSize numPages) {i j t u : Nat}
include pos inv

theorem Inv.page_range (lt : i < s.seqs.length) (here : s.seqs[i]!.Held pageSize t) :
    1 ≤ s.seqs[i]!.slots[t]! / pageSize ∧ s.seqs[i]!.slots[t]! / pageSize ≤ numPages := by
  have owned : s.seqs[i]!.slots[t]! / pageSize ∈ s.owned := by
    rw [show s.owned = s.seqs.flatMap (PageSeq.owned pageSize) from owned_mk s.allocator s.seqs inv.size]
    refine mem_flatMap.mpr ⟨s.seqs[i]!, ?_, here.page pos (inv.laid_at lt)⟩
    rw [getElem!_pos s.seqs i lt]
    exact getElem_mem _
  have page := inv.partition.mem_iff.mp (mem_append_right _ owned)
  obtain ⟨k, _, _⟩ := mem_range'.mp page
  omega

theorem Inv.slot_inj (lt : i < s.seqs.length) (lt' : j < s.seqs.length) (here : s.seqs[i]!.Held pageSize t)
    (there : s.seqs[j]!.Held pageSize u) (same : s.seqs[i]!.slots[t]! = s.seqs[j]!.slots[u]!) : i = j ∧ t = u := by
  have nodup := (nodup_append'.mp inv.nodup).2.1
  rw [show s.owned = s.seqs.flatMap (PageSeq.owned pageSize) from owned_mk s.allocator s.seqs inv.size] at nodup
  obtain ⟨each, pairs⟩ := nodup_flatMap.mp nodup
  have mine := here.page pos (inv.laid_at lt)
  have yours := there.page pos (inv.laid_at lt')
  rw [same] at mine
  have eq : i = j := by
    by_contra other
    rw [getElem!_pos s.seqs i lt] at mine
    rw [getElem!_pos s.seqs j lt'] at mine yours
    rcases Nat.lt_or_gt_of_ne other with less | more
    · exact pairwise_iff_getElem.mp pairs i j lt lt' less mine yours
    · exact pairwise_iff_getElem.mp pairs j i lt' lt more yours mine
  subst eq
  refine ⟨rfl, here.inj pos (inv.laid_at lt) (each _ ?_) there same⟩
  rw [getElem!_pos s.seqs i lt]
  exact getElem_mem _

theorem Inv.held_nodup : (s.seqs.flatMap (PageSeq.held pageSize)).Nodup := by
  refine nodup_flatMap.mpr ⟨fun seq mem => ?_, pairwise_iff_getElem.mpr (fun i j lt lt' less slot mine yours => ?_)⟩
  · obtain ⟨i, lt, rfl⟩ := getElem_of_mem mem
    refine (nodup_range.filter _).map_on (fun t here u there same => ?_)
    rw [mem_filter, decide_eq_true_eq] at here there
    rw [← getElem!_pos s.seqs i lt] at here there same
    exact (inv.slot_inj pos lt lt here.2 there.2 same).2
  · obtain ⟨t, here, rfl⟩ := PageSeq.mem_held.mp mine
    obtain ⟨u, there, same⟩ := PageSeq.mem_held.mp yours
    rw [← getElem!_pos s.seqs i lt] at here same
    rw [← getElem!_pos s.seqs j lt'] at there same
    have := (inv.slot_inj pos lt lt' here there same.symm).1
    omega

end

end PagedPool

end TriaxialKV
