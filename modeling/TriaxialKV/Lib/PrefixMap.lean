import Mathlib.Data.Nat.Find
import Mathlib.Data.List.Infix
import Mathlib.Tactic.Cases

/-!
# Maps that answer with the longest stored part of a key

A `PrefixMap α β w` holds runs of `α` in steps of `w`, with one `β` for each place.
-/

namespace TriaxialKV
open List

structure PrefixMap (α β : Type) (w : Nat) where
  find : List α → Option (List β)
  empty : find [] = some []
  shape : ∀ {p s}, find p = some s → w ∣ p.length ∧ s.length = p.length
  closed : ∀ {p s}, find p = some s → ∀ {n}, w ∣ n → n ≤ p.length → find (p.take n) = some (s.take n)

namespace PrefixMap
variable {α β : Type} {w : Nat}

def nil (α β : Type) (w : Nat) : PrefixMap α β w where
  find
    | [] => some []
    | _ :: _ => none
  empty := rfl
  shape := by
    intro p s found
    cases p with
    | nil =>
      cases found
      exact ⟨Nat.dvd_zero _, rfl⟩
    | cons => cases found
  closed := by
    intro p s found n _ le
    cases p with
    | nil =>
      cases found
      simp
    | cons => cases found

section
variable (m : PrefixMap α β w) (key : List α)

/-- The length of the longest held run that `key` starts with. -/
def longest : Nat := Nat.findGreatest (fun n => (m.find (key.take n)).isSome) key.length

def slots : List β := (m.find (key.take (m.longest key))).getD []

theorem longest_le : m.longest key ≤ key.length := Nat.findGreatest_le _

theorem find_longest : m.find (key.take (m.longest key)) = some (m.slots key) := by
  have start : (m.find (key.take 0)).isSome := by rw [take_zero, m.empty]; rfl
  have held : (m.find (key.take (m.longest key))).isSome :=
    Nat.findGreatest_spec (P := fun n => (m.find (key.take n)).isSome = true) (Nat.zero_le _) start
  obtain ⟨s, same⟩ := Option.isSome_iff_exists.mp held
  rw [slots, same]
  rfl

theorem length_slots : (m.slots key).length = m.longest key := by
  rw [(m.shape (m.find_longest key)).2, length_take, Nat.min_eq_left (m.longest_le key)]

variable {m key}

theorem le_longest {p : List α} {s : List β} (begins : p <+: key) (held : m.find p = some s) : p.length ≤ m.longest key := by
  obtain ⟨_, rfl⟩ := begins
  refine Nat.le_findGreatest (by simp) ?_
  rw [take_left, held]
  rfl

theorem longest_eq {n : Nat} {s : List β} (le : n ≤ key.length) (held : m.find (key.take n) = some s)
    (most : ∀ p s, p <+: key → m.find p = some s → p.length ≤ n) : m.longest key = n ∧ m.slots key = s := by
  have lower := le_longest (List.take_prefix n key) held
  rw [length_take, Nat.min_eq_left le] at lower
  have upper := most _ _ (List.take_prefix _ _) (m.find_longest key)
  rw [length_take, Nat.min_eq_left (m.longest_le key)] at upper
  have same : m.longest key = n := by omega
  refine ⟨same, ?_⟩
  rw [slots, same, held]
  rfl

end

open Classical in
/-- Holds every run that `key` starts with. Places that were held keep what they had. -/
noncomputable def insert (m : PrefixMap α β w) (key : List α) (value : List β) (sized : value.length = key.length) : PrefixMap α β w where
  find p := if p <+: key ∧ w ∣ p.length ∧ m.longest key ≤ p.length
    then some ((m.slots key ++ value.drop (m.longest key)).take p.length) else m.find p
  empty := by
    split
    · simp
    · exact m.empty
  shape := by
    intro p s found
    have size := m.length_slots key
    split at found
    · next new =>
      cases found
      have := new.1.length_le
      refine ⟨new.2.1, ?_⟩
      rw [length_take, length_append, length_drop]
      omega
    · exact m.shape found
  closed := by
    intro p s found n step le
    have size := m.length_slots key
    split at found
    · next new =>
      cases found
      obtain ⟨begins, _, past⟩ := new
      rw [take_take, Nat.min_eq_left le]
      have shorter := (List.take_prefix n p).trans begins
      have length : (p.take n).length = n := by rw [length_take, Nat.min_eq_left le]
      split
      · rw [length]
      · next held =>
        have below : n < m.longest key := by
          by_contra more
          exact held ⟨shorter, by rwa [length], by omega⟩
        have bound := m.longest_le key
        have old := m.closed (m.find_longest key) step (by rw [length_take]; omega)
        rw [take_append_of_le_length (by omega), ← old, take_take, Nat.min_eq_left below.le]
        obtain ⟨rest, rfl⟩ := begins
        rw [take_append_of_le_length le]
    · have old := m.closed found step le
      split
      · next new =>
        -- a held run that the key starts with is no longer than the longest one
        have short := le_longest new.1 old
        have same : (p.take n).length = m.longest key := by omega
        have run : p.take n = key.take (m.longest key) := by
          rw [← same]
          exact List.prefix_iff_eq_take.mp new.1
        rw [same, ← size, take_left, ← old, run, m.find_longest]
      · exact old

open Classical in
noncomputable def restrict (m : PrefixMap α β w) (keep : List α → Prop) (nil : keep [])
    (shorter : ∀ {p n}, keep p → w ∣ n → n ≤ p.length → keep (p.take n)) : PrefixMap α β w where
  find p := if keep p then m.find p else none
  empty := by rw [if_pos nil, m.empty]
  shape := by
    intro p s found
    split at found
    · exact m.shape found
    · cases found
  closed := by
    intro p s found n step le
    split at found
    · next kept => rw [if_pos (shorter kept step le), m.closed found step le]
    · cases found

section
variable {m : PrefixMap α β w} {p : List α} {s : List β}

theorem find_insert {key : List α} {value : List β} {sized : value.length = key.length} : (m.insert key value sized).find p = some s ↔
    m.find p = some s ∨ ∃ n, w ∣ n ∧ m.longest key ≤ n ∧ n ≤ key.length ∧ p = key.take n ∧
      s = (m.slots key ++ value.drop (m.longest key)).take n := by
  classical
  have size := m.length_slots key
  change (if p <+: key ∧ w ∣ p.length ∧ m.longest key ≤ p.length then _ else _) = _ ↔ _
  split
  · next new =>
    obtain ⟨begins, step, past⟩ := new
    constructor
    · intro found
      cases found
      exact .inr ⟨p.length, step, past, begins.length_le, List.prefix_iff_eq_take.mp begins, rfl⟩
    · rintro (held | ⟨n, _, _, le, rfl, rfl⟩)
      · have same : p.length = m.longest key := by
          have := le_longest begins held
          omega
        have run : p = key.take (m.longest key) := by
          rw [← same]
          exact List.prefix_iff_eq_take.mp begins
        rw [same, ← size, take_left, ← m.find_longest, ← run, held]
      · rw [length_take, Nat.min_eq_left le]
  · next old =>
    refine ⟨.inl, ?_⟩
    rintro (held | ⟨n, step, past, le, rfl, rfl⟩)
    · exact held
    · have length : (key.take n).length = n := by rw [length_take, Nat.min_eq_left le]
      exact absurd ⟨List.take_prefix _ _, by rwa [length], by rwa [length]⟩ old

theorem find_restrict {keep : List α → Prop} {nil : keep []} {shorter : ∀ {p n}, keep p → w ∣ n → n ≤ p.length → keep (p.take n)} :
    (m.restrict keep nil shorter).find p = some s ↔ keep p ∧ m.find p = some s := by
  classical
  change (if keep p then _ else _) = _ ↔ _
  split
  · next kept => exact ⟨fun held => ⟨kept, held⟩, fun held => held.2⟩
  · next gone => exact ⟨fun held => (by cases held), fun held => absurd held.1 gone⟩

theorem find_nil : (nil α β w).find p = some s ↔ p = [] ∧ s = [] := by
  cases p with
  | nil => exact ⟨fun held => ⟨rfl, (Option.some.inj held).symm⟩, fun held => by rw [held.2]; rfl⟩
  | cons => exact ⟨fun held => (by cases held), fun held => (by cases held.1)⟩

end

end PrefixMap

end TriaxialKV
