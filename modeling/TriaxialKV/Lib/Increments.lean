import Mathlib.Data.List.Infix
import Mathlib.Data.List.Pairwise
import Mathlib.Tactic.Common

/-! # Sending a growing text in increments -/

namespace TriaxialKV.Increments
open List

variable {α : Type}

def increments : Nat → List (List α) → List (List α)
  | _, [] => []
  | sent, version :: versions => version.drop sent :: increments version.length versions

def received (versions : List (List α)) : List α := (increments 0 versions).flatten

/-- No version is shorter than the one before it, nor is the first than `sent`. -/
def Grows : Nat → List (List α) → Prop
  | _, [] => True
  | sent, version :: versions => sent ≤ version.length ∧ Grows version.length versions

instance instDecidableGrows : ∀ (sent : Nat) (versions : List (List α)), Decidable (Grows sent versions)
  | _, [] => .isTrue trivial
  | _, version :: versions => @instDecidableAnd _ _ _ (instDecidableGrows version.length versions)

section
variable {whole version last : List α} {versions more : List (List α)} {sent : Nat}

theorem increments_append (sent : Nat) (versions : List (List α)) (version : List α) :
    increments sent (versions ++ [version]) = increments sent versions ++ [version.drop ((versions.getLast?.map List.length).getD sent)] := by
  induction versions generalizing sent with
  | nil => rfl
  | cons first versions ih =>
    rw [cons_append, increments, ih, increments, cons_append]
    cases versions with
    | nil => rfl
    | cons next versions => rw [getLast?_cons_cons, getLast?_cons]; rfl

theorem length_le (sent : Nat) (versions : List (List α)) (last : List α) :
    last.length ≤ sent + (increments sent (versions ++ [last])).flatten.length := by
  induction versions generalizing sent with
  | nil =>
    simp only [nil_append, increments, flatten_singleton, length_drop]
    omega
  | cons version versions ih =>
    have later := ih version.length
    simp only [cons_append, increments, flatten_cons, length_append, length_drop]
    omega

theorem grows_of_length (le : sent + (increments sent (versions ++ [last])).flatten.length ≤ last.length) : Grows sent (versions ++ [last]) := by
  induction versions generalizing sent with
  | nil =>
    simp only [nil_append, increments, flatten_singleton, length_drop] at le
    exact ⟨by omega, trivial⟩
  | cons version versions ih =>
    have later := length_le version.length versions last
    simp only [cons_append, increments, flatten_cons, length_append, length_drop] at le
    exact ⟨by omega, ih (by omega)⟩

theorem Grows.le_last (grows : Grows sent (versions ++ [last])) : sent ≤ last.length := by
  induction versions generalizing sent with
  | nil => exact grows.1
  | cons version versions ih => exact grows.1.trans (ih grows.2)

theorem Grows.left (grows : Grows sent (versions ++ more)) : Grows sent versions := by
  induction versions generalizing sent with
  | nil => trivial
  | cons version versions ih => exact ⟨grows.1, ih grows.2⟩

theorem Grows.right (grows : Grows sent (versions ++ ([version] ++ more))) : Grows version.length more := by
  induction versions generalizing sent with
  | nil => exact grows.2
  | cons first versions ih => exact ih grows.2

theorem Grows.flatten (grows : Grows sent (versions ++ [last])) (prefixes : ∀ version ∈ versions ++ [last], version <+: whole) :
    (increments sent (versions ++ [last])).flatten = last.drop sent := by
  induction versions generalizing sent with
  | nil => exact flatten_singleton
  | cons version versions ih =>
    have later := ih grows.2 (fun other mem => prefixes other (mem_cons_of_mem version mem))
    have start : version <+: last := prefix_of_prefix_length_le (prefixes version mem_cons_self)
      (prefixes last (mem_append_right _ mem_cons_self)) grows.2.le_last
    rw [cons_append, increments, flatten_cons, later]
    obtain ⟨_, rfl⟩ := start
    rw [drop_left, drop_append_of_le_length grows.1]

theorem received_eq_iff (prefixes : ∀ version ∈ versions ++ [last], version <+: whole) :
    received (versions ++ [last]) = last ↔ Grows 0 (versions ++ [last]) := by
  constructor
  · intro same
    refine grows_of_length ?_
    have length := congrArg List.length same
    unfold received at length
    omega
  · intro grows
    unfold received
    rw [grows.flatten prefixes, drop_zero]

theorem received_le (prefixes : ∀ version ∈ versions ++ more ++ [last], version <+: whole) (grows : Grows 0 (versions ++ more ++ [last])) :
    received versions <+: last := by
  rcases eq_nil_or_concat versions with rfl | ⟨front, version, rfl⟩
  · exact List.nil_prefix
  · rw [concat_eq_append] at prefixes grows ⊢
    have own : ∀ other ∈ front ++ [version], other <+: whole := fun other mem =>
      prefixes other (mem_append_left _ (mem_append_left _ mem))
    have here : received (front ++ [version]) = version := (received_eq_iff own).mpr grows.left.left
    rw [here]
    refine prefix_of_prefix_length_le (own version (mem_append_right _ mem_cons_self))
      (prefixes last (mem_append_right _ mem_cons_self)) ?_
    rw [append_assoc, append_assoc] at grows
    exact grows.right.le_last

end

end TriaxialKV.Increments
