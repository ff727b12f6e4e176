import Mathlib.Analysis.SpecialFunctions.Log.Basic
import Mathlib.Algebra.BigOperators.Intervals
import Mathlib.Tactic.Ring
import Mathlib.Tactic.FieldSimp

/-! # Online softmax -/

namespace TriaxialKV.OnlineSoftmax
open Finset

variable {ι : Type} {score : Nat → Option ℝ}

/-- `none` is minus infinity. -/
noncomputable def maximum : Option ℝ → Option ℝ → Option ℝ
  | some a, some b => some (max a b)
  | some a, none => some a
  | none, b => b

/-- `exp (a - b)`; `nan` stands for what comes out when `b` is minus infinity. -/
noncomputable def expSub (nan : ℝ) : Option ℝ → Option ℝ → ℝ
  | some a, some b => Real.exp (a - b)
  | none, some _ => 0
  | _, none => nan

structure State (ι : Type) where
  eMax : Option ℝ
  eSum : ℝ
  acc : ι → ℝ

def State.empty : State ι := ⟨none, 0, fun _ => 0⟩

noncomputable def absorb (nan : ℝ) (n : Nat) (score : Nat → Option ℝ) (value : Nat → ι → ℝ) (s : State ι) : State ι :=
  let nEMax := maximum ((List.range n).foldl (fun m j => maximum m (score j)) none) s.eMax
  let reScale := expSub nan s.eMax nEMax
  let p j := expSub nan (score j) nEMax
  ⟨nEMax, s.eSum * reScale + ∑ j ∈ range n, p j, fun i => s.acc i * reScale + ∑ j ∈ range n, p j * value j i⟩

noncomputable def weight : Option ℝ → ℝ
  | some a => Real.exp a
  | none => 0

/-- The state stands for the weight `w` and the weighted sums `t`. -/
structure Totals (s : State ι) (w : ℝ) (t : ι → ℝ) : Prop where
  empty : s.eMax = none → s.eSum = 0 ∧ (∀ i, s.acc i = 0) ∧ w = 0 ∧ ∀ i, t i = 0
  scaled : ∀ m, s.eMax = some m → s.eSum = Real.exp (-m) * w ∧ ∀ i, s.acc i = Real.exp (-m) * t i

theorem Totals.of_empty : Totals (State.empty : State ι) 0 (fun _ => 0) :=
  ⟨fun _ => ⟨rfl, fun _ => rfl, rfl, fun _ => rfl⟩, nofun⟩

theorem Totals.congr {s : State ι} {w w' : ℝ} {t t' : ι → ℝ} (totals : Totals s w t) (weights : w = w') (sums : ∀ i, t i = t' i) :
    Totals s w' t' := by
  obtain rfl : t = t' := funext sums
  rwa [← weights]

theorem maximum_ne_none {a b : Option ℝ} (some : a ≠ none ∨ b ≠ none) : maximum a b ≠ none := by
  cases a <;> cases b <;> simp_all [maximum]

theorem foldl_maximum_ne_none {n j : Nat} (lane : j < n) (some : score j ≠ none) :
    (List.range n).foldl (fun m j => maximum m (score j)) none ≠ none := by
  induction n with
  | zero => cases lane
  | succ n ih =>
    rw [List.range_succ, List.foldl_append, List.foldl_cons, List.foldl_nil]
    by_cases last : j = n
    · exact maximum_ne_none (.inr (last ▸ some))
    · exact maximum_ne_none (.inl (ih (by omega)))

theorem expSub_some (nan : ℝ) (a : Option ℝ) (m : ℝ) : expSub nan a (some m) = Real.exp (-m) * weight a := by
  cases a with
  | none => simp [expSub, weight]
  | some a => rw [expSub, weight, ← Real.exp_add, sub_eq_neg_add]

theorem absorb_eMax {nan : ℝ} {n j : Nat} {value : Nat → ι → ℝ} (lane : j < n) (some : score j ≠ none)
    (s : State ι) : (absorb nan n score value s).eMax ≠ none :=
  maximum_ne_none (.inl (foldl_maximum_ne_none lane some))

theorem Totals.absorb {n j : Nat} {s : State ι} {w : ℝ} {t : ι → ℝ} (totals : Totals s w t)
    (nan : ℝ) (score : Nat → Option ℝ) (value : Nat → ι → ℝ) (lane : j < n) (some : score j ≠ none) :
    Totals (absorb nan n score value s) (w + ∑ j ∈ range n, weight (score j))
      (fun i => t i + ∑ j ∈ range n, weight (score j) * value j i) := by
  refine ⟨fun none => absurd none (absorb_eMax lane some s), fun m found => ?_⟩
  have top : maximum ((List.range n).foldl (fun m j => maximum m (score j)) none) s.eMax = Option.some m := found
  have lanes : ∀ f : Nat → ℝ, ∑ j ∈ range n, expSub nan (score j) (Option.some m) * f j = Real.exp (-m) * ∑ j ∈ range n, weight (score j) * f j := by
    intro f
    rw [mul_sum]
    exact sum_congr rfl (fun j _ => by rw [expSub_some, mul_assoc])
  have ones := lanes (fun _ => 1)
  simp only [mul_one] at ones
  -- what was there before is rescaled to the new maximum
  have before : s.eSum * expSub nan s.eMax (Option.some m) = Real.exp (-m) * w ∧
      ∀ i, s.acc i * expSub nan s.eMax (Option.some m) = Real.exp (-m) * t i := by
    cases old : s.eMax with
    | none =>
      obtain ⟨eSum, acc, noWeight, noSum⟩ := totals.empty old
      exact ⟨by rw [eSum, noWeight, zero_mul, mul_zero], fun i => by rw [acc, noSum, zero_mul, mul_zero]⟩
    | some o =>
      obtain ⟨eSum, acc⟩ := totals.scaled o old
      have shift : Real.exp (-o) * expSub nan (Option.some o) (Option.some m) = Real.exp (-m) := by
        rw [expSub, ← Real.exp_add]
        congr 1
        ring
      exact ⟨by rw [eSum, mul_right_comm, shift], fun i => by rw [acc, mul_right_comm, shift]⟩
  unfold OnlineSoftmax.absorb
  dsimp only
  rw [top, ones, before.1]
  refine ⟨by ring, fun i => ?_⟩
  rw [lanes (fun j => value j i), before.2]
  ring

section
variable {s : State ι} {w : ℝ} {t : ι → ℝ} (totals : Totals s w t) (pos : 0 < w)
include totals pos

theorem Totals.eMax_ne_none : s.eMax ≠ none :=
  fun none => pos.ne' (totals.empty none).2.2.1

theorem Totals.quotient (i : ι) : s.acc i / s.eSum = t i / w := by
  obtain ⟨m, found⟩ := Option.ne_none_iff_exists'.mp (totals.eMax_ne_none pos)
  obtain ⟨eSum, acc⟩ := totals.scaled m found
  rw [eSum, acc, mul_div_mul_left _ _ (Real.exp_ne_zero _)]

theorem Totals.exp_lse {m : ℝ} (found : s.eMax = some m) : Real.exp (m + Real.log s.eSum) = w := by
  obtain ⟨eSum, _⟩ := totals.scaled m found
  have sumPositive : 0 < s.eSum := by
    rw [eSum]
    exact mul_pos (Real.exp_pos _) pos
  rw [Real.exp_add, Real.exp_log sumPositive, eSum, ← mul_assoc, ← Real.exp_add, add_neg_cancel, Real.exp_zero, one_mul]

end

theorem sum_lanes (f : Nat → ℝ) (a e w : Nat) : ∑ n ∈ range w, (if a + n < e then f (a + n) else 0) = ∑ t ∈ Ico a (min (a + w) e), f t := by
  induction w with
  | zero => rw [sum_range_zero, Ico_eq_empty_of_le (by omega), sum_empty]
  | succ w ih =>
    rw [sum_range_succ, ih]
    by_cases lt : a + w < e
    · have next : min (a + (w + 1)) e = a + w + 1 := by omega
      rw [if_pos lt, next, sum_Ico_succ_top (by omega), show min (a + w) e = a + w by omega]
    · rw [if_neg lt, add_zero, show min (a + (w + 1)) e = min (a + w) e by omega]

theorem sum_stretch (f : Nat → ℝ) (a e w i : Nat) : ∑ t ∈ Ico a (min (a + w * i) e), f t + ∑ t ∈ Ico (a + w * i) (min (a + w * i + w) e), f t =
      ∑ t ∈ Ico a (min (a + w * (i + 1)) e), f t := by
  rw [Nat.mul_succ, ← add_assoc]
  by_cases lt : a + w * i ≤ e
  · rw [min_eq_left lt]
    exact sum_Ico_consecutive f (Nat.le_add_right _ _) (by omega)
  · have past : min (a + w * i) e = min (a + w * i + w) e := by omega
    rw [past, Ico_eq_empty_of_le (by omega : min (a + w * i + w) e ≤ a + w * i), sum_empty, add_zero]

end TriaxialKV.OnlineSoftmax
