import TriaxialKV.Kernel.RoundTrip
import TriaxialKV.Lib.Rounding

/-!
# The error of a dequantized value

Scale and minimum are rounded to half precision, all other arithmetic is exact.
-/

namespace TriaxialKV
open Tensor List Quantizer

/-- To the nearest, with a relative error on normal and an absolute one on subnormal numbers. -/
structure HalfRounding where
  round : ℚ → ℚ
  near : ∀ y, |round y - y| ≤ |y| / 2 ^ 11 ∨ |round y - y| ≤ 1 / 2 ^ 25
  zero : round 0 = 0
  nonneg : ∀ y, 0 ≤ y → 0 ≤ round y

/-- To the nearest integer, halves to even. -/
def rint (y : ℚ) : Int :=
  if y - ⌊y⌋ < 1 / 2 then ⌊y⌋ else if 1 / 2 < y - ⌊y⌋ then ⌊y⌋ + 1 else if ⌊y⌋ % 2 = 0 then ⌊y⌋ else ⌊y⌋ + 1

theorem abs_rint_sub (y : ℚ) : |rint y - y| ≤ 1 / 2 := by
  have low := Int.floor_le y
  have high := Int.lt_floor_add_one y
  unfold rint
  rw [abs_le]
  split_ifs <;> push_cast <;> constructor <;> linarith

theorem rint_le_zero {y : ℚ} : rint y ≤ 0 ↔ y ≤ 1 / 2 := by
  have near := abs_le.mp (abs_rint_sub y)
  constructor
  · intro le
    have : (rint y : ℚ) ≤ 0 := by exact_mod_cast le
    linarith
  · intro le
    by_contra more
    have : (1 : ℚ) ≤ rint y := by exact_mod_cast not_le.mp more
    have half : y = 1 / 2 := by linarith
    rw [half] at more
    exact more (by decide +kernel)

def halfQuantizer (h : HalfRounding) : Quantizer ℚ ℚ ℚ ℚ where
  maximum := max
  minimum := min
  scaleMin mx mn qmax :=
    let sc := h.round ((mx - mn) / qmax)
    (if sc = 0 then 1 else sc, h.round mn)
  roundDiv x sc mn := rint ((x - mn) / sc)
  zero := 0
  mulAdd q sc mn := q * sc + mn
  cast := id
  maximum_comm := inferInstance
  maximum_assoc := inferInstance
  minimum_comm := inferInstance
  minimum_assoc := inferInstance

variable (h : HalfRounding) {qmax : Nat} {vals : List ℚ} {x mn mx A : ℚ}

theorem HalfRounding.error (y : ℚ) : |h.round y - y| ≤ |y| / 2 ^ 11 + 1 / 2 ^ 25 := by
  have := abs_nonneg y
  rcases h.near y with _ | _ <;> linarith

theorem clamp_error {s m e : ℚ} (least : mn ≤ x) (most : x ≤ mx) (pos : 0 < s) (nonneg : 0 ≤ e) (low : m - mn ≤ e)
    (high : mx - m - qmax * s ≤ e) : |((min (max (rint ((x - m) / s)) 0) qmax).toNat * s + m : ℚ) - x| ≤ s / 2 + e := by
  have near := abs_le.mp (abs_rint_sub ((x - m) / s))
  have exact : (x - m) / s * s = x - m := div_mul_cancel₀ _ pos.ne'
  generalize rint ((x - m) / s) = k at near ⊢
  generalize (x - m) / s = y at near exact
  rw [abs_le]
  rcases lt_or_ge k 0 with negative | natural
  · have : (k : ℚ) ≤ -1 := by exact_mod_cast Int.le_sub_one_of_lt negative
    have : y * s ≤ 0 := mul_nonpos_of_nonpos_of_nonneg (by linarith) pos.le
    rw [max_eq_right negative.le, min_eq_left (Int.natCast_nonneg _), Int.toNat_zero, Nat.cast_zero]
    constructor <;> linarith
  rw [max_eq_left natural]
  rcases le_or_gt k qmax with inside | beyond
  · have level : (k.toNat : ℚ) = k := by exact_mod_cast Int.toNat_of_nonneg natural
    have up : (k - y) * s ≤ 1 / 2 * s := mul_le_mul_of_nonneg_right (by linarith) pos.le
    have down : -(1 / 2) * s ≤ (k - y) * s := mul_le_mul_of_nonneg_right (by linarith) pos.le
    rw [min_eq_left inside, level]
    constructor <;> linarith
  · have : (qmax : ℚ) + 1 ≤ k := by exact_mod_cast beyond
    have : qmax * s ≤ y * s := mul_le_mul_of_nonneg_right (by linarith) pos.le
    rw [min_eq_right beyond.le, Int.toNat_natCast]
    constructor <;> linarith

theorem reduce_of_forall {op : ℚ → ℚ → ℚ} (pick : ∀ a b, op a b = a ∨ op a b = b) {p : ℚ → Prop} (some : vals ≠ [])
    (all : ∀ v ∈ vals, p v) : p (reduce op vals) := by
  cases vals with
  | nil => exact absurd rfl some
  | cons v vals =>
    apply foldlRecOn vals op (all v mem_cons_self)
    intro acc _ y mem
    rcases pick acc y with same | same
    · rwa [same]
    · rw [same]
      exact all y (mem_cons_of_mem _ mem)

theorem half_scale (some : 1 ≤ qmax) (few : qmax ≤ 15) (order : mn ≤ mx) (range : mx - mn ≤ 2 * A) : 0 < ((halfQuantizer h).scaleMin mx mn qmax).1 ∧
      mx - mn - qmax * ((halfQuantizer h).scaleMin mx mn qmax).1 ≤ A / 2 ^ 10 + 15 / 2 ^ 25 := by
  have pos : (0 : ℚ) < qmax := by exact_mod_cast some
  have few : (qmax : ℚ) ≤ 15 := by exact_mod_cast few
  have whole : qmax * ((mx - mn) / qmax) = mx - mn := mul_div_cancel₀ _ pos.ne'
  have step : 0 ≤ (mx - mn) / qmax := div_nonneg (by linarith) pos.le
  have error := h.error ((mx - mn) / qmax)
  have stored := h.nonneg _ step
  dsimp only [halfQuantizer]
  generalize (mx - mn) / qmax = exact at *
  rw [abs_of_nonneg step] at error
  have near := (abs_le.mp error).1
  -- the stored scale is no less than the rounded one, also where 1 stands for 0
  have larger {sc : ℚ} (nonneg : 0 ≤ sc) : 0 < (if sc = 0 then 1 else sc) ∧ sc ≤ if sc = 0 then 1 else sc := by
    split
    · next zero => rw [zero]; decide
    · next nonzero => exact ⟨nonneg.lt_of_ne' nonzero, le_refl _⟩
  refine ⟨(larger stored).1, ?_⟩
  have := mul_le_mul_of_nonneg_left (larger stored).2 pos.le
  have := mul_le_mul_of_nonneg_left near pos.le
  linarith

theorem dequantized_constant (levels : 1 ≤ qmax) (some : vals ≠ []) (constant : ∀ v ∈ vals, v = x) :
    (halfQuantizer h).dequantized x vals qmax = ((halfQuantizer h).groupScaleMin vals qmax).2 ↔ x - h.round x ≤ 1 / 2 := by
  have most : reduce max vals = x := reduce_of_forall max_choice some constant
  have least : reduce min vals = x := reduce_of_forall min_choice some constant
  have stored : (halfQuantizer h).groupScaleMin vals qmax = (1, h.round x) := by
    simp [groupScaleMin, halfQuantizer, most, least, h.zero]
  have zero : (min (max (rint (x - h.round x)) 0) qmax).toNat = 0 ↔ rint (x - h.round x) ≤ 0 := by omega
  rw [← rint_le_zero, ← zero, dequantized, level, stored]
  simp [quantize, halfQuantizer]

/-- A constant group gives back its stored minimum exactly if rounding lowers the value by at most a half. -/
theorem quantization_error {bits : Nat} (width : bits = 2 ∨ bits = 4) (bound : ∀ v ∈ vals, |v| ≤ A) (mem : x ∈ vals) :
    let qz := halfQuantizer h
    let qmax := 2 ^ bits - 1
    let scale := (qz.groupScaleMin vals qmax).1
    let least := (qz.groupScaleMin vals qmax).2
    qz.level x vals qmax ≤ qmax ∧ |qz.dequantized x vals qmax - x| ≤ scale / 2 + A / 500 + 1 / 10 ^ 6 ∧
      ((∀ v ∈ vals, v = x) → (qz.dequantized x vals qmax = least ↔ x - h.round x ≤ 1 / 2)) := by
  intro qz qmax scale least
  have some : vals ≠ [] := ne_nil_of_mem mem
  have large : x ≤ reduce max vals := rel_reduce max le_refl (fun _ _ _ => le_trans) le_max_left le_max_right mem
  have small : reduce min vals ≤ x :=
    rel_reduce min (r := (· ≥ ·)) le_refl (fun _ _ _ first second => le_trans second first) min_le_left min_le_right mem
  have high : |reduce max vals| ≤ A := reduce_of_forall (p := (|·| ≤ A)) max_choice some bound
  have low : |reduce min vals| ≤ A := reduce_of_forall (p := (|·| ≤ A)) min_choice some bound
  have range : reduce max vals - reduce min vals ≤ 2 * A := by linarith [(abs_le.mp high).2, (abs_le.mp low).1]
  have levels : 1 ≤ qmax ∧ qmax ≤ 15 := by rcases width with rfl | rfl <;> decide
  obtain ⟨pos, scaled⟩ := half_scale h levels.1 levels.2 (small.trans large) range
  change _ - _ - _ * scale ≤ _ at scaled
  have stored := abs_le.mp (h.error (reduce min vals))
  change _ ≤ least - _ ∧ least - _ ≤ _ at stored
  refine ⟨qz.quantize_le .., ?_, dequantized_constant h levels.1 some⟩
  rw [add_assoc]
  exact clamp_error small large pos (by linarith) (by linarith) (by linarith)

def coarse : HalfRounding where
  round y := if y = 40010 then 40000 else y
  near y := by split <;> simp_all; norm_num [abs_le]
  zero := by decide
  nonneg y nonneg := by split <;> simp [nonneg]

theorem quantization_error_coarse : let qz := halfQuantizer coarse
    let vals : List ℚ := 0 :: replicate 31 40010
    |qz.dequantized 40010 vals 15 - 40010| ≤ (qz.groupScaleMin vals 15).1 / 2 + 40010 / 500 + 1 / 10 ^ 6 ∧
      qz.dequantized 7 (replicate 32 7) 15 = (qz.groupScaleMin (replicate 32 7) 15).2 := by
  intro qz vals
  have bound : ∀ v ∈ vals, |v| ≤ 40010 := by
    intro v mem
    rcases mem_cons.mp mem with rfl | mem
    · norm_num
    · rw [(mem_replicate.mp mem).2]
      norm_num
  have seven : ∀ v ∈ replicate 32 (7 : ℚ), v = 7 := fun v mem => (mem_replicate.mp mem).2
  have ranged := quantization_error coarse (.inr rfl) bound (mem_cons_of_mem 0 (mem_replicate.mpr ⟨by decide, rfl⟩))
  have constant := quantization_error coarse (.inr rfl) (fun v mem => (congrArg abs (seven v mem)).le) (mem_replicate.mpr ⟨by decide, rfl⟩)
  exact ⟨ranged.2.1, (constant.2.2 seven).mpr (by norm_num [coarse])⟩

theorem constant_group_above_minimum : ((halfQuantizer coarse).groupScaleMin (replicate 32 40010) 15).2 = 40000 ∧
    (halfQuantizer coarse).dequantized 40010 (replicate 32 40010) 15 = 40010 := by
  decide +kernel

end TriaxialKV
