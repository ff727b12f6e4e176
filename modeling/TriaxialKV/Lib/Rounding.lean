import Mathlib.Algebra.Order.Floor.Ring
import Mathlib.Algebra.Order.Ring.Unbundled.Rat
import Mathlib.Data.Rat.Floor
import Mathlib.Tactic.Linarith
import Mathlib.Tactic.NormNum

/-!
# Rounded arithmetic

What is used of a rounding holds for 53 significant bits: it is monotone, exact on small integers and near
its argument.
-/

namespace TriaxialKV

structure Rounding where
  round : ℚ → ℚ
  mono : Monotone round
  exact : ∀ n : ℤ, |n| ≤ 2 ^ 53 → round n = n
  near : ∀ x, 0 ≤ x → |round x - x| ≤ x / 2 ^ 53

namespace Rounding

def none : Rounding where
  round x := x
  mono _ _ le := le
  exact _ _ := rfl
  near x nonneg := by
    rw [sub_self, abs_zero]
    exact div_nonneg nonneg (by norm_num)

variable (R : Rounding) {n : ℤ} {x : ℚ}

theorem le_round (small : |n| ≤ 2 ^ 53) (le : n ≤ x) : n ≤ R.round x := by
  rw [← R.exact n small]
  exact R.mono le

theorem round_le (small : |n| ≤ 2 ^ 53) (le : x ≤ n) : R.round x ≤ n := by
  rw [← R.exact n small]
  exact R.mono le

theorem sub_one_lt (small : |n - 1| ≤ 2 ^ 53) (reached : n ≤ R.round x) : n - 1 < x := by
  by_contra high
  have := R.round_le small (x := x) (by push_cast; linarith)
  push_cast at this
  linarith

theorem round_nonneg (nonneg : 0 ≤ x) : 0 ≤ R.round x := by
  have := R.le_round (n := 0) (by norm_num) (by simpa using nonneg)
  simpa using this

end Rounding

end TriaxialKV
