import TriaxialKV.Lib.Stores
import Mathlib.Algebra.Order.BigOperators.Group.List
import Mathlib.Algebra.Order.Ring.Int

/-!
# Rows of different widths

Rows laid out one behind the other: row `i` has `width i` places and starts where the rows before it end.
-/

namespace TriaxialKV.Rows
open List Stores

def start (width : Nat → Nat) (i : Nat) : Nat := ((range i).map width).sum

variable {β : Type}

section
variable {width : Nat → Nat} {i i' j j' n : Nat}

theorem start_succ (width : Nat → Nat) (i : Nat) : start width (i + 1) = start width i + width i := by
  simp [start, range_succ]

theorem start_mono (width : Nat → Nat) (le : i ≤ n) : start width i ≤ start width n := by
  obtain ⟨more, rfl⟩ := Nat.exists_eq_add_of_le le
  induction more with
  | zero => exact le_refl _
  | succ more ih =>
    rw [← add_assoc, start_succ]
    have := ih (by omega)
    omega

theorem start_const (w i : Nat) : start (fun _ => w) i = i * w := by
  simp [start]

theorem start_congr {width' : Nat → Nat} (same : ∀ k < i, width k = width' k) : start width i = start width' i := by
  unfold start
  rw [map_congr_left (fun k member => same k (mem_range.mp member))]

theorem start_add_lt (row : i < n) (column : j < width i) : start width i + j < start width n := by
  have next := start_succ width i
  have : start width (i + 1) ≤ start width n := start_mono width row
  omega

theorem start_inj (column : j < width i) (column' : j' < width i') (same : start width i + j = start width i' + j') : i = i' ∧ j = j' := by
  rcases Nat.lt_trichotomy i i' with less | rfl | more
  · have := start_add_lt less column
    omega
  · exact ⟨rfl, by omega⟩
  · have := start_add_lt more column'
    omega

theorem flatMap_range (width : Nat → Nat) (n : Nat) :
    (range n).flatMap (fun i => (range (width i)).map (start width i + ·)) = range (start width n) := by
  induction n with
  | zero => rfl
  | succ n ih =>
    rw [range_succ, flatMap_append, ih, start_succ, range_add, flatMap_singleton]

theorem flatMap_blocks {w : Nat} (pos : 0 < w) (n : Nat) :
    (range ((n + w - 1) / w)).flatMap (fun block => ((range w).map (block * w + ·)).filter (fun offset => offset < n)) = range n := by
  have enough : n ≤ (n + w - 1) / w * w := by
    have whole := Nat.div_add_mod' (n + w - 1) w
    have rest := Nat.mod_lt (n + w - 1) pos
    omega
  have blocks := flatMap_range (fun _ => w) ((n + w - 1) / w)
  simp only [start_const] at blocks
  obtain ⟨_, bound⟩ := Nat.exists_eq_add_of_le enough
  rw [← filter_flatMap, blocks, bound, range_add, filter_append, filter_eq_self.mpr (by simp), filter_eq_nil_iff.mpr (by simp), append_nil]

theorem flatMap_const (w n : Nat) (f : Nat → Nat → β) :
    (range n).flatMap (fun i => (range w).map (f i)) = (range (n * w)).map (fun k => f (k / w) (k % w)) := by
  have places := flatMap_range (fun _ => w) n
  simp only [start_const] at places
  rw [← places, map_flatMap]
  refine flatMap_congr (fun i _ => ?_)
  rw [map_map]
  refine map_congr_left (fun j lt => ?_)
  have small := mem_range.mp lt
  rw [Function.comp_apply, Nat.mul_add_mod', Nat.mod_eq_of_lt small, mul_comm, Nat.mul_add_div (by omega), Nat.div_eq_of_lt small, add_zero]

theorem filter_range {m : Nat} (le : n ≤ m) : (range m).filter (fun offset => offset < n) = range n := by
  obtain ⟨_, rfl⟩ := Nat.exists_eq_add_of_le le
  rw [range_add, filter_append, filter_eq_self.mpr (by simp), filter_eq_nil_iff.mpr (by simp), append_nil]

end

theorem getElem!_map_range [Inhabited β] (f : Nat → β) {i n : Nat} (lt : i < n) : ((range n).map f)[i]! = f i := by
  rw [getElem!_pos _ _ (by simpa using lt), getElem_map, getElem_range]

theorem flatMap_take_drop (width : Nat → Nat) (xs : List β) (n : Nat) :
    (range n).flatMap (fun k => (xs.drop (start width k)).take (width k)) = xs.take (start width n) := by
  induction n with
  | zero => rfl
  | succ n ih => rw [range_succ, flatMap_append, ih, flatMap_singleton, start_succ, take_add]

theorem take_drop_flatMap {width : Nat → Nat} {row : Nat → List β} (length : ∀ i, (row i).length = width i) {k n : Nat}
    (lt : k < n) : (((range n).flatMap row).drop (start width k)).take (width k) = row k := by
  obtain ⟨_, rfl⟩ := Nat.exists_eq_add_of_le (Nat.succ_le_of_lt lt)
  have before : ((range k).flatMap row).length = start width k := by simp [length_flatMap, length, start]
  rw [range_add, flatMap_append, range_succ, flatMap_append, flatMap_singleton, append_assoc, drop_left' before, take_left' (length k)]

theorem zip_flatMap {γ : Type} {row : Nat → List β} {row' : Nat → List γ} {n : Nat} (same : ∀ k < n, (row k).length = (row' k).length) :
    ((range n).flatMap row).zip ((range n).flatMap row') = (range n).flatMap (fun k => (row k).zip (row' k)) := by
  induction n with
  | zero => rfl
  | succ n ih =>
    have before : ((range n).flatMap row).length = ((range n).flatMap row').length := by
      rw [length_flatMap, length_flatMap]
      exact congrArg List.sum (map_congr_left (fun k member => same k (by have := mem_range.mp member; omega)))
    rw [range_succ, flatMap_append, flatMap_append, flatMap_append, flatMap_singleton, flatMap_singleton,
      flatMap_singleton, zip_append before, ih (fun k below => same k (by omega))]

section
variable {α : Type} {mem mem' : Nat → α} {width : Nat → Nat} {f : Nat → Nat → α} {n : Nat}

def stores (width : Nat → Nat) (f : Nat → Nat → α) (n : Nat) : List (Nat × α) :=
  (range n).flatMap (fun i => (range (width i)).map (fun j => (start width i + j, f i j)))

theorem map_fst_stores (width : Nat → Nat) (f : Nat → Nat → α) (n : Nat) : (stores width f n).map Prod.fst = range (start width n) := by
  rw [← flatMap_range, stores, map_flatMap]
  simp only [map_map, Function.comp_def]

theorem read_stores (launch : Launch mem (stores width f n) mem') {i j : Nat} (row : i < n) (column : j < width i) :
    mem' (start width i + j) = f i j := by
  refine launch.read (by rw [map_fst_stores]; exact nodup_range) ?_
  exact mem_flatMap.mpr ⟨i, mem_range.mpr row, mem_map.mpr ⟨j, mem_range.mpr column, rfl⟩⟩

theorem map_read_stores (launch : Launch mem (stores width f n) mem') :
    (range (start width n)).map mem' = (range n).flatMap (fun i => (range (width i)).map (f i)) := by
  rw [← flatMap_range, map_flatMap]
  refine flatMap_congr (fun i row => ?_)
  rw [map_map]
  exact map_congr_left (fun j column => read_stores launch (mem_range.mp row) (mem_range.mp column))

end

end TriaxialKV.Rows
