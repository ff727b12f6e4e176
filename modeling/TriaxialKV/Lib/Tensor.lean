import Mathlib.Algebra.Order.BigOperators.Group.List
import Mathlib.Algebra.Order.Ring.Int
import Mathlib.Data.Bool.Count
import Mathlib.Data.List.Count
import Mathlib.Data.List.Nodup
import Mathlib.Data.List.Perm.Basic
import Mathlib.Data.List.Sort
import Mathlib.Data.List.Dedup
import Mathlib.Tactic.Common

/-! # One-dimensional tensor operations -/

namespace TriaxialKV.Tensor
open List

variable {i : Nat} {idx : List Nat} {mask : List Bool}

variable {α β : Type}

def cumsumFrom (start : Int) : List Int → List Int
  | [] => []
  | x :: xs => (start + x) :: cumsumFrom (start + x) xs

def cumsum (xs : List Int) : List Int := cumsumFrom 0 xs

def maskInt (mask : List Bool) : List Int := mask.map (fun b => if b then 1 else 0)

def repeatInterleave (xs : List α) (reps : List Nat) : List α := (zipWith (fun x n => replicate n x) xs reps).flatten

/-- `xs[idx]` for an index vector. -/
def gather [Inhabited α] (xs : List α) (idx : List Nat) : List α := idx.map (fun i => xs[i]!)

/-- `xs[mask]` for a Boolean mask. -/
def select : List Bool → List α → List α
  | true :: mask, x :: xs => x :: select mask xs
  | false :: mask, _ :: xs => select mask xs
  | _, _ => []

def nonzero : List Bool → List Nat
  | [] => []
  | true :: mask => 0 :: (nonzero mask).map (· + 1)
  | false :: mask => (nonzero mask).map (· + 1)

def bincount (xs : List Nat) (minlength : Nat) : List Nat := (range minlength).map (fun v => xs.count v)

def unique (xs : List Nat) : List Nat := xs.dedup.insertionSort (· ≤ ·)

/-- `xs[idx] = vals`, one entry after the other. -/
def indexPut (xs : List α) (idx : List Nat) (vals : List α) : List α := (idx.zip vals).foldl (fun out entry => out.set entry.1 entry.2) xs

def argsort (xs : List Nat) : List Nat := (range xs.length).insertionSort (fun i j => xs[i]! ≤ xs[j]!)

/-- `xs.view(rows, cols)`. -/
def view (xs : List α) (rows cols : Nat) : List (List α) := (range rows).map (fun r => (xs.drop (r * cols)).take cols)

def reduce [Inhabited α] (op : α → α → α) : List α → α
  | [] => default
  | x :: xs => xs.foldl op x

/-! ### Running sums -/

@[simp] theorem length_cumsumFrom (start : Int) (xs : List Int) : (cumsumFrom start xs).length = xs.length := by
  induction xs generalizing start with
  | nil => rfl
  | cons x xs ih => simp [cumsumFrom, ih]

@[simp] theorem length_cumsum (xs : List Int) : (cumsum xs).length = xs.length := length_cumsumFrom 0 xs

theorem cumsumFrom_eq_map (start : Int) (xs : List Int) : cumsumFrom start xs = (cumsum xs).map (start + ·) := by
  have shifted : ∀ (xs : List Int) (a b : Int), cumsumFrom (a + b) xs = (cumsumFrom b xs).map (a + ·) := by
    intro xs
    induction xs with
    | nil => intro a b; rfl
    | cons x xs ih => intro a b; simp [cumsumFrom, ← ih, Int.add_assoc]
  simpa [cumsum] using shifted xs start 0

theorem cumsumFrom_append (start : Int) (xs ys : List Int) : cumsumFrom start (xs ++ ys) = cumsumFrom start xs ++ cumsumFrom (start + xs.sum) ys := by
  induction xs generalizing start with
  | nil => simp [cumsumFrom]
  | cons x xs ih => simp [cumsumFrom, ih, Int.add_assoc]

theorem cumsum_append (xs ys : List Int) : cumsum (xs ++ ys) = cumsum xs ++ (cumsum ys).map (xs.sum + ·) := by
  rw [cumsum, cumsumFrom_append, cumsumFrom_eq_map (0 + xs.sum), Int.zero_add]
  rfl

theorem cumsum_cons (x : Int) (xs : List Int) : cumsum (x :: xs) = x :: (cumsum xs).map (x + ·) := by
  simpa [cumsum, cumsumFrom] using cumsumFrom_eq_map x xs

theorem zero_cons_cumsum (xs : List Int) (k : Nat) (bound : k ≤ xs.length) : (0 :: cumsum xs)[k]! = (xs.take k).sum := by
  induction xs generalizing k with
  | nil =>
    have zero : k = 0 := by simpa using bound
    simp [zero]
  | cons x xs ih =>
    cases k with
    | zero => simp
    | succ k =>
      have lt : k < (0 :: cumsum xs).length := by simpa [Nat.lt_succ_iff] using bound
      have mapped : x :: (cumsum xs).map (x + ·) = (0 :: cumsum xs).map (x + ·) := by simp
      have rest := ih k (by simpa using bound)
      rw [getElem!_pos (0 :: cumsum xs) k lt] at rest
      rw [cumsum_cons, getElem!_cons_succ, mapped, getElem!_pos _ k (by rw [length_map]; exact lt), getElem_map, rest, take_succ_cons, sum_cons]

@[simp] theorem length_maskInt (mask : List Bool) : (maskInt mask).length = mask.length := by
  simp [maskInt]

theorem maskInt_append (m₁ m₂ : List Bool) : maskInt (m₁ ++ m₂) = maskInt m₁ ++ maskInt m₂ := by
  simp [maskInt]

theorem sum_maskInt (mask : List Bool) : (maskInt mask).sum = mask.count true := by
  induction mask with
  | nil => rfl
  | cons b mask ih => cases b <;> simp_all [maskInt]; omega

/-! ### Repetition -/

@[simp] theorem repeat_cons (x : α) (xs : List α) (n : Nat) (reps : List Nat) :
    repeatInterleave (x :: xs) (n :: reps) = replicate n x ++ repeatInterleave xs reps := rfl

theorem repeat_map (f : α → β) (xs : List α) (reps : List Nat) : repeatInterleave (xs.map f) reps = (repeatInterleave xs reps).map f := by
  induction xs generalizing reps with
  | nil => rfl
  | cons x xs ih =>
    cases reps with
    | nil => rfl
    | cons n reps => simp [ih]

theorem zip_replicate_right (xs : List α) (y : β) (n : Nat) (same : xs.length = n) : xs.zip (replicate n y) = xs.map (fun x => (x, y)) := by
  subst same
  induction xs with
  | nil => rfl
  | cons x xs ih => simp [replicate_succ, ih]

theorem mem_repeat {x : α} {xs : List α} {reps : List Nat} (mem : x ∈ repeatInterleave xs reps) : x ∈ xs := by
  induction xs generalizing reps with
  | nil => exact mem
  | cons y ys ih =>
    cases reps with
    | nil => simp [repeatInterleave] at mem
    | cons n reps =>
      rw [repeat_cons] at mem
      rcases mem_append.mp mem with head | tail
      · rw [eq_of_mem_replicate head]
        exact mem_cons_self
      · exact mem_cons_of_mem _ (ih tail)

/-! ### Masks and index lists -/

section
variable [Inhabited α] (xs : List α)
include xs

@[simp] theorem length_gather (idx : List Nat) : (gather xs idx).length = idx.length := by
  simp [gather]

theorem gather_subset (lt : ∀ i ∈ idx, i < xs.length) : gather xs idx ⊆ xs := by
  intro x mem
  obtain ⟨i, index, rfl⟩ := mem_map.mp mem
  rw [getElem!_pos xs i (lt i index)]
  exact getElem_mem _

theorem gather_getElem! (lt : i < idx.length) : (gather xs idx)[i]! = xs[idx[i]!]! := by
  rw [getElem!_pos idx i lt, getElem!_pos (gather xs idx) i (by simpa using lt)]
  simp only [gather, getElem_map]

theorem gather_gather {order : List Nat} (lt : ∀ i ∈ order, i < idx.length) : gather xs (gather idx order) = gather (gather xs idx) order := by
  unfold gather
  rw [map_map]
  apply map_congr_left
  intro i mem
  exact (gather_getElem! xs (lt i mem)).symm

theorem gather_range : gather xs (range xs.length) = xs := by
  apply ext_getElem
  · simp
  · intro i _ lt
    simp only [gather, getElem_map, getElem_range]
    exact getElem!_pos xs i lt

end

theorem argsort_perm (xs : List Nat) : (argsort xs).Perm (range xs.length) := perm_insertionSort _ _

theorem gather_argsort_perm (xs : List Nat) : (gather xs (argsort xs)).Perm xs := by
  have moved : (gather xs (argsort xs)).Perm (gather xs (range xs.length)) := (argsort_perm xs).map _
  rwa [gather_range] at moved

theorem gather_argsort_sorted (xs : List Nat) : (gather xs (argsort xs)).Pairwise (· ≤ ·) := by
  exact pairwise_map.mpr (pairwise_insertionSort _ _)

theorem length_view (xs : List α) (rows cols : Nat) : (view xs rows cols).length = rows := by simp [view]

theorem view_getElem! [Inhabited α] (xs : List α) {rows cols r c : Nat} (row : r < rows) (col : c < cols) :
    ((view xs rows cols)[r]!)[c]! = xs[r * cols + c]! := by
  rw [getElem!_pos (view xs rows cols) r (by simpa [view] using row)]
  simp [view, getElem!_eq_getElem?_getD, col]

theorem mem_unique {xs : List Nat} {x : Nat} : x ∈ unique xs ↔ x ∈ xs := by simp [unique]

theorem nodup_unique (xs : List Nat) : (unique xs).Nodup := (perm_insertionSort _ _).nodup_iff.mpr (nodup_dedup xs)

theorem select_append {m₁ m₂ : List Bool} {xs ys : List α} (same : m₁.length = xs.length) :
    select (m₁ ++ m₂) (xs ++ ys) = select m₁ xs ++ select m₂ ys := by
  induction m₁ generalizing xs with
  | nil => cases xs with
    | nil => rfl
    | cons x xs => simp at same
  | cons b m₁ ih =>
    cases xs with
    | nil => simp at same
    | cons x xs => cases b <;> simp_all [select]

theorem select_map (f : α → β) (mask : List Bool) (xs : List α) : select mask (xs.map f) = (select mask xs).map f := by
  induction mask generalizing xs with
  | nil => cases xs <;> rfl
  | cons b mask ih => cases xs <;> cases b <;> simp_all [select]

theorem select_replicate (mask : List Bool) (x : α) : select mask (replicate mask.length x) = replicate (mask.count true) x := by
  induction mask with
  | nil => rfl
  | cons b mask ih => cases b <;> simp_all [select, replicate_succ]

theorem select_map_mask (p : α → Bool) (xs : List α) : select (xs.map p) xs = xs.filter p := by
  induction xs with
  | nil => rfl
  | cons x xs ih => cases h : p x <;> simp_all [select]

theorem gather_nonzero [Inhabited α] {xs : List α} (same : mask.length = xs.length) : gather xs (nonzero mask) = select mask xs := by
  induction mask generalizing xs with
  | nil => cases xs <;> rfl
  | cons b mask ih =>
    cases xs with
    | nil => simp at same
    | cons x xs =>
      have rest := @ih xs (by simpa using same)
      simp only [gather] at rest ⊢
      cases b <;> simp [nonzero, select, ← rest, map_map, Function.comp_def]

theorem nonzero_inside (mem : i ∈ nonzero mask) : i < mask.length := by
  induction mask generalizing i with
  | nil => simp [nonzero] at mem
  | cons b mask ih =>
    cases b <;> simp only [nonzero, mem_cons, mem_map] at mem
    · obtain ⟨j, inner, rfl⟩ := mem
      simpa using ih inner
    · rcases mem with rfl | ⟨j, inner, rfl⟩
      · simp
      · simpa using ih inner

theorem mem_nonzero : i ∈ nonzero mask ↔ mask[i]? = some true := by
  induction mask generalizing i with
  | nil => simp [nonzero]
  | cons b mask ih => cases b <;> cases i <;> simp [nonzero, ih]

theorem mem_nonzero_map [Inhabited α] {p : α → Bool} {xs : List α} : i ∈ nonzero (xs.map p) ↔ i < xs.length ∧ p xs[i]! = true := by
  rw [mem_nonzero, getElem?_map, Option.map_eq_some_iff]
  constructor
  · rintro ⟨x, found, holds⟩
    obtain ⟨lt, rfl⟩ := List.getElem?_eq_some_iff.mp found
    exact ⟨lt, by rwa [getElem!_pos xs i lt]⟩
  · rintro ⟨lt, holds⟩
    rw [getElem!_pos xs i lt] at holds
    exact ⟨_, getElem?_eq_getElem lt, holds⟩

theorem nodup_nonzero (mask : List Bool) : (nonzero mask).Nodup := by
  induction mask with
  | nil => exact nodup_nil
  | cons b mask ih =>
    have shifted : ((nonzero mask).map (· + 1)).Nodup := ih.map (fun _ _ h => by simpa using h)
    cases b with
    | false => exact shifted
    | true => exact nodup_cons.mpr ⟨by simp, shifted⟩

/-! ### Keeping the first entries of a mask -/

/-- The mask that keeps the first `t` true entries. -/
def keepFirst : Nat → List Bool → List Bool
  | _, [] => []
  | t, false :: mask => false :: keepFirst t mask
  | 0, true :: mask => false :: keepFirst 0 mask
  | t + 1, true :: mask => true :: keepFirst t mask

@[simp] theorem length_keepFirst (t : Nat) (mask : List Bool) : (keepFirst t mask).length = mask.length := by
  fun_induction keepFirst t mask <;> simp_all

theorem count_keepFirst (t : Nat) (mask : List Bool) : (keepFirst t mask).count true = min t (mask.count true) := by
  fun_induction keepFirst t mask <;> simp_all

theorem keepFirst_of_le {t : Nat} (all : mask.count true ≤ t) : keepFirst t mask = mask := by
  fun_induction keepFirst t mask <;> simp_all

theorem keepFirst_append (t : Nat) (mask rest : List Bool) :
    keepFirst t (mask ++ rest) = keepFirst t mask ++ keepFirst (t - mask.count true) rest := by
  fun_induction keepFirst t mask <;> simp_all [keepFirst, Nat.add_sub_add_right]

theorem keepFirst_keepFirst (s t : Nat) (mask : List Bool) : keepFirst s (keepFirst t mask) = keepFirst (min s t) mask := by
  fun_induction keepFirst t mask generalizing s with
  | case1 => simp [keepFirst]
  | case2 t mask ih => simp [keepFirst, ih]
  | case3 mask ih => simp [keepFirst, ih]
  | case4 t mask ih => cases s <;> simp [keepFirst, ih]

theorem zipWith_keepFirst (mask : List Bool) (start limit : Int) :
    zipWith (fun b c => b && decide (c - 1 < limit)) mask (cumsumFrom start (maskInt mask)) = keepFirst (limit - start).toNat mask := by
  induction mask generalizing start with
  | nil => rfl
  | cons b mask ih =>
    cases b with
    | false =>
      have rest := ih start
      simp only [maskInt, map_cons, cumsumFrom, zipWith_cons_cons] at rest ⊢
      rw [if_neg Bool.false_ne_true, Int.add_zero, keepFirst, Bool.false_and, rest]
    | true =>
      have rest := ih (start + 1)
      simp only [maskInt, map_cons, cumsumFrom, zipWith_cons_cons] at rest ⊢
      by_cases room : start < limit
      · obtain ⟨t, found⟩ : ∃ t, (limit - start).toNat = t + 1 := ⟨(limit - start - 1).toNat, by omega⟩
        rw [found, keepFirst, show t = (limit - (start + 1)).toNat by omega, ← rest]
        simp [room]
      · rw [show (limit - start).toNat = 0 by omega, keepFirst, show 0 = (limit - (start + 1)).toNat by omega, ← rest]
        simp [room]

theorem select_cumsumFrom_maskInt (mask : List Bool) (start : Int) : select mask (cumsumFrom start (maskInt mask)) =
      (range (mask.count true)).map (fun i : Nat => start + 1 + (i : Int)) := by
  induction mask generalizing start with
  | nil => rfl
  | cons b mask ih =>
    cases b with
    | false => simpa [maskInt, cumsumFrom, select] using ih start
    | true =>
      have rest := ih (start + 1)
      simp only [maskInt] at rest
      simp only [maskInt, map_cons, cumsumFrom, select, if_true, rest, count_cons_self, range_succ_eq_map, map_map]
      simp only [List.cons.injEq, Int.natCast_zero, Int.add_zero, true_and]
      apply map_congr_left
      intro i _
      simp only [Function.comp_apply, Nat.succ_eq_add_one]
      omega

theorem select_keepFirst (t : Nat) (mask : List Bool) (xs : List α) (same : mask.length = xs.length) :
    select (keepFirst t mask) xs = (select mask xs).take t := by
  fun_induction keepFirst t mask generalizing xs with
  | case1 => cases xs <;> simp_all [select]
  | case2 t mask ih => cases xs <;> simp_all [select]
  | case3 mask ih =>
    cases xs with
    | nil => simp at same
    | cons x xs => simpa [select] using ih xs (by simpa using same)
  | case4 t mask ih =>
    cases xs with
    | nil => simp at same
    | cons x xs => simpa [select] using ih xs (by simpa using same)

theorem count_zipWith_and_compl {f g : β → Bool} (compl : ∀ x, g x = !f x) (mask : List Bool) (xs : List β) (same : mask.length = xs.length) :
    (zipWith (fun b x => b && f x) mask xs).count true + (zipWith (fun b x => b && g x) mask xs).count true = mask.count true := by
  induction mask generalizing xs with
  | nil => rfl
  | cons b mask ih =>
    cases xs with
    | nil => simp at same
    | cons x xs =>
      have rest := ih xs (by simpa using same)
      cases b <;> cases test : f x <;> simp [compl, test] at rest ⊢ <;> omega

/-! ### Complementary indexed writes -/

/-- The vector that takes the next entry of `xs` where the mask holds and of `ys` elsewhere. -/
def mergeMask : List Bool → List α → List α → List α
  | true :: mask, x :: xs, ys => x :: mergeMask mask xs ys
  | false :: mask, xs, y :: ys => y :: mergeMask mask xs ys
  | _, _, _ => []

theorem indexPut_cons (x : α) (out : List α) (idx : List Nat) (vals : List α) :
    indexPut (x :: out) (idx.map (· + 1)) vals = x :: indexPut out idx vals := by
  induction idx generalizing out vals with
  | nil => rfl
  | cons i idx ih =>
    cases vals with
    | nil => rfl
    | cons v vals => simpa [indexPut] using ih (out.set i v) vals

theorem indexPut_zero (x v : α) (out : List α) (idx : List Nat) (vals : List α) :
    indexPut (x :: out) (0 :: idx.map (· + 1)) (v :: vals) = v :: indexPut out idx vals := by
  simpa [indexPut] using indexPut_cons v out idx vals

theorem indexPut_indexPut (mask : List Bool) (out xs ys : List α) (size : out.length = mask.length)
    (trues : xs.length = mask.count true) (falses : ys.length = mask.count false) :
    indexPut (indexPut out (nonzero mask) xs) (nonzero (mask.map not)) ys = mergeMask mask xs ys := by
  induction mask generalizing out xs ys with
  | nil =>
    have empty : out = [] := length_eq_zero_iff.mp size
    simp [empty, nonzero, indexPut, mergeMask]
  | cons b mask ih =>
    cases out with
    | nil => simp at size
    | cons o out =>
      have size' : out.length = mask.length := by simpa using size
      cases b with
      | true =>
        cases xs with
        | nil => simp at trues
        | cons x xs =>
          simp only [map_cons, Bool.not_true, nonzero, indexPut_zero, indexPut_cons, mergeMask]
          rw [ih out xs ys size' (by simpa using trues) (by simpa using falses)]
      | false =>
        cases ys with
        | nil => simp at falses
        | cons y ys =>
          simp only [map_cons, Bool.not_false, nonzero, indexPut_cons, indexPut_zero, mergeMask]
          rw [ih out xs ys size' (by simpa using trues) (by simpa using falses)]

theorem mergeMask_append (mask rest : List Bool) (xs ys : List α) (trues : mask.count true ≤ xs.length) (falses : mask.count false ≤ ys.length) :
    mergeMask (mask ++ rest) xs ys = mergeMask mask xs ys ++ mergeMask rest (xs.drop (mask.count true)) (ys.drop (mask.count false)) := by
  induction mask generalizing xs ys with
  | nil => simp [mergeMask]
  | cons b mask ih =>
    cases b with
    | true =>
      cases xs with
      | nil => simp at trues
      | cons x xs => simp [mergeMask, ih xs ys (by simpa using trues) (by simpa using falses)]
    | false =>
      cases ys with
      | nil => simp at falses
      | cons y ys => simp [mergeMask, ih xs ys (by simpa using trues) (by simpa using falses)]

theorem mergeMask_ignore (mask : List Bool) (xs ys more more' : List α) (trues : mask.count true ≤ xs.length)
    (falses : mask.count false ≤ ys.length) : mergeMask mask (xs ++ more) (ys ++ more') = mergeMask mask xs ys := by
  induction mask generalizing xs ys with
  | nil => simp [mergeMask]
  | cons b mask ih =>
    cases b with
    | true =>
      cases xs with
      | nil => simp at trues
      | cons x xs => simp [mergeMask, ih xs ys (by simpa using trues) (by simpa using falses)]
    | false =>
      cases ys with
      | nil => simp at falses
      | cons y ys => simp [mergeMask, ih xs ys (by simpa using trues) (by simpa using falses)]

theorem mergeMask_keepFirst_zero (mask : List Bool) (xs xs' ys : List α) :
    mergeMask (keepFirst 0 mask) xs ys = mergeMask (keepFirst 0 mask) xs' ys := by
  induction mask generalizing ys with
  | nil => simp [keepFirst, mergeMask]
  | cons b mask ih => cases b <;> cases ys <;> simp [keepFirst, mergeMask, ih]

theorem mergeMask_perm (mask : List Bool) (xs ys : List α) (trues : xs.length = mask.count true) (falses : ys.length = mask.count false) :
    (mergeMask mask xs ys).Perm (xs ++ ys) := by
  induction mask generalizing xs ys with
  | nil =>
    have noX : xs = [] := length_eq_zero_iff.mp trues
    have noY : ys = [] := length_eq_zero_iff.mp falses
    simp [noX, noY, mergeMask]
  | cons b mask ih =>
    cases b with
    | true =>
      cases xs with
      | nil => simp at trues
      | cons x xs => exact (ih xs ys (by simpa using trues) (by simpa using falses)).cons x
    | false =>
      cases ys with
      | nil => simp at falses
      | cons y ys =>
        have rest := ih xs ys (by simpa using trues) (by simpa using falses)
        exact (rest.cons y).trans perm_middle.symm

/-! ### Reductions -/

section
variable [Inhabited α] (op : α → α → α)

theorem reduce_append [Std.Associative op] {xs ys : List α} (left : xs ≠ []) (right : ys ≠ []) :
    reduce op (xs ++ ys) = op (reduce op xs) (reduce op ys) := by
  obtain ⟨x, xs, rfl⟩ := exists_cons_of_ne_nil left
  obtain ⟨y, ys, rfl⟩ := exists_cons_of_ne_nil right
  simp only [reduce, cons_append, foldl_append, foldl_cons]
  rw [foldl_assoc]

theorem reduce_perm [Std.Associative op] [Std.Commutative op] {xs ys : List α} (perm : xs.Perm ys) : reduce op xs = reduce op ys := by
  induction perm with
  | nil => rfl
  | cons x inner _ => exact inner.foldl_op_eq
  | swap x y xs =>
    have comm : op x y = op y x := Std.Commutative.comm x y
    simp only [reduce, foldl_cons, comm]
  | trans _ _ first second => exact first.trans second

theorem rel_reduce {r : α → α → Prop} (refl : ∀ a, r a a) (trans : ∀ a b c, r a b → r b c → r a c)
    (left : ∀ a b, r a (op a b)) (right : ∀ a b, r b (op a b)) {xs : List α} {v : α} (mem : v ∈ xs) : r v (reduce op xs) := by
  have start : ∀ (xs : List α) (x : α), r x (xs.foldl op x) := by
    intro xs
    induction xs with
    | nil => exact refl
    | cons y xs ih => exact fun x => trans _ _ _ (left x y) (ih (op x y))
  have inner : ∀ (xs : List α) (x : α), v ∈ xs → r v (xs.foldl op x) := by
    intro xs
    induction xs with
    | nil => exact nofun
    | cons y xs ih =>
      intro x later
      obtain rfl | later := mem_cons.mp later
      · exact trans _ _ _ (right x v) (start xs _)
      · exact ih _ later
  cases xs with
  | nil => cases mem
  | cons x xs =>
    obtain rfl | later := mem_cons.mp mem
    · exact start xs v
    · exact inner xs x later

theorem reduce_two [Std.Associative op] [Std.Commutative op] (f : Nat → α) :
    op (reduce op ((range 16).map (fun b => f (2 * b)))) (reduce op ((range 16).map (fun b => f (2 * b + 1)))) = reduce op ((range 32).map f) := by
  have order : ((range 16).map (fun b => 2 * b) ++ (range 16).map (fun b => 2 * b + 1)).Perm (range 32) := by
    decide
  rw [← reduce_append op (by simp) (by simp)]
  refine reduce_perm op ?_
  simpa [Function.comp_def] using order.map f

theorem reduce_four [Std.Associative op] [Std.Commutative op] (f : Nat → α) :
    op (op (reduce op ((range 8).map (fun b => f (4 * b)))) (reduce op ((range 8).map (fun b => f (4 * b + 1)))))
        (op (reduce op ((range 8).map (fun b => f (4 * b + 2)))) (reduce op ((range 8).map (fun b => f (4 * b + 3))))) =
      reduce op ((range 32).map f) := by
  have order : (((range 8).map (fun b => 4 * b) ++ (range 8).map (fun b => 4 * b + 1)) ++
      ((range 8).map (fun b => 4 * b + 2) ++ (range 8).map (fun b => 4 * b + 3))).Perm (range 32) := by
    decide
  rw [← reduce_append op (by simp) (by simp), ← reduce_append op (by simp) (by simp), ← reduce_append op (by simp) (by simp)]
  refine reduce_perm op ?_
  simpa [Function.comp_def] using order.map f

end

end TriaxialKV.Tensor
