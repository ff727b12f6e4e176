import TriaxialKV.Lib.Tensor

/-!
# Slice writes and spans

Arrays are functions of their index. A span runs from an opening entry to the first closing entry after it.
-/

namespace TriaxialKV.Tensor
open List

variable {i k : Nat} {s : Nat × Option Nat} {starts : List Nat}

variable {α β : Type} {write : (Nat → α) → β → Nat → α}

/-- `arr[st:en] = v` -/
def setSlice (arr : Nat → α) (st en : Nat) (v : α) : Nat → α := fun i => if st ≤ i ∧ i < en then v else arr i

/-- `arr[j] = v` -/
def setAt (arr : Nat → α) (j : Nat) (v : α) : Nat → α := fun i => if i = j then v else arr i

/-- `arr[st:en][mask[st:en]] = v` -/
def setMask (arr : Nat → α) (st en : Nat) (mask : Nat → Bool) (v : α) : Nat → α :=
  fun i => if (st ≤ i ∧ i < en) ∧ mask i = true then v else arr i

/-- `arr[k:]` -/
def after (k : Nat) (arr : Nat → α) : Nat → α := fun i => arr (i + k)

def Pointwise (write : (Nat → α) → Nat → α) : Prop := ∀ arr arr' i, arr i = arr' i → write arr i = write arr' i

def Within (lo hi : Nat) (write : (Nat → α) → Nat → α) : Prop := ∀ arr i, ¬(lo ≤ i ∧ i ≤ hi) → write arr i = arr i

theorem setSlice_pointwise (st en : Nat) (v : α) : Pointwise (fun arr => setSlice arr st en v) := by
  intro arr _ i same
  simp only [setSlice, same]

theorem setAt_pointwise (j : Nat) (v : α) : Pointwise (fun arr => setAt arr j v) := by
  intro arr _ i same
  simp only [setAt, same]

theorem setMask_pointwise (st en : Nat) (mask : Nat → Bool) (v : α) : Pointwise (fun arr => setMask arr st en mask v) := by
  intro arr _ i same
  simp only [setMask, same]

theorem foldl_pointwise (each : ∀ x, Pointwise (fun arr => write arr x)) (xs : List β) : Pointwise (fun arr => xs.foldl write arr) := by
  intro arr arr' i same
  induction xs generalizing arr arr' with
  | nil => exact same
  | cons x xs ih => exact ih _ _ (each x arr arr' i same)

theorem foldl_within {lo hi : Nat} {xs : List β}
    (each : ∀ x ∈ xs, Within lo hi (fun arr => write arr x)) : Within lo hi (fun arr => xs.foldl write arr) := by
  intro arr i outside
  induction xs generalizing arr with
  | nil => rfl
  | cons x xs ih =>
    have rest := ih (fun y mem => each y (mem_cons_of_mem _ mem)) (write arr x)
    exact rest.trans (each x mem_cons_self arr i outside)

theorem after_setSlice (k st en : Nat) (v : α) (arr : Nat → α) : after k (setSlice arr (st + k) (en + k) v) = setSlice (after k arr) st en v := by
  funext i
  simp only [after, setSlice, Nat.add_le_add_iff_right, Nat.add_lt_add_iff_right]

theorem after_setAt (k j : Nat) (v : α) (arr : Nat → α) : after k (setAt arr (j + k) v) = setAt (after k arr) j v := by
  funext i
  simp only [after, setAt, Nat.add_right_cancel_iff]

theorem after_setMask (k st en : Nat) (mask : Nat → Bool) (v : α) (arr : Nat → α) :
    after k (setMask arr (st + k) (en + k) mask v) = setMask (after k arr) st en (after k mask) v := by
  funext i
  simp only [after, setMask, Nat.add_le_add_iff_right, Nat.add_lt_add_iff_right]
  rfl

theorem after_foldl {write' : (Nat → α) → β → Nat → α} {xs : List β}
    (each : ∀ arr, ∀ x ∈ xs, after k (write arr x) = write' (after k arr) x) (arr : Nat → α) :
    after k (xs.foldl write arr) = xs.foldl write' (after k arr) := by
  induction xs generalizing arr with
  | nil => rfl
  | cons x xs ih =>
    rw [foldl_cons, foldl_cons, ih (fun arr y mem => each arr y (mem_cons_of_mem _ mem)), each arr x mem_cons_self]

theorem getElem!_map [Inhabited α] [Inhabited β] (f : α → β) {xs : List α} (lt : i < xs.length) : (xs.map f)[i]! = f xs[i]! := by
  rw [getElem!_pos _ i (by rwa [length_map]), getElem_map, getElem!_pos xs i lt]

theorem getElem!_append_left [Inhabited α] {xs : List α} (ys : List α) (lt : i < xs.length) : (xs ++ ys)[i]! = xs[i]! := by
  rw [getElem!_pos _ i (by rw [length_append]; omega), getElem_append_left lt, getElem!_pos xs i lt]

theorem getElem!_append_right [Inhabited α] (xs ys : List α) (i : Nat) : (xs ++ ys)[i + xs.length]! = ys[i]! := by
  rw [getElem!_eq_getElem?_getD, getElem!_eq_getElem?_getD, getElem?_append_right (by omega), Nat.add_sub_cancel]

theorem nonzero_append (first second : List Bool) : nonzero (first ++ second) = nonzero first ++ (nonzero second).map (· + first.length) := by
  induction first with
  | nil => simp [nonzero]
  | cons b first ih => cases b <;> simp [nonzero, ih, Function.comp_def, add_assoc]

theorem nonzero_ascending (mask : List Bool) : (nonzero mask).Pairwise (· < ·) := by
  induction mask with
  | nil => exact List.Pairwise.nil
  | cons b mask ih =>
    have shifted : ((nonzero mask).map (· + 1)).Pairwise (· < ·) := pairwise_map.mpr (ih.imp (fun less => Nat.succ_lt_succ less))
    cases b with
    | false => exact shifted
    | true => exact pairwise_cons.mpr ⟨by simp, shifted⟩

theorem filter_nonzero [Inhabited α] {p q : α → Bool} (implies : ∀ x, q x = true → p x = true) (xs : List α) :
    (nonzero (xs.map p)).filter (fun i => q xs[i]!) = nonzero (xs.map q) := by
  induction xs with
  | nil => rfl
  | cons x xs ih =>
    have tail : ((nonzero (xs.map p)).map (· + 1)).filter (fun i => q (x :: xs)[i]!) = (nonzero (xs.map q)).map (· + 1) := by
      rw [filter_map, ← ih]
      rfl
    cases here : q x with
    | true =>
      rw [map_cons, map_cons, here, implies x here, nonzero, nonzero, filter_cons_of_pos (by simpa using here), tail]
    | false =>
      rw [map_cons, map_cons, here, nonzero]
      cases p x with
      | true => rw [nonzero, filter_cons_of_neg (by simpa using here), tail]
      | false => rw [nonzero, tail]

/-- Each opening position with the first closing position after it. -/
def spans (opens closes : List Nat) : List (Nat × Option Nat) := opens.map (fun o => (o, (closes.filter (fun c => c > o)).head?))

def spansOf (isOpen isClose : α → Bool) (xs : List α) : List (Nat × Option Nat) := spans (nonzero (xs.map isOpen)) (nonzero (xs.map isClose))

def shiftSpan (k : Nat) (s : Nat × Option Nat) : Nat × Option Nat := (s.1 + k, s.2.map (· + k))

def Closed (isOpen isClose : α → Bool) (xs : List α) : Prop := ∀ s ∈ spansOf isOpen isClose xs, s.2 ≠ none

section
variable {isOpen isClose : α → Bool} {xs ys : List α}

theorem spansOf_start (mem : s ∈ spansOf isOpen isClose xs) : s.1 < xs.length := by
  obtain ⟨o, opens, rfl⟩ := mem_map.mp mem
  simpa using nonzero_inside opens

theorem spansOf_stop {c : Nat} (mem : s ∈ spansOf isOpen isClose xs) (stop : s.2 = some c) : s.1 < c ∧ c ∈ nonzero (xs.map isClose) := by
  obtain ⟨o, _, rfl⟩ := mem_map.mp mem
  have found := mem_of_mem_head? stop
  rw [mem_filter, decide_eq_true_eq] at found
  exact ⟨found.2, found.1⟩

theorem spansOf_append (closed : Closed isOpen isClose xs) : spansOf isOpen isClose (xs ++ ys) =
      spansOf isOpen isClose xs ++ (spansOf isOpen isClose ys).map (shiftSpan xs.length) := by
  unfold spansOf spans
  rw [map_append, map_append, nonzero_append, nonzero_append, length_map, length_map, map_append, map_map, map_map]
  congr 1
  · refine map_congr_left (fun o opens => ?_)
    have stop := closed _ (mem_map_of_mem opens)
    rw [filter_append, head?_append_of_ne_nil]
    exact fun none => stop (by rw [none]; rfl)
  · refine map_congr_left (fun o _ => ?_)
    have before : (nonzero (xs.map isClose)).filter (fun c => c > o + xs.length) = [] := by
      refine filter_eq_nil_iff.mpr (fun c mem => ?_)
      have lt := nonzero_inside mem
      rw [length_map] at lt
      simp only [decide_eq_true_eq]
      omega
    simp only [Function.comp, shiftSpan]
    rw [filter_append, before, nil_append, filter_map, head?_map]
    simp only [Function.comp_def, gt_iff_lt, Nat.add_lt_add_iff_right]

theorem nonzero_eq_nil {p : α → Bool} (none : ∀ x ∈ xs, p x = false) : nonzero (xs.map p) = [] := by
  refine eq_nil_iff_forall_not_mem.mpr (fun i mem => ?_)
  rw [mem_nonzero, getElem?_map, Option.map_eq_some_iff] at mem
  obtain ⟨x, found, holds⟩ := mem
  rw [none x (mem_of_getElem? found)] at holds
  cases holds

theorem spansOf_eq_nil (none : ∀ x ∈ xs, isOpen x = false) : spansOf isOpen isClose xs = [] := by
  rw [spansOf, nonzero_eq_nil none]
  rfl

theorem spansOf_bracket {o c : α} (openO : isOpen o = true) (closeO : isClose o = false) (openC : isOpen c = false)
    (closeC : isClose c = true) (body : ∀ x ∈ xs, isOpen x = false ∧ isClose x = false) :
    spansOf isOpen isClose (o :: xs ++ [c]) = [(0, some (xs.length + 1))] := by
  have opens : nonzero ((o :: xs ++ [c]).map isOpen) = [0] := by
    have rest : nonzero ((xs ++ [c]).map isOpen) = [] := by
      refine nonzero_eq_nil (fun x mem => ?_)
      obtain inner | last := mem_append.mp mem
      · exact (body x inner).1
      · rw [mem_singleton.mp last, openC]
    rw [cons_append, map_cons, openO, nonzero, rest]
    rfl
  have closes : nonzero ((o :: xs ++ [c]).map isClose) = [xs.length + 1] := by
    have before : nonzero ((o :: xs).map isClose) = [] := by
      refine nonzero_eq_nil (fun x mem => ?_)
      obtain rfl | inner := mem_cons.mp mem
      · exact closeO
      · exact (body x inner).2
    rw [map_append, nonzero_append, before, length_map, map_singleton, closeC, length_cons]
    simp [nonzero]
  rw [spansOf, opens, closes]
  rfl

theorem spansOf_open {o : α} (openO : isOpen o = true) (closeO : isClose o = false)
    (body : ∀ x ∈ xs, isOpen x = false ∧ isClose x = false) : spansOf isOpen isClose (o :: xs) = [(0, none)] := by
  have closes : nonzero ((o :: xs).map isClose) = [] := by
    refine nonzero_eq_nil (fun x mem => ?_)
    obtain rfl | inner := mem_cons.mp mem
    · exact closeO
    · exact (body x inner).2
  rw [spansOf, closes, map_cons, openO, nonzero, nonzero_eq_nil (fun x mem => (body x mem).1)]
  rfl

end

theorem getElem!_le_iff_lt_countP (ascending : starts.Pairwise (· < ·)) (lt : k < starts.length)
    (i : Nat) : starts[k]! ≤ i ↔ k < starts.countP (· ≤ i) := by
  induction starts generalizing k with
  | nil => cases lt
  | cons x starts ih =>
    obtain ⟨first, ascending⟩ := pairwise_cons.mp ascending
    by_cases reached : x ≤ i
    · rw [countP_cons_of_pos (by simpa using reached)]
      cases k with
      | zero => simpa using reached
      | succ k =>
        rw [getElem!_cons_succ, ih ascending (by simpa using lt)]
        omega
    · have none : (x :: starts).countP (· ≤ i) = 0 := by
        refine countP_eq_zero.mpr (fun y mem => ?_)
        obtain rfl | later := mem_cons.mp mem
        · simpa using reached
        · have := first y later
          simp only [decide_eq_true_eq]
          omega
      have later : x ≤ (x :: starts)[k]! := by
        rw [getElem!_pos _ k lt]
        obtain same | later := mem_cons.mp (getElem_mem lt)
        · exact same.ge
        · exact (first _ later).le
      omega

theorem foldl_setSlice_starts (ascending : starts.Pairwise (· < ·)) (value : Nat → α) (arr : Nat → α) {n : Nat} (lt : i < n) :
    ((range starts.length).foldl
      (fun arr k => setSlice arr (starts ++ [n])[k]! (starts ++ [n])[k + 1]! (value k)) arr) i =
      if starts.countP (· ≤ i) = 0 then arr i else value (starts.countP (· ≤ i) - 1) := by
  have all := countP_le_length (p := (· ≤ i)) (l := starts)
  -- after `k` writes the value is there if the last start before `i` is one of the first `k`
  have stage : ∀ k ≤ starts.length, ((range k).foldl
      (fun arr k => setSlice arr (starts ++ [n])[k]! (starts ++ [n])[k + 1]! (value k)) arr) i =
      if 0 < starts.countP (· ≤ i) ∧ starts.countP (· ≤ i) ≤ k then value (starts.countP (· ≤ i) - 1) else arr i := by
    intro k _
    induction k with
    | zero => rw [if_neg (by omega)]; rfl
    | succ k ih =>
      rw [range_succ, foldl_append, foldl_cons, foldl_nil, setSlice, ih (by omega)]
      have lower : (starts ++ [n])[k]! ≤ i ↔ k < starts.countP (· ≤ i) := by
        rw [← getElem!_le_iff_lt_countP ascending (by omega) i, getElem!_pos _ k (by simp; omega),
          getElem_append_left (by omega), getElem!_pos starts k (by omega)]
      have upper : i < (starts ++ [n])[k + 1]! ↔ starts.countP (· ≤ i) ≤ k + 1 := by
        by_cases last : k + 1 = starts.length
        · have end_eq : (starts ++ [n])[k + 1]! = n := by
            rw [getElem!_pos _ (k + 1) (by simp; omega), getElem_append_right (by omega)]
            simp
          rw [end_eq]
          omega
        · have next := getElem!_le_iff_lt_countP ascending (k := k + 1) (by omega) i
          rw [getElem!_pos _ (k + 1) (by simp; omega), getElem_append_left (by omega), ← getElem!_pos starts (k + 1)]
          omega
      by_cases here : starts.countP (· ≤ i) = k + 1
      · rw [if_pos ⟨lower.mpr (by omega), upper.mpr (by omega)⟩, if_pos (by omega), here, Nat.add_sub_cancel]
      · rw [if_neg (fun both => here (by have := lower.mp both.1; have := upper.mp both.2; omega))]
        refine if_congr ?_ rfl rfl
        omega
  rw [stage starts.length (le_refl _)]
  by_cases none : starts.countP (· ≤ i) = 0
  · rw [if_neg (by omega), if_pos none]
  · rw [if_pos ⟨by omega, all⟩, if_neg none]

end TriaxialKV.Tensor
