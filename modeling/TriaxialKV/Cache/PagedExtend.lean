import TriaxialKV.Cache.KVAllocator
import TriaxialKV.Lib.Rows

/-!
# Extending sequences on pages

The kernel sums masked lengths over the batch; the reference goes through it with running sums.
-/

namespace TriaxialKV
open List Tensor Stores Rows

def bitLength (n : Nat) : Nat := if n = 0 then 0 else n.log2 + 1

def nextPowerOf2 (n : Nat) : Nat := if n > 0 then 1 <<< bitLength (n - 1) else 1

def pagesOf (pageSize len : Nat) : Nat := (len + pageSize - 1) / pageSize

def getNumNewPagesExtend (prefixLens seqLens : List Nat) (pageSize : Nat) : Nat :=
  (zipWith (fun len pre => pagesOf pageSize len - pagesOf pageSize pre) seqLens prefixLens).sum

/-- What program `pid` stores. `other` is what a masked lane of the two loads holds. -/
def allocExtendKernel (preLens seqLens : List Nat) (lastLoc : List Int) (freePages : List Nat) (bsUpper pageSize other pid : Nat) :
    List (Nat × Int) :=
  let load (lens : List Nat) (lane : Nat) := if lane ≤ pid then lens[lane]! else other
  let seqLen := seqLens[pid]!
  let preLen := preLens[pid]!
  let sumExtendLens := ((range bsUpper).map (fun lane => load seqLens lane - load preLens lane)).sum
  let outputStartLoc := sumExtendLens - (seqLen - preLen)
  let numPageStartLocSelf := pagesOf pageSize seqLen - pagesOf pageSize preLen
  let sumNumNewPages := ((range bsUpper).map (fun lane => pagesOf pageSize (load seqLens lane) - pagesOf pageSize (load preLens lane))).sum
  let newPageStartLoc := sumNumNewPages - numPageStartLocSelf
  -- Part 1: the old partial page.
  let numPart1 := min seqLen (pagesOf pageSize preLen * pageSize) - preLen
  let part1 := ((range pageSize).filter (fun offset => offset < numPart1)).map
    (fun offset => (outputStartLoc + offset, lastLoc[pid]! + 1 + (offset : Int)))
  if preLen + numPart1 = seqLen then part1 else
  -- Part 2: new full pages, in blocks of 4096 places.
  let numPart2 := seqLen / pageSize * pageSize - pagesOf pageSize preLen * pageSize
  let part2 := (range ((numPart2 + 4096 - 1) / 4096)).flatMap (fun block =>
    (((range 4096).map (block * 4096 + ·)).filter (fun offset => offset < numPart2)).map (fun offset =>
      (outputStartLoc + numPart1 + offset, ((freePages[newPageStartLoc + offset / pageSize]! * pageSize + offset % pageSize : Nat) : Int))))
  if preLen + numPart1 + numPart2 = seqLen then part1 ++ part2 else
  -- Part 3: the new partial page.
  let numPart3 := seqLen - seqLen / pageSize * pageSize
  let startLoc := freePages[newPageStartLoc + numPageStartLocSelf - 1]!
  let part3 := ((range pageSize).filter (fun offset => offset < numPart3)).map (fun offset =>
    (outputStartLoc + numPart1 + numPart2 + offset, ((startLoc * pageSize + offset : Nat) : Int)))
  part1 ++ part2 ++ part3

def assignSlice (lo hi : Nat) (values : List Int) : Except String (List (Nat × Int)) :=
  if values.length = hi - lo then .ok ((range (hi - lo)).map (fun j => (lo + j, values[j]!)))
  else if values.length = 1 then .ok ((range (hi - lo)).map (fun j => (lo + j, values[0]!)))
  else .error "The expanded size of the tensor must match the existing size"

def assignSome (num lo hi : Nat) (values : List Int) : Except String (List (Nat × Int)) :=
  if num ≠ 0 then assignSlice lo hi values else .ok []

def allocExtendNaiveReq (prefixLens seqLens : List Nat) (lastLoc : List Int) (freePages : List Nat) (pageSize i : Nat) :
    Except String (List (Nat × Int)) := do
  let zip (f : Nat → Nat → Int) := zipWith f seqLens prefixLens
  let extendLens := zip (fun len pre => len - pre)
  let endPos := cumsum extendLens
  let numNewPages := zip (fun len pre => (pagesOf pageSize len : Int) - pagesOf pageSize pre)
  let numFullNewPages := zip (fun len pre => ((len / pageSize : Nat) : Int) - pagesOf pageSize pre)
  let endNewPages := cumsum numNewPages
  let startPos := (endPos[i]! - extendLens[i]!).toNat
  let needPage := numNewPages[i]! - numFullNewPages[i]!
  let startNewPages := (endNewPages[i]! - numNewPages[i]!).toNat
  let seqLen := seqLens[i]!
  let preLen := prefixLens[i]!
  let num1 := min seqLen (pagesOf pageSize preLen * pageSize) - preLen
  let part1 ← assignSome num1 startPos (startPos + num1)
    (((range pageSize).take num1).map (fun pos : Nat => lastLoc[i]! + 1 + (pos : Int)))
  if preLen + num1 = seqLen then return part1
  let num2 := (seqLen / pageSize - pagesOf pageSize preLen) * pageSize
  let pages := (freePages.drop startNewPages).take ((endNewPages[i]! - needPage).toNat - startNewPages)
  let part2 ← assignSome num2 (startPos + num1) (startPos + num1 + num2)
    (pages.flatMap (fun page => (range pageSize).map (fun pos : Nat => ((page * pageSize + pos : Nat) : Int))))
  if preLen + num1 + num2 = seqLen then return part1 ++ part2
  let num3 := seqLen - seqLen / pageSize * pageSize
  let part3 ← assignSome num3 (endPos[i]!.toNat - num3) endPos[i]!.toNat
    (((range pageSize).take num3).map
      (fun pos : Nat => ((freePages[(endNewPages[i]! - 1).toNat]! * pageSize + pos : Nat) : Int)))
  return part1 ++ part2 ++ part3

def allocExtendNaive (prefixLens seqLens : List Nat) (lastLoc : List Int) (freePages : List Nat) (pageSize : Nat) :
    Except String (List (Nat × Int)) := do
  let rounds ← (range prefixLens.length).mapM (allocExtendNaiveReq prefixLens seqLens lastLoc freePages pageSize)
  return rounds.flatten

/-- `empty` is what `out_indices` holds before the launch. -/
def PageAllocator.allocExtend (a : PageAllocator) (other : Nat) (empty : Nat → Int) (prefixLens seqLens : List Nat) (lastLoc : List Int)
    (extendNumTokens : Nat) : Option (List Int) × PageAllocator :=
  let bs := prefixLens.length
  let b := a.mergeIfShort (extendNumTokens / a.pageSize + bs + 1)
  let stores := (range bs).flatMap
    (allocExtendKernel prefixLens seqLens lastLoc b.freePages (nextPowerOf2 bs) a.pageSize other)
  let outIndices := (range extendNumTokens).map (storeAll empty stores)
  b.takePages (getNumNewPagesExtend prefixLens seqLens a.pageSize) outIndices

section
variable {pageSize len : Nat} (positive : 0 < pageSize)

include positive in
theorem pagesOf_bounds (len : Nat) : len ≤ pagesOf pageSize len * pageSize ∧ pagesOf pageSize len * pageSize < len + pageSize := by
  have whole := Nat.div_add_mod' (len + pageSize - 1) pageSize
  have rest := Nat.mod_lt (len + pageSize - 1) positive
  unfold pagesOf
  omega

theorem pagesOf_mono (pageSize : Nat) {len' : Nat} (le : len ≤ len') : pagesOf pageSize len ≤ pagesOf pageSize len' := Nat.div_le_div_right (by omega)

include positive in
theorem lt_pagesOf {q : Nat} : q < pagesOf pageSize len ↔ q * pageSize < len := by
  unfold pagesOf
  rw [Nat.lt_div_iff_mul_lt positive]
  omega

include positive in
theorem pagesOf_le_div {len' : Nat} (le : pagesOf pageSize len * pageSize ≤ len') : pagesOf pageSize len ≤ len' / pageSize :=
  (Nat.le_div_iff_mul_le positive).mpr le

include positive in
theorem pagesOf_of_partial (rest : len / pageSize * pageSize < len) : pagesOf pageSize len = len / pageSize + 1 := by
  have lower : len / pageSize < pagesOf pageSize len := (lt_pagesOf positive).mpr rest
  have upper : ¬ len / pageSize + 1 < pagesOf pageSize len := by
    rw [lt_pagesOf positive, add_mul, one_mul]
    have := Nat.div_add_mod' len pageSize
    have := Nat.mod_lt len positive
    omega
  omega

end

/-- The slot of place `t` of a sequence that has `pre` places, the last at `last`; its new pages begin with the one at `first`. -/
def extendSlot (pageSize pre : Nat) (last : Int) (pages : List Nat) (first t : Nat) : Int :=
  if t < pagesOf pageSize pre * pageSize then last + 1 + ((t - pre : Nat) : Int)
  else ((pages[first + (t / pageSize - pagesOf pageSize pre)]! * pageSize + t % pageSize : Nat) : Int)

section
variable {pageSize pre len : Nat} (positive : 0 < pageSize) {last : Int} {pages : List Nat} {first : Nat}

theorem map_range_parts {β : Type} (f : Nat → β) {a b c : Nat} (first : pre ≤ a) (second : a ≤ b) (third : b ≤ c) :
    (range (c - pre)).map f = (range (a - pre)).map f ++ (range (b - a)).map (fun o => f (a - pre + o)) ++
        (range (c - b)).map (fun o => f (b - pre + o)) := by
  rw [show c - pre = (a - pre) + (b - a) + (c - b) by omega, range_add, range_add, map_append, map_append,
    map_map, map_map, show b - pre = a - pre + (b - a) by omega]
  rfl

theorem extendSlot_old {j : Nat} (old : pre + j < pagesOf pageSize pre * pageSize) :
    extendSlot pageSize pre last pages first (pre + j) = last + 1 + (j : Int) := by
  rw [extendSlot, if_pos old, Nat.add_sub_cancel_left]

include positive in
theorem extendSlot_behind (offset : Nat) : extendSlot pageSize pre last pages first (pre + (pagesOf pageSize pre * pageSize - pre + offset)) =
      ((pages[first + offset / pageSize]! * pageSize + offset % pageSize : Nat) : Int) := by
  have covers := (pagesOf_bounds positive pre).1
  have quotient : (pagesOf pageSize pre * pageSize + offset) / pageSize = pagesOf pageSize pre + offset / pageSize := by
    rw [mul_comm, Nat.mul_add_div positive]
  rw [show pre + (pagesOf pageSize pre * pageSize - pre + offset) = pagesOf pageSize pre * pageSize + offset by omega, extendSlot,
    if_neg (by omega), Nat.mul_add_mod', quotient, Nat.add_sub_cancel_left]

include positive in
theorem extendSlot_tail (more : pagesOf pageSize pre * pageSize < len) {offset : Nat} (lt : offset < len - len / pageSize * pageSize) :
    extendSlot pageSize pre last pages first (pre + (len / pageSize * pageSize - pre + offset)) =
      ((pages[first + (pagesOf pageSize len - pagesOf pageSize pre) - 1]! * pageSize + offset : Nat) : Int) := by
  have covers := (pagesOf_bounds positive pre).1
  have order := pagesOf_le_div positive more.le
  have whole := Nat.mul_le_mul_right pageSize order
  have small : offset < pageSize := by
    have := Nat.div_add_mod' len pageSize
    have := Nat.mod_lt len positive
    omega
  have quotient : (len / pageSize * pageSize + offset) / pageSize = len / pageSize := by
    rw [mul_comm, Nat.mul_add_div positive, Nat.div_eq_of_lt small, add_zero]
  have last : pagesOf pageSize len = len / pageSize + 1 := pagesOf_of_partial positive (by omega)
  rw [show pre + (len / pageSize * pageSize - pre + offset) = len / pageSize * pageSize + offset by omega, extendSlot, if_neg (by omega),
    Nat.mul_add_mod', Nat.mod_eq_of_lt small, quotient, last,
    show first + (len / pageSize + 1 - pagesOf pageSize pre) - 1 = first + (len / pageSize - pagesOf pageSize pre) by omega]

theorem stores_parts (positive : 0 < pageSize) (more : pagesOf pageSize pre * pageSize < len) (start : Nat) :
    (range (len - pre)).map (fun j => (start + j, extendSlot pageSize pre last pages first (pre + j))) =
      (range (pagesOf pageSize pre * pageSize - pre)).map (fun j => (start + j, last + 1 + (j : Int))) ++
        (range (len / pageSize * pageSize - pagesOf pageSize pre * pageSize)).map (fun o =>
          (start + (pagesOf pageSize pre * pageSize - pre) + o, ((pages[first + o / pageSize]! * pageSize + o % pageSize : Nat) : Int))) ++
        (range (len - len / pageSize * pageSize)).map (fun o => (start + (pagesOf pageSize pre * pageSize - pre) +
            (len / pageSize * pageSize - pagesOf pageSize pre * pageSize) + o,
          ((pages[first + (pagesOf pageSize len - pagesOf pageSize pre) - 1]! * pageSize + o : Nat) : Int))) := by
  have covers := (pagesOf_bounds positive pre).1
  have whole := Nat.mul_le_mul_right pageSize (pagesOf_le_div positive more.le)
  rw [map_range_parts _ covers whole (Nat.div_mul_le_self len pageSize)]
  refine congrArg₂ _ (congrArg₂ _ ?_ ?_) ?_
  · refine map_congr_left (fun j lt => ?_)
    have := mem_range.mp lt
    rw [extendSlot_old (by omega)]
  · refine map_congr_left (fun o _ => ?_)
    rw [extendSlot_behind positive, add_assoc]
  · refine map_congr_left (fun o lt => ?_)
    rw [extendSlot_tail positive more (mem_range.mp lt),
      show start + (len / pageSize * pageSize - pre + o) = start + (pagesOf pageSize pre * pageSize - pre) +
        (len / pageSize * pageSize - pagesOf pageSize pre * pageSize) + o by omega]

theorem stores_old (old : len ≤ pagesOf pageSize pre * pageSize) (start : Nat) :
    (range (len - pre)).map (fun j => (start + j, extendSlot pageSize pre last pages first (pre + j))) =
      (range (len - pre)).map (fun j => (start + j, last + 1 + (j : Int))) := by
  refine map_congr_left (fun j lt => ?_)
  have := mem_range.mp lt
  rw [extendSlot_old (by omega)]

end

theorem le_nextPowerOf2 (n : Nat) : n ≤ nextPowerOf2 n := by
  unfold nextPowerOf2 bitLength
  split
  · rw [Nat.one_shiftLeft]
    split
    · omega
    · have : n - 1 < 2 ^ ((n - 1).log2 + 1) := Nat.lt_log2_self
      omega
  · omega

theorem masked_sum {f g : Nat → Nat} {pid lanes : Nat} (lt : pid < lanes) (here : ∀ k ≤ pid, f k = g k) (masked : ∀ k > pid, f k = 0) :
    ((range lanes).map f).sum - g pid = Rows.start g pid := by
  obtain ⟨more, rfl⟩ := Nat.exists_eq_add_of_le (Nat.succ_le_of_lt lt)
  have head : Rows.start f (pid + 1) = Rows.start g (pid + 1) := start_congr (fun k less => here k (by omega))
  have tail : (((range more).map (pid.succ + ·)).map f).sum = 0 := by
    rw [sum_eq_zero_iff]
    intro x mem
    simp only [mem_map] at mem
    obtain ⟨_, ⟨k, _, rfl⟩, rfl⟩ := mem
    exact masked _ (by omega)
  rw [range_add, map_append, sum_append, tail, add_zero]
  change Rows.start f (pid + 1) - g pid = _
  rw [head, start_succ, Nat.add_sub_cancel]

def extendLen (preLens seqLens : List Nat) (i : Nat) : Nat := seqLens[i]! - preLens[i]!

def newPages (preLens seqLens : List Nat) (pageSize i : Nat) : Nat := pagesOf pageSize seqLens[i]! - pagesOf pageSize preLens[i]!

section
variable (preLens seqLens : List Nat) (lastLoc : List Int) (freePages : List Nat) (pageSize : Nat)

def extendStores (i : Nat) : List (Nat × Int) :=
  (range (extendLen preLens seqLens i)).map (fun j => (Rows.start (extendLen preLens seqLens) i + j,
    extendSlot pageSize preLens[i]! lastLoc[i]! freePages (Rows.start (newPages preLens seqLens pageSize) i) (preLens[i]! + j)))

variable {preLens seqLens lastLoc freePages pageSize}

theorem allocExtendKernel_eq (positive : 0 < pageSize) (other : Nat) {pid bsUpper : Nat} (lane : pid < bsUpper)
    (grows : preLens[pid]! ≤ seqLens[pid]!) :
    allocExtendKernel preLens seqLens lastLoc freePages bsUpper pageSize other pid = extendStores preLens seqLens lastLoc freePages pageSize pid := by
  have startLoc := masked_sum (g := extendLen preLens seqLens)
    (f := fun k => (if k ≤ pid then seqLens[k]! else other) - if k ≤ pid then preLens[k]! else other) lane
    (fun k below => by simp only [if_pos below, extendLen]) (fun k above => by simp only [if_neg (Nat.not_le.mpr above), Nat.sub_self])
  have pageLoc := masked_sum (g := newPages preLens seqLens pageSize)
    (f := fun k => pagesOf pageSize (if k ≤ pid then seqLens[k]! else other) - pagesOf pageSize (if k ≤ pid then preLens[k]! else other))
    lane (fun k below => by simp only [if_pos below, newPages])
    (fun k above => by simp only [if_neg (Nat.not_le.mpr above), Nat.sub_self])
  obtain ⟨_, _⟩ := pagesOf_bounds positive preLens[pid]!
  unfold allocExtendKernel extendStores
  unfold extendLen at startLoc ⊢
  unfold newPages at pageLoc ⊢
  dsimp only
  rw [startLoc, pageLoc]
  rcases Nat.lt_or_ge (pagesOf pageSize preLens[pid]! * pageSize) seqLens[pid]! with more | old
  · have tail := Nat.div_add_mod' seqLens[pid]! pageSize
    have short := Nat.mod_lt seqLens[pid]! positive
    rw [stores_parts positive more, min_eq_right more.le, if_neg (by omega), filter_range (by omega),
      filter_range (by omega), ← map_flatMap, flatMap_blocks (by decide)]
    split
    · next _ =>
      rw [show seqLens[pid]! - seqLens[pid]! / pageSize * pageSize = 0 by omega, range_zero, map_nil, append_nil]
    · rfl
  · rw [stores_old old, min_eq_left old, if_pos (by omega), filter_range (by omega)]

end

theorem cumsum_range (g : Nat → Nat) (n : Nat) :
    cumsum ((range n).map (fun k => (g k : Int))) = (range n).map (fun k => (Rows.start g (k + 1) : Int)) := by
  induction n with
  | zero => rfl
  | succ n ih =>
    have total : ((range n).map (fun k => (g k : Int))).sum = (Rows.start g n : Int) := by
      have cast : ∀ xs : List Nat, (xs.map (fun k => (g k : Int))).sum = ((xs.map g).sum : Nat) := by
        intro xs
        induction xs with
        | nil => rfl
        | cons x xs rest => simp [rest]
      exact cast _
    rw [range_succ, map_append, map_append, cumsum_append, ih, total]
    simp [cumsum, cumsumFrom, start_succ]

theorem zipWith_range {β : Type} (f : Nat → Nat → β) {seqLens preLens : List Nat} (lens : seqLens.length = preLens.length) :
    zipWith f seqLens preLens = (range preLens.length).map (fun k => f seqLens[k]! preLens[k]!) := by
  refine ext_getElem (by simp [lens]) (fun k left right => ?_)
  have lt : k < preLens.length := by simpa [lens] using left
  simp [lt, lens]

theorem assignSome_eq {lo hi n : Nat} (span : hi = lo + n) (f : Nat → Int) :
    assignSome n lo hi ((range n).map f) = .ok ((range n).map (fun j => (lo + j, f j))) := by
  subst span
  unfold assignSome
  split
  · unfold assignSlice
    rw [Nat.add_sub_cancel_left, if_pos (by simp)]
    refine congrArg _ (map_congr_left (fun j lt => ?_))
    rw [getElem!_map_range f (mem_range.mp lt)]
  · next none =>
    obtain rfl : n = 0 := by simpa using none
    rfl

theorem take_drop_range {xs : List Nat} {first n : Nat} (enough : first + n ≤ xs.length) :
    (xs.drop first).take n = (range n).map (fun k => xs[first + k]!) := by
  refine ext_getElem (by simp; omega) (fun k left right => ?_)
  have lt : first + k < xs.length := by
    have : k < n := by simpa using right
    omega
  simp [lt]

section
variable {preLens seqLens : List Nat} {lastLoc : List Int} {freePages : List Nat} {pageSize : Nat}

theorem allocExtendNaiveReq_eq (positive : 0 < pageSize) (lens : seqLens.length = preLens.length)
    (grows : ∀ i < preLens.length, preLens[i]! ≤ seqLens[i]!) {i : Nat} (lt : i < preLens.length)
    (enough : Rows.start (newPages preLens seqLens pageSize) (i + 1) ≤ freePages.length) :
    allocExtendNaiveReq preLens seqLens lastLoc freePages pageSize i = .ok (extendStores preLens seqLens lastLoc freePages pageSize i) := by
  have extends_eq : zipWith (fun len pre : Nat => (len : Int) - pre) seqLens preLens =
      (range preLens.length).map (fun k => (extendLen preLens seqLens k : Int)) := by
    rw [zipWith_range _ lens]
    refine map_congr_left (fun k row => ?_)
    have := grows k (mem_range.mp row)
    unfold extendLen
    omega
  have pages_eq : zipWith (fun len pre : Nat => (pagesOf pageSize len : Int) - pagesOf pageSize pre) seqLens preLens =
      (range preLens.length).map (fun k => (newPages preLens seqLens pageSize k : Int)) := by
    rw [zipWith_range _ lens]
    refine map_congr_left (fun k row => ?_)
    have := pagesOf_mono pageSize (grows k (mem_range.mp row))
    unfold newPages
    omega
  unfold allocExtendNaiveReq
  dsimp only
  rw [extends_eq, pages_eq, zipWith_range _ lens, cumsum_range, cumsum_range]
  simp only [getElem!_map_range _ lt]
  have size := grows i lt
  obtain ⟨_, _⟩ := pagesOf_bounds positive preLens[i]!
  have endPos := start_succ (extendLen preLens seqLens) i
  have endPages := start_succ (newPages preLens seqLens pageSize) i
  have startPos : ((Rows.start (extendLen preLens seqLens) (i + 1) : Int) - (extendLen preLens seqLens i : Int)).toNat =
      Rows.start (extendLen preLens seqLens) i := by omega
  have startPages : ((Rows.start (newPages preLens seqLens pageSize) (i + 1) : Int) - (newPages preLens seqLens pageSize i : Int)).toNat =
      Rows.start (newPages preLens seqLens pageSize) i := by omega
  rw [startPos, startPages, Int.toNat_natCast]
  have len : extendLen preLens seqLens i = seqLens[i]! - preLens[i]! := rfl
  unfold extendStores
  rcases Nat.lt_or_ge (pagesOf pageSize preLens[i]! * pageSize) seqLens[i]! with more | old
  · have less := pagesOf_le_div positive more.le
    have whole := Nat.mul_le_mul_right pageSize less
    have tail := Nat.div_add_mod' seqLens[i]! pageSize
    have short := Nat.mod_lt seqLens[i]! positive
    have full : (seqLens[i]! / pageSize - pagesOf pageSize preLens[i]!) * pageSize =
        seqLens[i]! / pageSize * pageSize - pagesOf pageSize preLens[i]! * pageSize := Nat.sub_mul _ _ _
    have count : ((Rows.start (newPages preLens seqLens pageSize) (i + 1) : Int) - ((newPages preLens seqLens pageSize i : Int) -
        (((seqLens[i]! / pageSize : Nat) : Int) - pagesOf pageSize preLens[i]!))).toNat -
          Rows.start (newPages preLens seqLens pageSize) i = seqLens[i]! / pageSize - pagesOf pageSize preLens[i]! := by omega
    have taken : seqLens[i]! / pageSize ≤ pagesOf pageSize seqLens[i]! := Nat.div_le_div_right (by omega)
    have held : newPages preLens seqLens pageSize i = pagesOf pageSize seqLens[i]! - pagesOf pageSize preLens[i]! := rfl
    rw [min_eq_right more.le, take_range, min_eq_left (by omega), assignSome_eq rfl, count, take_drop_range (by omega),
      flatMap_map, flatMap_const, full, assignSome_eq rfl, take_range, min_eq_left (by omega), assignSome_eq (by omega),
      len, stores_parts positive more]
    have lo : Rows.start (extendLen preLens seqLens) (i + 1) - (seqLens[i]! - seqLens[i]! / pageSize * pageSize) =
        Rows.start (extendLen preLens seqLens) i + (pagesOf pageSize preLens[i]! * pageSize - preLens[i]!) +
          (seqLens[i]! / pageSize * pageSize - pagesOf pageSize preLens[i]! * pageSize) := by omega
    have page : ((Rows.start (newPages preLens seqLens pageSize) (i + 1) : Int) - 1).toNat =
        Rows.start (newPages preLens seqLens pageSize) i + (pagesOf pageSize seqLens[i]! - pagesOf pageSize preLens[i]!) - 1 := by omega
    rw [lo, page]
    dsimp only [bind, Except.bind]
    rw [if_neg (by omega)]
    split
    · next _ =>
      rw [show seqLens[i]! - seqLens[i]! / pageSize * pageSize = 0 by omega, range_zero, map_nil, append_nil]
      rfl
    · rfl
  · rw [min_eq_left old, take_range, min_eq_left (by omega), assignSome_eq rfl]
    dsimp only [bind, Except.bind]
    rw [if_pos (by omega), len, stores_old old]
    rfl

end

theorem mapM_ok {α β : Type} {f : α → Except String β} {g : α → β} {xs : List α} (ok : ∀ x ∈ xs, f x = .ok (g x)) : xs.mapM f = .ok (xs.map g) := by
  induction xs with
  | nil => rfl
  | cons x xs ih =>
    rw [mapM_cons, ok x mem_cons_self, ih (fun y mem => ok y (mem_cons_of_mem _ mem))]
    rfl

def extendSlots (preLens seqLens : List Nat) (lastLoc : List Int) (freePages : List Nat) (pageSize : Nat) : List Int :=
  (range preLens.length).flatMap (fun i => (range (extendLen preLens seqLens i)).map (fun j =>
    extendSlot pageSize preLens[i]! lastLoc[i]! freePages (Rows.start (newPages preLens seqLens pageSize) i) (preLens[i]! + j)))

section
variable {preLens seqLens : List Nat} {lastLoc : List Int} {freePages : List Nat} {pageSize : Nat} (positive : 0 < pageSize)
  (lens : seqLens.length = preLens.length) (grows : ∀ i < preLens.length, preLens[i]! ≤ seqLens[i]!)

include lens in
theorem numNewPages_eq : getNumNewPagesExtend preLens seqLens pageSize = Rows.start (newPages preLens seqLens pageSize) preLens.length := by
  unfold getNumNewPagesExtend
  rw [zipWith_range _ lens]
  rfl

include positive grows in
theorem kernel_launch (other : Nat) {empty out : Nat → Int} (launch : Launch empty ((range preLens.length).flatMap
      (allocExtendKernel preLens seqLens lastLoc freePages (nextPowerOf2 preLens.length) pageSize other)) out) :
    (range (Rows.start (extendLen preLens seqLens) preLens.length)).map out = extendSlots preLens seqLens lastLoc freePages pageSize := by
  rw [flatMap_congr (fun pid mem => allocExtendKernel_eq positive other
    (lt_of_lt_of_le (mem_range.mp mem) (le_nextPowerOf2 _)) (grows pid (mem_range.mp mem)))] at launch
  exact map_read_stores launch

include positive lens grows in
theorem allocExtendNaive_eq (enough : Rows.start (newPages preLens seqLens pageSize) preLens.length ≤ freePages.length) (empty : Nat → Int) :
    ∃ stores, allocExtendNaive preLens seqLens lastLoc freePages pageSize = .ok stores ∧
      (range (Rows.start (extendLen preLens seqLens) preLens.length)).map (storeAll empty stores) =
        extendSlots preLens seqLens lastLoc freePages pageSize := by
  refine ⟨(range preLens.length).flatMap (extendStores preLens seqLens lastLoc freePages pageSize), ?_, map_read_stores (launch_storeAll empty _)⟩
  unfold allocExtendNaive
  rw [mapM_ok (fun i mem => allocExtendNaiveReq_eq positive lens grows (mem_range.mp mem)
    ((start_mono _ (mem_range.mp mem)).trans enough))]
  exact congrArg Except.ok flatMap_def.symm

theorem PageAllocator.allocExtend_eq {a : PageAllocator} (positive : 0 < a.pageSize)
    (grows : ∀ i < preLens.length, preLens[i]! ≤ seqLens[i]!) (other : Nat) (empty : Nat → Int) {total : Nat}
    (tokens : total = Rows.start (extendLen preLens seqLens) preLens.length) :
    a.allocExtend other empty preLens seqLens lastLoc total =
      (a.mergeIfShort (total / a.pageSize + preLens.length + 1)).takePages (getNumNewPagesExtend preLens seqLens a.pageSize)
        (extendSlots preLens seqLens lastLoc (a.mergeIfShort (total / a.pageSize + preLens.length + 1)).freePages a.pageSize) := by
  unfold allocExtend
  rw [← kernel_launch positive grows other (launch_storeAll empty _), tokens]

def newPage (preLens seqLens freePages : List Nat) (pageSize i q : Nat) : Nat :=
  freePages[Rows.start (newPages preLens seqLens pageSize) i + (q - pagesOf pageSize preLens[i]!)]!

theorem newPage_list (enough : Rows.start (newPages preLens seqLens pageSize) preLens.length ≤ freePages.length) :
    (range preLens.length).flatMap (fun i => (range' (pagesOf pageSize preLens[i]!) (newPages preLens seqLens pageSize i)).map
      (newPage preLens seqLens freePages pageSize i)) =
      freePages.take (Rows.start (newPages preLens seqLens pageSize) preLens.length) := by
  have taken : (freePages.drop 0).take (Rows.start (newPages preLens seqLens pageSize) preLens.length) =
      (range (Rows.start (newPages preLens seqLens pageSize) preLens.length)).map (fun k => freePages[0 + k]!) :=
    take_drop_range (by rwa [zero_add])
  rw [drop_zero] at taken
  rw [taken, ← flatMap_range, map_flatMap]
  refine flatMap_congr (fun i _ => ?_)
  rw [range'_eq_map_range, map_map, map_map]
  refine map_congr_left (fun k _ => ?_)
  rw [Function.comp_apply, Function.comp_apply, newPage, Nat.add_sub_cancel_left, zero_add]

theorem newPage_inj (nodup : freePages.Nodup) (enough : Rows.start (newPages preLens seqLens pageSize) preLens.length ≤ freePages.length)
    {i j q r : Nat} (row : i < preLens.length) (row' : j < preLens.length) (new : pagesOf pageSize preLens[i]! ≤ q)
    (lt : q < pagesOf pageSize seqLens[i]!) (new' : pagesOf pageSize preLens[j]! ≤ r) (lt' : r < pagesOf pageSize seqLens[j]!)
    (same : newPage preLens seqLens freePages pageSize i q = newPage preLens seqLens freePages pageSize j r) : i = j ∧ q = r := by
  have column : q - pagesOf pageSize preLens[i]! < newPages preLens seqLens pageSize i := by unfold newPages; omega
  have column' : r - pagesOf pageSize preLens[j]! < newPages preLens seqLens pageSize j := by unfold newPages; omega
  have place := (start_add_lt row column).trans_le enough
  have place' := (start_add_lt row' column').trans_le enough
  unfold newPage at same
  rw [getElem!_pos freePages _ place, getElem!_pos freePages _ place', nodup.getElem_inj_iff] at same
  obtain ⟨rfl, _⟩ := start_inj column column' same
  exact ⟨rfl, by omega⟩

end

theorem getElem!_extendSlots {preLens seqLens : List Nat} {lastLoc : List Int} {freePages : List Nat} {pageSize i t : Nat}
    (row : i < preLens.length) (from_ : preLens[i]! ≤ t) (below : t < seqLens[i]!) :
    (extendSlots preLens seqLens lastLoc freePages pageSize)[Rows.start (extendLen preLens seqLens) i + (t - preLens[i]!)]! =
      extendSlot pageSize preLens[i]! lastLoc[i]! freePages (Rows.start (newPages preLens seqLens pageSize) i) t := by
  have column : t - preLens[i]! < extendLen preLens seqLens i := by unfold extendLen; omega
  have launch := launch_storeAll (fun _ => (0 : Int)) (Rows.stores (extendLen preLens seqLens) (fun i j => extendSlot pageSize preLens[i]!
    lastLoc[i]! freePages (Rows.start (newPages preLens seqLens pageSize) i) (preLens[i]! + j)) preLens.length)
  have read := read_stores launch row column
  have slots : _ = extendSlots preLens seqLens lastLoc freePages pageSize := map_read_stores launch
  rw [← slots, getElem!_map_range _ (start_add_lt row column), read, show preLens[i]! + (t - preLens[i]!) = t by omega]

theorem length_extendSlots (preLens seqLens : List Nat) (lastLoc : List Int) (freePages : List Nat) (pageSize : Nat) :
    (extendSlots preLens seqLens lastLoc freePages pageSize).length = Rows.start (extendLen preLens seqLens) preLens.length := by
  simp [extendSlots, Rows.start, length_flatMap]

namespace PageAllocator

theorem merge_perm (a : PageAllocator) (numPages : Nat) :
    ((a.mergeIfShort numPages).freePages ++ (a.mergeIfShort numPages).releasePages).Perm (a.freePages ++ a.releasePages) := by
  unfold mergeIfShort mergeAndSortFree
  split
  · split
    · rw [append_nil]
      exact perm_insertionSort _ _
    · exact .refl _
  · exact .refl _

structure Extended (pageSize : Nat) (prefixLens seqLens : List Nat) (lastLoc : List Int) (taken : List Nat) (out : List Int)
    (page : Nat → Nat → Nat) : Prop where
  length : out.length = Rows.start (extendLen prefixLens seqLens) prefixLens.length
  old : ∀ i < prefixLens.length, ∀ t, prefixLens[i]! ≤ t → t < seqLens[i]! → t < pagesOf pageSize prefixLens[i]! * pageSize →
    out[Rows.start (extendLen prefixLens seqLens) i + (t - prefixLens[i]!)]! = lastLoc[i]! + 1 + ((t - prefixLens[i]! : Nat) : Int)
  new : ∀ i < prefixLens.length, ∀ t, prefixLens[i]! ≤ t → t < seqLens[i]! → pagesOf pageSize prefixLens[i]! * pageSize ≤ t →
    out[Rows.start (extendLen prefixLens seqLens) i + (t - prefixLens[i]!)]! = ((page i (t / pageSize) * pageSize + t % pageSize : Nat) : Int)
  offset : ∀ i < prefixLens.length, ∀ t, prefixLens[i]! ≤ t → t < seqLens[i]! →
    out[Rows.start (extendLen prefixLens seqLens) i + (t - prefixLens[i]!)]! % pageSize = ((t % pageSize : Nat) : Int)
  pages : (range prefixLens.length).flatMap (fun i =>
    (range' (pagesOf pageSize prefixLens[i]!) (newPages prefixLens seqLens pageSize i)).map (page i)) = taken
  distinct : ∀ i < prefixLens.length, ∀ j < prefixLens.length, ∀ q r, pagesOf pageSize prefixLens[i]! ≤ q →
    q < pagesOf pageSize seqLens[i]! → pagesOf pageSize prefixLens[j]! ≤ r → r < pagesOf pageSize seqLens[j]! → page i q = page j r → i = j ∧ q = r

section
variable {a : PageAllocator} {prefixLens seqLens : List Nat} {lastLoc : List Int}

theorem extendSlots_extended {pageSize : Nat} {pages : List Nat} (nodup : pages.Nodup)
    (enough : Rows.start (newPages prefixLens seqLens pageSize) prefixLens.length ≤ pages.length)
    (places : ∀ i < prefixLens.length, (lastLoc[i]! + 1) % pageSize = ((prefixLens[i]! % pageSize : Nat) : Int)) :
    Extended pageSize prefixLens seqLens lastLoc (pages.take (Rows.start (newPages prefixLens seqLens pageSize) prefixLens.length))
      (extendSlots prefixLens seqLens lastLoc pages pageSize) (newPage prefixLens seqLens pages pageSize) := by
  refine ⟨length_extendSlots _ _ _ _ _, ?_, ?_, ?_, newPage_list enough, ?_⟩
  · intro i row t start stop old
    rw [getElem!_extendSlots row start stop, extendSlot, if_pos old]
  · intro i row t start stop new
    rw [getElem!_extendSlots row start stop, extendSlot, if_neg (by omega)]
    rfl
  · intro i row t start stop
    rw [getElem!_extendSlots row start stop, extendSlot]
    split
    · have place := places i row
      rw [Int.add_emod, place, ← Int.natCast_emod, ← Int.natCast_add, ← Int.natCast_emod, ← Nat.add_mod,
        show prefixLens[i]! + (t - prefixLens[i]!) = t by omega]
    · rw [← Int.natCast_emod, Nat.mul_add_mod', Nat.mod_mod]
  · intro i row j row' q r new lt new' lt' same
    exact newPage_inj nodup enough row row' new lt new' lt' same

/-- `alloc_extend` fails just when there are too few pages, and else hands out what it should; the reference
fills the same array. -/
theorem allocExtend_correct (positive : 0 < a.pageSize) (lens : seqLens.length = prefixLens.length)
    (grows : ∀ i < prefixLens.length, prefixLens[i]! ≤ seqLens[i]!)
    (places : ∀ i < prefixLens.length, (lastLoc[i]! + 1) % a.pageSize = ((prefixLens[i]! % a.pageSize : Nat) : Int))
    {total : Nat} (tokens : total = Rows.start (extendLen prefixLens seqLens) prefixLens.length) {b : PageAllocator}
    (merged : b = a.mergeIfShort (total / a.pageSize + prefixLens.length + 1)) {inUse : List Nat}
    (distinct : b.freePages.Nodup) (apart : ∀ page ∈ b.freePages, page ∉ inUse) (other : Nat) (empty : Nat → Int) :
    (∀ out a', a.allocExtend other empty prefixLens seqLens lastLoc total = (some out, a') →
      (∃ page, Extended a.pageSize prefixLens seqLens lastLoc (b.freePages.take (getNumNewPagesExtend prefixLens seqLens a.pageSize)) out page) ∧
      (∀ page ∈ b.freePages.take (getNumNewPagesExtend prefixLens seqLens a.pageSize), page ∉ inUse) ∧
      a'.freePages = b.freePages.drop (getNumNewPagesExtend prefixLens seqLens a.pageSize) ∧ a'.releasePages = b.releasePages ∧
      (∀ mem, Launch empty ((List.range prefixLens.length).flatMap (allocExtendKernel prefixLens seqLens lastLoc b.freePages
        (nextPowerOf2 prefixLens.length) a.pageSize other)) mem → (List.range total).map mem = out) ∧
      ∃ stores, allocExtendNaive prefixLens seqLens lastLoc b.freePages a.pageSize = .ok stores ∧
        (List.range total).map (storeAll empty stores) = out) ∧
    ((a.allocExtend other empty prefixLens seqLens lastLoc total).1 = none ↔
      getNumNewPagesExtend prefixLens seqLens a.pageSize > b.freePages.length) ∧
    ((a.allocExtend other empty prefixLens seqLens lastLoc total).1 = none →
      ((a.allocExtend other empty prefixLens seqLens lastLoc total).2.freePages ++
        (a.allocExtend other empty prefixLens seqLens lastLoc total).2.releasePages).Perm (a.freePages ++ a.releasePages)) := by
  have call : a.allocExtend other empty prefixLens seqLens lastLoc total = _ := allocExtend_eq positive grows other empty tokens
  have need : getNumNewPagesExtend prefixLens seqLens a.pageSize = _ := numNewPages_eq lens
  have kept := a.merge_perm (total / a.pageSize + prefixLens.length + 1)
  rw [← merged] at call kept
  unfold takePages at call
  by_cases short : getNumNewPagesExtend prefixLens seqLens a.pageSize > b.freePages.length
  · rw [if_pos short] at call
    rw [call]
    exact ⟨fun out a' impossible => (by cases impossible), ⟨fun _ => short, fun _ => rfl⟩, fun _ => kept⟩
  · rw [if_neg short] at call
    rw [call]
    refine ⟨?_, ⟨fun impossible => (by cases impossible), fun many => absurd many short⟩, fun impossible => (by cases impossible)⟩
    rintro out a' result
    cases result
    rw [need] at short ⊢
    refine ⟨⟨_, extendSlots_extended distinct (by omega) places⟩, fun page member => apart page (mem_of_mem_take member), rfl,
      rfl, fun mem launch => ?_, ?_⟩
    · rw [tokens]
      exact kernel_launch positive grows other launch
    · rw [tokens]
      exact allocExtendNaive_eq positive lens grows (by omega) empty

end

/-- One sequence grows from two places to seven, a new one takes five; the released page 5 is merged in. -/
theorem allocExtend_correct_two : ∃ page, Extended 4 [2, 0] [7, 5] [9, -1] [3, 5, 7] [10, 11, 12, 13, 14, 20, 21, 22, 23, 28] page := by
  let a : PageAllocator := ⟨4, true, [3, 7, 9], [5], true, [], nofun⟩
  have result : a.allocExtend 0 (fun _ => 0) [2, 0] [7, 5] [9, -1] 10 =
      (some [10, 11, 12, 13, 14, 20, 21, 22, 23, 28], (a.allocExtend 0 (fun _ => 0) [2, 0] [7, 5] [9, -1] 10).2) :=
    Prod.ext (by decide +kernel) rfl
  have lens : [7, 5].length = [2, 0].length := rfl
  have grows : ∀ i < [2, 0].length, [2, 0][i]! ≤ [7, 5][i]! := by decide
  have places : ∀ i < [2, 0].length, (([9, -1] : List Int)[i]! + 1) % a.pageSize = (([2, 0][i]! % a.pageSize : Nat) : Int) := by decide
  have tokens : 10 = Rows.start (extendLen [2, 0] [7, 5]) [2, 0].length := by decide
  have distinct : (a.mergeIfShort (10 / a.pageSize + [2, 0].length + 1)).freePages.Nodup := by decide
  have apart : ∀ page ∈ (a.mergeIfShort (10 / a.pageSize + [2, 0].length + 1)).freePages, page ∉ [1, 2] := by decide
  have taken : (a.mergeIfShort (10 / a.pageSize + [2, 0].length + 1)).freePages.take (getNumNewPagesExtend [2, 0] [7, 5] a.pageSize) =
      [3, 5, 7] := by decide
  have correct := ((allocExtend_correct (by decide) lens grows places tokens rfl distinct apart 0 (fun _ => 0)).1 _ _ result).1
  rwa [taken] at correct

end PageAllocator

end TriaxialKV
