import TriaxialKV.Kernel.RoundTrip
import TriaxialKV.Lib.OnlineSoftmax
import Mathlib.Algebra.BigOperators.Field
import Mathlib.Analysis.SpecialFunctions.Trigonometric.DerivHyp

/-!
# Split decode attention

Arithmetic is that of the reals. What `attn_logits` and `attn_lse` hold before the call is arbitrary.
-/

namespace TriaxialKV
open Stores OnlineSoftmax Finset Quantizer

/-! ### The reference -/

section
variable {X M F O : Type} (qz : Quantizer X M F O) (kv : LayerKV M) (offset H D : Nat)

/-- `ref_dequant_tokens`: levels of `bits` bits, packed from the low bits on, and a scale for 32 channels. -/
def refDequantToken (data : Nat → Nat) (scales : Nat → M) (bits row h d : Nat) : F :=
  let perByte := 8 / bits
  let level := (data ((row * H + h) * (D / perByte) + d / perByte) >>> (bits * (d % perByte))) &&& (2 ^ bits - 1)
  let moff := ((row * H + h) * (D / 32) + d / 32) * 2
  qz.mulAdd level (scales moff) (scales (moff + 1))

def refKey (slot h d : Nat) : F :=
  if slot < offset then
    let page := slot / 32
    let j := slot % 32
    let level := (kv.k2Data (((page * H + h) * D + d) * 8 + j / 4) >>> (2 * (j % 4))) &&& 3
    let moff := ((page * H + h) * D + d) * 2
    qz.mulAdd level (kv.k2Meta moff) (kv.k2Meta (moff + 1))
  else refDequantToken qz H D kv.k4Data kv.k4Meta 4 (slot - offset) h d

def refValue (slot h d : Nat) : F :=
  if slot < offset then refDequantToken qz H D kv.v2Data kv.v2Meta 2 slot h d
  else refDequantToken qz H D kv.v4Data kv.v4Meta 4 (slot - offset) h d

end

/-- A call of `decode_attention_fwd_mixed`. `nan` is what undefined differences give. -/
structure DecodeCall where
  qz : Quantizer ℝ ℝ ℝ ℝ
  kv : LayerKV ℝ
  offset : Nat
  H : Nat
  kvGroupNum : Nat
  D4 : Nat
  batch : Nat
  q : Nat → Nat → Nat → ℝ
  kvIndptr : Nat → Nat
  kvIndices : Nat → Nat
  numKvSplits : Nat → Nat
  maxKvSplits : Nat
  smScale : ℝ
  logitCap : ℝ
  nan : ℝ

namespace DecodeCall
variable (x : DecodeCall)

def headNum : Nat := x.H * x.kvGroupNum

def D : Nat := 4 * x.D4

def seqLen (b : Nat) : Nat := x.kvIndptr (b + 1) - x.kvIndptr b

noncomputable def refScore (b h n : Nat) : ℝ :=
  let s := (∑ d ∈ range x.D, x.q b h d * refKey x.qz x.kv x.offset x.H x.D (x.kvIndices (x.kvIndptr b + n)) (h / x.kvGroupNum) d) *
    x.smScale
  if x.logitCap > 0 then x.logitCap * Real.tanh (s / x.logitCap) else s

noncomputable def refAttention (b h d : Nat) : ℝ :=
  ∑ n ∈ range (x.seqLen b), Real.exp (x.refScore b h n) / (∑ n ∈ range (x.seqLen b), Real.exp (x.refScore b h n)) *
      refValue x.qz x.kv x.offset x.H x.D (x.kvIndices (x.kvIndptr b + n)) (h / x.kvGroupNum) d

/-! ### Stage 1 -/

def cdiv (a b : Nat) : Nat := (a + b - 1) / b

def kvLenPerSplit (b : Nat) : Nat := cdiv (cdiv (x.seqLen b) (x.numKvSplits b)) 32 * 32

def splitKvStart (b split : Nat) : Nat := x.kvLenPerSplit b * split

def splitKvEnd (b split : Nat) : Nat := min (x.splitKvStart b split + x.kvLenPerSplit b) (x.seqLen b)

def validBlockH : Nat := if 16 < x.kvGroupNum then 16 else x.kvGroupNum

def curKvHead (headId : Nat) : Nat := headId / cdiv x.kvGroupNum 16

def curHead (headId lane : Nat) : Nat := headId * x.validBlockH + lane

def maskH (headId lane : Nat) : Bool := decide (x.curHead headId lane < (headId + 1) * x.validBlockH) && decide (x.curHead headId lane < x.headNum)

section
variable (b headId split startN : Nat)

def maskN (n : Nat) : Bool := decide (startN + n < x.splitKvEnd b split)

def kvLoc (n : Nat) : Nat := if x.maskN b split startN n then x.kvIndices (x.kvIndptr b + (startN + n)) else 0

def is2 (n : Nat) : Bool := decide (x.kvLoc b split startN n < x.offset)

def locHi : Nat := Tensor.reduce max ((List.range 32).map (fun n => if x.maskN b split startN n then x.kvLoc b split startN n else 0))

def locLo : Nat := Tensor.reduce min ((List.range 32).map (fun n => if x.maskN b split startN n then x.kvLoc b split startN n else x.offset))

noncomputable def kTiles (c i n : Nat) : ℝ :=
  let loc := x.kvLoc b split startN
  let mask := x.maskN b split startN
  let head := x.curKvHead headId
  let k2 (mask : Nat → Bool) := x.qz.k2Tiles x.kv.k2Data x.kv.k2Meta loc head x.H mask x.D c i n
  let k4 (mask : Nat → Bool) := x.qz.k4Tiles x.kv.k4Data x.kv.k4Meta loc x.offset head x.H mask x.D (x.D / 32) c i n
  if x.locHi b split startN < x.offset then k2 mask
  else if x.offset ≤ x.locLo b split startN then k4 mask
  else if x.is2 b split startN n then k2 (fun n => mask n && x.is2 b split startN n)
  else k4 (fun n => mask n && !x.is2 b split startN n)

noncomputable def vTiles (c i n : Nat) : ℝ :=
  let loc := x.kvLoc b split startN
  let mask := x.maskN b split startN
  let head := x.curKvHead headId
  let v2 (mask : Nat → Bool) := x.qz.v2Tiles x.kv.v2Data x.kv.v2Meta loc head x.H mask x.D (x.D / 32) c i n
  let v4 (mask : Nat → Bool) := x.qz.v4Tiles x.kv.v4Data x.kv.v4Meta loc x.offset head x.H mask x.D (x.D / 32) c i n
  if x.locHi b split startN < x.offset then v2 mask
  else if x.offset ≤ x.locLo b split startN then v4 mask
  else if x.is2 b split startN n then v2 (fun n => mask n && x.is2 b split startN n)
  else v4 (fun n => mask n && !x.is2 b split startN n)

noncomputable def sigmoid (y : ℝ) : ℝ := 1 / (1 + Real.exp (-y))

noncomputable def tanh (y : ℝ) : ℝ := 2 * sigmoid (2 * y) - 1

noncomputable def qTile (lane c i : Nat) : ℝ :=
  if x.maskH headId lane then x.q b (x.curHead headId lane) (4 * i + c) else 0

noncomputable def qk (lane n : Nat) : Option ℝ :=
  let dot c := ∑ i ∈ range x.D4, x.qTile b headId lane c i * x.kTiles b headId split startN c i n
  let s := (dot 0 + dot 1 + dot 2 + dot 3) * x.smScale
  let s := if x.logitCap > 0 then x.logitCap * tanh (s / x.logitCap) else s
  if x.maskH headId lane && x.maskN b split startN n then some s else none

end

noncomputable def stage1Block (b headId split lane startN : Nat) (s : State (Fin 4 × Nat)) : State (Fin 4 × Nat) :=
  absorb x.nan 32 (x.qk b headId split startN lane) (fun n (ci : Fin 4 × Nat) => x.vTiles b headId split startN ci.1 ci.2 n) s

noncomputable def stage1 (b headId split lane : Nat) : State (Fin 4 × Nat) :=
  let start := x.splitKvStart b split
  (List.range (cdiv (x.splitKvEnd b split - start) 32)).foldl
    (fun s j => x.stage1Block b headId split lane (start + 32 * j) s) State.empty

def lanes : List (Nat × Nat × Nat × Nat) :=
  (List.range x.batch ×ˢ List.range (cdiv x.headNum (min 16 x.kvGroupNum)) ×ˢ List.range x.maxKvSplits ×ˢ List.range 16).filter
    (fun (b, headId, split, lane) => x.maskH headId lane && decide (x.splitKvStart b split < x.splitKvEnd b split))

def row (b h split : Nat) : Nat := (b * x.headNum + h) * x.maxKvSplits + split

noncomputable def attOutStores : List (Nat × ℝ) :=
  (x.lanes ×ˢ List.range x.D4 ×ˢ List.finRange 4).map (fun ((b, headId, split, lane), i, c) =>
    (x.row b (x.curHead headId lane) split * x.D + (4 * i + c), (x.stage1 b headId split lane).acc (c, i) / (x.stage1 b headId split lane).eSum))

noncomputable def attLseStores : List (Nat × ℝ) :=
  x.lanes.map (fun (b, headId, split, lane) =>
    (x.row b (x.curHead headId lane) split, (x.stage1 b headId split lane).eMax.getD x.nan + Real.log (x.stage1 b headId split lane).eSum))

/-! ### Stage 2 -/

noncomputable def stage2Split (midO midO1 : Nat → ℝ) (b h split : Nat) (s : State (Fin x.D)) : State (Fin x.D) :=
  if x.splitKvEnd b split > x.splitKvStart b split then
    absorb x.nan 1 (fun _ => some (midO1 (x.row b h split))) (fun _ d => midO (x.row b h split * x.D + d)) s
  else s

noncomputable def stage2 (midO midO1 : Nat → ℝ) (b h : Nat) : State (Fin x.D) :=
  (List.range x.maxKvSplits).foldl (fun s split => x.stage2Split midO midO1 b h split s) State.empty

def Computes (attnLogits attnLse : Nat → ℝ) (o : Nat → Nat → Nat → ℝ) : Prop :=
  ∃ midO midO1, Launch attnLogits x.attOutStores midO ∧ Launch attnLse x.attLseStores midO1 ∧
    ∀ b < x.batch, ∀ h < x.headNum, ∀ d : Fin x.D, o b h d = (x.stage2 midO midO1 b h).acc d / (x.stage2 midO midO1 b h).eSum

end DecodeCall

/-! ### Tiles read the reference values -/

section
variable {X M F O : Type} (qz : Quantizer X M F O) {data : Nat → Nat} {scales : Nat → M} {loc : Nat → Nat} {mask : Nat → Bool}
  {offset H D head c i n : Nat}

theorem tile4_eq (unmasked : mask n = true) (sub : c < 4) : qz.tile4 data scales loc offset head H mask D (D / 32) c i n =
      refDequantToken qz H D data scales 4 (loc n - offset) head (4 * i + c) := by
  have group : (4 * i + c) / 32 = i / 8 := by omega
  unfold Quantizer.tile4 refDequantToken maskedLoad
  simp only [unmasked, if_true, group, Nat.reduceDiv, Nat.reducePow, Nat.reduceSub]
  obtain rfl | rfl | rfl | rfl : c = 0 ∨ c = 1 ∨ c = 2 ∨ c = 3 := by omega
  · rw [show (4 * i + 0) / 2 = 2 * i by omega, show (4 * i + 0) % 2 = 0 by omega]
    rfl
  · rw [show (4 * i + 1) / 2 = 2 * i by omega, show (4 * i + 1) % 2 = 1 by omega]
    rfl
  · rw [show (4 * i + 2) / 2 = 2 * i + 1 by omega, show (4 * i + 2) % 2 = 0 by omega]
    rfl
  · rw [show (4 * i + 3) / 2 = 2 * i + 1 by omega, show (4 * i + 3) % 2 = 1 by omega]
    rfl

theorem v2Tiles_eq (unmasked : mask n = true) (sub : c < 4) :
    qz.v2Tiles data scales loc head H mask D (D / 32) c i n = refDequantToken qz H D data scales 2 (loc n) head (4 * i + c) := by
  have group : (4 * i + c) / 32 = i / 8 := by omega
  have byte : (4 * i + c) / 4 = i := by omega
  have shift : (4 * i + c) % 4 = c := by omega
  unfold Quantizer.v2Tiles refDequantToken maskedLoad
  simp only [unmasked, if_true, group, Nat.reduceDiv, Nat.reducePow, Nat.reduceSub, byte, shift]

variable (loc mask offset)

def blockHi : Nat := Tensor.reduce max ((List.range 32).map (fun n => if mask n then loc n else 0))

def blockLo : Nat := Tensor.reduce min ((List.range 32).map (fun n => if mask n then loc n else offset))

def laneTile {α : Type} (two four : (Nat → Bool) → α) (n : Nat) : α :=
  if decide (loc n < offset) then two (fun n => mask n && decide (loc n < offset))
  else four (fun n => mask n && !decide (loc n < offset))

/-- The branches of the decode kernel: all INT2, all INT4, or lane by lane. -/
def blockTile {α : Type} (two four : (Nat → Bool) → α) (n : Nat) : α :=
  if blockHi loc mask < offset then two mask
  else if offset ≤ blockLo loc mask offset then four mask
  else laneTile loc mask offset two four n

def k2Masks : List (Nat → Bool) := (fun n => mask n && decide (loc n < offset)) :: if blockHi loc mask < offset then [mask] else []

/-- The loads of `_k2_tiles` that no mask guards: the scales and minima of the two pages. -/
def k2Unmasked (head H D i : Nat) : List Nat :=
  if onTwo loc mask then
    [pLo loc mask, pHi loc mask].flatMap (fun p => (List.range 8).map (fun t => ((p * H + head) * D + 4 * i) * 2 + t))
  else []

variable {loc mask offset}

theorem lt_of_locHi (lane : n < 32) (valid : mask n = true) (high : blockHi loc mask < offset) : loc n < offset := by
  refine lt_of_le_of_lt ?_ high
  refine Tensor.rel_reduce max (r := (· ≤ ·)) le_refl (fun _ _ _ => le_trans) Nat.le_max_left Nat.le_max_right ?_
  exact List.mem_map.mpr ⟨n, List.mem_range.mpr lane, if_pos valid⟩

theorem le_of_locLo (lane : n < 32) (valid : mask n = true) (low : offset ≤ blockLo loc mask offset) : offset ≤ loc n := by
  refine low.trans ?_
  refine Tensor.rel_reduce min (r := (· ≥ ·)) le_refl (fun _ _ _ first second => le_trans second first) Nat.min_le_left
    Nat.min_le_right ?_
  exact List.mem_map.mpr ⟨n, List.mem_range.mpr lane, if_pos valid⟩

theorem tile_eq {α : Type} (lane : n < 32) (valid : mask n = true) {two four : (Nat → Bool) → α} {want : α}
    (int2 : ∀ mask : Nat → Bool, mask n = true → loc n < offset → two mask = want)
    (int4 : ∀ mask : Nat → Bool, mask n = true → offset ≤ loc n → four mask = want) :
    blockTile loc mask offset two four n = want ∧ laneTile loc mask offset two four n = want := by
  have byLane : laneTile loc mask offset two four n = want := by
    unfold laneTile
    simp only [decide_eq_true_eq]
    split
    · next small => exact int2 _ (by simp [valid, small]) small
    · next large => exact int4 _ (by simp [valid, large]) (Nat.not_lt.mp large)
  refine ⟨?_, byLane⟩
  unfold blockTile
  split
  · next high => exact int2 _ valid (lt_of_locHi lane valid high)
  · split
    · next low => exact int4 _ valid (le_of_locLo lane valid low)
    · exact byLane

variable (H D head c i n) in
structure TilesRead (kv : LayerKV M) (loc : Nat → Nat) (mask : Nat → Bool) (offset : Nat) : Prop where
  key : let k2 mask := qz.k2Tiles kv.k2Data kv.k2Meta loc head H mask D c i n
    let k4 mask := qz.k4Tiles kv.k4Data kv.k4Meta loc offset head H mask D (D / 32) c i n
    blockTile loc mask offset k2 k4 n = refKey qz kv offset H D (loc n) head (4 * i + c) ∧
      laneTile loc mask offset k2 k4 n = refKey qz kv offset H D (loc n) head (4 * i + c)
  value : let v2 mask := qz.v2Tiles kv.v2Data kv.v2Meta loc head H mask D (D / 32) c i n
    let v4 mask := qz.v4Tiles kv.v4Data kv.v4Meta loc offset head H mask D (D / 32) c i n
    blockTile loc mask offset v2 v4 n = refValue qz kv offset H D (loc n) head (4 * i + c) ∧
      laneTile loc mask offset v2 v4 n = refValue qz kv offset H D (loc n) head (4 * i + c)

theorem tiles_read (kv : LayerKV M) (lane : n < 32) (valid : mask n = true) (sub : c < 4) : TilesRead qz H D head c i n kv loc mask offset where
  key := by
    refine tile_eq lane valid (fun mask unmasked small => ?_) (fun mask unmasked large => ?_)
    · have byte : ∀ row j, row * (D * 8) + ((4 * i + c) * 8 + j) = (row * D + (4 * i + c)) * 8 + j := by
        intro row j
        rw [add_mul (row * D), mul_assoc row, add_assoc]
      rw [Quantizer.k2Tiles_eq _ lane unmasked, refKey, if_pos small]
      dsimp only
      rw [byte]
    · rw [refKey, if_neg (Nat.not_lt.mpr large)]
      exact tile4_eq qz unmasked sub
  value := by
    refine tile_eq lane valid (fun mask unmasked small => ?_) (fun mask unmasked large => ?_)
    · rw [refValue, if_pos small]
      exact v2Tiles_eq qz unmasked sub
    · rw [refValue, if_neg (Nat.not_lt.mpr large)]
      exact tile4_eq qz unmasked sub

theorem pHi_lt {bound : Nat} (pos : 0 < bound) (below : ∀ n < 32, mask n = true → loc n / 32 < bound) : pHi loc mask < bound := by
  unfold pHi
  apply List.foldlRecOn (motive := (· < bound)) _ _ pos
  intro _ small n mem
  split
  · next valid => exact Nat.max_lt.mpr ⟨small, below n (List.mem_range.mp mem) valid⟩
  · exact Nat.max_lt.mpr ⟨small, pos⟩

theorem pLo_le : pLo loc mask ≤ pHi loc mask := by
  unfold pLo
  apply List.foldlRecOn (motive := (· ≤ pHi loc mask)) _ _ (le_refl _)
  intro _ small n _
  exact (Nat.min_le_left ..).trans small

theorem lt_of_k2Masks {m : Nat → Bool} (called : m ∈ k2Masks loc mask offset) (lane : n < 32) (valid : m n = true) : loc n < offset := by
  unfold k2Masks at called
  rcases List.mem_cons.mp called with rfl | all
  · exact of_decide_eq_true (Bool.and_eq_true_iff.mp valid).2
  · split at all
    · next high =>
      obtain rfl := List.mem_singleton.mp all
      exact lt_of_locHi lane valid high
    · cases all

/-- On every valid lane both kernels read the reference value of its slot, and unguarded loads lie inside the buffer. -/
theorem mixed_tiles_read_reference (kv : LayerKV M) (loc : Nat → Nat) (mask : Nat → Bool) (offset H D head : Nat) :
    (∀ n < 32, mask n = true → ∀ c < 4, ∀ i, TilesRead qz H D head c i n kv loc mask offset) ∧
      ∀ numPages, offset = numPages * 32 → 0 < numPages → head < H → ∀ m ∈ k2Masks loc mask offset, ∀ i < D / 4,
        ∀ addr ∈ k2Unmasked loc m head H D i, addr < numPages * H * D * 2 := by
  refine ⟨fun n lane valid c sub i => tiles_read qz kv lane valid sub, ?_⟩
  rintro numPages rfl pos inside m called i _ addr mem
  have high : pHi loc m < numPages := by
    apply pHi_lt pos
    intro n lane valid
    have small := lt_of_k2Masks called lane valid
    omega
  unfold k2Unmasked at mem
  split at mem
  · obtain ⟨p, page, mem⟩ := List.mem_flatMap.mp mem
    obtain ⟨t, small, rfl⟩ := List.mem_map.mp mem
    have known : p < numPages := by
      rcases List.mem_cons.mp page with low | last
      · rw [low]
        exact pLo_le.trans_lt high
      · rw [List.mem_singleton.mp last]
        exact high
    have row : p * H + head + 1 ≤ numPages * H := by
      have := Nat.mul_le_mul_right H (Nat.succ_le_of_lt known)
      rw [Nat.succ_mul] at this
      omega
    have rows := Nat.mul_le_mul_right D row
    rw [Nat.succ_mul] at rows
    have := List.mem_range.mp small
    omega
  · cases mem

end

namespace DecodeCall
variable {x : DecodeCall} {b headId split startN lane n h : Nat}

theorem kvLoc_of_mask (valid : x.maskN b split startN n = true) : x.kvLoc b split startN n = x.kvIndices (x.kvIndptr b + (startN + n)) := if_pos valid

theorem kTiles_eq (lane : n < 32) (valid : x.maskN b split startN n = true) {c i : Nat} (sub : c < 4) : x.kTiles b headId split startN c i n =
      refKey x.qz x.kv x.offset x.H x.D (x.kvIndices (x.kvIndptr b + (startN + n))) (x.curKvHead headId) (4 * i + c) := by
  rw [← kvLoc_of_mask valid]
  exact (tiles_read x.qz x.kv lane valid sub).key.1

theorem vTiles_eq (lane : n < 32) (valid : x.maskN b split startN n = true) {c i : Nat} (sub : c < 4) : x.vTiles b headId split startN c i n =
      refValue x.qz x.kv x.offset x.H x.D (x.kvIndices (x.kvIndptr b + (startN + n))) (x.curKvHead headId) (4 * i + c) := by
  rw [← kvLoc_of_mask valid]
  exact (tiles_read x.qz x.kv lane valid sub).value.1

noncomputable def score (x : DecodeCall) (b h kvHead n : Nat) : ℝ :=
  let s := (∑ d ∈ range x.D, x.q b h d * refKey x.qz x.kv x.offset x.H x.D (x.kvIndices (x.kvIndptr b + n)) kvHead d) * x.smScale
  if x.logitCap > 0 then x.logitCap * Real.tanh (s / x.logitCap) else s

noncomputable def value (x : DecodeCall) (b kvHead n d : Nat) : ℝ := refValue x.qz x.kv x.offset x.H x.D (x.kvIndices (x.kvIndptr b + n)) kvHead d

theorem tanh_eq (y : ℝ) : tanh y = Real.tanh y := by
  have pos := Real.exp_pos y
  have half : Real.exp (-(2 * y)) = (Real.exp y)⁻¹ * (Real.exp y)⁻¹ := by
    rw [← Real.exp_neg, ← Real.exp_add]
    congr 1
    ring
  rw [tanh, sigmoid, Real.tanh_eq_sinh_div_cosh, Real.sinh_eq, Real.cosh_eq, half, Real.exp_neg]
  generalize Real.exp y = a at *
  have left : 2 * (1 / (1 + a⁻¹ * a⁻¹)) - 1 = (a * a - 1) / (a * a + 1) := by
    field_simp
    ring
  have right : (a - a⁻¹) / 2 / ((a + a⁻¹) / 2) = (a * a - 1) / (a * a + 1) := by
    field_simp
  rw [left, right]

theorem sum_four (f : Nat → ℝ) (m : Nat) :
    ∑ i ∈ range m, f (4 * i + 0) + ∑ i ∈ range m, f (4 * i + 1) + ∑ i ∈ range m, f (4 * i + 2) + ∑ i ∈ range m, f (4 * i + 3) =
      ∑ d ∈ range (4 * m), f d := by
  induction m with
  | zero => simp
  | succ m ih =>
    rw [Nat.mul_succ, sum_range_succ _ (4 * m + 3), sum_range_succ _ (4 * m + 2), sum_range_succ _ (4 * m + 1), sum_range_succ _ (4 * m), ← ih]
    simp only [sum_range_succ, add_zero]
    ring

section
variable (head : x.maskH headId lane = true)
include head

theorem qk_eq {n : Nat} (inside : n < 32) : x.qk b headId split startN lane n =
      if startN + n < x.splitKvEnd b split then some (x.score b (x.curHead headId lane) (x.curKvHead headId) (startN + n)) else none := by
  unfold qk
  by_cases valid : startN + n < x.splitKvEnd b split
  · have mask : x.maskN b split startN n = true := decide_eq_true valid
    have dot : ∀ c < 4, ∑ i ∈ range x.D4, x.qTile b headId lane c i * x.kTiles b headId split startN c i n =
        ∑ i ∈ range x.D4, x.q b (x.curHead headId lane) (4 * i + c) *
          refKey x.qz x.kv x.offset x.H x.D (x.kvIndices (x.kvIndptr b + (startN + n))) (x.curKvHead headId) (4 * i + c) := by
      intro c sub
      refine sum_congr rfl (fun i _ => ?_)
      rw [kTiles_eq inside mask sub, qTile, if_pos head]
    have total := sum_four (fun d => x.q b (x.curHead headId lane) d *
      refKey x.qz x.kv x.offset x.H x.D (x.kvIndices (x.kvIndptr b + (startN + n))) (x.curKvHead headId) d) x.D4
    dsimp only
    rw [if_pos (by rw [head, mask]; rfl), if_pos valid, dot 0 (by omega), dot 1 (by omega), dot 2 (by omega), dot 3 (by omega), total]
    simp only [score, tanh_eq, D]
  · have mask : x.maskN b split startN n = false := decide_eq_false valid
    rw [if_neg (by rw [mask, Bool.and_false]; simp), if_neg valid]

/-! ### Stage 1 sums over its split -/

theorem block_weights (b split startN : Nat) (f : Nat → ℝ) :
    ∑ n ∈ range 32, weight (x.qk b headId split startN lane n) * f (startN + n) = ∑ t ∈ Ico startN (min (startN + 32) (x.splitKvEnd b split)),
        Real.exp (x.score b (x.curHead headId lane) (x.curKvHead headId) t) * f t := by
  rw [← sum_lanes]
  refine sum_congr rfl (fun n mem => ?_)
  rw [qk_eq head (mem_range.mp mem)]
  split
  · rfl
  · exact zero_mul _

theorem block_values (b split startN : Nat) (c : Fin 4) (i : Nat) :
    ∑ n ∈ range 32, weight (x.qk b headId split startN lane n) * x.vTiles b headId split startN c i n =
      ∑ n ∈ range 32, weight (x.qk b headId split startN lane n) * x.value b (x.curKvHead headId) (startN + n) (4 * i + c) := by
  refine sum_congr rfl (fun n mem => ?_)
  have inside := mem_range.mp mem
  by_cases valid : startN + n < x.splitKvEnd b split
  · rw [vTiles_eq inside (decide_eq_true valid) c.isLt]
    rfl
  · rw [qk_eq head inside, if_neg valid, weight, zero_mul, zero_mul]

end

noncomputable def weightOf (x : DecodeCall) (b h kvHead lo hi : Nat) : ℝ := ∑ t ∈ Ico lo hi, Real.exp (x.score b h kvHead t)

noncomputable def momentOf (x : DecodeCall) (b h kvHead lo hi d : Nat) : ℝ := ∑ t ∈ Ico lo hi, Real.exp (x.score b h kvHead t) * x.value b kvHead t d

def Sums (x : DecodeCall) (b h kvHead lo hi : Nat) (s : State (Fin 4 × Nat)) : Prop :=
  Totals s (x.weightOf b h kvHead lo hi) (fun ci => x.momentOf b h kvHead lo hi (4 * ci.2 + ci.1))

theorem stage1Block_sums (head : x.maskH headId lane = true) {start j : Nat} (some : start + 32 * j < x.splitKvEnd b split) {s : State (Fin 4 × Nat)}
    (sums : x.Sums b (x.curHead headId lane) (x.curKvHead headId) start (min (start + 32 * j) (x.splitKvEnd b split)) s) :
    x.Sums b (x.curHead headId lane) (x.curKvHead headId) start (min (start + 32 * (j + 1)) (x.splitKvEnd b split))
      (x.stage1Block b headId split lane (start + 32 * j) s) := by
  have lane0 : x.qk b headId split (start + 32 * j) lane 0 ≠ none := by
    rw [qk_eq head (by omega), add_zero, if_pos some]
    exact Option.some_ne_none _
  have step := Totals.absorb sums x.nan _ (fun n (ci : Fin 4 × Nat) => x.vTiles b headId split (start + 32 * j) ci.1 ci.2 n)
    (by omega : 0 < 32) lane0
  have weights := block_weights head b split (start + 32 * j) (fun _ => 1)
  simp only [mul_one] at weights
  rw [weights] at step
  refine step.congr (sum_stretch _ start _ 32 j) (fun ci => ?_)
  have values := (block_values head b split (start + 32 * j) ci.1 ci.2).trans
    (block_weights head b split (start + 32 * j) (fun t => x.value b (x.curKvHead headId) t (4 * ci.2 + ci.1)))
  rw [values]
  exact sum_stretch _ start _ 32 j

theorem stage1_sums (head : x.maskH headId lane = true) (b split : Nat) :
    x.Sums b (x.curHead headId lane) (x.curKvHead headId) (x.splitKvStart b split) (x.splitKvEnd b split)
      (x.stage1 b headId split lane) := by
  generalize start_eq : x.splitKvStart b split = start
  have run : ∀ j ≤ cdiv (x.splitKvEnd b split - start) 32,
      x.Sums b (x.curHead headId lane) (x.curKvHead headId) start (min (start + 32 * j) (x.splitKvEnd b split))
        ((List.range j).foldl (fun s j => x.stage1Block b headId split lane (start + 32 * j) s) State.empty) := by
    intro j bound
    induction j with
    | zero =>
      have none : min (start + 32 * 0) (x.splitKvEnd b split) ≤ start := by omega
      unfold Sums weightOf momentOf
      simp only [Ico_eq_empty_of_le none, sum_empty]
      exact Totals.of_empty
    | succ j ih =>
      rw [List.range_succ, List.foldl_append, List.foldl_cons, List.foldl_nil]
      exact stage1Block_sums head (by unfold cdiv at bound; omega) (ih (by omega))
  have all := run _ (le_refl _)
  have reached : Ico start (min (start + 32 * cdiv (x.splitKvEnd b split - start) 32) (x.splitKvEnd b split)) = Ico start (x.splitKvEnd b split) := by
    congr 1
    unfold cdiv
    omega
  unfold Sums weightOf momentOf at all ⊢
  rw [reached] at all
  unfold stage1
  rw [start_eq]
  exact all

theorem le_cdiv_mul (a : Nat) {w : Nat} (pos : 0 < w) : a ≤ cdiv a w * w := by
  have whole := Nat.div_add_mod' (a + w - 1) w
  have rest := Nat.mod_lt (a + w - 1) pos
  unfold cdiv
  omega

theorem validBlockH_eq (x : DecodeCall) : x.validBlockH = min 16 x.kvGroupNum := by
  unfold validBlockH
  split <;> omega

theorem maskH_iff : x.maskH headId lane = true ↔ lane < x.validBlockH ∧ x.curHead headId lane < x.headNum := by
  unfold maskH
  rw [Bool.and_eq_true, decide_eq_true_eq, decide_eq_true_eq, curHead, Nat.succ_mul, Nat.add_lt_add_iff_left]

theorem curHead_div_mod (x : DecodeCall) (h : Nat) : x.curHead (h / x.validBlockH) (h % x.validBlockH) = h := Nat.div_add_mod' h x.validBlockH

theorem mem_lanes {entry : Nat × Nat × Nat × Nat} : entry ∈ x.lanes ↔
    (entry.1 < x.batch ∧ entry.2.1 < cdiv x.headNum (min 16 x.kvGroupNum) ∧ entry.2.2.1 < x.maxKvSplits ∧ entry.2.2.2 < 16) ∧
      x.maskH entry.2.1 entry.2.2.2 = true ∧ x.splitKvStart entry.1 entry.2.2.1 < x.splitKvEnd entry.1 entry.2.2.1 := by
  obtain ⟨b, _, _, _⟩ := entry
  unfold lanes
  rw [List.mem_filter]
  simp only [List.mem_product, List.mem_range, Bool.and_eq_true, decide_eq_true_eq]

theorem nodup_lanes (x : DecodeCall) : x.lanes.Nodup :=
  (List.nodup_range.product (List.nodup_range.product (List.nodup_range.product List.nodup_range))).filter _

theorem row_inj {b' h' split' : Nat} (head : h < x.headNum) (head' : h' < x.headNum) (inside : split < x.maxKvSplits)
    (inside' : split' < x.maxKvSplits) (same : x.row b h split = x.row b' h' split') : b = b' ∧ h = h' ∧ split = split' := by
  obtain ⟨high, low⟩ := radix_inj inside inside' same
  obtain ⟨first, second⟩ := radix_inj head head' high
  exact ⟨first, second, low⟩

theorem lanes_inj {first second : Nat × Nat × Nat × Nat} (left : first ∈ x.lanes) (right : second ∈ x.lanes)
    (same : x.row first.1 (x.curHead first.2.1 first.2.2.2) first.2.2.1 = x.row second.1 (x.curHead second.2.1 second.2.2.2) second.2.2.1) :
    first = second := by
  obtain ⟨bounds, mask, _⟩ := mem_lanes.mp left
  obtain ⟨bounds', mask', _⟩ := mem_lanes.mp right
  obtain ⟨low, head⟩ := maskH_iff.mp mask
  obtain ⟨low', head'⟩ := maskH_iff.mp mask'
  obtain ⟨sameB, sameHead, sameSplit⟩ := row_inj head head' bounds.2.2.1 bounds'.2.2.1 same
  obtain ⟨sameId, sameLane⟩ := radix_inj low low' sameHead
  exact Prod.ext sameB (Prod.ext sameId (Prod.ext sameSplit sameLane))

theorem program_of_head (head : h < x.headNum) : h / x.validBlockH < cdiv x.headNum (min 16 x.kvGroupNum) ∧ h % x.validBlockH < 16 ∧
      x.maskH (h / x.validBlockH) (h % x.validBlockH) = true := by
  have block := validBlockH_eq x
  have pos : 0 < x.validBlockH := by
    have group : 0 < x.kvGroupNum := by
      by_contra zero
      unfold headNum at head
      rw [Nat.eq_zero_of_not_pos zero, mul_zero] at head
      cases head
    omega
  have low := Nat.mod_lt h pos
  rw [← block, Nat.div_lt_iff_lt_mul pos, maskH_iff, curHead_div_mod]
  exact ⟨lt_of_lt_of_le head (le_cdiv_mul x.headNum pos), by omega, low, head⟩

theorem mem_lanes_of_head (inside : b < x.batch) (head : h < x.headNum) (splits : split < x.maxKvSplits)
    (some : x.splitKvStart b split < x.splitKvEnd b split) :
    (b, h / x.validBlockH, split, h % x.validBlockH) ∈ x.lanes ∧ x.maskH (h / x.validBlockH) (h % x.validBlockH) = true := by
  obtain ⟨program, lane, mask⟩ := program_of_head head
  exact ⟨mem_lanes.mpr ⟨⟨inside, program, splits, lane⟩, mask, some⟩, mask⟩

theorem nodup_attLse (x : DecodeCall) : (x.attLseStores.map Prod.fst).Nodup := by
  unfold attLseStores
  rw [List.map_map]
  refine List.Nodup.map_on ?_ x.nodup_lanes
  intro _ left _ right same
  exact lanes_inj left right same

theorem nodup_attOut (x : DecodeCall) : (x.attOutStores.map Prod.fst).Nodup := by
  unfold attOutStores
  rw [List.map_map]
  refine List.Nodup.map_on ?_ (x.nodup_lanes.product (List.nodup_range.product (List.nodup_finRange 4)))
  intro first left second right same
  obtain ⟨_, i, c⟩ := first
  obtain ⟨_, i', c'⟩ := second
  simp only [List.mem_product, List.mem_range] at left right
  have channel : 4 * i + (c : Nat) < x.D := by unfold D; omega
  have channel' : 4 * i' + (c' : Nat) < x.D := by unfold D; omega
  obtain ⟨high, _⟩ := radix_inj channel channel' same
  obtain rfl := lanes_inj left.1 right.1 high
  obtain rfl : i = i' := by omega
  obtain rfl : c = c' := Fin.ext (by omega)
  rfl

section
variable {midO midO1 attnLogits attnLse : Nat → ℝ} {h : Nat}

theorem read_lse (launched : Launch attnLse x.attLseStores midO1) (inside : b < x.batch) (head : h < x.headNum)
    (splits : split < x.maxKvSplits) (some : x.splitKvStart b split < x.splitKvEnd b split) :
    midO1 (x.row b h split) = (x.stage1 b (h / x.validBlockH) split (h % x.validBlockH)).eMax.getD x.nan +
      Real.log (x.stage1 b (h / x.validBlockH) split (h % x.validBlockH)).eSum := by
  have mem := (mem_lanes_of_head inside head splits some).1
  refine launched.read x.nodup_attLse (List.mem_map.mpr ⟨_, mem, ?_⟩)
  dsimp only
  rw [curHead_div_mod]

theorem read_out (launched : Launch attnLogits x.attOutStores midO) (inside : b < x.batch) (head : h < x.headNum)
    (splits : split < x.maxKvSplits) (some : x.splitKvStart b split < x.splitKvEnd b split) (d : Fin x.D) :
    midO (x.row b h split * x.D + d) = (x.stage1 b (h / x.validBlockH) split (h % x.validBlockH)).acc (Fin.ofNat 4 d, d / 4) /
      (x.stage1 b (h / x.validBlockH) split (h % x.validBlockH)).eSum := by
  have mem := (mem_lanes_of_head inside head splits some).1
  have channel : (d : Nat) / 4 < x.D4 := by
    have := d.isLt
    unfold D at this
    omega
  refine launched.read x.nodup_attOut
    (List.mem_map.mpr ⟨((b, h / x.validBlockH, split, h % x.validBlockH), (d : Nat) / 4, Fin.ofNat 4 d), ?_, ?_⟩)
  · exact List.mem_product.mpr ⟨mem, List.mem_product.mpr ⟨List.mem_range.mpr channel, List.mem_finRange _⟩⟩
  · dsimp only
    rw [curHead_div_mod, Fin.val_ofNat, Nat.div_add_mod]

def kvHeadOf (x : DecodeCall) (h : Nat) : Nat := x.curKvHead (h / x.validBlockH)

section
variable (outs : Launch attnLogits x.attOutStores midO) (lses : Launch attnLse x.attLseStores midO1) (inside : b < x.batch) (head : h < x.headNum)
include outs lses inside head

theorem split_read (splits : split < x.maxKvSplits) (some : x.splitKvStart b split < x.splitKvEnd b split) :
    Real.exp (midO1 (x.row b h split)) = x.weightOf b h (x.kvHeadOf h) (x.splitKvStart b split) (x.splitKvEnd b split) ∧
      ∀ d : Fin x.D, Real.exp (midO1 (x.row b h split)) * midO (x.row b h split * x.D + d) =
        x.momentOf b h (x.kvHeadOf h) (x.splitKvStart b split) (x.splitKvEnd b split) d := by
  have sums : x.Sums b h (x.kvHeadOf h) (x.splitKvStart b split) (x.splitKvEnd b split)
      (x.stage1 b (h / x.validBlockH) split (h % x.validBlockH)) := by
    have stored := stage1_sums (mem_lanes_of_head inside head splits some).2 b split
    rwa [curHead_div_mod] at stored
  have pos : 0 < x.weightOf b h (x.kvHeadOf h) (x.splitKvStart b split) (x.splitKvEnd b split) :=
    sum_pos (fun _ _ => Real.exp_pos _) (nonempty_Ico.mpr some)
  obtain ⟨m, found⟩ := Option.ne_none_iff_exists'.mp (Totals.eMax_ne_none sums pos)
  have weight : Real.exp (midO1 (x.row b h split)) = x.weightOf b h (x.kvHeadOf h) (x.splitKvStart b split) (x.splitKvEnd b split) := by
    rw [read_lse lses inside head splits some, found]
    exact Totals.exp_lse sums pos found
  refine ⟨weight, fun d => ?_⟩
  rw [weight, read_out outs inside head splits some d, Totals.quotient sums pos, mul_div_cancel₀ _ pos.ne', Fin.val_ofNat, Nat.div_add_mod]

theorem stage2Split_sums (splits : split < x.maxKvSplits) {s : State (Fin x.D)}
    (sums : Totals s (x.weightOf b h (x.kvHeadOf h) 0 (min (x.splitKvStart b split) (x.seqLen b)))
      (fun d => x.momentOf b h (x.kvHeadOf h) 0 (min (x.splitKvStart b split) (x.seqLen b)) d)) :
    Totals (x.stage2Split midO midO1 b h split s)
      (x.weightOf b h (x.kvHeadOf h) 0 (min (x.splitKvStart b (split + 1)) (x.seqLen b)))
      (fun d => x.momentOf b h (x.kvHeadOf h) 0 (min (x.splitKvStart b (split + 1)) (x.seqLen b)) d) := by
  have next : x.splitKvStart b (split + 1) = x.splitKvStart b split + x.kvLenPerSplit b := Nat.mul_succ _ _
  have consecutive : ∀ f : Nat → ℝ, ∑ t ∈ Ico 0 (min (x.splitKvStart b split) (x.seqLen b)), f t +
      ∑ t ∈ Ico (x.splitKvStart b split) (x.splitKvEnd b split), f t = ∑ t ∈ Ico 0 (min (x.splitKvStart b (split + 1)) (x.seqLen b)), f t := by
    intro f
    have stretch := sum_stretch f 0 (x.seqLen b) (x.kvLenPerSplit b) split
    rwa [zero_add, zero_add] at stretch
  unfold stage2Split
  split
  · next some =>
    obtain ⟨weight, moments⟩ := split_read outs lses inside head splits some
    have step := sums.absorb x.nan (fun _ => Option.some (midO1 (x.row b h split)))
      (fun _ (d : Fin x.D) => midO (x.row b h split * x.D + d)) (by omega : 0 < 1) (Option.some_ne_none _)
    simp only [sum_range_one, OnlineSoftmax.weight] at step
    refine step.congr ?_ (fun d => ?_)
    · rw [weight]
      exact consecutive _
    · rw [moments]
      exact consecutive _
  · next none =>
    have past : Ico (x.splitKvStart b split) (x.splitKvEnd b split) = ∅ := Ico_eq_empty_of_le (Nat.le_of_not_lt none)
    refine sums.congr ?_ (fun d => ?_)
    · have empty := consecutive (fun t => Real.exp (x.score b h (x.kvHeadOf h) t))
      rwa [past, sum_empty, add_zero] at empty
    · have empty := consecutive (fun t => Real.exp (x.score b h (x.kvHeadOf h) t) * x.value b (x.kvHeadOf h) t d)
      rwa [past, sum_empty, add_zero] at empty

theorem stage2_sums (splits : 1 ≤ x.numKvSplits b) (most : x.numKvSplits b ≤ x.maxKvSplits) :
    Totals (x.stage2 midO midO1 b h) (x.weightOf b h (x.kvHeadOf h) 0 (x.seqLen b))
      (fun d => x.momentOf b h (x.kvHeadOf h) 0 (x.seqLen b) d) := by
  have run : ∀ n ≤ x.maxKvSplits, Totals ((List.range n).foldl (fun s split => x.stage2Split midO midO1 b h split s) State.empty)
      (x.weightOf b h (x.kvHeadOf h) 0 (min (x.splitKvStart b n) (x.seqLen b)))
      (fun d => x.momentOf b h (x.kvHeadOf h) 0 (min (x.splitKvStart b n) (x.seqLen b)) d) := by
    intro n bound
    induction n with
    | zero =>
      have start : min (x.splitKvStart b 0) (x.seqLen b) = 0 := Nat.zero_min _
      unfold weightOf momentOf
      simp only [start, Ico_self, sum_empty]
      exact Totals.of_empty
    | succ n ih =>
      rw [List.range_succ, List.foldl_append, List.foldl_cons, List.foldl_nil]
      exact stage2Split_sums outs lses inside head bound (ih (by omega))
  have all := run _ (le_refl _)
  have reached : x.seqLen b ≤ x.splitKvStart b x.maxKvSplits := calc
    x.seqLen b ≤ cdiv (x.seqLen b) (x.numKvSplits b) * x.numKvSplits b := le_cdiv_mul _ splits
    _ ≤ x.kvLenPerSplit b * x.maxKvSplits := Nat.mul_le_mul (le_cdiv_mul _ (by omega)) most
  rwa [min_eq_right reached] at all

end

end

structure Valid (x : DecodeCall) : Prop where
  heads : 0 < x.H
  group : 0 < x.kvGroupNum
  headDim : checkHeadDim x.D 64 = .ok ()
  nonempty : ∀ b < x.batch, 1 ≤ x.seqLen b
  splits : ∀ b < x.batch, 1 ≤ x.numKvSplits b ∧ x.numKvSplits b ≤ x.maxKvSplits

theorem exists_computes (x : DecodeCall) (attnLogits attnLse : Nat → ℝ) : ∃ o, x.Computes attnLogits attnLse o := by
  let midO := storeAll attnLogits x.attOutStores
  let midO1 := storeAll attnLse x.attLseStores
  refine ⟨fun b h d => if inside : d < x.D then (x.stage2 midO midO1 b h).acc ⟨d, inside⟩ / (x.stage2 midO midO1 b h).eSum else 0,
    midO, midO1, launch_storeAll _ _, launch_storeAll _ _, fun b _ h _ d => ?_⟩
  exact dif_pos d.isLt

theorem refAttention_eq (x : DecodeCall) (b h d : Nat) : x.refAttention b h d =
      x.momentOf b h (h / x.kvGroupNum) 0 (x.seqLen b) d / x.weightOf b h (h / x.kvGroupNum) 0 (x.seqLen b) := by
  unfold refAttention momentOf weightOf
  rw [range_eq_Ico, sum_div]
  refine sum_congr rfl (fun n _ => ?_)
  rw [div_mul_eq_mul_div]
  rfl

theorem Computes.attention (valid : x.Valid) {attnLogits attnLse : Nat → ℝ} {o : Nat → Nat → Nat → ℝ}
    (computes : x.Computes attnLogits attnLse o) {d : Nat} (inside : b < x.batch) (head : h < x.headNum) (channel : d < x.D) :
    o b h d = x.momentOf b h (x.kvHeadOf h) 0 (x.seqLen b) d / x.weightOf b h (x.kvHeadOf h) 0 (x.seqLen b) := by
  obtain ⟨_, _, outs, lses, stored⟩ := computes
  obtain ⟨some, most⟩ := valid.splits b inside
  have sums := stage2_sums outs lses inside head some most
  have pos : 0 < x.weightOf b h (x.kvHeadOf h) 0 (x.seqLen b) := sum_pos (fun _ _ => Real.exp_pos _) (nonempty_Ico.mpr (valid.nonempty b inside))
  rw [stored b inside h head ⟨d, channel⟩, sums.quotient pos]

theorem kvHeadOf_eq_iff (heads : 0 < x.H) (group : 0 < x.kvGroupNum) :
    (∀ h < x.headNum, x.kvHeadOf h = h / x.kvGroupNum) ↔ x.H = 1 ∨ x.kvGroupNum ≤ 16 ∨ 16 ∣ x.kvGroupNum := by
  unfold kvHeadOf curKvHead
  rw [validBlockH_eq]
  by_cases small : x.kvGroupNum ≤ 16
  · have one : cdiv x.kvGroupNum 16 = 1 := by unfold cdiv; omega
    rw [one, min_eq_right small]
    exact ⟨fun _ => .inr (.inl small), fun _ h _ => Nat.div_one _⟩
  · have bounds : x.kvGroupNum ≤ 16 * cdiv x.kvGroupNum 16 ∧ (16 * cdiv x.kvGroupNum 16 = x.kvGroupNum ↔ 16 ∣ x.kvGroupNum) := by
      unfold cdiv
      omega
    simp only [min_eq_left (Nat.le_of_not_le small), Nat.div_div_eq_div_mul]
    constructor
    · intro same
      -- The first head of the second group is the one that goes wrong.
      by_contra! others
      have inside : x.kvGroupNum < x.headNum := lt_mul_of_one_lt_left group (by omega)
      have wrong := same x.kvGroupNum inside
      rw [Nat.div_self group, Nat.div_eq_of_lt (by omega)] at wrong
      omega
    · rintro (one | impossible | aligned) h inside
      · rw [headNum, one, one_mul] at inside
        rw [Nat.div_eq_of_lt inside, Nat.div_eq_of_lt (by omega)]
      · exact absurd impossible small
      · rw [bounds.2.mpr aligned]

noncomputable def headNumbers (H group : Nat) : DecodeCall where
  qz := ⟨max, min, fun _ _ _ => (1, 0), fun _ _ _ => 0, 0, fun _ _ mn => mn, id, inferInstance, inferInstance, inferInstance, inferInstance⟩
  kv := ⟨fun _ => 0, fun _ => 0, fun _ => 0, fun _ => 0, fun _ => 0, fun _ => 0, fun _ => 0, fun a => (a / 4 : Nat)⟩
  offset := 0
  H := H
  kvGroupNum := group
  D4 := 16
  batch := 1
  q := fun _ _ _ => 0
  kvIndptr := id
  kvIndices := fun _ => 0
  numKvSplits := fun _ => 1
  maxKvSplits := 1
  smScale := 1
  logitCap := 0
  nan := 0

theorem headNumbers_D (H group : Nat) : (headNumbers H group).D = 64 := rfl

theorem headNumbers_valid {H group : Nat} (heads : 0 < H) (groups : 0 < group) : (headNumbers H group).Valid where
  heads := heads
  group := groups
  headDim := by
    rw [headNumbers_D]
    decide
  nonempty b _ := by simp [headNumbers, seqLen]
  splits b _ := by simp [headNumbers]

theorem heads_attention (H group h kvHead : Nat) :
    (headNumbers H group).momentOf 0 h kvHead 0 1 0 / (headNumbers H group).weightOf 0 h kvHead 0 1 = kvHead := by
  have value : (headNumbers H group).value 0 kvHead 0 0 = kvHead := by
    have read : ((0 * H + kvHead) * (4 * 16 / 32) + 0 / 32) * 2 + 1 = 4 * kvHead + 1 := by omega
    have row : (4 * kvHead + 1) / 4 = kvHead := by omega
    unfold DecodeCall.value refValue refDequantToken
    simp only [headNumbers, D, Nat.sub_self, Nat.not_lt_zero, if_false]
    rw [read, row]
  unfold momentOf weightOf
  rw [Nat.Ico_succ_singleton, sum_singleton, sum_singleton, value, mul_div_cancel_left₀ _ (Real.exp_pos _).ne']

/-- In exact arithmetic the two stages are attention just when no program reads past its KV head. -/
theorem decode_eq_ref_iff {H group : Nat} (heads : 0 < H) (groups : 0 < group) :
    (∀ x : DecodeCall, x.Valid → x.H = H → x.kvGroupNum = group → ∀ attnLogits attnLse, (∃ o, x.Computes attnLogits attnLse o) ∧
      ∀ o, x.Computes attnLogits attnLse o → ∀ b < x.batch, ∀ h < x.headNum, ∀ d < x.D, o b h d = x.refAttention b h d) ↔
      H = 1 ∨ group ≤ 16 ∨ 16 ∣ group := by
  constructor
  · intro correct
    have valid := headNumbers_valid heads groups
    refine (kvHeadOf_eq_iff (x := headNumbers H group) heads groups).mp (fun h inside => ?_)
    obtain ⟨⟨o, computes⟩, equal⟩ := correct _ valid rfl rfl (fun _ => 0) (fun _ => 0)
    have computed := computes.attention valid (b := 0) (d := 0) Nat.one_pos inside (by rw [headNumbers_D]; decide)
    have same := equal o computes 0 Nat.one_pos h inside 0 (by rw [headNumbers_D]; decide)
    rw [computed, refAttention_eq] at same
    exact_mod_cast (heads_attention H group h _).symm.trans (same.trans (heads_attention H group h _))
  · rintro condition x valid rfl rfl attnLogits attnLse
    refine ⟨x.exists_computes attnLogits attnLse, fun o computes b inside h head d channel => ?_⟩
    rw [computes.attention valid inside head channel, (kvHeadOf_eq_iff heads groups).mpr condition h head, refAttention_eq]

theorem decode_eq_ref_iff_eight_by_four : (0 < 8 ∧ 0 < 4) ∧ ∀ x : DecodeCall, x.Valid → x.H = 8 → x.kvGroupNum = 4 → ∀ attnLogits attnLse,
      (∃ o, x.Computes attnLogits attnLse o) ∧
        ∀ o, x.Computes attnLogits attnLse o → ∀ b < x.batch, ∀ h < x.headNum, ∀ d < x.D, o b h d = x.refAttention b h d :=
  ⟨by decide, (decode_eq_ref_iff (by decide) (by decide)).mpr (.inr (.inl (by decide)))⟩

/-- Head 24 is computed from KV head 0 and belongs to KV head 1. -/
theorem head_24_reads_kv_head_0 : (headNumbers 2 24).Valid ∧ ∀ attnLogits attnLse o, (headNumbers 2 24).Computes attnLogits attnLse o →
      o 0 24 0 = 0 ∧ (headNumbers 2 24).refAttention 0 24 0 = 1 := by
  have valid := headNumbers_valid (by decide : 0 < 2) (by decide : 0 < 24)
  refine ⟨valid, fun attnLogits attnLse o computes => ⟨?_, ?_⟩⟩
  · rw [computes.attention valid (b := 0) (d := 0) (by decide) (by decide) (by decide)]
    exact (heads_attention 2 24 24 0).trans Nat.cast_zero
  · rw [refAttention_eq]
    exact (heads_attention 2 24 24 1).trans Nat.cast_one

/-- Every head has one program and lane, which read its KV head just when the groups are small or whole multiples of a block. -/
theorem grid_covers_heads (x : DecodeCall) (heads : 0 < x.H) (group : 0 < x.kvGroupNum) :
    (∀ h < x.headNum, ∃! p : Nat × Nat, p.1 < cdiv x.headNum (min 16 x.kvGroupNum) ∧ p.2 < 16 ∧ x.maskH p.1 p.2 = true ∧ x.curHead p.1 p.2 = h) ∧
      ((∀ headId < cdiv x.headNum (min 16 x.kvGroupNum), ∀ lane < 16, x.maskH headId lane = true →
        x.curKvHead headId = x.curHead headId lane / x.kvGroupNum) ↔ x.H = 1 ∨ x.kvGroupNum ≤ 16 ∨ 16 ∣ x.kvGroupNum) := by
  have program : ∀ {headId lane}, x.maskH headId lane = true →
      headId = x.curHead headId lane / x.validBlockH ∧ lane = x.curHead headId lane % x.validBlockH := by
    intro headId lane mask
    have low := (maskH_iff.mp mask).1
    exact radix_inj low (Nat.mod_lt _ (by omega)) (curHead_div_mod x _).symm
  constructor
  · intro h head
    obtain ⟨inside, lane, mask⟩ := program_of_head head
    refine ⟨(h / x.validBlockH, h % x.validBlockH), ⟨inside, lane, mask, curHead_div_mod x h⟩, ?_⟩
    rintro p ⟨_, _, here, rfl⟩
    exact Prod.ext (program here).1 (program here).2
  · rw [← kvHeadOf_eq_iff heads group]
    constructor
    · intro right h head
      obtain ⟨inside, lane, mask⟩ := program_of_head head
      have here := right _ inside _ lane mask
      rwa [curHead_div_mod] at here
    · intro right headId _ lane _ mask
      have here := right _ (maskH_iff.mp mask).2
      rwa [kvHeadOf, ← (program mask).1] at here

/-- Program 1 of 48 heads over 2 KV heads reads KV head 0 for heads 16 to 31. -/
theorem program_1_reads_kv_head_0 : (headNumbers 2 24).maskH 1 8 = true ∧ (headNumbers 2 24).curHead 1 8 = 24 ∧ (headNumbers 2 24).curKvHead 1 = 0 ∧
      24 / (headNumbers 2 24).kvGroupNum = 1 := by
  decide

theorem grid_covers_eight_by_four : (0 < 8 ∧ 0 < 4) ∧ ∀ headId < cdiv 32 4, ∀ lane < 16, (headNumbers 8 4).maskH headId lane = true →
    (headNumbers 8 4).curKvHead headId = (headNumbers 8 4).curHead headId lane / 4 :=
  ⟨by decide, (grid_covers_heads (headNumbers 8 4) (by decide) (by decide)).2.mpr (.inr (.inl (by decide)))⟩

end DecodeCall

end TriaxialKV
