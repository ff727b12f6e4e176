import TriaxialKV.Kernel.Gather

/-! # Reading back what was written -/

namespace TriaxialKV
open Tensor Stores List

theorem nibbles {q₀ q₁ : Nat} (low : q₀ ≤ 15) (high : q₁ ≤ 15) :
    (q₀ ||| q₁ <<< 4) % 256 &&& 15 = q₀ ∧ ((q₀ ||| q₁ <<< 4) % 256) >>> 4 &&& 15 = q₁ := by
  have all : ∀ q₀ q₁ : Fin 16, (q₀.val ||| q₁.val <<< 4) % 256 &&& 15 = q₀.val ∧
      ((q₀.val ||| q₁.val <<< 4) % 256) >>> 4 &&& 15 = q₁.val := by decide +kernel
  exact all ⟨q₀, by omega⟩ ⟨q₁, by omega⟩

theorem crumbs {q : Nat → Nat} (small : ∀ c, q c ≤ 3) {c : Nat} (field : c < 4) :
    ((q 0 ||| q 1 <<< 2 ||| q 2 <<< 4 ||| q 3 <<< 6) % 256) >>> (2 * c) &&& 3 = q c := by
  have all : ∀ q₀ q₁ q₂ q₃ : Fin 4, ∀ c : Fin 4, ((q₀.val ||| q₁.val <<< 2 ||| q₂.val <<< 4 ||| q₃.val <<< 6) % 256) >>> (2 * c.val) &&& 3 =
        [q₀.val, q₁.val, q₂.val, q₃.val][c.val] := by decide +kernel
  have bound : ∀ c, q c < 4 := fun c => Nat.lt_succ_of_le (small c)
  have here := all ⟨q 0, bound 0⟩ ⟨q 1, bound 1⟩ ⟨q 2, bound 2⟩ ⟨q 3, bound 3⟩ ⟨c, field⟩
  refine here.trans ?_
  obtain rfl | rfl | rfl | rfl : c = 0 ∨ c = 1 ∨ c = 2 ∨ c = 3 := by omega
  all_goals rfl

def elem {X : Type} (x : Nat → X) (H D t h d : Nat) : X := x (t * (H * D) + h * D + d)

def tokenGroup {X : Type} (x : Nat → X) (H D t h d : Nat) : List X := (range 32).map (fun k => elem x H D t h (d / 32 * 32 + k))

def pageGroup {X : Type} (x : Nat → X) (H D : Nat) (tok : List Nat) (h d : Nat) : List X := (range 32).map (fun j => elem x H D tok[j]! h d)

namespace Quantizer
variable {X M F O : Type} [Inhabited X] (qz : Quantizer X M F O)

def groupScaleMin (vals : List X) (qmax : Nat) : M × M := qz.scaleMin (reduce qz.maximum vals) (reduce qz.minimum vals) qmax

def level (x : X) (vals : List X) (qmax : Nat) : Nat := qz.quantize x (qz.groupScaleMin vals qmax).1 (qz.groupScaleMin vals qmax).2 qmax

def dequantized (x : X) (vals : List X) (qmax : Nat) : F :=
  qz.mulAdd (qz.level x vals qmax) (qz.groupScaleMin vals qmax).1 (qz.groupScaleMin vals qmax).2

omit [Inhabited X] in
theorem quantize_le (x : X) (sc mn : M) (qmax : Nat) : qz.quantize x sc mn qmax ≤ qmax := by
  unfold quantize
  omega

theorem scaleMin_two (f : Nat → X) (qmax : Nat) : qz.scaleMin (qz.maximum (reduce qz.maximum ((range 16).map (fun b => f (2 * b))))
        (reduce qz.maximum ((range 16).map (fun b => f (2 * b + 1)))))
      (qz.minimum (reduce qz.minimum ((range 16).map (fun b => f (2 * b))))
        (reduce qz.minimum ((range 16).map (fun b => f (2 * b + 1))))) qmax =
      qz.groupScaleMin ((range 32).map f) qmax := by
  have := qz.maximum_assoc
  have := qz.maximum_comm
  have := qz.minimum_assoc
  have := qz.minimum_comm
  rw [groupScaleMin, reduce_two qz.maximum f, reduce_two qz.minimum f]

theorem scaleMin_four (f : Nat → X) (qmax : Nat) : qz.scaleMin (qz.maximum (qz.maximum (reduce qz.maximum ((range 8).map (fun b => f (4 * b))))
          (reduce qz.maximum ((range 8).map (fun b => f (4 * b + 1)))))
        (qz.maximum (reduce qz.maximum ((range 8).map (fun b => f (4 * b + 2))))
          (reduce qz.maximum ((range 8).map (fun b => f (4 * b + 3))))))
      (qz.minimum
        (qz.minimum (reduce qz.minimum ((range 8).map (fun b => f (4 * b))))
          (reduce qz.minimum ((range 8).map (fun b => f (4 * b + 1)))))
        (qz.minimum (reduce qz.minimum ((range 8).map (fun b => f (4 * b + 2))))
          (reduce qz.minimum ((range 8).map (fun b => f (4 * b + 3)))))) qmax =
      qz.groupScaleMin ((range 32).map f) qmax := by
  have := qz.maximum_assoc
  have := qz.maximum_comm
  have := qz.minimum_assoc
  have := qz.minimum_comm
  rw [groupScaleMin, reduce_four qz.maximum f, reduce_four qz.minimum f]

section
variable (x : Nat → X) (rows : List Nat) (H NG : Nat)

def tokenScaleMin (H D t h g qmax : Nat) : M × M := qz.groupScaleMin (tokenGroup x H D t h (g * 32)) qmax

def tokenLevel (H D t h g k qmax : Nat) : Nat := qz.level (elem x H D t h (g * 32 + k)) (tokenGroup x H D t h (g * 32)) qmax

theorem tokenGroup_eq {X : Type} (x : Nat → X) (H D t h g : Nat) :
    tokenGroup x H D t h (g * 32) = (range 32).map (fun k => elem x H D t h (g * 32 + k)) := by
  unfold tokenGroup
  rw [Nat.mul_div_cancel g (by omega)]

def metaPart (group : M × M) (part : Nat) : M := if part = 0 then group.1 else group.2

theorem int4_stores : let stores := qz.quantInt4TokensKernel x rows (H * (NG * 32)) (NG * 32) H (NG * 32) NG
    stores.data = blockStores rows H NG 16 (fun i h g b => (qz.tokenLevel x H (NG * 32) i h g (2 * b) 15 |||
      qz.tokenLevel x H (NG * 32) i h g (2 * b + 1) 15 <<< 4) % 256) ∧
    stores.scales = blockStores rows H NG 2 (fun i h g => metaPart (qz.tokenScaleMin x H (NG * 32) i h g 15)) := by
  have width : NG * 32 / 2 = NG * 16 := by omega
  have group (i h g : Nat) := qz.scaleMin_two (fun k => elem x H (NG * 32) i h (g * 32 + k)) 15
  simp only [← tokenGroup_eq] at group
  unfold quantInt4TokensKernel blockStores tokenLevel level tokenScaleMin blockAddr
  dsimp only
  constructor
  · apply map_congr_left
    intro ⟨i, h, g, b⟩ _
    rw [width, ← group]
    rfl
  · apply map_congr_left
    intro ⟨i, h, g, _⟩ _
    rw [← group, add_assoc]
    rfl

theorem int2V_stores : let stores := qz.quantInt2VTokensKernel x rows (H * (NG * 32)) (NG * 32) H (NG * 32) NG
    stores.data = blockStores rows H NG 8 (fun i h g b => (qz.tokenLevel x H (NG * 32) i h g (4 * b) 3 |||
      qz.tokenLevel x H (NG * 32) i h g (4 * b + 1) 3 <<< 2 ||| qz.tokenLevel x H (NG * 32) i h g (4 * b + 2) 3 <<< 4 |||
      qz.tokenLevel x H (NG * 32) i h g (4 * b + 3) 3 <<< 6) % 256) ∧
    stores.scales = blockStores rows H NG 2 (fun i h g => metaPart (qz.tokenScaleMin x H (NG * 32) i h g 3)) := by
  have width : NG * 32 / 4 = NG * 8 := by omega
  have group (i h g : Nat) := qz.scaleMin_four (fun k => elem x H (NG * 32) i h (g * 32 + k)) 3
  simp only [← tokenGroup_eq] at group
  unfold quantInt2VTokensKernel blockStores tokenLevel level tokenScaleMin blockAddr
  dsimp only
  constructor
  · apply map_congr_left
    intro ⟨i, h, g, b⟩ _
    rw [width, ← group]
    rfl
  · apply map_congr_left
    intro ⟨i, h, g, _⟩ _
    rw [← group, add_assoc]
    rfl

theorem int2K_stores (tokRows : List (List Nat)) (pages : List Nat) (D : Nat) :
    let stores := qz.quantInt2KPagesKernel x tokRows pages (H * D) D H D
    stores.data = blockStores pages H D 8 (fun p h d b =>
      let q c := qz.level (elem x H D (tokRows[p]!)[4 * b + c]! h d) (pageGroup x H D tokRows[p]! h d) 3
      (q 0 ||| q 1 <<< 2 ||| q 2 <<< 4 ||| q 3 <<< 6) % 256) ∧
    stores.scales = blockStores pages H D 2 (fun p h d => metaPart (qz.groupScaleMin (pageGroup x H D tokRows[p]! h d) 3)) := by
  have place (h d t : Nat) : h * D + d + t * (H * D) = t * (H * D) + h * D + d := by omega
  have group (p h d : Nat) := qz.scaleMin_four (fun j => elem x H D (tokRows[p]!)[j]! h d) 3
  unfold quantInt2KPagesKernel blockStores level pageGroup blockAddr
  dsimp only
  constructor
  · apply map_congr_left
    intro ⟨p, h, d, b⟩ _
    rw [← group]
    simp only [elem, place, add_zero]
  · apply map_congr_left
    intro ⟨p, h, d, _⟩ _
    rw [← group, add_assoc]
    simp only [elem, place, add_zero]
    rfl

end

section
variable {x : Nat → X} {rows : List Nat} {H NG : Nat} {data data' : Nat → Nat} {scales scales' : Nat → M}
  {loc : Nat → Nat} {mask : Nat → Bool} {h i n b c : Nat}

theorem mulAdd_token (x : Nat → X) (H D t h : Nat) {b c : Nat} (sub : c < 4) (qmax : Nat) :
    qz.mulAdd (qz.tokenLevel x H D t h (b / 8) (4 * (b % 8) + c) qmax) (qz.tokenScaleMin x H D t h (b / 8) qmax).1
        (qz.tokenScaleMin x H D t h (b / 8) qmax).2 =
      qz.dequantized (elem x H D t h (4 * b + c)) (tokenGroup x H D t h (4 * b + c)) qmax := by
  have channel : b / 8 * 32 + (4 * (b % 8) + c) = 4 * b + c := by omega
  have group : tokenGroup x H D t h (b / 8 * 32) = tokenGroup x H D t h (4 * b + c) := by
    unfold tokenGroup
    rw [show b / 8 * 32 / 32 = (4 * b + c) / 32 by omega]
  unfold tokenLevel tokenScaleMin dequantized
  rw [channel, group]

theorem scales_read {f : Nat → Nat → Nat → M × M} (nodup : rows.Nodup)
    (launched : Launch scales (blockStores rows H NG 2 (fun i h g => metaPart (f i h g))) scales')
    (row : i < rows.length) (head : h < H) {g : Nat} (group : g < NG) :
    scales' (((rows[i]! * H + h) * NG + g) * 2) = (f i h g).1 ∧ scales' (((rows[i]! * H + h) * NG + g) * 2 + 1) = (f i h g).2 := by
  have first := launched.read_block nodup row head group (show 0 < 2 by omega)
  have second := launched.read_block nodup row head group (show 1 < 2 by omega)
  have address : ∀ part, blockAddr H NG 2 rows[i]! h g part = ((rows[i]! * H + h) * NG + g) * 2 + part := by
    intro part
    rw [blockAddr, ← mul_assoc, add_mul _ g 2, add_assoc]
  rw [address] at first second
  exact ⟨first, second⟩

theorem tile4_read (nodup : rows.Nodup)
    (launchedD : Launch data (qz.quantInt4TokensKernel x rows (H * (NG * 32)) (NG * 32) H (NG * 32) NG).data data')
    (launchedS : Launch scales (qz.quantInt4TokensKernel x rows (H * (NG * 32)) (NG * 32) H (NG * 32) NG).scales scales')
    {offset : Nat} (unmasked : mask n = true) (row : i < rows.length) (here : loc n - offset = rows[i]!) (head : h < H)
    (byte : b < NG * 8) (sub : c < 4) :
    qz.tile4 data' scales' loc offset h H mask (NG * 32) NG c b n =
      qz.dequantized (elem x H (NG * 32) i h (4 * b + c)) (tokenGroup x H (NG * 32) i h (4 * b + c)) 15 := by
  rw [(qz.int4_stores ..).1] at launchedD
  rw [(qz.int4_stores ..).2] at launchedS
  obtain ⟨scale, least⟩ := scales_read nodup launchedS row head (show b / 8 < NG by omega)
  have width : NG * 32 / 2 = NG * 16 := by omega
  -- the two bytes of channels `4 * b` to `4 * b + 3`
  have bytes : ∀ u < 2, data' ((rows[i]! * H + h) * (NG * 16) + 2 * b + u) = (qz.tokenLevel x H (NG * 32) i h (b / 8) (4 * (b % 8) + 2 * u) 15 |||
        qz.tokenLevel x H (NG * 32) i h (b / 8) (4 * (b % 8) + 2 * u + 1) 15 <<< 4) % 256 := by
    intro u _
    have read := launchedD.read_block nodup row head (show b / 8 < NG by omega) (show 2 * (b % 8) + u < 16 by omega)
    have address : blockAddr H NG 16 rows[i]! h (b / 8) (2 * (b % 8) + u) = (rows[i]! * H + h) * (NG * 16) + 2 * b + u := by
      rw [blockAddr]
      omega
    rw [address, show 2 * (2 * (b % 8) + u) = 4 * (b % 8) + 2 * u by omega] at read
    exact read
  have low : ∀ k, qz.tokenLevel x H (NG * 32) i h (b / 8) k 15 ≤ 15 := fun k => qz.quantize_le _ _ _ _
  have value := qz.mulAdd_token x H (NG * 32) i h (b := b) sub 15
  unfold tile4 maskedLoad
  simp only [unmasked, if_true, here, width, scale, least]
  rw [← value]
  have byte₀ := bytes 0 (by omega)
  have byte₁ := bytes 1 (by omega)
  rw [add_zero] at byte₀
  obtain rfl | rfl | rfl | rfl : c = 0 ∨ c = 1 ∨ c = 2 ∨ c = 3 := by omega
  · simp only [byte₀, (nibbles (low _) (low _)).1]
  · simp only [byte₀, (nibbles (low _) (low _)).2]
  · simp only [byte₁, (nibbles (low _) (low _)).1]
  · simp only [byte₁, (nibbles (low _) (low _)).2]

theorem v2Tiles_read (nodup : rows.Nodup)
    (launchedD : Launch data (qz.quantInt2VTokensKernel x rows (H * (NG * 32)) (NG * 32) H (NG * 32) NG).data data')
    (launchedS : Launch scales (qz.quantInt2VTokensKernel x rows (H * (NG * 32)) (NG * 32) H (NG * 32) NG).scales scales')
    (unmasked : mask n = true) (row : i < rows.length) (here : loc n = rows[i]!) (head : h < H)
    (byte : b < NG * 8) (sub : c < 4) :
    qz.v2Tiles data' scales' loc h H mask (NG * 32) NG c b n =
      qz.dequantized (elem x H (NG * 32) i h (4 * b + c)) (tokenGroup x H (NG * 32) i h (4 * b + c)) 3 := by
  rw [(qz.int2V_stores ..).1] at launchedD
  rw [(qz.int2V_stores ..).2] at launchedS
  obtain ⟨scale, least⟩ := scales_read nodup launchedS row head (show b / 8 < NG by omega)
  have width : NG * 32 / 4 = NG * 8 := by omega
  have read := launchedD.read_block nodup row head (show b / 8 < NG by omega) (show b % 8 < 8 by omega)
  have address : blockAddr H NG 8 rows[i]! h (b / 8) (b % 8) = (rows[i]! * H + h) * (NG * 8) + b := by
    rw [blockAddr]
    omega
  rw [address] at read
  let q c := qz.tokenLevel x H (NG * 32) i h (b / 8) (4 * (b % 8) + c) 3
  have small : ∀ c, q c ≤ 3 := fun c => qz.quantize_le _ _ _ _
  unfold v2Tiles maskedLoad
  simp only [unmasked, if_true, here, width, scale, least]
  rw [← qz.mulAdd_token x H (NG * 32) i h (b := b) sub 3, read]
  exact congrArg (fun level => qz.mulAdd level _ _) (crumbs small sub)

theorem page_of_onTwo (two : onTwo loc mask = true) (lane : n < 32) (unmasked : mask n = true) :
    loc n / 32 = pLo loc mask ∨ loc n / 32 = pHi loc mask := by
  have here := all_eq_true.mp two n (mem_range.mpr lane)
  simpa [unmasked] using here

omit [Inhabited X] in
theorem k2Tiles_eq (lane : n < 32) (unmasked : mask n = true) {D : Nat} : qz.k2Tiles data scales loc h H mask D c b n =
      let page := loc n / 32
      let j := loc n % 32
      qz.mulAdd (data ((page * H + h) * (D * 8) + ((4 * b + c) * 8 + j / 4)) >>> (2 * (j % 4)) &&& 3)
        (scales (((page * H + h) * D + (4 * b + c)) * 2)) (scales (((page * H + h) * D + (4 * b + c)) * 2 + 1)) := by
  have byte : (loc n / 32 * H + h) * D * 8 + loc n % 32 / 4 + 32 * b + 8 * c =
      (loc n / 32 * H + h) * (D * 8) + ((4 * b + c) * 8 + loc n % 32 / 4) := by
    rw [mul_assoc _ D 8]
    omega
  have paged : ∀ page, ((page * H + h) * D + 4 * b) * 2 + 2 * c = ((page * H + h) * D + (4 * b + c)) * 2 := by
    intro page
    omega
  have gathered : (loc n / 32 * H + h) * D * 2 + 8 * b + 2 * c = ((loc n / 32 * H + h) * D + (4 * b + c)) * 2 := by
    omega
  unfold k2Tiles maskedLoad
  simp only [unmasked, if_true, byte, paged, gathered]
  split
  · next two =>
    by_cases sel : loc n / 32 = pLo loc mask
    · simp [← sel]
    · have high := (page_of_onTwo two lane unmasked).resolve_left sel
      simp [sel, ← high]
  · rfl

theorem k2Tiles_read {tokRows : List (List Nat)} {pages : List Nat} {D p : Nat} (distinct : pages.Nodup)
    (launchedD : Launch data (qz.quantInt2KPagesKernel x tokRows pages (H * D) D H D).data data')
    (launchedS : Launch scales (qz.quantInt2KPagesKernel x tokRows pages (H * D) D H D).scales scales')
    (lane : n < 32) (unmasked : mask n = true) (page : p < pages.length) (here : loc n / 32 = pages[p]!) (head : h < H)
    (channel : 4 * b + c < D) :
    qz.k2Tiles data' scales' loc h H mask D c b n =
      qz.dequantized (elem x H D (tokRows[p]!)[loc n % 32]! h (4 * b + c)) (pageGroup x H D tokRows[p]! h (4 * b + c)) 3 := by
  rw [(qz.int2K_stores ..).1] at launchedD
  rw [(qz.int2K_stores ..).2] at launchedS
  obtain ⟨scale, least⟩ := scales_read (f := fun p h d => qz.groupScaleMin (pageGroup x H D tokRows[p]! h d) 3)
    distinct launchedS page head channel
  have read := launchedD.read_block distinct page head channel (show loc n % 32 / 4 < 8 by omega)
  let q c' := qz.level (elem x H D (tokRows[p]!)[4 * (loc n % 32 / 4) + c']! h (4 * b + c))
    (pageGroup x H D tokRows[p]! h (4 * b + c)) 3
  have small : ∀ c', q c' ≤ 3 := fun c' => qz.quantize_le _ _ _ _
  have field := crumbs small (show loc n % 32 % 4 < 4 by omega)
  have token : 4 * (loc n % 32 / 4) + loc n % 32 % 4 = loc n % 32 := by omega
  rw [qz.k2Tiles_eq lane unmasked]
  simp only [here, scale, least]
  rw [blockAddr] at read
  rw [read]
  refine (congrArg (fun level => qz.mulAdd level _ _) field).trans ?_
  simp only [q, token]
  rfl

end

end Quantizer

end TriaxialKV
