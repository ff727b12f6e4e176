import TriaxialKV.Lib.Stores
import TriaxialKV.Pool.Grouping

/-!
# Quantizing writes

Each kernel as the list of stores it makes to the flat buffers. The arithmetic of a quantizer is a parameter.
-/

namespace TriaxialKV
open Tensor Stores List

/-- `X` are the values quantized, `M` the stored scales and minima, `F` the dequantized values and `O` the elements of the output tensors. -/
structure Quantizer (X M F O : Type) where
  maximum : X → X → X
  minimum : X → X → X
  /-- `_scale_min`: scale and minimum of a group from its extremes, for levels up to `QMAX`. -/
  scaleMin : X → X → Nat → M × M
  /-- `rint(div_rn(x - mn, sc))` -/
  roundDiv : X → M → M → Int
  /-- What a masked load of a scale or minimum returns. -/
  zero : M
  /-- level * scale + min -/
  mulAdd : Nat → M → M → F
  cast : F → O
  maximum_comm : Std.Commutative maximum
  maximum_assoc : Std.Associative maximum
  minimum_comm : Std.Commutative minimum
  minimum_assoc : Std.Associative minimum

structure KernelStores (M : Type) where
  data : List (Nat × Nat)
  scales : List (Nat × M)

def KernelStores.none {M : Type} : KernelStores M := ⟨[], []⟩

structure LayerKV (M : Type) where
  k2Data : Nat → Nat
  k2Meta : Nat → M
  v2Data : Nat → Nat
  v2Meta : Nat → M
  k4Data : Nat → Nat
  k4Meta : Nat → M
  v4Data : Nat → Nat
  v4Meta : Nat → M

/-- Only powers of two from `minD` on are accepted, so that tiles need no channel mask. -/
def checkHeadDim (D minD : Nat) : Except String Unit :=
  if D % 32 = 0 ∧ D &&& (D - 1) = 0 ∧ D ≥ minD then .ok ()
  else .error ("head_dim must be a power of two >= " ++ toString minD ++ ", got " ++ toString D)

/-- `x[idx].contiguous()` for rows of `width` elements. -/
def gatherRows {X : Type} (x : Nat → X) (idx : List Nat) (width : Nat) : Nat → X :=
  fun a => x (idx[a / width]! * width + a % width)

namespace Quantizer
variable {X M F O : Type} [Inhabited X] (qz : Quantizer X M F O)

def quantize (x : X) (sc mn : M) (qmax : Nat) : Nat := (min (max (qz.roundDiv x sc mn) 0) qmax).toNat

/-- One program for each token `i` and head `h`: groups `g` of 32 channels, two levels in a byte. -/
def quantInt4TokensKernel (x : Nat → X) (rows : List Nat) (strideXn strideXh H D NG : Nat) : KernelStores M :=
  let xLo i h g b := x (i * strideXn + h * strideXh + (g * 32 + 2 * b))
  let xHi i h g b := x (i * strideXn + h * strideXh + (g * 32 + 2 * b) + 1)
  let mx i h g := qz.maximum (reduce qz.maximum ((range 16).map (xLo i h g)))
    (reduce qz.maximum ((range 16).map (xHi i h g)))
  let mn i h g := qz.minimum (reduce qz.minimum ((range 16).map (xLo i h g)))
    (reduce qz.minimum ((range 16).map (xHi i h g)))
  let sm i h g := qz.scaleMin (mx i h g) (mn i h g) 15
  let q (x : X) (s : M × M) := qz.quantize x s.1 s.2 15
  let packed i h g b := (q (xLo i h g b) (sm i h g) ||| q (xHi i h g b) (sm i h g) <<< 4) % 256
  { data := (range rows.length ×ˢ range H ×ˢ range NG ×ˢ range 16).map
      (fun (i, h, g, b) => ((rows[i]! * H + h) * (D / 2) + (g * 16 + b), packed i h g b))
    scales := (range rows.length ×ˢ range H ×ˢ range NG ×ˢ range 2).map
      (fun (i, h, g, part) => ((rows[i]! * H + h) * (NG * 2) + g * 2 + part, if part = 0 then (sm i h g).1 else (sm i h g).2)) }

/-- As for INT4, with four levels in a byte. -/
def quantInt2VTokensKernel (x : Nat → X) (rows : List Nat) (strideXn strideXh H D NG : Nat) : KernelStores M :=
  let xc i h c g b := x (i * strideXn + h * strideXh + (g * 32 + 4 * b) + c)
  let mx i h g := qz.maximum
    (qz.maximum (reduce qz.maximum ((range 8).map (xc i h 0 g))) (reduce qz.maximum ((range 8).map (xc i h 1 g))))
    (qz.maximum (reduce qz.maximum ((range 8).map (xc i h 2 g))) (reduce qz.maximum ((range 8).map (xc i h 3 g))))
  let mn i h g := qz.minimum
    (qz.minimum (reduce qz.minimum ((range 8).map (xc i h 0 g))) (reduce qz.minimum ((range 8).map (xc i h 1 g))))
    (qz.minimum (reduce qz.minimum ((range 8).map (xc i h 2 g))) (reduce qz.minimum ((range 8).map (xc i h 3 g))))
  let sm i h g := qz.scaleMin (mx i h g) (mn i h g) 3
  let q (x : X) (s : M × M) := qz.quantize x s.1 s.2 3
  let packed i h g b := (q (xc i h 0 g b) (sm i h g) ||| q (xc i h 1 g b) (sm i h g) <<< 2 |||
    q (xc i h 2 g b) (sm i h g) <<< 4 ||| q (xc i h 3 g b) (sm i h g) <<< 6) % 256
  { data := (range rows.length ×ˢ range H ×ˢ range NG ×ˢ range 8).map
      (fun (i, h, g, b) => ((rows[i]! * H + h) * (D / 4) + (g * 8 + b), packed i h g b))
    scales := (range rows.length ×ˢ range H ×ˢ range NG ×ˢ range 2).map
      (fun (i, h, g, part) => ((rows[i]! * H + h) * (NG * 2) + g * 2 + part, if part = 0 then (sm i h g).1 else (sm i h g).2)) }

/-- One program for each page `p` and head `h`: a group is the 32 tokens of the page at a channel
`d`, and a byte holds four tokens. -/
def quantInt2KPagesKernel (x : Nat → X) (tokRows : List (List Nat)) (pages : List Nat) (strideXn strideXh H D : Nat) : KernelStores M :=
  let xc p h c b d := x (h * strideXh + d + (tokRows[p]!)[4 * b + c]! * strideXn)
  let mx p h d := qz.maximum
    (qz.maximum (reduce qz.maximum ((range 8).map (xc p h 0 · d))) (reduce qz.maximum ((range 8).map (xc p h 1 · d))))
    (qz.maximum (reduce qz.maximum ((range 8).map (xc p h 2 · d))) (reduce qz.maximum ((range 8).map (xc p h 3 · d))))
  let mn p h d := qz.minimum
    (qz.minimum (reduce qz.minimum ((range 8).map (xc p h 0 · d))) (reduce qz.minimum ((range 8).map (xc p h 1 · d))))
    (qz.minimum (reduce qz.minimum ((range 8).map (xc p h 2 · d))) (reduce qz.minimum ((range 8).map (xc p h 3 · d))))
  let sm p h d := qz.scaleMin (mx p h d) (mn p h d) 3
  let q (x : X) (s : M × M) := qz.quantize x s.1 s.2 3
  let packed p h d b := (q (xc p h 0 b d) (sm p h d) ||| q (xc p h 1 b d) (sm p h d) <<< 2 |||
    q (xc p h 2 b d) (sm p h d) <<< 4 ||| q (xc p h 3 b d) (sm p h d) <<< 6) % 256
  { data := (range pages.length ×ˢ range H ×ˢ range D ×ˢ range 8).map
      (fun (p, h, d, b) => ((pages[p]! * H + h) * (D * 8) + (d * 8 + b), packed p h d b))
    scales := (range pages.length ×ˢ range H ×ˢ range D ×ˢ range 2).map
      (fun (p, h, d, part) => ((pages[p]! * H + h) * (D * 2) + d * 2 + part, if part = 0 then (sm p h d).1 else (sm p h d).2)) }

/-- The host side of a kernel: an empty batch launches nothing. The input is contiguous, with strides
`H * D` and `D`. -/
def quantInt4Tokens (x : Nat → X) (rows : List Nat) (H D : Nat) : Except String (KernelStores M) :=
  if rows.length = 0 then .ok .none
  else (checkHeadDim D 32).map (fun _ => qz.quantInt4TokensKernel x rows (H * D) D H D (D / 32))

def quantInt2VTokens (x : Nat → X) (rows : List Nat) (H D : Nat) : Except String (KernelStores M) :=
  if rows.length = 0 then .ok .none
  else (checkHeadDim D 32).map (fun _ => qz.quantInt2VTokensKernel x rows (H * D) D H D (D / 32))

def quantInt2KPages (x : Nat → X) (tokRows : List (List Nat)) (pages : List Nat) (H D : Nat) : Except String (KernelStores M) :=
  if pages.length = 0 then .ok .none
  else (checkHeadDim D 32).map (fun _ => qz.quantInt2KPagesKernel x tokRows pages (H * D) D H D)

end Quantizer

/-- The stores of one `set_kv_buffer` call to the buffers of a layer. -/
structure LayerStores (M : Type) where
  k2 : KernelStores M
  v2 : KernelStores M
  k4 : KernelStores M
  v4 : KernelStores M

structure LayerStores.Launched {M : Type} (w : LayerStores M) (kv kv' : LayerKV M) : Prop where
  k2Data : Launch kv.k2Data w.k2.data kv'.k2Data
  k2Meta : Launch kv.k2Meta w.k2.scales kv'.k2Meta
  v2Data : Launch kv.v2Data w.v2.data kv'.v2Data
  v2Meta : Launch kv.v2Meta w.v2.scales kv'.v2Meta
  k4Data : Launch kv.k4Data w.k4.data kv'.k4Data
  k4Meta : Launch kv.k4Meta w.k4.scales kv'.k4Meta
  v4Data : Launch kv.v4Data w.v4.data kv'.v4Data
  v4Meta : Launch kv.v4Meta w.v4.scales kv'.v4Meta

namespace TriaxialKVPool
variable {X M F O : Type} [Inhabited X]

def setKvBufferGrouped (qz : Quantizer X M F O) (H D : Nat) (grp : Grouping) (cacheK cacheV : Nat → X) : Except String (LayerStores M) := do
  let width := H * D
  let mut k4 := KernelStores.none
  let mut v4 := KernelStores.none
  if grp.rows4.length > 0 then
    k4 ← qz.quantInt4Tokens (gatherRows cacheK grp.idx4 width) grp.rows4 H D
    v4 ← qz.quantInt4Tokens (gatherRows cacheV grp.idx4 width) grp.rows4 H D
  let mut v2 := KernelStores.none
  let mut k2 := KernelStores.none
  if grp.slots2.length > 0 then
    v2 ← qz.quantInt2VTokens (gatherRows cacheV grp.idx2 width) grp.slots2 H D
    k2 ← qz.quantInt2KPages cacheK grp.tokRows grp.pages H D
  return ⟨k2, v2, k4, v4⟩

/-- `set_kv_buffer` on the tensor object `loc`, with the grouping kept from earlier calls. -/
def setKvBuffer (qz : Quantizer X M F O) (pool : TriaxialKVPool) (H D : Nat) (heap : Nat → List Nat)
    (cache : Option (Nat × Grouping)) (loc : Nat) (cacheK cacheV : Nat → X) :
    Except String (LayerStores M) × Option (Nat × Grouping) :=
  match pool.groupingCall heap cache loc with
  | (.error message, cache) => (.error message, cache)
  | (.ok grp, cache) => (setKvBufferGrouped qz H D grp cacheK cacheV, cache)

/-- The path of decode batches, whose slots are all INT4. Padding slots go to the dummy row 0. -/
def setKvBufferInt4 (qz : Quantizer X M F O) (pool : TriaxialKVPool) (H D : Nat) (loc : List Nat)
    (cacheK cacheV : Nat → X) : Except String (LayerStores M) := do
  let rows := loc.map (fun s => s - pool.offset)
  let k4 ← qz.quantInt4Tokens cacheK rows H D
  let v4 ← qz.quantInt4Tokens cacheV rows H D
  return ⟨.none, .none, k4, v4⟩

end TriaxialKVPool

end TriaxialKV
