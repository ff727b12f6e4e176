import TriaxialKV.Kernel.Quant

/-! # Dequantizing reads -/

namespace TriaxialKV
open Stores

variable {X M F O : Type} (qz : Quantizer X M F O)

def maskedLoad {α : Type} (mem : Nat → α) (addr : Nat) (mask : Bool) (other : α) : α :=
  if mask then mem addr else other

namespace Quantizer

/-- Sub-tile `c` of an INT4 row at byte pair `b` and lane `n`: low and high nibbles of two bytes. -/
def tile4 (data : Nat → Nat) (scales : Nat → M) (loc : Nat → Nat) (offset head H : Nat) (mask : Nat → Bool) (D NG : Nat) (c b n : Nat) : F :=
  let row := (loc n - offset) * H + head
  let base := row * (D / 2) + 2 * b
  let b0 := maskedLoad data base (mask n) 0
  let b1 := maskedLoad data (base + 1) (mask n) 0
  -- one scale for 32 channels: row `b` of a sub-tile takes group `b / 8`
  let moff := (row * NG + b / 8) * 2
  let sc := maskedLoad scales moff (mask n) qz.zero
  let mn := maskedLoad scales (moff + 1) (mask n) qz.zero
  let q := match c with
    | 0 => b0 &&& 15
    | 1 => (b0 >>> 4) &&& 15
    | 2 => b1 &&& 15
    | _ => (b1 >>> 4) &&& 15
  qz.mulAdd q sc mn

def k4Tiles (k4Data : Nat → Nat) (k4Meta : Nat → M) (loc : Nat → Nat) (offset head H : Nat) (mask : Nat → Bool) (D NG : Nat) : Nat → Nat → Nat → F :=
  qz.tile4 k4Data k4Meta loc offset head H mask D NG

def v4Tiles (v4Data : Nat → Nat) (v4Meta : Nat → M) (loc : Nat → Nat) (offset head H : Nat) (mask : Nat → Bool) (D NG : Nat) : Nat → Nat → Nat → F :=
  qz.tile4 v4Data v4Meta loc offset head H mask D NG

def v2Tiles (v2Data : Nat → Nat) (v2Meta : Nat → M) (loc : Nat → Nat) (head H : Nat) (mask : Nat → Bool) (D NG : Nat) (c b n : Nat) : F :=
  let row := loc n * H + head
  let byte := maskedLoad v2Data (row * (D / 4) + b) (mask n) 0
  let moff := (row * NG + b / 8) * 2
  let sc := maskedLoad v2Meta moff (mask n) qz.zero
  let mn := maskedLoad v2Meta (moff + 1) (mask n) qz.zero
  qz.mulAdd ((byte >>> (2 * c)) &&& 3) sc mn

def pHi (loc : Nat → Nat) (mask : Nat → Bool) : Nat := (List.range 32).foldl (fun acc n => max acc (if mask n then loc n / 32 else 0)) 0

def pLo (loc : Nat → Nat) (mask : Nat → Bool) : Nat :=
  (List.range 32).foldl (fun acc n => min acc (if mask n then loc n / 32 else pHi loc mask)) (pHi loc mask)

def onTwo (loc : Nat → Nat) (mask : Nat → Bool) : Bool :=
  (List.range 32).all (fun n => !mask n || loc n / 32 == pLo loc mask || loc n / 32 == pHi loc mask)

def k2Tiles (k2Data : Nat → Nat) (k2Meta : Nat → M) (loc : Nat → Nat) (head H : Nat) (mask : Nat → Bool) (D : Nat) (c b n : Nat) : F :=
  let page := loc n / 32
  let j := loc n % 32
  let pbase := (page * H + head) * D
  let q := (maskedLoad k2Data (pbase * 8 + j / 4 + 32 * b + 8 * c) (mask n) 0 >>> (2 * (j % 4))) &&& 3
  if onTwo loc mask then
    let cbLo := ((pLo loc mask * H + head) * D + 4 * b) * 2
    let cbHi := ((pHi loc mask * H + head) * D + 4 * b) * 2
    let sel := page == pLo loc mask
    let sc := if sel then k2Meta (cbLo + 2 * c) else k2Meta (cbHi + 2 * c)
    let mn := if sel then k2Meta (cbLo + 2 * c + 1) else k2Meta (cbHi + 2 * c + 1)
    qz.mulAdd q sc mn
  else
    let mptr := pbase * 2 + 8 * b
    let sc := maskedLoad k2Meta (mptr + 2 * c) (mask n) qz.zero
    let mn := maskedLoad k2Meta (mptr + 2 * c + 1) (mask n) qz.zero
    qz.mulAdd q sc mn

def dequantGatherKernel (slots : List Nat) (kv : LayerKV M) (offset H strideOn strideOh D NG : Nat) : List (Nat × O) × List (Nat × O) :=
  let m := slots.length
  let maskN pid n := decide (pid * 32 + n < m)
  let loc pid n := if maskN pid n then slots[pid * 32 + n]! else 0
  let is2 pid n := decide (loc pid n < offset)
  let mask2 pid n := maskN pid n && is2 pid n
  let mask4 pid n := maskN pid n && !is2 pid n
  let k2 pid h := qz.k2Tiles kv.k2Data kv.k2Meta (loc pid) h H (mask2 pid) D
  let k4 pid h := qz.k4Tiles kv.k4Data kv.k4Meta (loc pid) offset h H (mask4 pid) D NG
  let v2 pid h := qz.v2Tiles kv.v2Data kv.v2Meta (loc pid) h H (mask2 pid) D NG
  let v4 pid h := qz.v4Tiles kv.v4Data kv.v4Meta (loc pid) offset h H (mask4 pid) D NG
  let lanes := (List.range ((m + 31) / 32) ×ˢ List.range H ×ˢ List.range 32 ×ˢ List.range (D / 4) ×ˢ List.range 4).filter
    (fun (pid, _, n, _, _) => maskN pid n)
  (lanes.map (fun (pid, h, n, b, c) => ((pid * 32 + n) * strideOn + h * strideOh + 4 * b + c,
      qz.cast (if is2 pid n then k2 pid h c b n else k4 pid h c b n))),
    lanes.map (fun (pid, h, n, b, c) => ((pid * 32 + n) * strideOn + h * strideOh + 4 * b + c,
      qz.cast (if is2 pid n then v2 pid h c b n else v4 pid h c b n))))

/-- The stores to `out_k` and `out_v`, whose rows and heads lie `strideOn` and `strideOh` apart. -/
def dequantGather (slots : List Nat) (kv : LayerKV M) (offset H D strideOn strideOh : Nat) : Except String (List (Nat × O) × List (Nat × O)) :=
  if slots.length = 0 then .ok ([], [])
  else (checkHeadDim D 64).map (fun _ => qz.dequantGatherKernel slots kv offset H strideOn strideOh D (D / 32))

end Quantizer

end TriaxialKV
