import Mathlib.Algebra.Order.Group.Nat
import Mathlib.Algebra.Order.Ring.Nat
import Mathlib.Data.Nat.ModEq
import Mathlib.Tactic.Ring
import TriaxialKV.Lib.Stores

/-! # Which KV heads a prefill rank sends -/

namespace TriaxialKV.Disagg
open Stores

structure TpSizes where
  totalKvHeads : Nat
  prefillTp : Nat
  decodeTp : Nat
  heads_pos : 0 < totalKvHeads
  prefill_pos : 0 < prefillTp
  decode_pos : 0 < decodeTp
  differ : prefillTp ≠ decodeTp
  nested : prefillTp ∣ decodeTp ∨ decodeTp ∣ prefillTp
  prefill_shards : prefillTp ∣ totalKvHeads ∨ totalKvHeads ∣ prefillTp
  decode_shards : decodeTp ∣ totalKvHeads ∨ totalKvHeads ∣ decodeTp

def headsPerRank (tpSize total : Nat) : Nat := max 1 (total / tpSize)

/-- The sharding rule of `QKVParallelLinear`: the global head in head slot `h` of a rank. -/
def ownedHead (tpSize total rank h : Nat) : Nat :=
  if tpSize ≤ total then rank * (total / tpSize) + h else rank / (tpSize / total)

structure HeadSlice where
  srcHeadStart : Nat
  numHeadsToSend : Nat
  dstHeadStart : Nat
deriving DecidableEq, Repr

def computeHeadSliceParams (srcTp dstTp srcRank dstRank total : Nat) : HeadSlice :=
  let srcHeads := headsPerRank srcTp total
  let dstHeads := headsPerRank dstTp total
  let localRank := srcRank % srcTp
  let dstRankInGroup := dstRank % dstTp
  if dstTp < srcTp then
    let srcReplication := max 1 (srcTp / total)
    let uniqueHeadIdx := localRank / srcReplication
    ⟨0, srcHeads, (uniqueHeadIdx * srcHeads) % dstHeads⟩
  else
    ⟨(dstRankInGroup * dstHeads) % srcHeads, dstHeads, 0⟩

theorem sliceParams_gather {srcTp dstTp : Nat} (more : dstTp < srcTp) (srcRank dstRank total : Nat) :
    computeHeadSliceParams srcTp dstTp srcRank dstRank total = ⟨0, headsPerRank srcTp total,
      (srcRank % srcTp / max 1 (srcTp / total) * headsPerRank srcTp total) % headsPerRank dstTp total⟩ :=
  if_pos more

theorem sliceParams_split {srcTp dstTp : Nat} (more : ¬dstTp < srcTp) (srcRank dstRank total : Nat) :
    computeHeadSliceParams srcTp dstTp srcRank dstRank total =
      ⟨(dstRank % dstTp * headsPerRank dstTp total) % headsPerRank srcTp total, headsPerRank dstTp total, 0⟩ :=
  if_neg more

def numWriters (srcTp dstTp : Nat) : Nat := if dstTp < srcTp then srcTp / max 1 dstTp else 1

/-- `_resolve_rank_mapping`: `target_tp_ranks` of the decode rank. -/
def targetTpRanks (prefillTp decodeTp engineRank : Nat) : List Nat :=
  if decodeTp = prefillTp then [engineRank % decodeTp]
  else if prefillTp < decodeTp then [(engineRank % decodeTp) / (decodeTp / prefillTp)]
  else List.range' (engineRank % decodeTp * (prefillTp / decodeTp)) (prefillTp / decodeTp)

def writerRank (prefillTp decodeTp d w : Nat) : Nat :=
  if prefillTp < decodeTp then d / (decodeTp / prefillTp) else d * (prefillTp / decodeTp) + w

namespace TpSizes
variable (s : TpSizes)

def writers : Nat := numWriters s.prefillTp s.decodeTp

def rank (d w : Nat) : Nat := writerRank s.prefillTp s.decodeTp d w

def srcHeads : Nat := headsPerRank s.prefillTp s.totalKvHeads

def dstHeads : Nat := headsPerRank s.decodeTp s.totalKvHeads

def slice (srcRank d : Nat) : HeadSlice := computeHeadSliceParams s.prefillTp s.decodeTp srcRank d s.totalKvHeads

def prefillHead (rank h : Nat) : Nat := ownedHead s.prefillTp s.totalKvHeads rank h

def decodeHead (rank h : Nat) : Nat := ownedHead s.decodeTp s.totalKvHeads rank h

/-- The writers' slices of decode rank `d` fill every head slot and stay inside both ranks' heads. -/
structure Slices (d : Nat) : Prop where
  src_lt : ∀ w < s.writers, ∀ h < (s.slice (s.rank d w) d).numHeadsToSend, (s.slice (s.rank d w) d).srcHeadStart + h < s.srcHeads
  dst_lt : ∀ w < s.writers, ∀ h < (s.slice (s.rank d w) d).numHeadsToSend, (s.slice (s.rank d w) d).dstHeadStart + h < s.dstHeads
  covered : ∀ slot < s.dstHeads, ∃ w < s.writers, ∃ h < (s.slice (s.rank d w) d).numHeadsToSend, slot = (s.slice (s.rank d w) d).dstHeadStart + h
  numbered : ∀ w < s.writers, s.slice w d = s.slice (s.rank d w) d
  index : ∀ w < s.writers, (if 1 < s.writers then s.rank d w % s.writers else 0) = w
  heads : ∀ w < s.writers, (s.slice (s.rank d w) d).numHeadsToSend = (s.slice 0 d).numHeadsToSend

def Owned (d : Nat) : Prop :=
  ∀ w < s.writers, ∀ h < (s.slice (s.rank d w) d).numHeadsToSend,
    s.prefillHead (s.rank d w) ((s.slice (s.rank d w) d).srcHeadStart + h) = s.decodeHead d ((s.slice (s.rank d w) d).dstHeadStart + h)

end TpSizes

section
variable {n m k q r d w : Nat}

theorem heads_split (ranks : 0 < n) (many : 0 < k) : headsPerRank n (n * k) = k := by
  rw [headsPerRank, Nat.mul_div_cancel_left _ ranks]
  omega

theorem heads_shared (ranks : 0 < q) : headsPerRank (n * q) n = 1 := by
  have small : n / (n * q) ≤ 1 := Nat.div_le_of_le_mul (by rw [mul_one]; exact Nat.le_mul_of_pos_right _ ranks)
  rw [headsPerRank]
  omega

theorem grows (ranks : 0 < n) (more : 1 < m) : n < n * m := (Nat.lt_mul_iff_one_lt_right ranks).mpr more

theorem numWriters_many (ranks : 0 < n) (more : 1 < m) : numWriters (n * m) n = m := by
  have bigger := grows ranks more
  rw [numWriters, if_pos bigger, Nat.max_eq_right ranks, Nat.mul_div_cancel_left _ ranks]

theorem numWriters_one (fewer : n ≤ m) : numWriters n m = 1 := if_neg (by omega)

theorem writerRank_many (ranks : 0 < n) (more : 1 < m) : writerRank (n * m) n d w = d * m + w := by
  have bigger := (grows ranks more).not_gt
  rw [writerRank, if_neg bigger, Nat.mul_div_cancel_left _ ranks]

theorem writerRank_one (ranks : 0 < n) (more : 1 < m) : writerRank n (n * m) d w = d / m := by
  have bigger := grows ranks more
  rw [writerRank, if_pos bigger, Nat.mul_div_cancel_left _ ranks]

theorem slice_gathered (ranks : 0 < n) (more : 1 < m) (heads : 0 < k) (rank : r < n) (writer : w < m) :
    computeHeadSliceParams (n * m) n (r * m + w) d (n * m * k) = ⟨0, k, w * k⟩ := by
  have bigger := grows ranks more
  have pos : 0 < n * m := mul_pos ranks (by omega)
  have unshared : max 1 (n * m / (n * m * k)) = 1 := by
    have small : n * m / (n * m * k) ≤ 1 := Nat.div_le_of_le_mul (by rw [mul_one]; exact Nat.le_mul_of_pos_right _ heads)
    omega
  have fits : w * k < m * k := Nat.mul_lt_mul_of_pos_right writer heads
  have wide : headsPerRank n (n * m * k) = m * k := by
    rw [mul_assoc]
    exact heads_split ranks (mul_pos (by omega) heads)
  have place : (r * m + w) * k = m * k * r + w * k := by ring
  rw [sliceParams_gather bigger, heads_split pos heads, wide, unshared, Nat.div_one,
    Nat.mod_eq_of_lt (radix_lt rank writer), place, Nat.mul_add_mod, Nat.mod_eq_of_lt fits]

theorem slice_shared (ranks : 0 < n) (heads : 0 < k) (more : 1 < q) (rank : r < n) (writer : w < k * q) :
    computeHeadSliceParams (n * k * q) n (r * (k * q) + w) d (n * k) = ⟨0, 1, w / q⟩ := by
  have pos := mul_pos ranks heads
  have bigger : n < n * k * q := (Nat.le_mul_of_pos_right _ heads).trans_lt (grows pos more)
  have shared : max 1 (n * k * q / (n * k)) = q := by
    rw [Nat.mul_div_cancel_left _ pos]
    omega
  have fits : w / q < k := Nat.div_lt_of_lt_mul (by rwa [mul_comm])
  have lt : r * (k * q) + w < n * k * q := by
    rw [mul_assoc]
    exact radix_lt rank writer
  have place : (r * (k * q) + w) / q = k * r + w / q := by
    have regroup : r * (k * q) + w = q * (k * r) + w := by ring
    rw [regroup, Nat.mul_add_div (by omega)]
  rw [sliceParams_gather bigger, heads_shared (by omega), heads_split ranks heads,
    shared, Nat.mod_eq_of_lt lt, place, mul_one, Nat.mul_add_mod, Nat.mod_eq_of_lt fits]

theorem heads_multiple (ranks : 0 < k) (more : 1 < m) : headsPerRank (n * k * m) n = 1 := by
  rw [mul_assoc]
  exact heads_shared (mul_pos ranks (by omega))

theorem slice_both_shared (heads : 0 < n) (ranks : 0 < k) (more : 1 < m) : computeHeadSliceParams (n * k * m) (n * k) r d n = ⟨0, 1, 0⟩ := by
  have bigger := grows (mul_pos heads ranks) more
  rw [sliceParams_gather bigger, heads_multiple ranks more, heads_shared ranks, Nat.mod_one]

theorem slice_split (ranks : 0 < n) (more : 1 < m) (heads : 0 < k) (rank : d < n * m) :
    computeHeadSliceParams n (n * m) r d (n * m * k) = ⟨d % m * k, k, 0⟩ := by
  have fewer := (grows ranks more).not_gt
  have pos : 0 < n * m := mul_pos ranks (by omega)
  have wide : headsPerRank n (n * m * k) = m * k := by
    rw [mul_assoc]
    exact heads_split ranks (mul_pos (by omega) heads)
  rw [sliceParams_split fewer, heads_split pos heads, wide, Nat.mod_eq_of_lt rank, Nat.mul_mod_mul_right]

theorem slice_copied (heads : 0 < n) (ranks : 0 < k) (more : 1 < m) : computeHeadSliceParams (n * k) (n * k * m) r d n = ⟨0, 1, 0⟩ := by
  have fewer := (grows (mul_pos heads ranks) more).not_gt
  rw [sliceParams_split fewer, heads_multiple ranks more, heads_shared ranks, Nat.mod_one]

/-- The slice is taken by the decode rank's number as if every decode rank had a head of its own. -/
theorem slice_crossed (ranks : 0 < n) (heads : 1 < k) (more : 1 < m) (rank : d < n * k * m) :
    computeHeadSliceParams n (n * k * m) r d (n * k) = ⟨d % k, 1, 0⟩ := by
  have pos : 0 < n * k := mul_pos ranks (by omega)
  have fewer : ¬n * k * m < n := ((grows ranks heads).trans (grows pos more)).not_gt
  rw [sliceParams_split fewer, heads_split ranks (by omega), heads_shared (by omega), Nat.mod_eq_of_lt rank, mul_one]

theorem ownedHead_split (ranks : 0 < n) (many : 0 < k) (r h : Nat) : ownedHead n (n * k) r h = r * k + h := by
  rw [ownedHead, if_pos (Nat.le_mul_of_pos_right _ many), Nat.mul_div_cancel_left _ ranks]

theorem ownedHead_shared (heads : 0 < n) (ranks : 0 < q) (r : Nat) : ownedHead (n * q) n r 0 = r / q := by
  rcases Nat.lt_or_ge 1 q with several | _
  · rw [ownedHead, if_neg (grows heads several).not_ge, Nat.mul_div_cancel_left _ heads]
  · obtain rfl : q = 1 := by omega
    rw [mul_one, ownedHead, if_pos (le_refl n), Nat.div_self heads, mul_one, add_zero, Nat.div_one]

end

inductive Regime (prefillTp decodeTp total : Nat) : Prop where
  | gathered (m k : Nat) (more : 1 < m) (heads : 0 < k) (prefill : prefillTp = decodeTp * m)
      (held : total = decodeTp * m * k)
  | shared (k q : Nat) (heads : 0 < k) (more : 1 < q) (prefill : prefillTp = decodeTp * k * q)
      (held : total = decodeTp * k)
  | bothShared (k m : Nat) (ranks : 1 < k) (more : 1 < m) (prefill : prefillTp = total * k * m)
      (decode : decodeTp = total * k)
  | split (m k : Nat) (more : 1 < m) (heads : 0 < k) (decode : decodeTp = prefillTp * m)
      (held : total = prefillTp * m * k)
  | copied (k m : Nat) (ranks : 0 < k) (more : 1 < m) (prefill : prefillTp = total * k)
      (decode : decodeTp = total * k * m)
  | crossed (k m : Nat) (heads : 1 < k) (more : 1 < m) (decode : decodeTp = prefillTp * k * m)
      (held : total = prefillTp * k)

theorem factor_of_le {a b : Nat} (divides : a ∣ b ∨ b ∣ a) (le : a ≤ b) (pos : 0 < a) : ∃ m, 0 < m ∧ b = a * m := by
  have upward : a ∣ b := by
    rcases divides with divides | divides
    · exact divides
    · rw [le_antisymm le (Nat.le_of_dvd pos divides)]
  obtain ⟨m, rfl⟩ := upward
  exact ⟨m, Nat.pos_of_mul_pos_left (pos.trans_le le), rfl⟩

theorem factor_of_lt {a b : Nat} (divides : a ∣ b ∨ b ∣ a) (lt : a < b) (pos : 0 < a) : ∃ m, 1 < m ∧ b = a * m := by
  obtain ⟨m, _, rfl⟩ := factor_of_le divides lt.le pos
  exact ⟨m, (Nat.lt_mul_iff_one_lt_right pos).mp lt, rfl⟩

namespace TpSizes
variable (s : TpSizes)

theorem regime : Regime s.prefillTp s.decodeTp s.totalKvHeads := by
  rcases Nat.lt_or_gt_of_ne s.differ with fewer | fewer
  · obtain ⟨m, more, growth⟩ := factor_of_lt s.nested fewer s.prefill_pos
    rcases Nat.lt_or_ge s.totalKvHeads s.decodeTp with short | enough
    · rcases Nat.lt_or_ge s.prefillTp s.totalKvHeads with wide | narrow
      · obtain ⟨e, several, decode⟩ := factor_of_lt s.decode_shards.symm short s.heads_pos
        obtain ⟨k, heads, held⟩ := factor_of_lt s.prefill_shards wide s.prefill_pos
        exact .crossed k e heads several (held ▸ decode) held
      · obtain ⟨q, ranks, prefill⟩ := factor_of_le s.prefill_shards.symm narrow s.heads_pos
        exact .copied q m ranks more prefill (prefill ▸ growth)
    · obtain ⟨k, heads, held⟩ := factor_of_le s.decode_shards enough s.decode_pos
      exact .split m k more heads growth (growth ▸ held)
  · obtain ⟨m, more, growth⟩ := factor_of_lt s.nested.symm fewer s.decode_pos
    rcases Nat.lt_or_ge s.totalKvHeads s.prefillTp with short | enough
    · rcases Nat.lt_or_ge s.totalKvHeads s.decodeTp with narrow | wide
      · obtain ⟨k, ranks, decode⟩ := factor_of_lt s.decode_shards.symm narrow s.heads_pos
        exact .bothShared k m ranks more (decode ▸ growth) decode
      · obtain ⟨q, several, prefill⟩ := factor_of_lt s.prefill_shards.symm short s.heads_pos
        obtain ⟨k, heads, held⟩ := factor_of_le s.decode_shards wide s.decode_pos
        exact .shared k q heads several (held ▸ prefill) held
    · obtain ⟨k, heads, held⟩ := factor_of_le s.prefill_shards enough s.prefill_pos
      exact .gathered m k more heads growth (growth ▸ held)

variable {s} {d m num start : Nat}

theorem writers_many (prefill : s.prefillTp = s.decodeTp * m) (several : 1 < m) : s.writers = m := by
  rw [writers, prefill]
  exact numWriters_many s.decode_pos several

theorem rank_many (prefill : s.prefillTp = s.decodeTp * m) (several : 1 < m) (w : Nat) : s.rank d w = d * m + w := by
  rw [rank, prefill]
  exact writerRank_many s.decode_pos several

theorem Slices.of_many {starts : Nat → Nat} (rank : d < s.decodeTp) (prefill : s.prefillTp = s.decodeTp * m)
    (several : 1 < m) (slice : ∀ r < s.decodeTp, ∀ w < m, s.slice (r * m + w) d = ⟨0, num, starts w⟩)
    (src : num ≤ s.srcHeads) (dst : ∀ w < m, starts w + num ≤ s.dstHeads)
    (covered : ∀ slot < s.dstHeads, ∃ w < m, starts w ≤ slot ∧ slot < starts w + num) : s.Slices d := by
  have writers := writers_many prefill several
  have numbered : ∀ w < m, s.slice w d = ⟨0, num, starts w⟩ := by
    intro w low
    have plain := slice 0 s.decode_pos w low
    rwa [zero_mul, zero_add] at plain
  have ranked : ∀ w < m, s.slice (s.rank d w) d = ⟨0, num, starts w⟩ := by
    intro w low
    rw [rank_many prefill several, slice d rank w low]
  constructor
  · intro w low h lt
    rw [ranked w (writers ▸ low)] at lt ⊢
    dsimp only at lt ⊢
    omega
  · intro w low h lt
    rw [ranked w (writers ▸ low)] at lt ⊢
    have bound := dst w (writers ▸ low)
    dsimp only at lt ⊢
    omega
  · intro slot lt
    obtain ⟨w, low, _, _⟩ := covered slot lt
    refine ⟨w, writers ▸ low, slot - starts w, ?_, ?_⟩
    · rw [ranked w low]
      dsimp only
      omega
    · rw [ranked w low]
      dsimp only
      omega
  · intro w low
    rw [ranked w (writers ▸ low), numbered w (writers ▸ low)]
  · intro w low
    rw [writers] at low ⊢
    rw [if_pos several, rank_many prefill several, Nat.mul_add_mod', Nat.mod_eq_of_lt low]
  · intro w low
    rw [ranked w (writers ▸ low), numbered 0 (by omega)]

theorem Slices.of_one (fewer : s.prefillTp < s.decodeTp) (slice : ∀ r, s.slice r d = ⟨start, num, 0⟩)
    (src : start + num ≤ s.srcHeads) (dst : num = s.dstHeads) : s.Slices d := by
  have writers : s.writers = 1 := numWriters_one fewer.le
  constructor
  · intro w low h lt
    rw [slice] at lt ⊢
    dsimp only at lt ⊢
    omega
  · intro w low h lt
    rw [slice] at lt ⊢
    dsimp only at lt ⊢
    omega
  · intro slot lt
    refine ⟨0, by omega, slot, ?_, ?_⟩
    · rw [slice]
      exact dst ▸ lt
    · rw [slice, zero_add]
  · intro w low
    rw [slice, slice]
  · intro w low
    rw [if_neg (by omega)]
    omega
  · intro w low
    rw [slice, slice]

theorem slices (rank : d < s.decodeTp) : s.Slices d := by
  cases s.regime with
  | gathered m k more heads prefill held =>
    have wide : s.dstHeads = m * k := by
      rw [dstHeads, held, mul_assoc]
      exact heads_split s.decode_pos (mul_pos (by omega) heads)
    have narrow : s.srcHeads = k := by
      rw [srcHeads, held, ← prefill]
      exact heads_split s.prefill_pos heads
    apply Slices.of_many rank prefill more
    · intro r lt w low
      rw [slice, held, prefill]
      exact slice_gathered s.decode_pos more heads lt low
    · exact narrow.ge
    · intro w low
      rw [wide, ← Nat.succ_mul]
      exact Nat.mul_le_mul_right k low
    · intro slot lt
      rw [wide, mul_comm] at lt
      exact ⟨slot / k, Nat.div_lt_of_lt_mul lt, Nat.div_mul_le_self slot k, Nat.lt_div_mul_add heads⟩
  | shared k q heads more prefill held =>
    have several : 1 < k * q := (Nat.succ_le_of_lt heads).trans_lt (grows heads more)
    have wide : s.dstHeads = k := by
      rw [dstHeads, held]
      exact heads_split s.decode_pos heads
    have narrow : s.srcHeads = 1 := by
      rw [srcHeads, prefill, ← held]
      exact heads_shared (by omega)
    apply Slices.of_many rank (mul_assoc s.decodeTp k q ▸ prefill) several
    · intro r lt w low
      rw [slice, held, prefill]
      exact slice_shared s.decode_pos heads more lt low
    · exact narrow.ge
    · intro w low
      rw [wide]
      exact Nat.div_lt_of_lt_mul (by rwa [mul_comm] at low)
    · intro slot lt
      rw [wide] at lt
      have back : slot * q / q = slot := Nat.mul_div_cancel _ (by omega)
      exact ⟨slot * q, Nat.mul_lt_mul_of_pos_right lt (by omega), back.le, by omega⟩
  | bothShared k m ranks more prefill decode =>
    have wide : s.dstHeads = 1 := by
      rw [dstHeads, decode]
      exact heads_shared (by omega)
    have narrow : s.srcHeads = 1 := by
      rw [srcHeads, prefill]
      exact heads_multiple (by omega) more
    have sent (r : Nat) : s.slice r d = ⟨0, 1, 0⟩ := by
      rw [slice, decode, prefill]
      exact slice_both_shared s.heads_pos (by omega) more
    apply Slices.of_many rank (decode ▸ prefill) more
    · exact fun r lt w low => sent (r * m + w)
    · exact narrow.ge
    · exact fun w low => wide.ge
    · exact fun slot lt => ⟨0, by omega, by omega, by omega⟩
  | split m k more heads decode held =>
    have wide : s.srcHeads = m * k := by
      rw [srcHeads, held, mul_assoc]
      exact heads_split s.prefill_pos (mul_pos (by omega) heads)
    apply Slices.of_one
    · exact decode ▸ grows s.prefill_pos more
    · intro r
      rw [slice, held, decode]
      exact slice_split s.prefill_pos more heads (decode ▸ rank)
    · rw [wide, ← Nat.succ_mul]
      exact Nat.mul_le_mul_right k (Nat.mod_lt d (by omega))
    · rw [dstHeads, held, ← decode]
      exact (heads_split s.decode_pos heads).symm
  | copied k m ranks more prefill decode =>
    apply Slices.of_one
    · rw [decode, ← prefill]
      exact grows s.prefill_pos more
    · intro r
      rw [slice, decode, prefill]
      exact slice_copied s.heads_pos ranks more
    · rw [srcHeads, prefill]
      exact (heads_shared ranks).ge
    · rw [dstHeads, decode]
      exact (heads_multiple ranks more).symm
  | crossed k m heads more decode held =>
    apply Slices.of_one
    · rw [decode]
      exact (grows s.prefill_pos heads).trans (grows (held ▸ s.heads_pos) more)
    · intro r
      rw [slice, held, decode]
      exact slice_crossed s.prefill_pos heads more (decode ▸ rank)
    · rw [srcHeads, held, heads_split s.prefill_pos (by omega)]
      exact Nat.mod_lt d (by omega)
    · rw [dstHeads, decode, ← held]
      exact (heads_shared (by omega)).symm

theorem mem_tpRanks (rank : d < s.decodeTp) (r : Nat) : r ∈ targetTpRanks s.prefillTp s.decodeTp d ↔ ∃ w < s.writers, r = s.rank d w := by
  rw [targetTpRanks, if_neg s.differ.symm, Nat.mod_eq_of_lt rank, TpSizes.writers]
  unfold TpSizes.rank writerRank
  split
  · rename_i fewer
    rw [numWriters_one fewer.le]
    constructor
    · intro mem
      exact ⟨0, by omega, List.mem_singleton.mp mem⟩
    · rintro ⟨w, low, rfl⟩
      exact List.mem_singleton_self _
  · rename_i more
    have fewer : s.decodeTp < s.prefillTp := Nat.lt_of_le_of_ne (by omega) s.differ.symm
    rw [numWriters, if_pos fewer, Nat.max_eq_right s.decode_pos, List.mem_range'_1]
    constructor
    · rintro ⟨_, _⟩
      exact ⟨r - d * (s.prefillTp / s.decodeTp), by omega, by omega⟩
    · rintro ⟨w, low, rfl⟩
      omega

theorem prefillHead_split {k : Nat} (held : s.totalKvHeads = s.prefillTp * k) (many : 0 < k) (r h : Nat) : s.prefillHead r h = r * k + h := by
  rw [prefillHead, held]
  exact ownedHead_split s.prefill_pos many r h

theorem decodeHead_split {k : Nat} (held : s.totalKvHeads = s.decodeTp * k) (many : 0 < k) (r h : Nat) : s.decodeHead r h = r * k + h := by
  rw [decodeHead, held]
  exact ownedHead_split s.decode_pos many r h

theorem prefillHead_shared {q : Nat} (prefill : s.prefillTp = s.totalKvHeads * q) (many : 0 < q) (r : Nat) : s.prefillHead r 0 = r / q := by
  rw [prefillHead, prefill]
  exact ownedHead_shared s.heads_pos many r

theorem decodeHead_shared {q : Nat} (decode : s.decodeTp = s.totalKvHeads * q) (many : 0 < q) (r : Nat) : s.decodeHead r 0 = r / q := by
  rw [decodeHead, decode]
  exact ownedHead_shared s.heads_pos many r

theorem rank_one (decode : s.decodeTp = s.prefillTp * m) (several : 1 < m) (w : Nat) : s.rank d w = d / m := by
  rw [rank, decode]
  exact writerRank_one s.prefill_pos several

theorem rank_lt (rank : d < s.decodeTp) {w : Nat} (low : w < s.writers) : s.rank d w < s.prefillTp := by
  rcases Nat.lt_or_gt_of_ne s.differ with fewer | fewer
  · obtain ⟨m, several, decode⟩ := factor_of_lt s.nested fewer s.prefill_pos
    rw [rank_one decode several]
    exact Nat.div_lt_of_lt_mul (by rwa [mul_comm, ← decode])
  · obtain ⟨m, several, prefill⟩ := factor_of_lt s.nested.symm fewer s.decode_pos
    rw [rank_many prefill several, prefill]
    exact radix_lt rank (writers_many prefill several ▸ low)

theorem owned_of_right (right : s.decodeTp ≤ s.totalKvHeads ∨ s.totalKvHeads ≤ s.prefillTp) (rank : d < s.decodeTp) : s.Owned d := by
  intro w low h lt
  cases s.regime with
  | gathered m k more heads prefill held =>
    have sent : s.slice (d * m + w) d = ⟨0, k, w * k⟩ := by
      rw [slice, held, prefill]
      exact slice_gathered s.decode_pos more heads rank (writers_many prefill more ▸ low)
    have wide : s.totalKvHeads = s.decodeTp * (m * k) := by rw [held, mul_assoc]
    rw [rank_many prefill more, sent, prefillHead_split (prefill ▸ held) heads, decodeHead_split wide (mul_pos (by omega) heads)]
    ring
  | shared k q heads more prefill held =>
    have several : 1 < k * q := (Nat.succ_le_of_lt heads).trans_lt (grows heads more)
    have many : s.prefillTp = s.decodeTp * (k * q) := by rw [prefill, mul_assoc]
    have sent : s.slice (d * (k * q) + w) d = ⟨0, 1, w / q⟩ := by
      rw [slice, held, prefill]
      exact slice_shared s.decode_pos heads more rank (writers_many many several ▸ low)
    have place : (d * (k * q) + w) / q = d * k + w / q := by
      have regroup : d * (k * q) + w = q * (d * k) + w := by ring
      rw [regroup, Nat.mul_add_div (by omega)]
    rw [rank_many many several, sent] at lt ⊢
    obtain rfl : h = 0 := by simpa using lt
    rw [prefillHead_shared (held ▸ prefill) (by omega), decodeHead_split held heads, place, add_zero]
  | bothShared k m ranks more prefill decode =>
    have sent (r : Nat) : s.slice r d = ⟨0, 1, 0⟩ := by
      rw [slice, decode, prefill]
      exact slice_both_shared s.heads_pos (by omega) more
    have writer : w < m := writers_many (decode ▸ prefill) more ▸ low
    have place : (d * m + w) / m = d := by
      rw [mul_comm, Nat.mul_add_div (by omega), Nat.div_eq_of_lt writer, add_zero]
    have narrow : s.prefillTp = s.totalKvHeads * (m * k) := by rw [prefill, mul_assoc, mul_comm k m]
    rw [sent] at lt ⊢
    obtain rfl : h = 0 := by simpa using lt
    rw [rank_many (decode ▸ prefill) more, prefillHead_shared narrow (mul_pos (by omega) (by omega)),
      decodeHead_shared decode (by omega), ← Nat.div_div_eq_div_mul, place]
  | split m k more heads decode held =>
    have sent (r : Nat) : s.slice r d = ⟨d % m * k, k, 0⟩ := by
      rw [slice, held, decode]
      exact slice_split s.prefill_pos more heads (decode ▸ rank)
    have wide : s.totalKvHeads = s.prefillTp * (m * k) := by rw [held, mul_assoc]
    have place : d / m * (m * k) + d % m * k = d * k := by
      have parts := Nat.div_add_mod d m
      calc d / m * (m * k) + d % m * k = (m * (d / m) + d % m) * k := by ring
        _ = d * k := by rw [parts]
    rw [rank_one decode more, sent, prefillHead_split wide (mul_pos (by omega) heads),
      decodeHead_split (decode ▸ held) heads, ← add_assoc, place, zero_add]
  | copied k m ranks more prefill decode =>
    have sent (r : Nat) : s.slice r d = ⟨0, 1, 0⟩ := by
      rw [slice, decode, prefill]
      exact slice_copied s.heads_pos ranks more
    have narrow : s.decodeTp = s.totalKvHeads * (m * k) := by rw [decode, mul_assoc, mul_comm k m]
    rw [sent] at lt ⊢
    obtain rfl : h = 0 := by simpa using lt
    rw [rank_one (prefill ▸ decode) more, prefillHead_shared prefill ranks,
      decodeHead_shared narrow (mul_pos (by omega) ranks), ← Nat.div_div_eq_div_mul]
  | crossed k m heads more decode held =>
    have first := grows s.prefill_pos heads
    have second := grows s.heads_pos more
    rw [← held] at first decode
    omega

/-- Decode rank 1 is sent head 1 and owns head 0. -/
theorem crossed_one (few : s.prefillTp < s.totalKvHeads) (many : s.totalKvHeads < s.decodeTp) :
    s.writers = 1 ∧ s.rank 1 0 = 0 ∧ s.slice 0 1 = ⟨1, 1, 0⟩ ∧ s.prefillHead 0 1 = 1 ∧ s.decodeHead 1 0 = 0 := by
  obtain ⟨k, heads, held⟩ := factor_of_lt s.prefill_shards few s.prefill_pos
  obtain ⟨m, more, decode⟩ := factor_of_lt s.decode_shards.symm many s.heads_pos
  have grown : s.decodeTp = s.prefillTp * (k * m) := by rw [decode, held, mul_assoc]
  have several : 1 < k * m := by
    have pair := Nat.mul_le_mul heads more
    omega
  have second : 1 < s.prefillTp * k * m := by
    rw [← held]
    omega
  refine ⟨numWriters_one (few.trans many).le, ?_, ?_, ?_, ?_⟩
  · rw [rank_one grown several, Nat.div_eq_of_lt several]
  · rw [slice, decode, held, slice_crossed s.prefill_pos heads more second, Nat.mod_eq_of_lt heads]
  · rw [prefillHead_split held (by omega)]
    omega
  · rw [decodeHead_shared decode (by omega), Nat.div_eq_of_lt more]

end TpSizes

end TriaxialKV.Disagg
