import Mathlib.Algebra.BigOperators.Group.List.Basic
import TriaxialKV.Disagg.HeadSlices

/-!
# KV transfer between groups of different size

The stores of all writers may come in any order. A rank has `2 * numLayers` buffers, the K buffers before the
V buffers.
-/

namespace TriaxialKV.Disagg
open List Stores TpSizes

structure KvTransfer where
  /-- `prefill_kv_indices` and `dst_kv_indices`, page by page -/
  pages : List (Nat × Nat)
  pageSize : Nat
  headBytes : Nat
  numLayers : Nat
  pageSize_pos : 0 < pageSize
  distinct : (pages.map Prod.snd).Nodup

abbrev KvData := Nat → Nat → Nat → Nat → UInt8

structure Copy where
  src : Nat
  dst : Nat
  len : Nat
deriving DecidableEq, Repr

def Copy.stores (mem : Nat → UInt8) (c : Copy) : List (Nat × UInt8) := (range c.len).map fun k => (c.dst + k, mem (c.src + k))

namespace KvTransfer
variable (s : TpSizes) (t : KvTransfer) (data : KvData)

def addr (heads slot h b : Nat) : Nat := (slot * heads + h) * t.headBytes + b

def itemLen (heads : Nat) : Nat := t.pageSize * heads * t.headBytes

def prefillMem (r l a : Nat) : UInt8 := data l (a / t.headBytes / s.srcHeads) (s.prefillHead r (a / t.headBytes % s.srcHeads)) (a % t.headBytes)

def sendKvcacheSlice (engineRank dstTpRank : Nat) : Option (List Copy) :=
  let srcItemLen := t.itemLen s.srcHeads
  let dstItemLen := t.itemLen s.dstHeads
  let bytesPerHeadSlice := dstItemLen / t.pageSize / s.dstHeads
  let p := s.slice engineRank dstTpRank
  let srcHeadSliceOffset := p.srcHeadStart * bytesPerHeadSlice
  let dstHeadSliceOffset := p.dstHeadStart * bytesPerHeadSlice
  let headsBytesPerToken := p.numHeadsToSend * bytesPerHeadSlice
  if dstItemLen / t.pageSize < headsBytesPerToken then none
  else
    some (t.pages.flatMap fun page => (range t.pageSize).map fun token =>
      ⟨page.1 * srcItemLen + (token * (srcItemLen / t.pageSize) + srcHeadSliceOffset),
       page.2 * dstItemLen + (token * (dstItemLen / t.pageSize) + dstHeadSliceOffset), headsBytesPerToken⟩)

def numTokens : Nat := t.pages.length * t.pageSize

def poolToken (pages : List Nat) (i : Nat) : Nat := pages.getD (i / t.pageSize) 0 * t.pageSize + i % t.pageSize

def perLayerBytes (numHeads : Nat) : Nat := t.numTokens * numHeads * t.headBytes

/-- `_fused_gather_to_staging_kernel`: what the staging buffer holds at address `a`. -/
def gatherAllLayersToStaging (mem : Nat → Nat → UInt8) (srcHeadStart numHeads a : Nat) : UInt8 :=
  let layer := a / t.perLayerBytes numHeads
  let offset := a % t.perLayerBytes numHeads
  let tIdx := offset / (numHeads * t.headBytes)
  let eIdx := offset % (numHeads * t.headBytes)
  mem layer (t.poolToken (t.pages.map Prod.fst) tIdx * (s.srcHeads * t.headBytes) + srcHeadStart * t.headBytes + eIdx)

def computeStagingLayout (dstTpRank : Nat) : List Nat :=
  (range s.writers).map fun wr =>
    t.numTokens * (s.slice wr dstTpRank).numHeadsToSend * t.headBytes * t.numLayers * 2

def sendKvcacheStaged (stagingSize dstStagingSize engineRank dstTpRank : Nat) : Option (List (Nat × UInt8)) :=
  let localRank := engineRank % s.prefillTp
  let p := s.slice localRank dstTpRank
  let perRankBytes := t.perLayerBytes p.numHeadsToSend * t.numLayers * 2
  let writerRankBytes := t.computeStagingLayout s dstTpRank
  let writerIdx := if 1 < s.writers then localRank % s.writers else 0
  let rankOffset := (writerRankBytes.take writerIdx).sum
  if stagingSize < perRankBytes then none
  else if dstStagingSize < writerRankBytes.sum then none
  else
    some ((range perRankBytes).map fun k =>
      (rankOffset + k, t.gatherAllLayersToStaging s (t.prefillMem s data engineRank) p.srcHeadStart p.numHeadsToSend k))

/-- `_fused_scatter_from_staging_kernel`, for buffer `l`. -/
def scatterStagingToKv (staging : Nat → UInt8) (dstTpRank l : Nat) : List (Nat × UInt8) :=
  let numHeads := (s.slice 0 dstTpRank).numHeadsToSend
  let perLayer := t.perLayerBytes numHeads
  let perRank := perLayer * (2 * t.numLayers)
  (range s.writers).flatMap fun writer => (range perLayer).map fun offset =>
    (t.poolToken (t.pages.map Prod.snd) (offset / (numHeads * t.headBytes)) * (s.dstHeads * t.headBytes) +
       (s.slice writer dstTpRank).dstHeadStart * t.headBytes + offset % (numHeads * t.headBytes),
     staging (writer * perRank + l * perLayer + offset))

def Received (d : Nat) (out : Nat → Nat → UInt8) : Prop :=
  ∀ l < 2 * t.numLayers, ∀ page ∈ t.pages, ∀ token < t.pageSize, ∀ h < s.dstHeads, ∀ b < t.headBytes,
    out l (t.addr s.dstHeads (page.2 * t.pageSize + token) h b) = data l (page.1 * t.pageSize + token) (s.decodeHead d h) b

def Delivers (d : Nat) (stores : Nat → List (Nat × UInt8)) : Prop :=
  (∀ l < 2 * t.numLayers, Unanimous (stores l)) ∧
    ∀ mem out : Nat → Nat → UInt8, (∀ l < 2 * t.numLayers, Launch (mem l) (stores l) (out l)) → t.Received s data d out

def sliceStores (copies : Nat → List Copy) (d l : Nat) : List (Nat × UInt8) :=
  (targetTpRanks s.prefillTp s.decodeTp d).flatMap fun r => (copies r).flatMap fun c => c.stores (t.prefillMem s data r l)

def SlicePath (d : Nat) : Prop :=
  ∃ copies, (∀ r ∈ targetTpRanks s.prefillTp s.decodeTp d, t.sendKvcacheSlice s r d = some (copies r)) ∧
    t.Delivers s data d (t.sliceStores s data copies d)

/-- The staging buffers hold what is sent, else the senders fall back to slices. -/
def Fits (stagingSize : Nat → Nat) (dstStagingSize d : Nat) : Prop :=
  (∀ r ∈ targetTpRanks s.prefillTp s.decodeTp d, t.perLayerBytes (s.slice (r % s.prefillTp) d).numHeadsToSend * t.numLayers * 2 ≤ stagingSize r) ∧
    (t.computeStagingLayout s d).sum ≤ dstStagingSize

def StagedPath (d : Nat) : Prop :=
  ∀ stagingSize dstStagingSize, t.Fits s stagingSize dstStagingSize d → ∃ sent, (∀ r ∈ targetTpRanks s.prefillTp s.decodeTp d,
        t.sendKvcacheStaged s data (stagingSize r) dstStagingSize r d = some (sent r)) ∧
      Unanimous ((targetTpRanks s.prefillTp s.decodeTp d).flatMap sent) ∧
      ∀ before staging, Launch before ((targetTpRanks s.prefillTp s.decodeTp d).flatMap sent) staging →
        t.Delivers s data d (t.scatterStagingToKv s staging d)

/-! ### What is sent arrives -/

def Sent (d l : Nat) (ws : List (Nat × UInt8)) : Prop :=
  ∀ a v, (a, v) ∈ ws ↔ ∃ page ∈ t.pages, ∃ token < t.pageSize, ∃ w < s.writers, ∃ h < (s.slice (s.rank d w) d).numHeadsToSend, ∃ b < t.headBytes,
      a = t.addr s.dstHeads (page.2 * t.pageSize + token) ((s.slice (s.rank d w) d).dstHeadStart + h) b ∧
      v = data l (page.1 * t.pageSize + token)
        (s.prefillHead (s.rank d w) ((s.slice (s.rank d w) d).srcHeadStart + h)) b

variable {s t data} {d l token : Nat} {stores : Nat → List (Nat × UInt8)}

theorem addr_inj {heads slot slot' h h' b b' : Nat} (head : h < heads) (head' : h' < heads) (byte : b < t.headBytes)
    (byte' : b' < t.headBytes) (same : t.addr heads slot h b = t.addr heads slot' h' b') :
    slot = slot' ∧ h = h' ∧ b = b' := by
  obtain ⟨rows, bytes⟩ := radix_inj byte byte' same
  obtain ⟨slots, heads⟩ := radix_inj head head' rows
  exact ⟨slots, heads, bytes⟩

theorem page_of_slot {page page' : Nat × Nat} {token' : Nat} (mem : page ∈ t.pages) (mem' : page' ∈ t.pages)
    (lt : token < t.pageSize) (lt' : token' < t.pageSize)
    (same : page.2 * t.pageSize + token = page'.2 * t.pageSize + token') : page = page' ∧ token = token' := by
  obtain ⟨pages, tokens⟩ := radix_inj lt lt' same
  exact ⟨inj_on_of_nodup_map t.distinct mem mem' pages, tokens⟩

theorem delivers_of_sent (slices : s.Slices d) (owned : s.Owned d)
    (sent : ∀ l < 2 * t.numLayers, t.Sent s data d l (stores l)) : t.Delivers s data d stores := by
  have agree : ∀ l < 2 * t.numLayers, Unanimous (stores l) := by
    intro l buffer a v v' member mem'
    obtain ⟨page, listed, token, lt, w, low, h, few, b, byte, rfl, rfl⟩ := (sent l buffer a v).mp member
    obtain ⟨_, listed', _, lt', w', low', h', few', _, byte', same, rfl⟩ := (sent l buffer _ v').mp mem'
    obtain ⟨slots, heads, rfl⟩ := addr_inj (slices.dst_lt w low h few) (slices.dst_lt w' low' h' few') byte byte' same
    obtain ⟨rfl, rfl⟩ := page_of_slot listed listed' lt lt' slots
    rw [owned w low h few, owned w' low' h' few', heads]
  refine ⟨agree, ?_⟩
  intro _ _ launch l buffer page listed token lt slot below b byte
  obtain ⟨w, low, h, few, rfl⟩ := slices.covered slot below
  rw [← owned w low h few]
  exact (launch l buffer).read_agree (agree l buffer)
    ((sent l buffer _ _).mpr ⟨page, listed, token, lt, w, low, h, few, b, byte, rfl, rfl⟩)

/-! ### Slices -/

theorem dstHeads_pos : 0 < s.dstHeads := Nat.le_max_left 1 _

theorem itemLen_div (heads : Nat) : t.itemLen heads / t.pageSize = heads * t.headBytes := by
  rw [itemLen, mul_assoc, Nat.mul_div_cancel_left _ t.pageSize_pos]

theorem prefillMem_addr {h b : Nat} (head : h < s.srcHeads) (byte : b < t.headBytes) (r slot : Nat) :
    t.prefillMem s data r l (t.addr s.srcHeads slot h b) = data l slot (s.prefillHead r h) b := by
  rw [prefillMem, addr, radix_div byte, radix_mod byte, radix_div head, radix_mod head]

def tokenCopies (s : TpSizes) (t : KvTransfer) (p : HeadSlice) : List Copy :=
  t.pages.flatMap fun page => (range t.pageSize).map fun token =>
    ⟨t.addr s.srcHeads (page.1 * t.pageSize + token) p.srcHeadStart 0,
     t.addr s.dstHeads (page.2 * t.pageSize + token) p.dstHeadStart 0, p.numHeadsToSend * t.headBytes⟩

theorem item_addr (heads page token start : Nat) : page * t.itemLen heads + (token * (heads * t.headBytes) + start * t.headBytes) =
      t.addr heads (page * t.pageSize + token) start 0 := by
  rw [itemLen, addr]
  ring

theorem sendSlice_eq (slices : s.Slices d) {w : Nat} (low : w < s.writers) :
    t.sendKvcacheSlice s (s.rank d w) d = some (t.tokenCopies s (s.slice (s.rank d w) d)) := by
  have unit : s.dstHeads * t.headBytes / s.dstHeads = t.headBytes := Nat.mul_div_cancel_left _ dstHeads_pos
  have most : (s.slice (s.rank d w) d).numHeadsToSend ≤ s.dstHeads := by
    by_contra more
    have last := slices.dst_lt w low s.dstHeads (by omega)
    omega
  have fits : ¬s.dstHeads * t.headBytes < (s.slice (s.rank d w) d).numHeadsToSend * t.headBytes := Nat.not_lt.mpr (Nat.mul_le_mul_right _ most)
  simp only [sendKvcacheSlice, unit, itemLen_div, if_neg fits, item_addr, tokenCopies]

theorem mem_copy_stores {mem : Nat → UInt8} {heads slot heads' slot' start start' num a : Nat} {v : UInt8} :
    (a, v) ∈ Copy.stores mem ⟨t.addr heads slot start 0, t.addr heads' slot' start' 0, num * t.headBytes⟩ ↔
      ∃ h < num, ∃ b < t.headBytes, a = t.addr heads' slot' (start' + h) b ∧ v = mem (t.addr heads slot (start + h) b) := by
  have shift (heads slot start h b : Nat) : t.addr heads slot start 0 + (h * t.headBytes + b) = t.addr heads slot (start + h) b := by
    unfold addr
    ring
  unfold Copy.stores
  constructor
  · intro member
    obtain ⟨k, lt, same⟩ := mem_map.mp member
    obtain ⟨h, few, b, byte, rfl⟩ := radix_split.mp (mem_range.mp lt)
    simp only [shift, Prod.mk.injEq] at same
    exact ⟨h, few, b, byte, same.1.symm, same.2.symm⟩
  · rintro ⟨h, few, b, byte, rfl, rfl⟩
    refine mem_map.mpr ⟨h * t.headBytes + b, mem_range.mpr (radix_lt few byte), ?_⟩
    simp only [shift]

theorem sent_slices (slices : s.Slices d) (rank : d < s.decodeTp) (l : Nat) :
    t.Sent s data d l (t.sliceStores s data (fun r => t.tokenCopies s (s.slice r d)) d l) := by
  intro a v
  unfold sliceStores tokenCopies
  simp only [mem_flatMap, mem_map, mem_range, mem_tpRanks rank]
  constructor
  · rintro ⟨_, ⟨w, low, rfl⟩, _, ⟨page, listed, token, lt, rfl⟩, mem⟩
    obtain ⟨h, few, b, byte, rfl, rfl⟩ := mem_copy_stores.mp mem
    refine ⟨page, listed, token, lt, w, low, h, few, b, byte, rfl, ?_⟩
    exact prefillMem_addr (slices.src_lt w low h few) byte _ _
  · rintro ⟨page, listed, token, lt, w, low, h, few, b, byte, rfl, rfl⟩
    refine ⟨_, ⟨w, low, rfl⟩, _, ⟨page, listed, token, lt, rfl⟩, mem_copy_stores.mpr ⟨h, few, b, byte, rfl, ?_⟩⟩
    exact (prefillMem_addr (slices.src_lt w low h few) byte _ _).symm

theorem slice_of_owned (rank : d < s.decodeTp) (owned : s.Owned d) : t.SlicePath s data d := by
  have slices := TpSizes.slices rank
  refine ⟨fun r => t.tokenCopies s (s.slice r d), ?_, delivers_of_sent slices owned fun l _ => sent_slices slices rank l⟩
  intro r asked
  obtain ⟨w, low, rfl⟩ := (mem_tpRanks rank r).mp asked
  exact sendSlice_eq slices low

/-! ### Staging -/

def writerBytes (s : TpSizes) (t : KvTransfer) (d : Nat) : Nat := t.perLayerBytes (s.slice 0 d).numHeadsToSend * (2 * t.numLayers)

def gathered (s : TpSizes) (t : KvTransfer) (data : KvData) (d r k : Nat) : UInt8 :=
  t.gatherAllLayersToStaging s (t.prefillMem s data r) (s.slice r d).srcHeadStart (s.slice 0 d).numHeadsToSend k

def stagedStores (s : TpSizes) (t : KvTransfer) (data : KvData) (d r : Nat) : List (Nat × UInt8) :=
  (range (t.writerBytes s d)).map fun k =>
    ((if 1 < s.writers then r % s.writers else 0) * t.writerBytes s d + k, t.gathered s data d r k)

theorem perLayerBytes_twice (numHeads : Nat) : t.perLayerBytes numHeads * t.numLayers * 2 = t.perLayerBytes numHeads * (2 * t.numLayers) := by ring

theorem stagingLayout_eq (slices : s.Slices d) : t.computeStagingLayout s d = replicate s.writers (t.writerBytes s d) := by
  apply eq_replicate_iff.mpr
  constructor
  · rw [computeStagingLayout, length_map, length_range]
  · intro _ mem
    obtain ⟨w, lt, rfl⟩ := mem_map.mp mem
    have low := mem_range.mp lt
    rw [slices.numbered w low, slices.heads w low]
    exact perLayerBytes_twice _

section
variable (slices : s.Slices d) (rank : d < s.decodeTp)
include slices rank

theorem sendStaged_eq {w : Nat} (low : w < s.writers) {stagingSize dstStagingSize : Nat}
    (fits : t.perLayerBytes (s.slice (s.rank d w % s.prefillTp) d).numHeadsToSend * t.numLayers * 2 ≤ stagingSize)
    (room : (t.computeStagingLayout s d).sum ≤ dstStagingSize) :
    t.sendKvcacheStaged s data stagingSize dstStagingSize (s.rank d w) d = some (t.stagedStores s data d (s.rank d w)) := by
  have offset : ((t.computeStagingLayout s d).take w).sum = w * t.writerBytes s d := by
    rw [stagingLayout_eq slices, take_replicate, min_eq_left low.le, sum_replicate_nat]
  rw [Nat.mod_eq_of_lt (rank_lt rank low), slices.heads w low, perLayerBytes_twice] at fits
  simp only [sendKvcacheStaged, Nat.mod_eq_of_lt (rank_lt rank low), if_neg (Nat.not_lt.mpr fits),
    if_neg (Nat.not_lt.mpr room), slices.index w low, offset, slices.heads w low, perLayerBytes_twice, stagedStores,
    gathered, writerBytes]

theorem mem_stagedStores (a : Nat) (v : UInt8) :
    (a, v) ∈ (targetTpRanks s.prefillTp s.decodeTp d).flatMap (t.stagedStores s data d) ↔ ∃ w < s.writers, ∃ k < t.writerBytes s d,
        a = w * t.writerBytes s d + k ∧ v = t.gathered s data d (s.rank d w) k := by
  unfold stagedStores
  simp only [mem_flatMap, mem_map, mem_range, mem_tpRanks rank, Prod.mk.injEq]
  constructor
  · rintro ⟨_, ⟨w, low, rfl⟩, k, lt, rfl, rfl⟩
    exact ⟨w, low, k, lt, by rw [slices.index w low], rfl⟩
  · rintro ⟨w, low, k, lt, rfl, rfl⟩
    exact ⟨_, ⟨w, low, rfl⟩, k, lt, by rw [slices.index w low], rfl⟩

theorem agree_stagedStores : Unanimous ((targetTpRanks s.prefillTp s.decodeTp d).flatMap (t.stagedStores s data d)) := by
  intro a v v' mem mem'
  obtain ⟨w, _, k, lt, rfl, rfl⟩ := (mem_stagedStores slices rank a v).mp mem
  obtain ⟨_, _, _, lt', same, rfl⟩ := (mem_stagedStores slices rank _ v').mp mem'
  obtain ⟨rfl, rfl⟩ := radix_inj lt lt' same
  rfl

end

theorem poolToken_page (side : Nat × Nat → Nat) {i : Nat} (page : i < t.pages.length) (lt : token < t.pageSize) :
    t.poolToken (t.pages.map side) (i * t.pageSize + token) = side t.pages[i] * t.pageSize + token := by
  rw [poolToken, radix_div lt, radix_mod lt, getD_eq_getElem?_getD, getElem?_map, getElem?_eq_getElem page]
  rfl

def cell (t : KvTransfer) (num i token h b : Nat) : Nat := (i * t.pageSize + token) * (num * t.headBytes) + (h * t.headBytes + b)

theorem lt_perLayerBytes {num offset : Nat} : offset < t.perLayerBytes num ↔ ∃ i < t.pages.length, ∃ token < t.pageSize, ∃ h < num, ∃ b < t.headBytes,
      offset = t.cell num i token h b := by
  unfold perLayerBytes numTokens cell
  rw [mul_assoc (t.pages.length * t.pageSize), radix_split]
  constructor
  · rintro ⟨_, first, _, second, rfl⟩
    obtain ⟨i, page, token, lt, rfl⟩ := radix_split.mp first
    obtain ⟨h, few, b, byte, rfl⟩ := radix_split.mp second
    exact ⟨i, page, token, lt, h, few, b, byte, rfl⟩
  · rintro ⟨i, page, token, lt, h, few, b, byte, rfl⟩
    exact ⟨_, radix_lt page lt, _, radix_lt few byte, rfl⟩

theorem cell_addr (heads slot start h b : Nat) :
    slot * (heads * t.headBytes) + start * t.headBytes + (h * t.headBytes + b) = t.addr heads slot (start + h) b := by
  unfold addr
  ring

theorem gathered_cell (slices : s.Slices d) {w i h b : Nat} (low : w < s.writers) (page : i < t.pages.length)
    (lt : token < t.pageSize) (few : h < (s.slice 0 d).numHeadsToSend) (byte : b < t.headBytes) (l : Nat) :
    t.gathered s data d (s.rank d w)
        (l * t.perLayerBytes (s.slice 0 d).numHeadsToSend + t.cell (s.slice 0 d).numHeadsToSend i token h b) =
      data l (t.pages[i].1 * t.pageSize + token)
        (s.prefillHead (s.rank d w) ((s.slice (s.rank d w) d).srcHeadStart + h)) b := by
  have below : t.cell (s.slice 0 d).numHeadsToSend i token h b < t.perLayerBytes (s.slice 0 d).numHeadsToSend :=
    lt_perLayerBytes.mpr ⟨i, page, token, lt, h, few, b, byte, rfl⟩
  have element := radix_lt few byte
  have read := slices.src_lt w low h (by rwa [slices.heads w low])
  simp only [gathered, gatherAllLayersToStaging, radix_div below, radix_mod below]
  simp only [cell, radix_div element, radix_mod element, poolToken_page Prod.fst page lt, cell_addr]
  exact prefillMem_addr read byte _ _

theorem sent_staged (slices : s.Slices d) {staging : Nat → UInt8}
    (held : ∀ w < s.writers, ∀ k < t.writerBytes s d, staging (w * t.writerBytes s d + k) = t.gathered s data d (s.rank d w) k)
    (buffer : l < 2 * t.numLayers) : t.Sent s data d l (t.scatterStagingToKv s staging d l) := by
  have stored (w i token h b : Nat) (low : w < s.writers) (page : i < t.pages.length) (lt : token < t.pageSize)
      (few : h < (s.slice 0 d).numHeadsToSend) (byte : b < t.headBytes) :
      staging (w * t.writerBytes s d + l * t.perLayerBytes (s.slice 0 d).numHeadsToSend + t.cell (s.slice 0 d).numHeadsToSend i token h b) =
      data l (t.pages[i].1 * t.pageSize + token)
        (s.prefillHead (s.rank d w) ((s.slice (s.rank d w) d).srcHeadStart + h)) b := by
    have below : t.cell (s.slice 0 d).numHeadsToSend i token h b < t.perLayerBytes (s.slice 0 d).numHeadsToSend :=
      lt_perLayerBytes.mpr ⟨i, page, token, lt, h, few, b, byte, rfl⟩
    rw [add_assoc, held w low _ (by rw [writerBytes, mul_comm _ (2 * _)]; exact radix_lt buffer below)]
    exact gathered_cell slices low page lt few byte l
  have place (w i token h b : Nat) (low : w < s.writers) (page : i < t.pages.length) (lt : token < t.pageSize)
      (few : h < (s.slice 0 d).numHeadsToSend) (byte : b < t.headBytes) :
      t.poolToken (t.pages.map Prod.snd) (t.cell (s.slice 0 d).numHeadsToSend i token h b /
          ((s.slice 0 d).numHeadsToSend * t.headBytes)) * (s.dstHeads * t.headBytes) +
        (s.slice w d).dstHeadStart * t.headBytes +
        t.cell (s.slice 0 d).numHeadsToSend i token h b % ((s.slice 0 d).numHeadsToSend * t.headBytes) =
      t.addr s.dstHeads (t.pages[i].2 * t.pageSize + token) ((s.slice (s.rank d w) d).dstHeadStart + h) b := by
    have element := radix_lt few byte
    rw [cell, radix_div element, radix_mod element, poolToken_page Prod.snd page lt, cell_addr, slices.numbered w low]
  intro a v
  unfold scatterStagingToKv
  simp only [mem_flatMap, mem_map, mem_range, Prod.mk.injEq]
  constructor
  · rintro ⟨w, low, _, inLayer, rfl, rfl⟩
    obtain ⟨i, page, token, lt, h, few, b, byte, rfl⟩ := lt_perLayerBytes.mp inLayer
    exact ⟨t.pages[i], getElem_mem page, token, lt, w, low, h, by rwa [slices.heads w low], b, byte,
      place w i token h b low page lt few byte, stored w i token h b low page lt few byte⟩
  · rintro ⟨_, listed, token, lt, w, low, h, few, b, byte, rfl, rfl⟩
    obtain ⟨i, page, rfl⟩ := getElem_of_mem listed
    rw [slices.heads w low] at few
    exact ⟨w, low, _, lt_perLayerBytes.mpr ⟨i, page, token, lt, h, few, b, byte, rfl⟩,
      place w i token h b low page lt few byte, stored w i token h b low page lt few byte⟩

theorem staged_of_owned (rank : d < s.decodeTp) (owned : s.Owned d) : t.StagedPath s data d := by
  have slices := TpSizes.slices rank
  rintro _ _ ⟨fits, room⟩
  refine ⟨t.stagedStores s data d, ?_, agree_stagedStores slices rank, ?_⟩
  · intro r asked
    have size := fits r asked
    obtain ⟨w, low, rfl⟩ := (mem_tpRanks rank r).mp asked
    exact sendStaged_eq slices rank low size room
  · intro _ _ launch
    apply delivers_of_sent slices owned
    intro l buffer
    apply sent_staged slices _ buffer
    intro w low k lt
    exact launch.read_agree (agree_stagedStores slices rank)
      ((mem_stagedStores slices rank _ _).mpr ⟨w, low, k, lt, rfl, rfl⟩)

/-! ### When every rank gets its heads -/

def oneToken : KvTransfer := ⟨[(0, 0)], 1, 1, 1, by decide, by decide⟩

def firstHeadApart : KvData := fun _ _ head _ => if head = 0 then 0 else 1

section
variable (few : s.prefillTp < s.totalKvHeads) (many : s.totalKvHeads < s.decodeTp)
include few many

theorem misplaced (sent : ∀ l < 2 * oneToken.numLayers, oneToken.Sent s firstHeadApart 1 l (stores l)) :
    ¬oneToken.Delivers s firstHeadApart 1 stores := by
  rintro ⟨agree, delivered⟩
  obtain ⟨_, rank, slice, head, owned⟩ := crossed_one few many
  have received := delivered (fun _ _ => 0) (fun l => storeAll (fun _ => 0) (stores l)) (fun l _ => launch_storeAll _ _) 0
    (by decide) (0, 0) mem_cons_self 0 (by decide) 0 dstHeads_pos 0 (by decide)
  have mem := (sent 0 (by decide) (oneToken.addr s.dstHeads (0 * oneToken.pageSize + 0) 0 0) 1).mpr
    ⟨(0, 0), mem_cons_self, 0, by decide, 0, by omega, 0, by rw [rank, slice]; decide, 0, by decide,
      by rw [rank, slice], by rw [rank, slice, head]; rfl⟩
  have written := (launch_storeAll (fun _ => 0) (stores 0)).read_agree (agree 0 (by decide)) mem
  rw [owned] at received
  exact absurd (written.symm.trans received) (by decide)

theorem not_slicePath : ¬oneToken.SlicePath s firstHeadApart 1 := by
  rintro ⟨copies, sends, delivers⟩
  have rank : 1 < s.decodeTp := lt_of_le_of_lt s.heads_pos many
  have slices := TpSizes.slices rank
  have same : ∀ r ∈ targetTpRanks s.prefillTp s.decodeTp 1, copies r = oneToken.tokenCopies s (s.slice r 1) := by
    intro r asked
    have send := sends r asked
    obtain ⟨w, low, rfl⟩ := (mem_tpRanks rank r).mp asked
    rw [sendSlice_eq slices low] at send
    exact (Option.some.inj send).symm
  refine misplaced few many (fun l _ => ?_) delivers
  have stores : oneToken.sliceStores s firstHeadApart copies 1 l =
      oneToken.sliceStores s firstHeadApart (fun r => oneToken.tokenCopies s (s.slice r 1)) 1 l :=
    flatMap_congr fun r asked => by rw [same r asked]
  rw [stores]
  exact sent_slices slices rank l

theorem not_stagedPath : ¬oneToken.StagedPath s firstHeadApart 1 := by
  intro path
  have rank : 1 < s.decodeTp := lt_of_le_of_lt s.heads_pos many
  have slices := TpSizes.slices rank
  obtain ⟨sent, sends, -, delivers⟩ := path
    (fun r => oneToken.perLayerBytes (s.slice (r % s.prefillTp) 1).numHeadsToSend * oneToken.numLayers * 2) _
    ⟨fun r _ => le_refl _, le_refl _⟩
  have stores : (targetTpRanks s.prefillTp s.decodeTp 1).flatMap sent =
      (targetTpRanks s.prefillTp s.decodeTp 1).flatMap (oneToken.stagedStores s firstHeadApart 1) := by
    apply flatMap_congr
    intro r asked
    have send := sends r asked
    obtain ⟨w, low, rfl⟩ := (mem_tpRanks rank r).mp asked
    rw [sendStaged_eq slices rank low (le_refl _) (le_refl _)] at send
    exact (Option.some.inj send).symm
  rw [stores] at delivers
  have launch := launch_storeAll (fun _ => 0)
    ((targetTpRanks s.prefillTp s.decodeTp 1).flatMap (oneToken.stagedStores s firstHeadApart 1))
  refine misplaced few many (fun l buffer => sent_staged slices ?_ buffer) (delivers _ _ launch)
  intro w low k lt
  exact launch.read_agree (agree_stagedStores slices rank)
    ((mem_stagedStores slices rank _ _).mpr ⟨w, low, k, lt, rfl, rfl⟩)

end

/-- Every decode rank gets its heads, by slices and staging, unless prefill ranks are fewer and decode ranks more than heads. -/
theorem transfer_right_iff (s : TpSizes) : ((∀ d < s.decodeTp, ∀ (t : KvTransfer) (data : KvData), t.SlicePath s data d) ↔
      s.decodeTp ≤ s.totalKvHeads ∨ s.totalKvHeads ≤ s.prefillTp) ∧
    ((∀ d < s.decodeTp, ∀ (t : KvTransfer) (data : KvData), t.StagedPath s data d) ↔ s.decodeTp ≤ s.totalKvHeads ∨ s.totalKvHeads ≤ s.prefillTp) := by
  refine ⟨⟨fun path => ?_, fun right d rank t data => ?_⟩, ⟨fun path => ?_, fun right d rank t data => ?_⟩⟩
  · by_contra wrong
    exact not_slicePath (by omega) (by omega) (path 1 (by have := s.heads_pos; omega) oneToken firstHeadApart)
  · exact slice_of_owned rank (owned_of_right right rank)
  · by_contra wrong
    exact not_stagedPath (by omega) (by omega) (path 1 (by have := s.heads_pos; omega) oneToken firstHeadApart)
  · exact staged_of_owned rank (owned_of_right right rank)

def fourHeads : TpSizes where
  totalKvHeads := 4
  prefillTp := 2
  decodeTp := 8
  heads_pos := by decide
  prefill_pos := by decide
  decode_pos := by decide
  differ := by decide
  nested := by decide
  prefill_shards := by decide
  decode_shards := by decide

/-- Decode rank 1 owns head 0 and is sent head 1 of prefill rank 0. -/
theorem rank_one_gets_head_one : targetTpRanks 2 8 1 = [0] ∧ fourHeads.decodeHead 1 0 = 0 ∧ fourHeads.prefillHead 0 1 = 1 ∧
      oneToken.sendKvcacheSlice fourHeads 0 1 = some [⟨1, 0, 1⟩] ∧
      ¬oneToken.SlicePath fourHeads firstHeadApart 1 ∧ ¬oneToken.StagedPath fourHeads firstHeadApart 1 :=
  ⟨by decide, by decide, by decide, by decide, not_slicePath (by decide) (by decide), not_stagedPath (by decide) (by decide)⟩

end KvTransfer

end TriaxialKV.Disagg
