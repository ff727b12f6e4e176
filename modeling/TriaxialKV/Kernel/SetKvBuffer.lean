import TriaxialKV.Kernel.RoundTrip

/-! # The write and read of a layer -/

namespace TriaxialKV
open List Tensor Stores Quantizer

variable {k m strideOh strideOn t D : Nat} {slots : List Nat}

/-! ### Head dimensions -/

theorem checkHeadDim_pow {minD : Nat} (low : minD ≤ 2 ^ k) (wide : 64 ≤ 2 ^ k) : checkHeadDim (2 ^ k) minD = .ok () := by
  have big : 5 ≤ k := by
    by_contra small
    have := Nat.pow_le_pow_right (show 0 < 2 by omega) (show k ≤ 4 by omega)
    omega
  obtain ⟨j, rfl⟩ := Nat.exists_eq_add_of_le big
  have groups : 2 ^ (5 + j) % 32 = 0 := by
    rw [Nat.pow_add]
    omega
  have single : 2 ^ (5 + j) &&& (2 ^ (5 + j) - 1) = 0 := by
    rw [Nat.and_two_pow_sub_one_eq_mod, Nat.mod_self]
  unfold checkHeadDim
  rw [if_pos ⟨groups, single, low⟩]

theorem groups_of_pow (wide : 64 ≤ 2 ^ k) : ∃ NG, 2 ^ k = NG * 32 := by
  refine ⟨2 ^ k / 32, ?_⟩
  have accepted := checkHeadDim_pow (show 32 ≤ 2 ^ k by omega) wide
  unfold checkHeadDim at accepted
  split at accepted
  · next _ => omega
  · cases accepted

/-! ### The slots of a batch -/

namespace TriaxialKVPool
variable {pool : TriaxialKVPool} {loc : List Nat} {g : Grouping} {s : Nat}

def WholePages (pool : TriaxialKVPool) (loc : List Nat) : Prop := ∀ s ∈ loc, 32 ≤ s → s < pool.offset → ∀ j < 32, s / 32 * 32 + j ∈ loc

theorem grouping_of_wholePages (nodup : loc.Nodup) (whole : pool.WholePages loc) :
    ∃ g, pool.grouping loc = .ok g ∧ pool.Groups loc g ∧ g.pages.Nodup ∧
      ∀ page, page ∈ g.pages ↔ ∃ s ∈ loc, 32 ≤ s ∧ s < pool.offset ∧ s / 32 = page := by
  let pages := ((pool.int2Slots loc).map (fun s => s / 32)).dedup
  have listed : ∀ page, page ∈ pages ↔ ∃ s ∈ loc, 32 ≤ s ∧ s < pool.offset ∧ s / 32 = page := by
    intro page
    simp [pages, int2Slots, and_assoc]
  have distinct : pages.Nodup := nodup_dedup _
  have slots : (pool.int2Slots loc).Perm (pages.flatMap pageSlots) := by
    apply (perm_ext_iff_of_nodup (nodup.filter _) (nodup_flatSlots.mpr distinct)).mpr
    intro s
    rw [mem_flatSlots, listed, mem_filter, decide_eq_true_eq]
    constructor
    · intro found
      obtain ⟨mem, low, high⟩ := found
      exact ⟨s, mem, low, high, rfl⟩
    · intro paged
      obtain ⟨s', mem, low, high, same⟩ := paged
      have here := whole s' mem low high (s % 32) (by omega)
      rw [same, show s / 32 * 32 + s % 32 = s by omega] at here
      rw [offset] at high ⊢
      exact ⟨here, by omega, by omega⟩
  obtain ⟨g, grouped, groups, sorted⟩ := pool.grouping_whole distinct slots
  have order := perm_insertionSort (· ≤ ·) pages
  rw [← sorted] at order
  refine ⟨g, grouped, groups, order.nodup_iff.mpr distinct, ?_⟩
  intro page
  rw [order.mem_iff, listed]

theorem getElem_idxOf (mem : s ∈ loc) : loc.idxOf s < loc.length ∧ loc[loc.idxOf s]! = s := by
  have lt := idxOf_lt_length_of_mem mem
  rw [getElem!_pos loc _ lt]
  exact ⟨lt, List.getElem_idxOf lt⟩

theorem idxOf_of_getElem (nodup : loc.Nodup) (lt : t < loc.length) (here : loc[t]! = s) : loc.idxOf s = t := by
  rw [getElem!_pos loc t lt] at here
  rw [← here]
  exact nodup.idxOf_getElem t lt

theorem nodup_rows4 (nodup : loc.Nodup) (groups : pool.Groups loc g) : g.rows4.Nodup := by
  rw [groups.rows4]
  refine List.Nodup.map_on ?_ (groups.idx4 ▸ nodup_nonzero _)
  intro i left j right _
  rw [groups.idx4, mem_nonzero_map, decide_eq_true_eq] at left right
  have eq : loc[i]! = loc[j]! := by omega
  rw [← idxOf_of_getElem nodup left.1 rfl, ← idxOf_of_getElem nodup right.1 rfl, eq]

theorem nodup_slots2 (nodup : loc.Nodup) (groups : pool.Groups loc g) : g.slots2.Nodup := by
  rw [groups.slots2]
  refine List.Nodup.map_on ?_ (groups.idx2 ▸ nodup_nonzero _)
  intro i left j right same
  rw [groups.idx2, mem_nonzero_map] at left right
  rw [← idxOf_of_getElem nodup left.1 rfl, ← idxOf_of_getElem nodup right.1 rfl, same]

theorem exists_entry {α : Type} [Inhabited α] {idx : List Nat} (f : Nat → α) (mem : t ∈ idx) :
    ∃ i < (idx.map f).length, (idx.map f)[i]! = f t ∧ idx[i]! = t := by
  obtain ⟨i, lt, here⟩ := getElem_of_mem mem
  have bound : i < (idx.map f).length := by rwa [length_map]
  refine ⟨i, bound, ?_, ?_⟩
  · rw [getElem!_pos _ i bound, getElem_map, here]
  · rw [getElem!_pos idx i lt, here]

theorem row_of_listed {idx : List Nat} {p : Nat → Prop} [DecidablePred p] (rows : idx = nonzero (loc.map (fun s => decide (p s)))) (mem : s ∈ loc)
    (holds : p s) (f : Nat → Nat) : ∃ i < (idx.map (fun i => f loc[i]!)).length, (idx.map (fun i => f loc[i]!))[i]! = f s ∧
      idx[i]! = loc.idxOf s := by
  obtain ⟨lt, here⟩ := getElem_idxOf mem
  have listed : loc.idxOf s ∈ idx := by
    rw [rows, mem_nonzero_map, decide_eq_true_eq, here]
    exact ⟨lt, holds⟩
  have entry := exists_entry (fun i => f loc[i]!) listed
  rwa [here] at entry

theorem row_of_int4 (groups : pool.Groups loc g) (mem : s ∈ loc) (high : pool.offset ≤ s) :
    ∃ i < g.rows4.length, g.rows4[i]! = s - pool.offset ∧ g.idx4[i]! = loc.idxOf s := by
  rw [groups.rows4]
  exact row_of_listed groups.idx4 mem high (· - pool.offset)

theorem row_of_int2 (groups : pool.Groups loc g) (mem : s ∈ loc) (low : 32 ≤ s) (high : s < pool.offset) :
    ∃ i < g.slots2.length, g.slots2[i]! = s ∧ g.idx2[i]! = loc.idxOf s := by
  rw [groups.slots2]
  exact row_of_listed groups.idx2 mem ⟨low, high⟩ id

theorem page_of_int2 (nodup : loc.Nodup) (groups : pool.Groups loc g) {page : Nat} (mem : page ∈ g.pages) :
    ∃ p < g.pages.length, g.pages[p]! = page ∧ ∀ j < 32, (g.tokRows[p]!)[j]! = loc.idxOf (32 * page + j) := by
  obtain ⟨p, lt, here⟩ := getElem_of_mem mem
  rw [← getElem!_pos g.pages p lt] at here
  refine ⟨p, lt, here, ?_⟩
  intro j col
  obtain ⟨bound, slot⟩ := groups.tokens p lt j col
  rw [here] at slot
  exact (idxOf_of_getElem nodup bound slot).symm

theorem rows4_slot (groups : pool.Groups loc g) {r : Nat} (mem : r ∈ g.rows4) : r + pool.offset ∈ loc := by
  rw [groups.rows4, mem_map] at mem
  obtain ⟨i, listed, rfl⟩ := mem
  rw [groups.idx4, mem_nonzero_map, decide_eq_true_eq] at listed
  rw [Nat.sub_add_cancel listed.2, getElem!_pos loc i listed.1]
  exact getElem_mem listed.1

theorem slots2_slot (groups : pool.Groups loc g) (mem : s ∈ g.slots2) : s ∈ loc ∧ 32 ≤ s := by
  rw [groups.slots2, mem_map] at mem
  obtain ⟨i, listed, rfl⟩ := mem
  rw [groups.idx2, mem_nonzero_map, decide_eq_true_eq] at listed
  obtain ⟨lt, low, _⟩ := listed
  rw [getElem!_pos loc i lt] at low ⊢
  exact ⟨getElem_mem lt, low⟩

end TriaxialKVPool

/-! ### Rows of the batch -/

section
variable {X : Type} (x : Nat → X) (idx : List Nat) {H NG i h d : Nat}

theorem elem_gatherRows (head : h < H) (channel : d < D) : elem (gatherRows x idx (H * D)) H D i h d = elem x H D idx[i]! h d := by
  have inner := radix_lt head channel
  have pos : 0 < H * D := by omega
  have quotient : (i * (H * D) + h * D + d) / (H * D) = i := by
    rw [add_assoc, mul_comm, Nat.mul_add_div pos, Nat.div_eq_of_lt inner, add_zero]
  have remainder : (i * (H * D) + h * D + d) % (H * D) = h * D + d := by
    rw [add_assoc, mul_comm, Nat.mul_add_mod, Nat.mod_eq_of_lt inner]
  unfold elem gatherRows
  rw [quotient, remainder, add_assoc]

theorem tokenGroup_gather (head : h < H) (channel : d < NG * 32) :
    tokenGroup (gatherRows x idx (H * (NG * 32))) H (NG * 32) i h d = tokenGroup x H (NG * 32) idx[i]! h d := by
  unfold tokenGroup
  apply map_congr_left
  intro k mem
  rw [mem_range] at mem
  exact elem_gatherRows x idx head (by omega)

end

/-! ### The stores of `set_kv_buffer` -/

section
variable {X M F O : Type} [Inhabited X] (qz : Quantizer X M F O) (H NG : Nat)

def groupedStores (g : Grouping) (cacheK cacheV : Nat → X) : LayerStores M :=
  let D := NG * 32
  { k2 := qz.quantInt2KPagesKernel cacheK g.tokRows g.pages (H * D) D H D
    v2 := qz.quantInt2VTokensKernel (gatherRows cacheV g.idx2 (H * D)) g.slots2 (H * D) D H D NG
    k4 := qz.quantInt4TokensKernel (gatherRows cacheK g.idx4 (H * D)) g.rows4 (H * D) D H D NG
    v4 := qz.quantInt4TokensKernel (gatherRows cacheV g.idx4 (H * D)) g.rows4 (H * D) D H D NG }

theorem setGrouped_eq (accepted : checkHeadDim (NG * 32) 32 = .ok ()) {g : Grouping}
    (paged : g.slots2 = [] → g.pages = []) (cacheK cacheV : Nat → X) :
    TriaxialKVPool.setKvBufferGrouped qz H (NG * 32) g cacheK cacheV = .ok (groupedStores qz H NG g cacheK cacheV) := by
  have blocks : NG * 32 / 32 = NG := by omega
  have int4 : ∀ x, qz.quantInt4Tokens x g.rows4 H (NG * 32) = .ok (qz.quantInt4TokensKernel x g.rows4 (H * (NG * 32)) (NG * 32) H (NG * 32) NG) := by
    intro x
    unfold quantInt4Tokens
    split
    · next empty =>
      rw [eq_nil_of_length_eq_zero empty]
      rfl
    · rw [accepted, blocks]
      rfl
  have int2V : ∀ x, qz.quantInt2VTokens x g.slots2 H (NG * 32) =
      .ok (qz.quantInt2VTokensKernel x g.slots2 (H * (NG * 32)) (NG * 32) H (NG * 32) NG) := by
    intro x
    unfold quantInt2VTokens
    split
    · next empty =>
      rw [eq_nil_of_length_eq_zero empty]
      rfl
    · rw [accepted, blocks]
      rfl
  have int2K : qz.quantInt2KPages cacheK g.tokRows g.pages H (NG * 32) =
      .ok (qz.quantInt2KPagesKernel cacheK g.tokRows g.pages (H * (NG * 32)) (NG * 32) H (NG * 32)) := by
    unfold quantInt2KPages
    split
    · next empty =>
      rw [eq_nil_of_length_eq_zero empty]
      rfl
    · rw [accepted]
      rfl
  unfold TriaxialKVPool.setKvBufferGrouped groupedStores
  simp only [int4, int2V, int2K]
  by_cases some4 : g.rows4.length > 0 <;> by_cases some2 : g.slots2.length > 0
  · simp only [some4, some2, if_true]
    rfl
  · have none2 := eq_nil_of_length_eq_zero (Nat.eq_zero_of_not_pos some2)
    simp only [some4, if_true, none2, paged none2]
    rfl
  · have none4 := eq_nil_of_length_eq_zero (Nat.eq_zero_of_not_pos some4)
    simp only [some2, if_true, none4]
    rfl
  · have none2 := eq_nil_of_length_eq_zero (Nat.eq_zero_of_not_pos some2)
    have none4 := eq_nil_of_length_eq_zero (Nat.eq_zero_of_not_pos some4)
    simp only [none2, none4, paged none2]
    rfl

end

theorem TriaxialKVPool.setKvBuffer_ok {X M F O : Type} [Inhabited X] (qz : Quantizer X M F O) {pool : TriaxialKVPool}
    {H : Nat} {heap : Nat → List Nat} {cache : Option (Nat × Grouping)} {loc : Nat} {g : Grouping} {cacheK cacheV : Nat → X}
    (call : (pool.groupingCall heap cache loc).1 = .ok g) :
    (pool.setKvBuffer qz H D heap cache loc cacheK cacheV).1 = setKvBufferGrouped qz H D g cacheK cacheV := by
  have paired : pool.groupingCall heap cache loc = (.ok g, (pool.groupingCall heap cache loc).2) := Prod.ext call rfl
  unfold setKvBuffer
  rw [paired]

/-! ### The stores of `dequant_gather` -/

/-- The entries of an output tensor of shape (m, H, D) lie at distinct addresses. -/
def OutLayout (m H D strideOn strideOh : Nat) : Prop :=
  ∀ n < m, ∀ n' < m, ∀ h < H, ∀ h' < H, ∀ d < D, ∀ d' < D,
    n * strideOn + h * strideOh + d = n' * strideOn + h' * strideOh + d' → n = n' ∧ h = h' ∧ d = d'

theorem outLayout_contiguous (m H D : Nat) : OutLayout m H D (H * D) D := by
  intro n _ _ _ h head _ head' d channel _ channel' same
  rw [add_assoc, add_assoc] at same
  obtain ⟨sameN, rest⟩ := radix_inj (radix_lt head channel) (radix_lt head' channel') same
  obtain ⟨sameH, sameD⟩ := radix_inj channel channel' rest
  exact ⟨sameN, sameH, sameD⟩

def laneStores {O : Type} (m H D strideOn strideOh : Nat) (v : Nat → Nat → Nat → Nat → Nat → O) : List (Nat × O) :=
  ((range ((m + 31) / 32) ×ˢ range H ×ˢ range 32 ×ˢ range (D / 4) ×ˢ range 4).filter
    (fun (pid, _, n, _, _) => decide (pid * 32 + n < m))).map
    (fun (pid, h, n, b, c) => ((pid * 32 + n) * strideOn + h * strideOh + 4 * b + c, v pid h n b c))

theorem nodup_laneStores {O : Type} {H : Nat} (layout : OutLayout m H D strideOn strideOh)
    (v : Nat → Nat → Nat → Nat → Nat → O) : ((laneStores m H D strideOn strideOh v).map Prod.fst).Nodup := by
  have lanes : (range ((m + 31) / 32) ×ˢ range H ×ˢ range 32 ×ˢ range (D / 4) ×ˢ range 4).Nodup :=
    nodup_range.product (nodup_range.product (nodup_range.product
      (nodup_range.product nodup_range)))
  unfold laneStores
  rw [map_map]
  refine List.Nodup.map_on ?_ (lanes.filter _)
  intro ⟨pid, h, n, b, c⟩ left ⟨pid', h', n', b', c'⟩ right same
  simp only [mem_filter, mem_product, mem_range, decide_eq_true_eq] at left right
  simp only [Function.comp_apply] at same
  obtain ⟨_, rfl, _⟩ := layout (pid * 32 + n) left.2 (pid' * 32 + n') right.2 h left.1.2.1 h' right.1.2.1
    (4 * b + c) (by omega) (4 * b' + c') (by omega) (by omega)
  have : pid = pid' := by omega
  have : b = b' := by omega
  subst_vars
  simp only [Prod.mk.injEq, true_and]
  omega

theorem laneStores_read {O : Type} {H : Nat} (layout : OutLayout m H D strideOn strideOh)
    {v : Nat → Nat → Nat → Nat → Nat → O} {out out' : Nat → O} (launched : Launch out (laneStores m H D strideOn strideOh v) out')
    {n h d : Nat} (lt : n < m) (head : h < H) (channel : d < D / 4 * 4) :
    out' (n * strideOn + h * strideOh + d) = v (n / 32) h (n % 32) (d / 4) (d % 4) := by
  refine launched.read (nodup_laneStores layout v) (mem_map.mpr ⟨(n / 32, h, n % 32, d / 4, d % 4), ?_, ?_⟩)
  · simp only [mem_filter, mem_product, mem_range, decide_eq_true_eq]
    omega
  · have lane : n / 32 * 32 + n % 32 = n := by omega
    simp only [lane, Prod.mk.injEq, and_true]
    omega

/-! ### What is read back -/

section
variable {X M F O : Type} [Inhabited X] (qz : Quantizer X M F O) (pool : TriaxialKVPool) (H D : Nat) (loc : List Nat)

def pageTokens (loc : List Nat) (page : Nat) : List Nat := (pageSlots page).map loc.idxOf

/-- The key of slot `s` after quantization. INT4 groups 32 channels, INT2 the tokens of a page. -/
def storedK (cacheK : Nat → X) (s h d : Nat) : F :=
  let t := loc.idxOf s
  if pool.offset ≤ s then qz.dequantized (elem cacheK H D t h d) (tokenGroup cacheK H D t h d) 15
  else qz.dequantized (elem cacheK H D t h d) (pageGroup cacheK H D (pageTokens loc (s / 32)) h d) 3

def storedV (cacheV : Nat → X) (s h d : Nat) : F :=
  let t := loc.idxOf s
  qz.dequantized (elem cacheV H D t h d) (tokenGroup cacheV H D t h d) (if pool.offset ≤ s then 15 else 3)

/-- `dequant_gather` of `slots` from the buffers `kv` returns the quantized batch. -/
def ReadsBack (cacheK cacheV : Nat → X) (kv : LayerKV M) (slots : List Nat) : Prop :=
  ∀ strideOn strideOh, OutLayout slots.length H D strideOn strideOh → ∃ outs, qz.dequantGather slots kv pool.offset H D strideOn strideOh = .ok outs ∧
      ∀ outK outK' outV outV', Launch outK outs.1 outK' → Launch outV outs.2 outV' → ∀ n < slots.length, ∀ h < H, ∀ d < D,
          outK' (n * strideOn + h * strideOh + d) = qz.cast (storedK qz pool H D loc cacheK slots[n]! h d) ∧
          outV' (n * strideOn + h * strideOh + d) = qz.cast (storedV qz pool H D loc cacheV slots[n]! h d)

/-- Row `r` of a buffer with rows of `width` entries keeps its entries. -/
def Keeps {α : Type} (mem mem' : Nat → α) (width r : Nat) : Prop := ∀ a, r * width ≤ a → a < (r + 1) * width → mem' a = mem a

/-- Slots and pages outside `loc`, and page 0 in any case, keep their bytes, scales and minima. -/
structure Untouched (kv kv' : LayerKV M) : Prop where
  int4 : ∀ s, pool.offset ≤ s → s ∉ loc →
    Keeps kv.k4Data kv'.k4Data (H * (D / 2)) (s - pool.offset) ∧ Keeps kv.k4Meta kv'.k4Meta (H * (D / 32 * 2)) (s - pool.offset) ∧
    Keeps kv.v4Data kv'.v4Data (H * (D / 2)) (s - pool.offset) ∧ Keeps kv.v4Meta kv'.v4Meta (H * (D / 32 * 2)) (s - pool.offset)
  int2V : ∀ s, s < 32 ∨ s ∉ loc → Keeps kv.v2Data kv'.v2Data (H * (D / 4)) s ∧ Keeps kv.v2Meta kv'.v2Meta (H * (D / 32 * 2)) s
  int2K : ∀ page, (∀ s ∈ loc, 32 ≤ s → s < pool.offset → s / 32 ≠ page) →
    Keeps kv.k2Data kv'.k2Data (H * (D * 8)) page ∧ Keeps kv.k2Meta kv'.k2Meta (H * (D * 2)) page

end

section
variable {X M F O : Type} [Inhabited X] {qz : Quantizer X M F O} {pool : TriaxialKVPool} {H NG : Nat} {loc : List Nat}
  {g : Grouping} {cacheK cacheV : Nat → X} {kv kv' : LayerKV M}

theorem untouched_of_launched (groups : pool.Groups loc g) (listed : ∀ page, page ∈ g.pages ↔ ∃ s ∈ loc, 32 ≤ s ∧ s < pool.offset ∧ s / 32 = page)
    (launched : (groupedStores qz H NG g cacheK cacheV).Launched kv kv') : Untouched pool H (NG * 32) loc kv kv' := by
  have nibble : NG * 32 / 2 = NG * 16 := by omega
  have crumb : NG * 32 / 4 = NG * 8 := by omega
  have block : NG * 32 / 32 = NG := by omega
  obtain ⟨k2D, k2M, v2D, v2M, k4D, k4M, v4D, v4M⟩ := launched
  simp only [groupedStores, int4_stores, int2V_stores, int2K_stores] at k2D k2M v2D v2M k4D k4M v4D v4M
  refine ⟨?_, ?_, ?_⟩
  · intro s high absent
    have free : s - pool.offset ∉ g.rows4 := by
      intro mem
      have := TriaxialKVPool.rows4_slot groups mem
      rw [Nat.sub_add_cancel high] at this
      exact absent this
    rw [nibble, block]
    exact ⟨fun _ low high => k4D.frame_block free low high, fun _ low high => k4M.frame_block free low high,
      fun _ low high => v4D.frame_block free low high, fun _ low high => v4M.frame_block free low high⟩
  · intro s away
    have free : s ∉ g.slots2 := by
      intro mem
      obtain ⟨here, low⟩ := TriaxialKVPool.slots2_slot groups mem
      rcases away with _ | absent
      · omega
      · exact absent here
    rw [crumb, block]
    exact ⟨fun _ low high => v2D.frame_block free low high, fun _ low high => v2M.frame_block free low high⟩
  · intro page away
    have free : page ∉ g.pages := by
      intro mem
      obtain ⟨s, here, low, high, same⟩ := (listed page).mp mem
      exact away s here low high same
    exact ⟨fun _ low high => k2D.frame_block free low high, fun _ low high => k2M.frame_block free low high⟩

variable {lanes : Nat → Nat} {mask : Nat → Bool} {s h n b c : Nat}

theorem tile4_stored {x : Nat → X} {data data' : Nat → Nat} {scales scales' : Nat → M} (nodup : loc.Nodup)
    (groups : pool.Groups loc g) (mem : s ∈ loc) (high : pool.offset ≤ s)
    (launchedD : Launch data (qz.quantInt4TokensKernel (gatherRows x g.idx4 (H * (NG * 32))) g.rows4 (H * (NG * 32)) (NG * 32)
      H (NG * 32) NG).data data')
    (launchedS : Launch scales (qz.quantInt4TokensKernel (gatherRows x g.idx4 (H * (NG * 32))) g.rows4 (H * (NG * 32)) (NG * 32)
      H (NG * 32) NG).scales scales')
    (here : lanes n = s) (unmasked : mask n = true) (head : h < H) (byte : b < NG * 8) (sub : c < 4) :
    qz.tile4 data' scales' lanes pool.offset h H mask (NG * 32) NG c b n =
      qz.dequantized (elem x H (NG * 32) (loc.idxOf s) h (4 * b + c)) (tokenGroup x H (NG * 32) (loc.idxOf s) h (4 * b + c)) 15 := by
  obtain ⟨i, row, same, token⟩ := TriaxialKVPool.row_of_int4 groups mem high
  have channel : 4 * b + c < NG * 32 := by omega
  have place : lanes n - pool.offset = g.rows4[i]! := by rw [here, same]
  have read := qz.tile4_read (TriaxialKVPool.nodup_rows4 nodup groups) launchedD launchedS unmasked row place head byte sub
  rwa [elem_gatherRows x g.idx4 head channel, tokenGroup_gather x g.idx4 head channel, token] at read

theorem v2Tiles_stored (nodup : loc.Nodup) (groups : pool.Groups loc g)
    (launched : (groupedStores qz H NG g cacheK cacheV).Launched kv kv') (mem : s ∈ loc) (low : 32 ≤ s)
    (high : s < pool.offset) (here : lanes n = s) (unmasked : mask n = true) (head : h < H) (byte : b < NG * 8) (sub : c < 4) :
    qz.v2Tiles kv'.v2Data kv'.v2Meta lanes h H mask (NG * 32) NG c b n = qz.dequantized (elem cacheV H (NG * 32) (loc.idxOf s) h (4 * b + c))
        (tokenGroup cacheV H (NG * 32) (loc.idxOf s) h (4 * b + c)) 3 := by
  obtain ⟨i, row, same, token⟩ := TriaxialKVPool.row_of_int2 groups mem low high
  have channel : 4 * b + c < NG * 32 := by omega
  have place : lanes n = g.slots2[i]! := by rw [here, same]
  have read := qz.v2Tiles_read (TriaxialKVPool.nodup_slots2 nodup groups) launched.v2Data launched.v2Meta unmasked row place
    head byte sub
  rwa [elem_gatherRows cacheV g.idx2 head channel, tokenGroup_gather cacheV g.idx2 head channel, token] at read

theorem k2Tiles_stored (nodup : loc.Nodup) (groups : pool.Groups loc g) (distinct : g.pages.Nodup) (page : s / 32 ∈ g.pages)
    (launched : (groupedStores qz H NG g cacheK cacheV).Launched kv kv') (lane : n < 32) (here : lanes n = s)
    (unmasked : mask n = true) (head : h < H) (channel : 4 * b + c < NG * 32) :
    qz.k2Tiles kv'.k2Data kv'.k2Meta lanes h H mask (NG * 32) c b n = qz.dequantized (elem cacheK H (NG * 32) (loc.idxOf s) h (4 * b + c))
        (pageGroup cacheK H (NG * 32) (pageTokens loc (s / 32)) h (4 * b + c)) 3 := by
  obtain ⟨p, lt, same, tokens⟩ := TriaxialKVPool.page_of_int2 nodup groups page
  have place : lanes n / 32 = g.pages[p]! := by rw [here, same]
  have read := qz.k2Tiles_read distinct launched.k2Data launched.k2Meta lane unmasked lt place head channel
  have token := tokens (s % 32) (by omega)
  rw [Nat.div_add_mod] at token
  have group : pageGroup cacheK H (NG * 32) g.tokRows[p]! h (4 * b + c) = pageGroup cacheK H (NG * 32) (pageTokens loc (s / 32)) h (4 * b + c) := by
    unfold pageGroup
    apply map_congr_left
    intro j mem
    rw [mem_range] at mem
    rw [tokens j mem, getElem!_pos (pageTokens loc (s / 32)) j (by simpa [pageTokens, pageSlots] using mem)]
    simp [pageTokens, pageSlots, mul_comm]
  rwa [here, token, group] at read

def blockLoc (slots : List Nat) (pid n : Nat) : Nat :=
  if decide (pid * 32 + n < slots.length) then slots[pid * 32 + n]! else 0

def blockMask (slots : List Nat) (pid : Nat) (kept : Nat → Bool) (n : Nat) : Bool :=
  decide (pid * 32 + n < slots.length) && kept (blockLoc slots pid n)

omit [Inhabited X] in
theorem dequantGatherKernel_eq (slots : List Nat) (offset D strideOn strideOh : Nat) :
    qz.dequantGatherKernel slots kv offset H strideOn strideOh D NG =
      let mask2 pid := blockMask slots pid (fun s => decide (s < offset))
      let mask4 pid := blockMask slots pid (fun s => !decide (s < offset))
      (laneStores slots.length H D strideOn strideOh (fun pid h n b c => qz.cast (if decide (blockLoc slots pid n < offset) then
          qz.k2Tiles kv.k2Data kv.k2Meta (blockLoc slots pid) h H (mask2 pid) D c b n
        else qz.tile4 kv.k4Data kv.k4Meta (blockLoc slots pid) offset h H (mask4 pid) D NG c b n)),
      laneStores slots.length H D strideOn strideOh (fun pid h n b c => qz.cast (if decide (blockLoc slots pid n < offset) then
          qz.v2Tiles kv.v2Data kv.v2Meta (blockLoc slots pid) h H (mask2 pid) D NG c b n
        else qz.tile4 kv.v4Data kv.v4Meta (blockLoc slots pid) offset h H (mask4 pid) D NG c b n))) := rfl

theorem blockLoc_here (lt : n < slots.length) : blockLoc slots (n / 32) (n % 32) = slots[n]! := by
  have position : n / 32 * 32 + n % 32 = n := by omega
  unfold blockLoc
  rw [position, decide_eq_true lt, if_pos rfl]

theorem blockMask_here {kept : Nat → Bool} (lt : n < slots.length) (holds : kept slots[n]! = true) :
    blockMask slots (n / 32) kept (n % 32) = true := by
  have position : n / 32 * 32 + n % 32 = n := by omega
  unfold blockMask
  rw [blockLoc_here lt, position, decide_eq_true lt, holds]
  rfl

theorem readsBack_of_launched (accepted : checkHeadDim (NG * 32) 64 = .ok ()) (nodup : loc.Nodup) (groups : pool.Groups loc g)
    (distinct : g.pages.Nodup)
    (listed : ∀ page, page ∈ g.pages ↔ ∃ s ∈ loc, 32 ≤ s ∧ s < pool.offset ∧ s / 32 = page)
    (launched : (groupedStores qz H NG g cacheK cacheV).Launched kv kv')
    (taken : ∀ s ∈ slots, s ∈ loc ∧ 32 ≤ s) : ReadsBack qz pool H (NG * 32) loc cacheK cacheV kv' slots := by
  intro _ _ layout
  unfold dequantGather
  split
  · next _ =>
    refine ⟨_, rfl, ?_⟩
    intro _ _ _ _ _ _ n lt
    omega
  · rw [accepted, show NG * 32 / 32 = NG by omega]
    refine ⟨_, rfl, ?_⟩
    intro _ _ _ _ launchK launchV n lt h head d _
    have width : d < NG * 32 / 4 * 4 := by omega
    have whole : 4 * (d / 4) + d % 4 = d := by omega
    obtain ⟨mem, low⟩ := taken slots[n]! (by rw [getElem!_pos slots n lt]; exact getElem_mem lt)
    rw [dequantGatherKernel_eq] at launchK launchV
    dsimp only at launchK launchV
    rw [laneStores_read layout launchK lt head width, laneStores_read layout launchV lt head width]
    have here := blockLoc_here lt
    unfold storedK storedV
    rw [here]
    by_cases high : pool.offset ≤ slots[n]!
    · have unmasked : blockMask slots (n / 32) (fun s => !decide (s < pool.offset)) (n % 32) = true :=
        blockMask_here lt (by simpa using high)
      have key := tile4_stored nodup groups mem high launched.k4Data launched.k4Meta here unmasked head
        (show d / 4 < NG * 8 by omega) (show d % 4 < 4 by omega)
      have value := tile4_stored nodup groups mem high launched.v4Data launched.v4Meta here unmasked head
        (show d / 4 < NG * 8 by omega) (show d % 4 < 4 by omega)
      rw [whole] at key value
      simp only [if_pos high, decide_eq_false (Nat.not_lt.mpr high), key, value]
      exact ⟨rfl, rfl⟩
    · have paged := Nat.lt_of_not_le high
      have page := (listed (slots[n]! / 32)).mpr ⟨slots[n]!, mem, low, paged, rfl⟩
      have unmasked : blockMask slots (n / 32) (fun s => decide (s < pool.offset)) (n % 32) = true := blockMask_here lt (by simpa using paged)
      have key := k2Tiles_stored nodup groups distinct page launched (show n % 32 < 32 by omega) here unmasked head
        (show 4 * (d / 4) + d % 4 < NG * 32 by omega)
      have value := v2Tiles_stored nodup groups launched mem low paged here unmasked head
        (show d / 4 < NG * 8 by omega) (show d % 4 < 4 by omega)
      rw [whole] at key value
      simp only [if_neg high, decide_eq_true paged, key, value]
      exact ⟨rfl, rfl⟩

/-- Every slot of the batch outside page 0 reads back as its quantized value, and the rest of the layer is untouched. -/
theorem setKvBuffer_readsBack (qz : Quantizer X M F O) (pool : TriaxialKVPool) (H : Nat) {k : Nat} (wide : 64 ≤ 2 ^ k)
    {heap : Nat → List Nat} {cache : Option (Nat × Grouping)} (coherent : pool.Coherent heap cache) (loc : Nat)
    (nodup : (heap loc).Nodup) (whole : pool.WholePages (heap loc)) (cacheK cacheV : Nat → X) :
    ∃ writes, (pool.setKvBuffer qz H (2 ^ k) heap cache loc cacheK cacheV).1 = .ok writes ∧
      ∀ kv kv', writes.Launched kv kv' → Untouched pool H (2 ^ k) (heap loc) kv kv' ∧
        ∀ slots : List Nat, (∀ s ∈ slots, s ∈ heap loc ∧ 32 ≤ s) → ReadsBack qz pool H (2 ^ k) (heap loc) cacheK cacheV kv' slots := by
  have writable := checkHeadDim_pow (show 32 ≤ 2 ^ k by omega) wide
  have readable := checkHeadDim_pow wide wide
  obtain ⟨NG, width⟩ := groups_of_pow wide
  rw [width] at writable readable ⊢
  obtain ⟨g, grouped, groups, distinct, listed⟩ := TriaxialKVPool.grouping_of_wholePages nodup whole
  have paged : g.slots2 = [] → g.pages = [] := by
    intro empty
    apply eq_nil_iff_forall_not_mem.mpr
    intro page member
    obtain ⟨s, here, low, high, _⟩ := (listed page).mp member
    obtain ⟨i, inside, _⟩ := TriaxialKVPool.row_of_int2 groups here low high
    rw [empty] at inside
    cases inside
  have call := (TriaxialKVPool.groupingCall_spec coherent loc).1
  rw [grouped] at call
  refine ⟨groupedStores qz H NG g cacheK cacheV, ?_, ?_⟩
  · rw [TriaxialKVPool.setKvBuffer_ok qz call]
    exact setGrouped_eq qz H NG writable paged cacheK cacheV
  · intro kv kv' launched
    refine ⟨untouched_of_launched groups listed launched, ?_⟩
    intro slots taken
    exact readsBack_of_launched readable nodup groups distinct listed launched taken

end

namespace SetKvBufferExample

def quantizer : Quantizer Int Int Int Int where
  maximum := max
  minimum := min
  scaleMin _ mn _ := (1, mn)
  roundDiv x _ mn := x - mn
  zero := 0
  mulAdd level sc mn := level * sc + mn
  cast x := x
  maximum_comm := ⟨Int.max_comm⟩
  maximum_assoc := ⟨Int.max_assoc⟩
  minimum_comm := ⟨Int.min_comm⟩
  minimum_assoc := ⟨Int.min_assoc⟩

def pool : TriaxialKVPool := ⟨2, 8⟩

def zeros : LayerKV Int := ⟨fun _ => 0, fun _ => 0, fun _ => 0, fun _ => 0, fun _ => 0, fun _ => 0, fun _ => 0, fun _ => 0⟩

def mixed : List Nat := 97 :: (range 32).map (fun j => 63 - j)

theorem setKvBuffer_readsBack_mixed :
    ∃ writes, (pool.setKvBuffer quantizer 2 64 (fun _ => mixed) none 0 (fun a => a % 11) (fun a => a % 7)).1 = .ok writes ∧
      ∀ kv', writes.Launched zeros kv' → ReadsBack quantizer pool 2 64 mixed (fun a => a % 11) (fun a => a % 7) kv' [40, 97, 63, 40] := by
  have coherent : pool.Coherent (fun _ => mixed) none := by
    exact nofun
  have whole : pool.WholePages mixed := by
    unfold TriaxialKVPool.WholePages
    decide +kernel
  obtain ⟨writes, done, effect⟩ := setKvBuffer_readsBack quantizer pool 2 (k := 6) (by decide) coherent 0 (by decide) whole
    (fun a => a % 11) (fun a => a % 7)
  refine ⟨writes, done, ?_⟩
  intro kv' launched
  exact (effect zeros kv' launched).2 _ (by decide)

/-- Slot 0 lies in page 0, which `set_kv_buffer` never writes: the batch holds 7, and 0 is read. -/
theorem page_zero_not_stored : [0].Nodup ∧ pool.WholePages [0] ∧
      (pool.setKvBuffer quantizer 1 64 (fun _ => [0]) none 0 (fun _ => 7) (fun _ => 7)).1 = .ok ⟨.none, .none, .none, .none⟩ ∧
      (LayerStores.mk .none .none .none .none).Launched zeros zeros ∧
      ¬ ReadsBack quantizer pool 1 64 [0] (fun _ => 7) (fun _ => 7) zeros [0] := by
  have idle : ∀ {α : Type} (mem : Nat → α), Launch mem [] mem := fun mem => launch_storeAll mem []
  refine ⟨by decide, ?_, rfl, ⟨idle _, idle _, idle _, idle _, idle _, idle _, idle _, idle _⟩, ?_⟩
  · unfold TriaxialKVPool.WholePages
    decide
  · intro reads
    obtain ⟨outs, done, values⟩ := reads 64 64 (outLayout_contiguous 1 1 64)
    have gathered : outs = quantizer.dequantGatherKernel [0] zeros pool.offset 1 64 64 64 2 := (Except.ok.inj done).symm
    have read := (values (fun _ => 0) _ (fun _ => 0) _ (launch_storeAll _ _) (launch_storeAll _ _) 0 (by decide) 0 (by decide)
      0 (by decide)).1
    rw [gathered] at read
    revert read
    decide +kernel

end SetKvBufferExample

end TriaxialKV
