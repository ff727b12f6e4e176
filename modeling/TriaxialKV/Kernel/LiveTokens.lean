import TriaxialKV.Kernel.SetKvBuffer

/-!
# Tokens in use

The allocator and the buffers of a layer as one machine: a batch is written to the slots handed out for it.
-/

namespace TriaxialKV
open List Stores Runs Tensor TriaxialKVPool

namespace Usage
variable {s : Usage} {op : Op} {slot : Nat}

def given (s : Usage) : Op → List Nat
  | .alloc needSize => (s.alloc.alloc needSize).1.getD []
  | .allocDecode bs => (s.alloc.allocDecode bs).1.getD []
  | .allocMixed bits reqLens => (s.alloc.allocMixed bits reqLens).1.getD []
  | _ => []

def Op.frees : Op → List Nat
  | .free freeIndex => freeIndex
  | _ => []

theorem handedOut_step (held : slot ∈ s.handedOut ∧ slot ∉ op.frees ∨ slot ∈ s.given op) : slot ∈ (s.step op).handedOut := by
  cases op <;> simp_all [step, handOut, given, Op.frees]

theorem given_draws (promised : s.Promised op) : ∃ a', s.alloc.Draws a' (s.given op) := by
  cases op with
  | alloc needSize => exact ⟨_, s.alloc.alloc_draws needSize⟩
  | allocDecode bs => exact ⟨_, s.alloc.alloc_draws bs⟩
  | allocMixed bits reqLens => exact ⟨_, s.alloc.allocMixed_draws promised⟩
  | free | freeGroupBegin | freeGroupEnd => exact ⟨s.alloc, rfl, ⟨rfl, rfl⟩, ⟨rfl, rfl⟩, fun _ h => h, fun _ h => h, .refl _⟩

theorem given_fresh (invariant : s.Inv) (promised : s.Promised op) :
    (s.handedOut ++ s.given op).Nodup ∧ s.alloc.pool.WholePages (s.given op) ∧ ∀ slot ∈ s.given op, 32 ≤ slot := by
  obtain ⟨a', draws⟩ := given_draws promised
  have drawn := draws.drawn
  have all := (drawn.symm.append_left (s.away ++ s.parked)).trans invariant.all
  have nodup := all.nodup_iff.mpr (nodup_slots _)
  refine ⟨?_, ?_, ?_⟩
  · simp only [away] at nodup
    grind
  · intro slot mem low paged j lt
    -- the page of an INT2 slot left the free list, with all of its slots
    have page : (slot / 32 * 32 + j) / 32 = slot / 32 := by omega
    have here := drawn.mem_iff (a := slot)
    have other := drawn.mem_iff (a := slot / 32 * 32 + j)
    have apart := (nodup_append'.mp nodup.of_append_right).2.2 mem
    simp only [mem_append, mem_flatSlots, page] at here other apart
    have single := invariant.slots4 slot
    have single' := fun free => invariant.slots4 (slot / 32 * 32 + j) (draws.slots4 free)
    rw [offset] at *
    grind
  · intro slot mem
    have nonReserved := mem_slots.mp (all.mem_iff.mp (show slot ∈ _ by simp [mem]))
    rw [NonReserved, offset, numPages2] at nonReserved
    omega

theorem alloc_int4 (invariant : s.Inv) {needSize : Nat} (mem : slot ∈ (s.alloc.alloc needSize).1.getD []) : s.alloc.pool.offset ≤ slot := by
  unfold TriaxialAllocator.alloc at mem
  split at mem
  · cases mem
  · exact (invariant.slots4 slot (mem_of_mem_take mem)).le

end Usage

section
variable {X M F O : Type} [Inhabited X] {qz : Quantizer X M F O} {pool : TriaxialKVPool} {H NG : Nat} {loc : List Nat} {g : Grouping}

theorem int4Kernel_congr {x y : Nat → X} {rows : List Nat}
    (same : ∀ i < rows.length, ∀ h < H, ∀ d < NG * 32, elem y H (NG * 32) i h d = elem x H (NG * 32) i h d) :
    qz.quantInt4TokensKernel y rows (H * (NG * 32)) (NG * 32) H (NG * 32) NG =
      qz.quantInt4TokensKernel x rows (H * (NG * 32)) (NG * 32) H (NG * 32) NG := by
  obtain ⟨data, scales⟩ := qz.int4_stores x rows H NG
  obtain ⟨data', scales'⟩ := qz.int4_stores y rows H NG
  refine congrArg₂ KernelStores.mk (data'.trans (.trans (map_congr_left ?_) data.symm)) (scales'.trans (.trans (map_congr_left ?_) scales.symm)) <;>
  · intro ⟨i, h, g, b⟩ mem
    simp only [mem_product, mem_range] at mem
    obtain ⟨lt, head, group, byte⟩ := mem
    have token := fun k (small : k < 32) => same i lt h head (g * 32 + k) (by omega)
    have vals : tokenGroup y H (NG * 32) i h (g * 32) = tokenGroup x H (NG * 32) i h (g * 32) := by
      rw [Quantizer.tokenGroup_eq, Quantizer.tokenGroup_eq]
      exact map_congr_left fun k small => token k (mem_range.mp small)
    simp only [Quantizer.tokenLevel, Quantizer.tokenScaleMin, token (2 * b) (by omega), token (2 * b + 1) (by omega), vals]

theorem nonzero_replicate (n : Nat) : nonzero (replicate n true) = range n := by
  induction n with
  | zero => rfl
  | succ n ih => rw [replicate_succ, nonzero, ih, range_succ_eq_map]

/-- The path of decode batches stores what `set_kv_buffer` would. -/
theorem setKvBufferInt4_eq (groups : pool.Groups loc g) (high : ∀ s ∈ loc, pool.offset ≤ s) (cacheK cacheV : Nat → X) :
    pool.setKvBufferInt4 qz H (NG * 32) loc cacheK cacheV = setKvBufferGrouped qz H (NG * 32) g cacheK cacheV := by
  have idx : g.idx4 = range loc.length := by
    rw [groups.idx4, ← nonzero_replicate]
    exact congrArg nonzero (map_eq_replicate_iff.mpr fun s mem => decide_eq_true (high s mem))
  have none : g.idx2 = [] := by
    apply eq_nil_iff_forall_not_mem.mpr
    intro i mem
    rw [groups.idx2, mem_nonzero_map, decide_eq_true_eq] at mem
    have := high loc[i]! (by rw [getElem!_pos loc i mem.1]; exact getElem_mem mem.1)
    omega
  have rows : g.rows4 = loc.map (fun s => s - pool.offset) := by
    rw [groups.rows4, idx]
    apply ext_getElem (by simp)
    intro i _ lt
    rw [getElem_map, getElem_map, getElem_range, getElem!_pos loc i (by simpa using lt)]
  have tokens : ∀ x, qz.quantInt4Tokens (gatherRows x g.idx4 (H * (NG * 32))) g.rows4 H (NG * 32) = qz.quantInt4Tokens x g.rows4 H (NG * 32) := by
    intro x
    unfold Quantizer.quantInt4Tokens
    rw [show NG * 32 / 32 = NG by omega, int4Kernel_congr (x := x)]
    intro i lt h head d channel
    rw [elem_gatherRows x _ head channel, idx, getElem!_pos (range loc.length) i (by simpa [rows] using lt), getElem_range]
  unfold setKvBufferInt4 setKvBufferGrouped
  rw [← rows, groups.slots2, none]
  simp only [tokens]
  cases g.rows4 with
  | nil => rfl
  | cons => simp

end

section
variable {X M F O : Type} {pool : TriaxialKVPool} {H NG h : Nat} {loc slots : List Nat} {kv kv' : LayerKV M} {qz : Quantizer X M F O}

theorem Keeps.entry {α : Type} {mem mem' : Nat → α} {w r u : Nat} (keeps : Keeps mem mem' (H * w) r) (head : h < H) (lt : u < w) :
    mem' ((r * H + h) * w + u) = mem ((r * H + h) * w + u) := by
  have inside := radix_lt head lt
  have place : (r * H + h) * w = r * (H * w) + h * w := by rw [Nat.add_mul, Nat.mul_assoc]
  apply keeps
  · omega
  · rw [Nat.succ_mul]
    omega

theorem Keeps.pair {mem mem' : Nat → M} {G r g : Nat} (keeps : Keeps mem mem' (H * (G * 2)) r) (head : h < H) (lt : g < G) :
    mem' (((r * H + h) * G + g) * 2) = mem (((r * H + h) * G + g) * 2) ∧
      mem' (((r * H + h) * G + g) * 2 + 1) = mem (((r * H + h) * G + g) * 2 + 1) := by
  rw [Nat.add_mul, Nat.mul_assoc _ G 2]
  exact ⟨keeps.entry head (u := g * 2) (by omega), keeps.entry head (u := g * 2 + 1) (by omega)⟩

theorem tile4_kept {data data' : Nat → Nat} {scales scales' : Nat → M} {lanes : Nat → Nat} {mask : Nat → Bool} {offset b c n : Nat}
    (bytes : Keeps data data' (H * (NG * 16)) (lanes n - offset)) (groups : Keeps scales scales' (H * (NG * 2)) (lanes n - offset))
    (head : h < H) (byte : b < NG * 8) :
    qz.tile4 data' scales' lanes offset h H mask (NG * 32) NG c b n = qz.tile4 data scales lanes offset h H mask (NG * 32) NG c b n := by
  have width : NG * 32 / 2 = NG * 16 := by omega
  simp only [Quantizer.tile4, maskedLoad, width, add_assoc _ _ 1, bytes.entry head (show 2 * b < NG * 16 by omega),
    bytes.entry head (show 2 * b + 1 < NG * 16 by omega), groups.pair head (show b / 8 < NG by omega)]

theorem laneStores_congr {m D strideOn strideOh : Nat} {v v' w w' : Nat → Nat → Nat → Nat → Nat → O}
    (same : ∀ pid h n b c, pid * 32 + n < m → h < H → n < 32 → b < D / 4 → c < 4 → v pid h n b c = v' pid h n b c ∧ w pid h n b c = w' pid h n b c) :
    (laneStores m H D strideOn strideOh v, laneStores m H D strideOn strideOh w) =
      (laneStores m H D strideOn strideOh v', laneStores m H D strideOn strideOh w') := by
  refine congrArg₂ Prod.mk (map_congr_left ?_) (map_congr_left ?_) <;>
  · intro ⟨pid, h, n, b, c⟩ lane
    simp only [mem_filter, mem_product, mem_range, decide_eq_true_eq] at lane
    obtain ⟨⟨_, head, column, byte, sub⟩, lt⟩ := lane
    simp only [same pid h n b c lt head column byte sub]

/-- A write to whole pages changes no read of other slots. -/
theorem dequantGather_untouched (whole : pool.WholePages loc) (untouched : Untouched pool H (NG * 32) loc kv kv')
    (apart : ∀ s ∈ slots, s ∉ loc) : qz.dequantGather slots kv' pool.offset H (NG * 32) = qz.dequantGather slots kv pool.offset H (NG * 32) := by
  have nibble : NG * 32 / 2 = NG * 16 := by omega
  have crumb : NG * 32 / 4 = NG * 8 := by omega
  have block : NG * 32 / 32 = NG := by omega
  obtain ⟨int4, int2V, int2K⟩ := untouched
  rw [nibble, block] at int4
  rw [crumb, block] at int2V
  funext strideOn strideOh
  unfold Quantizer.dequantGather
  split
  · rfl
  · rw [block, dequantGatherKernel_eq, dequantGatherKernel_eq]
    congr 1
    funext _
    apply laneStores_congr
    intro pid h n b c lt head lane byte sub
    rw [crumb] at byte
    have absent : blockLoc slots pid n ∉ loc := by
      apply apart
      unfold blockLoc
      rw [decide_eq_true lt, if_pos rfl, getElem!_pos slots _ lt]
      exact getElem_mem lt
    by_cases paged : blockLoc slots pid n < pool.offset
    · -- a slot of `loc` in the same page would bring this slot into `loc`
      have page : ∀ t ∈ loc, 32 ≤ t → t < pool.offset → t / 32 ≠ blockLoc slots pid n / 32 := by
        intro t mem low high same
        have inside := whole t mem low high (blockLoc slots pid n % 32) (by omega)
        rw [same, Nat.div_add_mod'] at inside
        exact absent inside
      have unmasked : blockMask slots pid (fun s => decide (s < pool.offset)) n = true := by simp [blockMask, lt, paged]
      obtain ⟨bytesK, groupsK⟩ := int2K _ page
      obtain ⟨bytesV, groupsV⟩ := int2V _ (.inr absent)
      simp only [decide_eq_true paged, if_true, qz.k2Tiles_eq lane unmasked, Quantizer.v2Tiles, maskedLoad, crumb, bytesV.entry head byte,
        bytesK.entry head (show (4 * b + c) * 8 + blockLoc slots pid n % 32 / 4 < NG * 32 * 8 by omega),
        groupsK.pair head (show 4 * b + c < NG * 32 by omega), groupsV.pair head (show b / 8 < NG by omega), and_self]
    · obtain ⟨bytesK, groupsK, bytesV, groupsV⟩ := int4 _ (Nat.le_of_not_lt paged) absent
      simp only [decide_eq_false paged, Bool.false_eq_true, if_false, tile4_kept bytesK groupsK head byte, tile4_kept bytesV groupsV head byte,
        and_self]

end

/-- A call of the allocator, and the layer after the batch was stored in the slots it gave. -/
structure Forward (X M : Type) where
  op : Usage.Op
  cacheK : Nat → X
  cacheV : Nat → X
  kv : LayerKV M

namespace Forward
variable {X M F O : Type} {s : Usage × LayerKV M} {f : Forward X M}

def step (s : Usage × LayerKV M) (f : Forward X M) : Usage × LayerKV M := (s.1.step f.op, f.kv)

theorem step_inv {pool : TriaxialKVPool} (invariant : s.1.Inv ∧ s.1.alloc.pool = pool) (promised : s.1.Promised f.op) :
    (step s f).1.Inv ∧ (step s f).1.alloc.pool = pool :=
  ⟨s.1.step_inv f.op invariant.1 promised, (s.1.step_pool f.op promised).trans invariant.2⟩

variable [Inhabited X]

/-- Prompts are stored by `set_kv_buffer`, the tokens of a decode step by `set_kv_buffer_int4`. -/
def stores (f : Forward X M) (qz : Quantizer X M F O) (pool : TriaxialKVPool) (H D : Nat) (loc : List Nat) : Except String (LayerStores M) :=
  match f.op with
  | .allocMixed _ _ => (pool.setKvBuffer qz H D (fun _ => loc) none 0 f.cacheK f.cacheV).1
  | _ => pool.setKvBufferInt4 qz H D loc f.cacheK f.cacheV

def Writes (qz : Quantizer X M F O) (pool : TriaxialKVPool) (H D : Nat) (s : Usage × LayerKV M) (f : Forward X M) : Prop :=
  s.1.Promised f.op ∧ ∃ writes, f.stores qz pool H D (s.1.given f.op) = .ok writes ∧ writes.Launched s.2 f.kv

section
variable {pool : TriaxialKVPool} {H NG : Nat} {qz : Quantizer X M F O} (writable : checkHeadDim (NG * 32) 32 = .ok ())
  (invariant : s.1.Inv ∧ s.1.alloc.pool = pool)
include writable invariant

theorem stores_given (qz : Quantizer X M F O) (H : Nat) (promised : s.1.Promised f.op) : let loc := s.1.given f.op
    ∃ g, pool.Groups loc g ∧ g.pages.Nodup ∧ (∀ page, page ∈ g.pages ↔ ∃ s ∈ loc, 32 ≤ s ∧ s < pool.offset ∧ s / 32 = page) ∧
      f.stores qz pool H (NG * 32) loc = .ok (groupedStores qz H NG g f.cacheK f.cacheV) := by
  obtain ⟨invariant, rfl⟩ := invariant
  obtain ⟨nodup, whole, _⟩ := Usage.given_fresh invariant promised
  obtain ⟨g, found, groups, distinct, listed⟩ := grouping_of_wholePages nodup.of_append_right whole
  refine ⟨g, groups, distinct, listed, ?_⟩
  have stored : setKvBufferGrouped qz H (NG * 32) g f.cacheK f.cacheV = .ok (groupedStores qz H NG g f.cacheK f.cacheV) := by
    refine setGrouped_eq qz H NG writable (fun empty => eq_nil_iff_forall_not_mem.mpr ?_) f.cacheK f.cacheV
    intro page member
    obtain ⟨s, here, low, high, _⟩ := (listed page).mp member
    obtain ⟨i, inside, _⟩ := row_of_int2 groups here low high
    rw [empty] at inside
    cases inside
  have int4 := fun high => (setKvBufferInt4_eq groups high f.cacheK f.cacheV).trans stored
  obtain ⟨op, cacheK, cacheV, kv⟩ := f
  cases op with
  | allocMixed => exact (setKvBuffer_ok qz ((groupingCall_spec (by rintro _ _ ⟨⟩) 0).1.trans found)).trans stored
  | alloc | allocDecode => exact int4 fun _ mem => Usage.alloc_int4 invariant mem
  | free | freeGroupBegin | freeGroupEnd => exact int4 nofun

variable (readable : checkHeadDim (NG * 32) 64 = .ok ())
include readable

theorem Writes.effect (writes : Writes qz pool H (NG * 32) s f) : Untouched pool H (NG * 32) (s.1.given f.op) s.2 f.kv ∧
    ∀ slots ⊆ s.1.given f.op, ReadsBack qz pool H (NG * 32) (s.1.given f.op) f.cacheK f.cacheV f.kv slots := by
  obtain ⟨promised, writes, done, launched⟩ := writes
  obtain ⟨nodup, _, usable⟩ := Usage.given_fresh invariant.1 promised
  obtain ⟨g, groups, distinct, listed, stored⟩ := stores_given writable invariant qz H promised
  rw [stored] at done
  cases done
  refine ⟨untouched_of_launched groups listed launched, fun slots taken => ?_⟩
  exact readsBack_of_launched readable nodup.of_append_right groups distinct listed launched fun slot mem => ⟨taken mem, usable slot (taken mem)⟩

theorem dequantGather_run {later : List (Forward X M)} (run : Guarded step (Writes qz pool H (NG * 32)) s later) {slots : List Nat}
    (live : ∀ slot ∈ slots, slot ∈ s.1.handedOut ∧ ∀ g ∈ later, slot ∉ g.op.frees) :
    qz.dequantGather slots (later.foldl step s).2 pool.offset H (NG * 32) = qz.dequantGather slots s.2 pool.offset H (NG * 32) := by
  induction later generalizing s with
  | nil => rfl
  | cons f later ih =>
    obtain ⟨writes, run⟩ := run
    obtain ⟨nodup, whole, _⟩ := Usage.given_fresh invariant.1 writes.1
    rw [foldl_cons, ih (step_inv invariant writes.1) run]
    · refine dequantGather_untouched (invariant.2 ▸ whole) (writes.effect writable invariant readable).1 ?_
      intro slot mem
      exact (nodup_append'.mp nodup).2.2 (live slot mem).1
    · intro slot mem
      obtain ⟨held, kept⟩ := live slot mem
      exact ⟨Usage.handedOut_step (.inl ⟨held, kept f mem_cons_self⟩), fun g later => kept g (mem_cons_of_mem f later)⟩

end

/-- No write to the slots of an allocation fails, and until a slot is freed it reads back what its own batch stored there. -/
theorem readsBack_until_freed (qz : Quantizer X M F O) (pool : TriaxialKVPool) (H : Nat) {k : Nat} (wide : 64 ≤ 2 ^ k) (kv : LayerKV M)
    (s : Usage × LayerKV M) (reachable : Reachable step (Writes qz pool H (2 ^ k)) (.start pool, kv) s) :
    (∀ op cacheK cacheV, s.1.Promised op → ∃ kv', Writes qz pool H (2 ^ k) s ⟨op, cacheK, cacheV, kv'⟩) ∧
      ∀ (f : Forward X M) later, Guarded step (Writes qz pool H (2 ^ k)) s (f :: later) → ∀ slots : List Nat,
        (∀ slot ∈ slots, slot ∈ s.1.given f.op ∧ ∀ g ∈ later, slot ∉ g.op.frees) →
        ReadsBack qz pool H (2 ^ k) (s.1.given f.op) f.cacheK f.cacheV ((f :: later).foldl step s).2 slots := by
  have writable := checkHeadDim_pow (show 32 ≤ 2 ^ k by omega) wide
  have readable := checkHeadDim_pow wide wide
  obtain ⟨NG, width⟩ := groups_of_pow wide
  rw [width] at writable readable reachable ⊢
  have invariant := reachable.invariant (fun s => s.1.Inv ∧ s.1.alloc.pool = pool) ⟨Usage.start_inv pool, rfl⟩
    (fun _ _ invariant writes => step_inv invariant writes.1)
  constructor
  · intro op cacheK cacheV promised
    obtain ⟨g, _, _, _, stored⟩ := stores_given (f := ⟨op, cacheK, cacheV, kv⟩) writable invariant qz H promised
    have ⟨kv', launched⟩ : ∃ kv', (groupedStores qz H NG g cacheK cacheV).Launched s.2 kv' :=
      ⟨⟨_, _, _, _, _, _, _, _⟩, launch_storeAll _ _, launch_storeAll _ _, launch_storeAll _ _, launch_storeAll _ _, launch_storeAll _ _,
        launch_storeAll _ _, launch_storeAll _ _, launch_storeAll _ _⟩
    exact ⟨kv', promised, _, stored, launched⟩
  · rintro f later ⟨writes, run⟩ slots live strideOn strideOh layout
    rw [foldl_cons, dequantGather_run writable (step_inv invariant writes.1) readable run]
    · exact (writes.effect writable invariant readable).2 slots (fun slot mem => (live slot mem).1) strideOn strideOh layout
    · intro slot mem
      exact ⟨Usage.handedOut_step (.inr (live slot mem).1), (live slot mem).2⟩

open SetKvBufferExample in
/-- Page 1 and an INT4 slot are written, then the token of a decode step. -/
theorem readsBack_until_freed_page : ∃ kv, ReadsBack quantizer pool 2 64 ((Usage.start pool).given (.allocMixed (replicate 33 2) [33]))
    (fun a => a % 11) (fun a => a % 7) kv [40, 97] := by
  have all := fun s => readsBack_until_freed quantizer pool 2 (k := 6) (by decide) zeros s
  obtain ⟨kv, first⟩ := (all _ .start).1 (.allocMixed (replicate 33 2) [33]) (fun a => a % 11) (fun a => a % 7) rfl
  obtain ⟨kv', second⟩ := (all _ (.step .start first)).1 (.allocDecode 1) (fun _ => 5) (fun _ => 6) trivial
  have held : ∀ slot ∈ [40, 97], slot ∈ (Usage.start pool).given (.allocMixed (replicate 33 2) [33]) := by decide +kernel
  refine ⟨kv', (all _ .start).2 _ [_] ⟨first, second, trivial⟩ [40, 97] fun slot mem => ⟨held slot mem, ?_⟩⟩
  simp [Usage.Op.frees]

end Forward

end TriaxialKV
