import Mathlib.Tactic.FieldSimp
import TriaxialKV.Sched.PrefillAdder

/-!
# When an admitted batch gets its slots

A run of `add_one_req` keeps the tokens of the admitted requests below an estimate. The allocation succeeds
where the estimate is right.
-/

namespace TriaxialKV
open Runs RadixCache Req TriaxialAllocator List

variable {c : RadixCache} {pool : ReqToTokenPool} {reqs : List Req} {start : PrefillAdder}

namespace PrefillAdder
variable {R : Rounding} {s s' t : PrefillAdder} {req : Req}

theorem ceilPagedTokens_one (page : s.pageSize = 1) (tokens : Int) : s.ceilPagedTokens tokens = tokens := by
  unfold ceilPagedTokens
  rw [page]
  omega

structure Fixed (s s' : PrefillAdder) : Prop where
  pageSize : s'.pageSize = s.pageSize
  allocator : s'.allocator = s.allocator
  int2Fraction : s'.int2Fraction = s.int2Fraction
  clip : s'.clipMaxNewTokens = s.clipMaxNewTokens

/-- What a call does to the budget: nothing, or `r` is taken, which is `req` or its first chunk. -/
inductive Outcome (R : Rounding) (s : PrefillAdder) (req : Req) (s' : PrefillAdder) : Prop where
  | rejected : s'.canRunList = s.canRunList → s'.remTotalTokenOffset = s.remTotalTokenOffset →
      s'.treeCache.evictableSize = s.treeCache.evictableSize → Outcome R s req s'
  | admitted (r : Req) (reserve : Int) : r.extendInputLen ≤ req.extendInputLen → r.reqPoolIdx = req.reqPoolIdx →
      0 ≤ reserve → s'.canRunList = s.canRunList ++ [r] →
      s'.remTotalTokenOffset = R.round (s.remTotalTokenOffset + ((r.extendInputLen + reserve : Int) : ℚ)) →
      s'.treeCache.evictableSize ≤ s.treeCache.evictableSize →
      (req.extendInputLen : ℚ) ≤ R.round (s'.availableAndEvictable R - s.remTotalTokenOffset) → Outcome R s req s'

theorem truncLen_le (page : s.pageSize = 1) {remChunk trunc : Int} {align : Option Nat}
    (found : s.truncLen remChunk align = some trunc) : 0 ≤ trunc ∧ trunc ≤ remChunk := by
  unfold truncLen at found
  simp only [page, Nat.cast_one, Int.ediv_one, Int.mul_one] at found
  split at found
  · cases found
  · next _ =>
    cases align with
    | none =>
      cases found
      omega
    | some align =>
      dsimp only at found
      split at found
      · cases found
      · cases found
        have lower : 0 ≤ remChunk / align := Int.ediv_nonneg (by omega) (by omega)
        refine ⟨Int.mul_nonneg (by omega) lower, ?_⟩
        by_cases zero : (align : Int) = 0
        · rw [zero]
          omega
        · exact Int.mul_ediv_self_le zero

theorem addLocked_cases (page : s.pageSize = 1) (clip : 0 ≤ s.clipMaxNewTokens) (req : Req) (totalTokens : Int) (align : Option Nat) :
    (∃ result, s.addLocked R req totalTokens align = (some result, s)) ∨
      ∃ r reserve chunked, r.extendInputLen ≤ req.extendInputLen ∧ r.reqPoolIdx = req.reqPoolIdx ∧ 0 ≤ reserve ∧
        (totalTokens : ℚ) < s.remTotalTokens R ∧ s.addLocked R req totalTokens align =
          (none, ((s.take r chunked).reqIncLockRef req).updatePrefillBudget R r.extendInputLen reserve) := by
  have reserve : 0 ≤ min (req.maxNewTokens : Int) s.clipMaxNewTokens := by omega
  have ceil : s.ceilPagedTokens req.extendInputLen = req.extendInputLen := ceilPagedTokens_one page _
  unfold addLocked
  dsimp only
  rw [ceil]
  split
  · exact .inl ⟨_, rfl⟩
  · next fits =>
    split
    · exact .inl ⟨_, rfl⟩
    · split
      · exact .inr ⟨req, _, s.newChunkedReq, le_refl _, rfl, reserve, not_le.mp fits, rfl⟩
      · next remChunk _ =>
        split
        · exact .inr ⟨req, _, s.newChunkedReq, le_refl _, rfl, reserve, not_le.mp fits, rfl⟩
        · next _ =>
          cases trunc : s.truncLen remChunk align with
          | none => exact .inl ⟨_, rfl⟩
          | some len =>
            obtain ⟨nonneg, _⟩ := truncLen_le page trunc
            have chunk : ((setExtendInputLen req len).extendInputLen : Int) = len := Int.toNat_of_nonneg nonneg
            refine .inr ⟨setExtendInputLen req len, 0, some (setExtendInputLen req len), ?_, rfl, Int.le_refl _, not_le.mp fits, ?_⟩
            · omega
            · rw [chunk]
              rfl

theorem ignoreEos_cases (page : s.pageSize = 1) (clip : 0 ≤ s.clipMaxNewTokens) (req : Req) :
    (∃ states, (s.addOneReqIgnoreEos R req).2 = { s with reqStates := states }) ∨
      ∃ r reserve chunked states, r.extendInputLen ≤ req.extendInputLen ∧ r.reqPoolIdx = req.reqPoolIdx ∧ 0 ≤ reserve ∧
        (req.extendInputLen : ℚ) ≤ s.remTotalTokens R ∧ (s.addOneReqIgnoreEos R req).2 =
          (PrefillAdder.take { s with reqStates := states } r chunked).updatePrefillBudget R r.extendInputLen reserve := by
  have reserve : 0 ≤ min (req.maxNewTokens : Int) s.clipMaxNewTokens := by omega
  have ceil : s.ceilPagedTokens req.extendInputLen = req.extendInputLen := ceilPagedTokens_one page _
  unfold addOneReqIgnoreEos
  dsimp only
  rw [ceil]
  split
  · exact .inl ⟨s.reqStates, rfl⟩
  · next fits =>
    have room : (req.extendInputLen : ℚ) ≤ s.remTotalTokens R := by
      have := (le_min_iff.mp (not_lt.mp fits)).2
      simpa using this
    split
    · exact .inl ⟨_, rfl⟩
    · split
      · exact .inr ⟨req, _, _, _, le_refl _, rfl, reserve, room, rfl⟩
      · next remChunk _ =>
        split
        · exact .inr ⟨req, _, _, _, le_refl _, rfl, reserve, room, rfl⟩
        · next _ =>
          split
          · exact .inl ⟨_, rfl⟩
          · next _ =>
            have chunk : ((setExtendInputLen req remChunk).extendInputLen : Int) = remChunk := Int.toNat_of_nonneg (by omega)
            refine .inr ⟨setExtendInputLen req remChunk, 0, some (setExtendInputLen req remChunk), some (s.addReqStates R req), ?_,
              rfl, Int.le_refl _, room, ?_⟩
            · omega
            · rw [chunk]

theorem charge_offset (page : t.pageSize = 1) (r : Req) (reserve : Int) : (t.updatePrefillBudget R r.extendInputLen reserve).remTotalTokenOffset =
      R.round (t.remTotalTokenOffset + ((r.extendInputLen + (reserve + 1) : Int) : ℚ)) := by
  unfold updatePrefillBudget
  dsimp only
  rw [ceilPagedTokens_one page, page, Int.add_assoc]
  rfl

theorem ignoreEos_outcome (page : s.pageSize = 1) (clip : 0 ≤ s.clipMaxNewTokens) (req : Req) :
    (s.addOneReqIgnoreEos R req).2.treeCache = s.treeCache ∧ Fixed s (s.addOneReqIgnoreEos R req).2 ∧
      Outcome R s req (s.addOneReqIgnoreEos R req).2 := by
  obtain ⟨states, same⟩ | ⟨r, reserve, chunked, states, le, slot, _, room, same⟩ := ignoreEos_cases (R := R) page clip req
  · rw [same]
    exact ⟨rfl, ⟨rfl, rfl, rfl, rfl⟩, .rejected rfl rfl rfl⟩
  · rw [same]
    refine ⟨rfl, ⟨rfl, rfl, rfl, rfl⟩, .admitted r (reserve + 1) le slot (by omega) rfl ?_ (Int.le_refl _) room⟩
    exact charge_offset (t := PrefillAdder.take { s with reqStates := states } r chunked) page r reserve

def Holds (c : RadixCache) (req : Req) : Prop := req.lastNode = 0 ∨ ∃ n ∈ c.nodes, n.id = req.lastNode

theorem addOneReq_outcome (page : s.pageSize = 1) (clip : 0 ≤ s.clipMaxNewTokens) (wf : s.treeCache.Wf)
    (holds : Holds s.treeCache req) (delayed : Bool) (align : Option Nat) :
    (s.addOneReq R req delayed align).2.treeCache.Wf ∧ (s.addOneReq R req delayed align).2.treeCache.disable = s.treeCache.disable ∧
      Fixed s (s.addOneReq R req delayed align).2 ∧ Outcome R s req (s.addOneReq R req delayed align).2 := by
  have unchanged : s.treeCache.Wf ∧ s.treeCache.disable = s.treeCache.disable ∧ Fixed s s ∧ Outcome R s req s :=
    ⟨wf, rfl, ⟨rfl, rfl, rfl, rfl⟩, .rejected rfl rfl rfl⟩
  unfold addOneReq
  dsimp only
  split
  · exact unchanged
  split
  · exact unchanged
  split
  · exact unchanged
  split
  · obtain ⟨tree, fixed, outcome⟩ := ignoreEos_outcome (R := R) page clip req
    rw [tree]
    exact ⟨wf, rfl, fixed, outcome⟩
  split
  · exact unchanged
  split
  · exact unchanged
  generalize total : (req.extendInputLen : Int) + min (max ((req.maxNewTokens : Int) - req.outputLen) 0) s.clipMaxNewTokens = totalTokens
  have wf₁ := incLockRef_wf wf holds
  obtain ⟨present, evictable⟩ := incLockRef_keeps wf holds
  have settings₁ := (incLock_settings s.treeCache req.lastNode).1
  obtain ⟨_, same⟩ | ⟨r, reserve, _, le, slot, _, room, same⟩ :=
    addLocked_cases (R := R) (s := s.reqIncLockRef req) page clip req totalTokens align
  · -- turned away: the lock is taken back
    obtain ⟨wf₂, _, back⟩ := decLock_incLock wf holds
    rw [same]
    refine ⟨wf₂, ?_, ⟨rfl, rfl, rfl, rfl⟩, .rejected rfl rfl back⟩
    exact (decLock_settings _ req.lastNode).1.trans settings₁
  · -- taken: one of the two locks stays
    have holds₁ : Holds (s.treeCache.incLockRef req.lastNode) req := holds.imp_right (present req.lastNode).mpr
    obtain ⟨wf₂, _, kept⟩ := decLock_incLock wf₁ holds₁
    have settings₂ := (incLock_settings (s.treeCache.incLockRef req.lastNode) req.lastNode).1
    rw [same]
    refine ⟨wf₂, ?_, ⟨rfl, rfl, rfl, rfl⟩,
      .admitted r (reserve + 1) le slot (by omega) rfl (charge_offset page r reserve) (kept.trans_le evictable) ?_⟩
    · exact ((decLock_settings _ req.lastNode).1.trans settings₂).trans settings₁
    · have fits : (req.extendInputLen : ℚ) ≤ totalTokens := by
        rw [← total]
        exact_mod_cast (show (req.extendInputLen : Int) ≤ _ by omega)
      have size := congrArg (fun size => R.round ((s.allocator.admissionSize R s.int2Fraction + size : Int) -
        s.remTotalTokenOffset)) kept
      exact (fits.trans (le_of_lt room)).trans_eq size.symm

inductive Op where
  | add (req : Req) (delayed : Bool) (truncationAlignSize : Option Nat)
  /-- Matching the prefix of the next request may split nodes. -/
  | rematch (tree : RadixCache)

def step (R : Rounding) (s : PrefillAdder) : Op → PrefillAdder
  | .add req delayed align => (s.addOneReq R req delayed align).2
  | .rematch tree => { s with treeCache := tree }

/-- Requests are new and hold a node of the tree; a split leaves the sizes as they are. -/
def Allowed (s : PrefillAdder) : Op → Prop
  | .add req _ _ => Holds s.treeCache req ∧ req.reqPoolIdx = none
  | .rematch tree => tree.Wf ∧ tree.evictableSize = s.treeCache.evictableSize ∧ tree.disable = s.treeCache.disable

def batchTokens (s : PrefillAdder) : Nat := extendNumTokens (s.canRunList.map extendReq)

structure Inv (R : Rounding) (start s : PrefillAdder) : Prop where
  page : s.pageSize = 1
  clip : 0 ≤ s.clipMaxNewTokens
  fixed : Fixed start s
  wf : s.treeCache.Wf
  disabled : s.treeCache.disable = true → s.treeCache.evictableSize = 0
  fresh : ∀ r ∈ s.canRunList, r.reqPoolIdx = none
  bounded : s.availableAndEvictable R ≤ 2 ^ 53
  charged : (s.batchTokens : ℚ) ≤ s.remTotalTokenOffset
  budget : s.canRunList ≠ [] → (s.batchTokens : Int) ≤ s.availableAndEvictable R

theorem Fixed.trans (left : Fixed s t) (right : Fixed t s') : Fixed s s' :=
  ⟨right.pageSize.trans left.pageSize, right.allocator.trans left.allocator, right.int2Fraction.trans left.int2Fraction, right.clip.trans left.clip⟩

theorem room_of_round {available : Int} {offset : ℚ} {batch extend : Nat} (charged : (batch : ℚ) ≤ offset)
    (bounded : available ≤ 2 ^ 53) (room : (extend : ℚ) ≤ R.round (available - offset)) :
    (batch + extend : Int) ≤ available := by
  have limit : ((available : ℚ)) ≤ ((2 ^ 53 : Int) : ℚ) := by exact_mod_cast bounded
  have small : (extend : ℚ) ≤ ((2 ^ 53 : Int) : ℚ) := room.trans (R.round_le (by norm_num) (by linarith))
  have small' : extend ≤ 2 ^ 53 := by exact_mod_cast small
  have within : |(extend : Int) - 1| ≤ 2 ^ 53 := by
    rw [abs_le]
    omega
  have less := R.sub_one_lt within (x := available - offset) (by exact_mod_cast room)
  have : ((batch + extend - 1 : Int) : ℚ) < available := by
    push_cast at less ⊢
    linarith
  have : (batch + extend - 1 : Int) < available := by exact_mod_cast this
  omega

theorem step_inv {op : Op} (inv : Inv R start s) (allowed : s.Allowed op) : Inv R start (s.step R op) := by
  cases op with
  | rematch tree =>
    obtain ⟨wf, size, disable⟩ := allowed
    have same : (s.step R (.rematch tree)).availableAndEvictable R = s.availableAndEvictable R :=
      congrArg (fun size => s.allocator.admissionSize R s.int2Fraction + size) size
    refine ⟨inv.page, inv.clip, ⟨inv.fixed.pageSize, inv.fixed.allocator, inv.fixed.int2Fraction, inv.fixed.clip⟩, wf, ?_,
      inv.fresh, same ▸ inv.bounded, inv.charged, same ▸ inv.budget⟩
    intro off
    exact size.trans (inv.disabled (disable.symm.trans off))
  | add req delayed align =>
    obtain ⟨holds, new⟩ := allowed
    obtain ⟨wf, disable, fixed, outcome⟩ := addOneReq_outcome (R := R) inv.page inv.clip inv.wf holds delayed align
    change Inv R start (s.addOneReq R req delayed align).2
    generalize (s.addOneReq R req delayed align).2 = s' at *
    have page := fixed.pageSize.trans inv.page
    have clip := inv.clip.trans_eq fixed.clip.symm
    have constant := inv.fixed.trans fixed
    cases outcome with
    | rejected list offset size =>
      have same : s'.availableAndEvictable R = s.availableAndEvictable R := by
        unfold availableAndEvictable
        rw [fixed.allocator, fixed.int2Fraction, size]
      have tokens : s'.batchTokens = s.batchTokens := by
        unfold batchTokens
        rw [list]
      refine ⟨page, clip, constant, wf, ?_, list ▸ inv.fresh, same ▸ inv.bounded, ?_, ?_⟩
      · intro off
        exact size.trans (inv.disabled (disable.symm.trans off))
      · rw [tokens, offset]
        exact inv.charged
      · rw [tokens, list, same]
        exact inv.budget
    | admitted r reserve le slot nonneg list offset size room =>
      have tokens : s'.batchTokens = s.batchTokens + r.extendInputLen := by
        unfold batchTokens extendNumTokens
        rw [list]
        simp [extendReq]
      have bounded : s'.availableAndEvictable R ≤ 2 ^ 53 := by
        refine le_trans ?_ inv.bounded
        unfold availableAndEvictable
        rw [fixed.allocator, fixed.int2Fraction]
        omega
      have total := room_of_round inv.charged bounded room
      refine ⟨page, clip, constant, wf, ?_, ?_, bounded, ?_, ?_⟩
      · intro off
        have before := inv.disabled (disable.symm.trans off)
        have after := wf.evictable
        omega
      · intro r' mem
        rw [list] at mem
        rcases mem_append.mp mem with old | last
        · exact inv.fresh r' old
        · rw [mem_singleton.mp last]
          exact slot.trans new
      · rw [tokens, offset]
        have small : |((s.batchTokens + r.extendInputLen : Nat) : Int)| ≤ 2 ^ 53 := by
          rw [abs_of_nonneg (by omega)]
          omega
        have := R.le_round (x := s.remTotalTokenOffset + ((r.extendInputLen + reserve : Int) : ℚ)) small ?_
        · exact_mod_cast this
        · have := inv.charged
          have : (0 : ℚ) ≤ reserve := by exact_mod_cast nonneg
          push_cast
          linarith
      · intro _
        rw [tokens]
        omega

theorem create_inv (R : Rounding) {tree : RadixCache} (allocator : TriaxialAllocator) (int2Fraction : ℚ) {running : List Req}
    {ratio : ℚ} {clip : Int} (contextParallel : Bool) (prefillMaxRequests : Option Nat) (remInput : Int) (remChunk : Option Int)
    (mixed : Nat) (wf : tree.Wf) (disabled : tree.disable = true → tree.evictableSize = 0) (nonneg : 0 ≤ ratio)
    (clipped : 0 ≤ clip) (unfinished : ∀ r ∈ running, r.outputLen ≤ r.maxNewTokens)
    (bounded : allocator.admissionSize R int2Fraction + tree.evictableSize ≤ 2 ^ 53) :
    let start := create R 1 tree allocator int2Fraction running ratio clip contextParallel prefillMaxRequests remInput remChunk mixed
    Inv R start start := by
  have sum : ∀ (reqs : List Req) (acc : ℚ), (∀ r ∈ reqs, r.outputLen ≤ r.maxNewTokens) → 0 ≤ acc →
      0 ≤ (reqs.map (getRunningRequestTotalTokenOffset R ratio clip)).foldl (fun acc x => R.round (acc + x)) acc := by
    intro reqs
    induction reqs with
    | nil => exact fun _ _ start => start
    | cons r reqs ih =>
      intro acc fits start
      have left : (0 : Int) ≤ min ((r.maxNewTokens : Int) - r.outputLen) clip := by
        have := fits r mem_cons_self
        omega
      have share : 0 ≤ getRunningRequestTotalTokenOffset R ratio clip r := R.round_nonneg (mul_nonneg (by exact_mod_cast left) nonneg)
      exact ih _ (fun r' mem => fits r' (mem_cons_of_mem _ mem)) (R.round_nonneg (add_nonneg start share))
  refine ⟨rfl, clipped, ⟨rfl, rfl, rfl, rfl⟩, wf, disabled, ?_, bounded, ?_, fun some => absurd rfl some⟩
  · exact nofun
  · exact R.round_nonneg (add_nonneg (Nat.cast_nonneg mixed) (sum running 0 unfinished (le_refl 0)))

end PrefillAdder

namespace RadixCache

/-- No unlocked node holds fewer INT4 slots than `share` of its tokens. -/
def Yields (share : ℚ) (offset : Nat) (c : RadixCache) : Prop :=
  ∀ n ∈ c.nodes, n.lockRef = 0 → share * n.value.length ≤ (n.value.filter (fun s => s ≥ offset)).length

structure Gains (share : ℚ) (s t : Nat × RadixCache × TriaxialAllocator) : Prop where
  slots4 : (s.2.2.freeSlots4.length : ℚ) + share * (t.1 - s.1) ≤ t.2.2.freeSlots4.length
  pages : s.2.2.freePages2.length ≤ t.2.2.freePages2.length
  closed : t.2.2.isNotInFreeGroup = true
  pool : t.2.2.pool = s.2.2.pool
  yields : t.2.1.Yields share t.2.2.pool.offset

variable {share : ℚ} {order : EvictionOrder} {s t u : Nat × RadixCache × TriaxialAllocator}

theorem Gains.trans (left : Gains share s t) (right : Gains share t u) : Gains share s u := by
  refine ⟨?_, left.pages.trans right.pages, right.closed, right.pool.trans left.pool, right.yields⟩
  have := left.slots4
  have := right.slots4
  linarith

section
variable (wf : s.2.1.Wf) (closed : s.2.2.isNotInFreeGroup = true) (yields : s.2.1.Yields share s.2.2.pool.offset)
include wf closed yields

theorem evictOne_gains : Gains share s (evictOne order s) := by
  obtain ⟨numEvicted, c, a⟩ := s
  by_cases none : c.evictableLeaves = []
  · have same : evictOne order (numEvicted, c, a) = (numEvicted, c, a) := by simp only [evictOne, if_pos none]
    rw [same]
    exact ⟨by simp, le_refl _, closed, rfl, yields⟩
  · obtain ⟨x, leaf, _, _, round⟩ := evictOne_cases order wf numEvicted a none
    have nonempty : x.value ≠ [] := by
      intro empty
      have := wf.keys x leaf.member
      rw [empty] at this
      exact this.2 (eq_nil_of_length_eq_zero this.1.symm)
    have freed : SlotAllocator.free a x.value = a.release x.value := by
      show a.free x.value = _
      unfold TriaxialAllocator.free
      rw [if_neg nonempty, closed]
      rfl
    rw [round, freed, release_eq]
    refine ⟨?_, ?_, closed, rfl, ?_⟩
    · have share4 := yields x leaf.member leaf.unlocked
      simp only [length_append]
      push_cast
      linarith
    · simp only [length_append]
      omega
    · intro n mem unlocked
      rw [nodes_delete] at mem
      exact yields n (mem_filter.mp mem).1 unlocked

theorem rounds_gain (k : Nat) : Gains share s ((evictOne order)^[k] s) := by
  induction k with
  | zero => exact ⟨by simp, le_refl _, closed, rfl, yields⟩
  | succ k ih =>
    rw [Function.iterate_succ_apply']
    exact ih.trans (evictOne_gains (rounds_wf order wf k) ih.closed ih.yields)

end

theorem evict_gains (order : EvictionOrder) {a : TriaxialAllocator} (wf : c.Wf) (disabled : c.disable = true → c.evictableSize = 0)
    (closed : a.isNotInFreeGroup = true) (yields : c.Yields share a.pool.offset) (numTokens : Nat) :
    Gains share (0, c, a) (evict order c a numTokens) ∧
      ((numTokens : Int) ≤ (evict order c a numTokens).1 ∨ c.evictableSize ≤ (evict order c a numTokens).1) := by
  cases enabled : c.disable with
  | true =>
    have same : evict order c a numTokens = (0, c, a) := by
      unfold evict
      rw [if_pos enabled]
    rw [same]
    exact ⟨⟨by simp, le_refl _, closed, rfl, yields⟩, .inr (by rw [disabled enabled]; exact Int.le_refl _)⟩
  | false =>
    obtain ⟨k, reached, stops⟩ := evict_stops order wf enabled a numTokens
    rw [reached]
    refine ⟨rounds_gain (s := (0, c, a)) wf closed yields k, ?_⟩
    rcases stops.stop with enough | none
    · exact .inl (Int.ofNat_le.mpr enough)
    · right
      have total := (rounds_size order (s := (0, c, a)) wf k).1
      rw [evictableSize_no_leaves (rounds_wf order wf k) none] at total
      rw [Int.add_zero] at total
      rw [total]
      exact (Int.zero_add _).ge

end RadixCache

namespace TriaxialAllocator
variable {R : Rounding} {a : TriaxialAllocator} {int2Fraction : ℚ}

theorem int4Share_pos (R : Rounding) (int2Fraction : ℚ) : 0 < int4Share R int2Fraction := by
  have near := (abs_le.mp (R.near (5 / 100) (by norm_num))).1
  exact lt_max_of_lt_right (by linarith)

theorem admissionSize_share (R : Rounding) (a : TriaxialAllocator) (int2Fraction : ℚ) : int4Share R int2Fraction * a.admissionSize R int2Fraction ≤
    a.freeSlots4.length + (a.freeSlots4.length : ℚ) / 2 ^ 53 := by
  have pos := int4Share_pos R int2Fraction
  have nonneg : (0 : ℚ) ≤ a.freeSlots4.length := Nat.cast_nonneg _
  unfold admissionSize
  generalize int4Share R int2Fraction = share at *
  have floor : ((min a.availableSize ⌊R.round (a.freeSlots4.length / share)⌋ : Int) : ℚ) ≤ R.round (a.freeSlots4.length / share) :=
    (Int.cast_le.mpr (min_le_right _ _)).trans (Int.floor_le _)
  have near := (abs_le.mp (R.near (a.freeSlots4.length / share) (div_nonneg nonneg pos.le))).2
  have scaled := mul_le_mul_of_nonneg_left (floor.trans (sub_le_iff_le_add.mp near)) pos.le
  have exact : share * ((a.freeSlots4.length : ℚ) / share / 2 ^ 53 + a.freeSlots4.length / share) =
      a.freeSlots4.length + (a.freeSlots4.length : ℚ) / 2 ^ 53 := by
    field_simp
    ring
  exact scaled.trans_eq exact

theorem demand_covered {n demand evicted slots4 : Nat} {evictable : Int} (small : a.freeSlots4.length < 2 ^ 53)
    (asked : (demand : ℚ) ≤ int4Share R int2Fraction * n) (admitted : (n : Int) ≤ a.admissionSize R int2Fraction + evictable)
    (gained : (a.freeSlots4.length : ℚ) + int4Share R int2Fraction * evicted ≤ slots4)
    (reached : (n : Int) ≤ evicted ∨ evictable ≤ evicted) : demand ≤ slots4 := by
  have pos := int4Share_pos R int2Fraction
  have estimate := admissionSize_share R a int2Fraction
  generalize int4Share R int2Fraction = share at *
  rcases reached with all | _
  · have tokens : (n : ℚ) ≤ evicted := by exact_mod_cast all
    have : share * n ≤ share * evicted := mul_le_mul_of_nonneg_left tokens pos.le
    have : (demand : ℚ) ≤ slots4 := by linarith
    exact_mod_cast this
  · have tokens : (n : ℚ) ≤ a.admissionSize R int2Fraction + evicted := by
      exact_mod_cast admitted.trans (by omega)
    have : share * n ≤ share * (a.admissionSize R int2Fraction + evicted) := mul_le_mul_of_nonneg_left tokens pos.le
    have error : (a.freeSlots4.length : ℚ) / 2 ^ 53 < 1 := by
      rw [div_lt_one (by norm_num)]
      exact_mod_cast small
    have : (demand : ℚ) < slots4 + 1 := by linarith
    exact Nat.lt_succ_iff.mp (by exact_mod_cast this)

end TriaxialAllocator

theorem allocReqSlots_fresh (fresh : ∀ r ∈ reqs, r.reqPoolIdx = none)
    (room : reqs.length ≤ pool.freeSlots.length) : ∃ indices, (allocReqSlots pool reqs).1 = .ok indices := by
  have new : reqs.filter (·.reqPoolIdx.isSome) = [] := by
    apply filter_eq_nil_iff.mpr
    intro r mem
    simp [fresh r mem]
  unfold allocReqSlots ReqToTokenPool.alloc
  simp only [new, all_nil, if_true, length_nil, Nat.sub_zero]
  rw [if_neg (Nat.not_lt.mpr room)]
  exact ⟨_, rfl⟩

theorem allocForExtend_ok {order : EvictionOrder} {a : TriaxialAllocator} {out indices : List Nat} (slots : (allocReqSlots pool reqs).1 = .ok indices)
    (tokens : (allocTokenSlotsTriaxial order c a (reqs.map extendReq)).1 = .ok out) :
    (allocForExtend order c a pool reqs).1 = .ok (out, indices) := by
  have first : allocReqSlots pool reqs = (.ok indices, (allocReqSlots pool reqs).2) := Prod.ext slots rfl
  have second : allocTokenSlotsTriaxial order c a (reqs.map extendReq) =
      (.ok out, (allocTokenSlotsTriaxial order c a (reqs.map extendReq)).2) := Prod.ext tokens rfl
  unfold allocForExtend
  rw [first, second]

namespace PrefillAdder

/-- The INT4 slots that the batch of `s` needs with the pages that are free. -/
def int4Demand (s : PrefillAdder) : Nat :=
  let reqs := s.canRunList.map extendReq
  s.allocator.int4Need (bitsFlat reqs) (extendLens reqs)

theorem tokenSlots_of_inv {R : Rounding} {s : PrefillAdder} (order : EvictionOrder) (inv : Inv R start s)
    (closed : s.allocator.isNotInFreeGroup = true) (small : s.allocator.freeSlots4.length < 2 ^ 53)
    (demand : (s.int4Demand : ℚ) ≤ TriaxialAllocator.int4Share R s.int2Fraction * s.batchTokens)
    (yields : s.treeCache.Yields (TriaxialAllocator.int4Share R s.int2Fraction) s.allocator.pool.offset) :
    ∃ out, (allocTokenSlotsTriaxial order s.treeCache s.allocator (s.canRunList.map extendReq)).1 = .ok out := by
  apply tokenSlots_first
  rw [allocMixed_isSome _ (sum_extendLens _), evictFromTree_triaxial]
  unfold int4Demand TriaxialAllocator.int4Need pagesTaken at demand
  have tokens : (bitsFlat (s.canRunList.map extendReq)).length = s.batchTokens := length_bitsFlat _
  have count : extendNumTokens (s.canRunList.map extendReq) = s.batchTokens := rfl
  dsimp only at demand
  rw [tokens] at demand ⊢
  rw [count]
  generalize pageDemand (bitsFlat (s.canRunList.map extendReq)) (extendLens (s.canRunList.map extendReq)) = pages at *
  unfold TriaxialAllocator.supply
  split
  · -- an eviction runs
    obtain ⟨gains, reached⟩ := RadixCache.evict_gains order inv.wf inv.disabled closed yields s.batchTokens
    have more := gains.pages
    have gained := gains.slots4
    simp only [Nat.cast_zero, sub_zero] at gained more
    by_cases empty : s.canRunList = []
    · have : s.batchTokens = 0 := by simp [batchTokens, empty, extendNumTokens]
      omega
    · have covered := TriaxialAllocator.demand_covered small demand (inv.budget empty) gained reached
      omega
  · next roomy =>
    have int4 := Int.not_lt.mp (not_or.mp roomy).2
    unfold TriaxialAllocator.availableSizeInt4 at int4
    dsimp only
    omega

section
variable (R : Rounding) (order : EvictionOrder) {tree : RadixCache} {allocator : TriaxialAllocator} {int2Fraction : ℚ}
  {running : List Req} {ratio : ℚ} {clip : Int} (contextParallel : Bool) (prefillMaxRequests : Option Nat) (remInput : Int)
  (remChunk : Option Int) (mixed : Nat)

/-- Admission is safe where the batch needs at most `int4_share` of its tokens as INT4 slots and no unlocked node holds fewer. -/
theorem allocForExtend_of_admitted (wf : tree.Wf) (disabled : tree.disable = true → tree.evictableSize = 0)
    (nonneg : 0 ≤ ratio) (clipped : 0 ≤ clip) (unfinished : ∀ r ∈ running, r.outputLen ≤ r.maxNewTokens)
    (bounded : allocator.admissionSize R int2Fraction + tree.evictableSize ≤ 2 ^ 53)
    (closed : allocator.isNotInFreeGroup = true) (small : allocator.freeSlots4.length < 2 ^ 53) {s : PrefillAdder}
    (reachable : Reachable (step R) Allowed (create R 1 tree allocator int2Fraction running ratio clip contextParallel
      prefillMaxRequests remInput remChunk mixed) s)
    (demand : (s.int4Demand : ℚ) ≤ TriaxialAllocator.int4Share R int2Fraction * s.batchTokens)
    (yields : s.treeCache.Yields (TriaxialAllocator.int4Share R int2Fraction) allocator.pool.offset)
    {pool : ReqToTokenPool} (room : s.canRunList.length ≤ pool.freeSlots.length) :
    ∃ out, (allocForExtend order s.treeCache s.allocator pool s.canRunList).1 = .ok out := by
  have initial := create_inv R allocator int2Fraction contextParallel prefillMaxRequests remInput remChunk mixed wf disabled
    nonneg clipped unfinished bounded
  have inv := reachable.invariant _ initial (fun _ _ => step_inv)
  have pools : s.allocator = allocator := inv.fixed.allocator
  have fraction : s.int2Fraction = int2Fraction := inv.fixed.int2Fraction
  rw [← pools] at closed small yields
  rw [← fraction] at demand yields
  obtain ⟨out, tokens⟩ := tokenSlots_of_inv order inv closed small demand yields
  obtain ⟨_, slots⟩ := allocReqSlots_fresh inv.fresh room
  exact ⟨_, allocForExtend_ok slots tokens⟩

end

namespace AdmissionExample

def tree : RadixCache := ⟨false, 1, [], [], 0, 0⟩

def adder : PrefillAdder := create .none 1 tree (.clear (.ofSize .none 64 (1 / 2))) (1 / 2) [] 1 4096 false none 16384 none 0

def request (bits : List Nat) (maxNewTokens : Nat) : Req := ⟨some bits, bits.length, 0, 0, bits.length, maxNewTokens, false, 0, none, 0, 0, 0, 0⟩

theorem tree_wf : tree.Wf where
  ids := by decide
  root := by decide
  parents := ⟨id, by decide⟩
  siblings := by decide
  keys := by decide
  locks := by decide
  lockSum := by decide
  leavesNodup := by decide
  leaves := leaves_of_listed (by decide) (by decide)
  evictable := by decide
  locked := by decide

def after (bits : List Nat) (maxNewTokens : Nat) : PrefillAdder := adder.step .none (.add (request bits maxNewTokens) false none)

theorem reachable_after (bits : List Nat) (maxNewTokens : Nat) : Reachable (step .none) Allowed adder (after bits maxNewTokens) :=
  .step .start ⟨.inl rfl, rfl⟩

end AdmissionExample

open AdmissionExample in
/-- 40 INT4 and 10 new tokens are admitted, but only 32 INT4 slots are there. -/
theorem admitted_without_slots : ∃ s, Reachable (step .none) Allowed adder s ∧ s.canRunList.length = 1 ∧
    ¬ ∃ out, (allocForExtend (.ofStrategy .lru) s.treeCache s.allocator ⟨[0]⟩ s.canRunList).1 = .ok out := by
  refine ⟨_, reachable_after (replicate 40 4) 10, by decide +kernel, ?_⟩
  intro returns
  obtain ⟨out, returned⟩ := returns
  let s := after (replicate 40 4) 10
  have failed : (allocForExtend (.ofStrategy .lru) s.treeCache s.allocator ⟨[0]⟩ s.canRunList).1.isOk = false := by
    decide +kernel
  rw [returned] at failed
  cases failed

namespace AdmissionExample

/-- 56 of 64 INT4 slots are held by a node and its child. -/
def heldTree : RadixCache where
  disable := false
  pageSize := 1
  nodes := [⟨1, 0, ⟨range 24, none⟩, range' 97 24, 0, 0, 0, 0, 0⟩, ⟨2, 1, ⟨range' 24 32, none⟩, range' 121 32, 0, 0, 0, 0, 0⟩]
  evictableLeaves := [2]
  evictableSize := 56
  protectedSize := 0

def heldAllocator : TriaxialAllocator := ((TriaxialAllocator.clear (.ofSize .none 128 (1 / 2))).alloc 56).2

def heldAdder : PrefillAdder := create .none 1 heldTree heldAllocator (1 / 2) [] 1 4096 false none 16384 none 0

theorem heldTree_wf : heldTree.Wf where
  ids := by decide
  root := by decide
  parents := ⟨id, by decide⟩
  siblings := by decide
  keys := by decide
  locks := by decide
  lockSum := by decide
  leavesNodup := by decide
  leaves := leaves_of_listed (by decide) (by decide)
  evictable := by decide
  locked := by decide

/-- 32 INT2 and 20 INT4 tokens. -/
def heldRequest : Req := request (replicate 32 2 ++ replicate 20 4) 8

end AdmissionExample

open AdmissionExample in
/-- The 8 free INT4 slots are too few for the admitted request, and an eviction finds the others. -/
theorem allocForExtend_of_admitted_evicting : let s := heldAdder.step .none (.add heldRequest false none)
    s.canRunList.length = 1 ∧ s.allocator.freeSlots4.length < s.int4Demand ∧
      ∃ out, (allocForExtend (.ofStrategy .lru) s.treeCache s.allocator ⟨[0]⟩ s.canRunList).1 = .ok out := by
  intro s
  have reachable : Reachable (step .none) Allowed heldAdder s := .step .start ⟨.inl rfl, rfl⟩
  have nodes : s.treeCache.nodes = heldTree.nodes := by decide +kernel
  refine ⟨by decide +kernel, by decide +kernel, ?_⟩
  refine allocForExtend_of_admitted .none _ false none 16384 none 0 heldTree_wf (fun on => absurd on (by decide)) (by norm_num) (by norm_num) ?_
    (by decide +kernel) (by decide +kernel) (by decide +kernel) reachable (by decide +kernel) ?_ (by decide +kernel)
  · exact nofun
  · unfold Yields
    rw [nodes]
    decide +kernel

section
variable {states : List (ℚ × Nat)} {entry : ℚ × Nat} {R : Rounding} {s : PrefillAdder} {req : Req}

theorem insertIndex_cons {first : ℚ × Nat} (less : ¬ entry.1 ≤ first.1) (filled : states ≠ []) :
    insertIndex (first :: states) entry.1 = insertIndex states entry.1 + 1 := by
  have := length_pos_iff.mpr filled
  unfold insertIndex
  rw [findIdx_cons, decide_eq_false less, cond_false, length_cons]
  omega

theorem sorted_insert_iff (sorted : states.Pairwise (·.1 ≤ ·.1)) :
    (states.insertIdx (insertIndex states entry.1) entry).Pairwise (·.1 ≤ ·.1) ↔ states = [] ∨ ∃ x ∈ states, entry.1 ≤ x.1 := by
  induction states with
  | nil => simp [insertIndex]
  | cons first states ih =>
    obtain ⟨least, rest⟩ := pairwise_cons.mp sorted
    by_cases le : entry.1 ≤ first.1
    · have below : ∀ x ∈ states, entry.1 ≤ x.1 := fun x mem => le.trans (least x mem)
      have start : insertIndex (first :: states) entry.1 = 0 := by simp [insertIndex, findIdx_cons, le]
      rw [start]
      exact iff_of_true (pairwise_cons.mpr ⟨forall_mem_cons.mpr ⟨le, below⟩, sorted⟩) (.inr ⟨first, mem_cons_self, le⟩)
    · cases states with
      | nil => simp [insertIndex, le]
      | cons second states =>
        have before : ∀ x ∈ (second :: states).insertIdx (insertIndex (second :: states) entry.1) entry, first.1 ≤ x.1 := by
          intro x mem
          rcases eq_or_mem_of_mem_insertIdx mem with rfl | mem
          · exact (not_le.mp le).le
          · exact least x mem
        rw [insertIndex_cons le (cons_ne_nil _ _), insertIdx_succ_cons, pairwise_cons, and_iff_right before, ih rest]
        simp [le]

/-- The entries are in order of their tokens left. -/
def StatesSorted (s : PrefillAdder) : Prop := ∀ states, s.reqStates = some states → states.Pairwise (·.1 ≤ ·.1)

/-- The request is turned away at once, has no tokens left, or finds an entry that is as large. -/
def OrderKept (R : Rounding) (s : PrefillAdder) (req : Req) : Prop :=
  (s.ceilPagedTokens req.extendInputLen : ℚ) > min (s.curRemTokens R : ℚ) (s.remTotalTokens R) ∨
    ∀ states, s.reqStates = some states → ∀ entry, reqState R s.newTokenRatio req = some entry → states = [] ∨ ∃ x ∈ states, entry.1 ≤ x.1

def ignoreEosCall (R : Rounding) (s : PrefillAdder) (req : Req) : PrefillAdder := (s.addOneReqIgnoreEos R req).2

theorem reqStates_ignoreEosCall : (s.ignoreEosCall R req).reqStates =
    if (s.ceilPagedTokens req.extendInputLen : ℚ) > min (s.curRemTokens R : ℚ) (s.remTotalTokens R) then s.reqStates
    else some (s.addReqStates R req) := by
  unfold ignoreEosCall addOneReqIgnoreEos
  dsimp only
  split
  · rfl
  · split
    · rfl
    · split
      · rfl
      · split
        · rfl
        · split <;> rfl

theorem statesSorted_call_iff (sorted : s.StatesSorted) : (s.ignoreEosCall R req).StatesSorted ↔ OrderKept R s req := by
  unfold StatesSorted OrderKept
  rw [reqStates_ignoreEosCall]
  split
  · next away => exact ⟨fun _ => .inl away, fun _ => sorted⟩
  · next here =>
    rw [or_iff_right here]
    unfold addReqStates
    cases before : s.reqStates with
    | none =>
      refine ⟨nofun, fun _ states same => ?_⟩
      cases same
      refine (pairwise_mergeSort ?_ ?_ _).imp of_decide_eq_true
      · intro a b c
        simpa using le_trans
      · intro a b
        simpa using le_total a.1 b.1
    | some states =>
      cases reqState R s.newTokenRatio req with
      | none => exact ⟨nofun, fun _ states' same => sorted states' (before.trans same)⟩
      | some entry => simpa using sorted_insert_iff (sorted states before)

end

/-- The entries are in order after each call exactly if no call brings more tokens left than all entries have. -/
theorem statesSorted_iff (R : Rounding) {s : PrefillAdder} (fresh : s.reqStates = none) (reqs : List Req) :
    (∀ k, ((reqs.take k).foldl (ignoreEosCall R) s).StatesSorted) ↔ Guarded (ignoreEosCall R) (OrderKept R) s reqs := by
  have sorted : s.StatesSorted := fun states same => by rw [fresh] at same; cases same
  clear fresh
  induction reqs generalizing s with
  | nil => simpa [Guarded] using sorted
  | cons req reqs ih =>
    have call : (s.ignoreEosCall R req).StatesSorted ↔ _ := statesSorted_call_iff sorted
    constructor
    · intro each
      have first := each 1
      exact ⟨call.mp first, (ih first).mp (fun k => each (k + 1))⟩
    · intro guarded k
      cases k with
      | zero => exact sorted
      | succ k => exact (ih (call.mpr guarded.1)).mpr guarded.2 k

open AdmissionExample in
theorem statesSorted_three : adder.reqStates = none ∧
    ∀ k, (([request [4] 5, request [4] 2, request [4] 3].take k).foldl (ignoreEosCall .none) adder).StatesSorted := by
  have first : (ignoreEosCall .none adder (request [4] 5)).reqStates = some [(5, 1)] := by decide +kernel
  have second : (ignoreEosCall .none (ignoreEosCall .none adder (request [4] 5)) (request [4] 2)).reqStates = some [(2, 1), (5, 1)] := by
    decide +kernel
  refine ⟨rfl, (statesSorted_iff .none rfl _).mpr ⟨.inr nofun, .inr fun states same entry left => ?_, .inr fun states same entry left => ?_, trivial⟩⟩
  · cases first.symm.trans same
    have two : entry = (2, 1) := Option.some.inj (left.symm.trans (by decide +kernel))
    exact .inr ⟨(5, 1), by simp, by rw [two]; decide⟩
  · cases second.symm.trans same
    have three : entry = (3, 1) := Option.some.inj (left.symm.trans (by decide +kernel))
    exact .inr ⟨(5, 1), by simp, by rw [three]; decide⟩

open AdmissionExample in
theorem larger_entry_first : let s := [request [4] 2, request [4] 5].foldl (ignoreEosCall .none) adder
    s.reqStates = some [(5, 1), (2, 1)] ∧ ¬ s.StatesSorted := by
  have states : ([request [4] 2, request [4] 5].foldl (ignoreEosCall .none) adder).reqStates = some [(5, 1), (2, 1)] := by decide +kernel
  exact ⟨states, fun sorted => absurd (sorted _ states) (by decide +kernel)⟩

end PrefillAdder

end TriaxialKV
