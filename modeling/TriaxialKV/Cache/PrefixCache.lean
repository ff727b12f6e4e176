import TriaxialKV.Cache.TreeLocks
import TriaxialKV.Lib.PrefixMap

/-!
# The cache as a longest-prefix map

`Tracked` runs the cache with a `PrefixMap` for each extra key beside it.
-/

namespace TriaxialKV
open List RadixCache PrefixMap RadixTree

variable {chunked : Bool} {clock : Nat → Int} {key slots tokens : List Nat} {priority : Option Int} {value : Option (List Nat)}
  {extraKey : Option String}

abbrev SlotMap (pageSize : Nat) := Option String → PrefixMap Nat Nat pageSize

/-- Every run of whole pages that `tokens` starts with is in the tree. -/
def StillHeld (c : RadixCache) (pageSize : Nat) (extraKey : Option String) (tokens : List Nat) : Prop :=
  ∀ n ≤ tokens.length, pageSize ∣ n → ∃ slots, Below c extraKey 0 (tokens.take n) slots

theorem StillHeld.nil (c : RadixCache) (pageSize : Nat) (extraKey : Option String) : StillHeld c pageSize extraKey [] := by
  intro n _ _
  exact ⟨[], by rw [take_nil]; exact .here⟩

theorem StillHeld.shorter {c : RadixCache} {pageSize : Nat} {n : Nat}
    (held : StillHeld c pageSize extraKey tokens) : StillHeld c pageSize extraKey (tokens.take n) := by
  intro k le whole
  rw [length_take] at le
  rw [take_take, min_eq_left (by omega)]
  exact held k (by omega) whole

namespace SlotMap
open Classical in
noncomputable def step {pageSize : Nat} (m : SlotMap pageSize) (disable : Bool) (after : RadixCache) : CacheOp → SlotMap pageSize
  | .insert _ key value _ _ =>
    if sized : disable = false ∧ (value.getD key.tokenIds).length = key.tokenIds.length then
      Function.update m key.extraKey ((m key.extraKey).insert key.tokenIds (value.getD key.tokenIds) sized.2)
    else m
  | .evict _ _ => fun extraKey => (m extraKey).restrict (StillHeld after pageSize extraKey) (StillHeld.nil after pageSize extraKey)
    (fun held _ _ => held.shorter)
  | _ => m

def Represents {pageSize : Nat} (m : SlotMap pageSize) (c : RadixCache) : Prop :=
  ∀ extraKey tokens slots, (m extraKey).find tokens = some slots ↔ Below c extraKey 0 tokens slots

section
variable {pageSize : Nat} {m : SlotMap pageSize} {c c' : RadixCache}

section
variable (represents : m.Represents c)
include represents

theorem Represents.congr (same : ∀ extraKey tokens slots, Below c' extraKey 0 tokens slots ↔ Below c extraKey 0 tokens slots) : m.Represents c' :=
  fun extraKey tokens slots => (represents extraKey tokens slots).trans (same extraKey tokens slots).symm

theorem Represents.found (found : Found c extraKey 0 key slots) : (m extraKey).longest key = slots.length ∧ (m extraKey).slots key = slots :=
  longest_eq found.le ((represents _ _ _).mpr found.stored)
    (fun tokens slots' begins held => found.longest tokens slots' begins ((represents _ _ _).mp held))

theorem Represents.found_aligned
    (found : Found c extraKey 0 (pageAlignKeys key pageSize) slots) : (m extraKey).longest key = slots.length ∧ (m extraKey).slots key = slots := by
  obtain ⟨_, same⟩ := pageAlignKeys_begins key pageSize
  have le := found.le
  have run : (pageAlignKeys key pageSize).take slots.length = key.take slots.length := by
    conv_rhs => rw [← same]
    rw [take_append_of_le_length le]
  refine longest_eq ?_ ?_ (fun tokens slots' begins held => ?_)
  · rw [← same, length_append]
    omega
  · rw [← run]
    exact (represents _ _ _).mpr found.stored
  · exact found.longest tokens slots' (begins_pageAlignKeys ((m extraKey).shape held).1 begins) ((represents _ _ _).mp held)

theorem Represents.restrict (wf : c.Wf) (aligned : c.Aligned) (wf' : c'.Wf) (aligned' : c'.Aligned)
    (size : c'.pageSize = pageSize) (fewer : Embeds c' c) (disable : Bool) (order : EvictionOrder) (numTokens : Nat) :
    (m.step disable c' (.evict order numTokens)).Represents c' := by
  intro extraKey tokens slots
  unfold step
  rw [find_restrict, represents]
  constructor
  · rintro ⟨held, before⟩
    obtain ⟨_, after⟩ := held tokens.length (le_refl _) (((represents _ _ _).mpr before |> (m extraKey).shape).1)
    rw [take_length] at after
    rwa [before.unique wf aligned (after.mono fewer)]
  · intro after
    refine ⟨fun n le whole => ⟨slots.take n, ?_⟩, after.mono fewer⟩
    exact after.take wf' aligned' (by rwa [size]) le

end

end

end SlotMap

structure Tracked (α : Type) (pageSize : Nat) where
  cache : CacheState α
  map : SlotMap pageSize

def CacheOp.Whole (pageSize : Nat) : CacheOp → Prop
  | .insert _ key _ _ _ => pageSize ∣ key.tokenIds.length
  | _ => True

def CacheOp.Sized : CacheOp → Prop
  | .insert _ key value _ _ => (value.getD key.tokenIds).length = key.tokenIds.length
  | _ => True

def CacheOp.writes (extraKey : Option String) : CacheOp → Bool
  | .insert _ key _ _ _ => key.extraKey = extraKey
  | _ => false

def CacheOp.evicts : CacheOp → Bool
  | .evict _ _ => true
  | _ => false

namespace Tracked
variable {α : Type} [SlotAllocator α] {pageSize : Nat}

noncomputable def step (s : Tracked α pageSize) (op : CacheOp) : Tracked α pageSize :=
  ⟨s.cache.step op, s.map.step s.cache.tree.disable (s.cache.step op).tree.toRadixCache op⟩

def guard (s : Tracked α pageSize) (op : CacheOp) : Prop := s.cache.guard op ∧ op.Whole pageSize ∧ op.Sized

def start (disable : Bool) (pageSize : Nat) (enableKvCacheEvents : Bool) (hasher : BlockHash) (allocator : α) : Tracked α pageSize :=
  ⟨.start disable pageSize enableKvCacheEvents hasher allocator, fun _ => .nil Nat Nat pageSize⟩

structure Inv (disable : Bool) (s : Tracked α pageSize) : Prop where
  cache : s.cache.Inv disable pageSize
  wf : s.cache.tree.Wf
  aligned : s.cache.tree.Aligned
  represents : s.map.Represents s.cache.tree.toRadixCache

theorem below_of_empty {c : RadixCache} (none : c.nodes = []) {id : Nat} : Below c extraKey id tokens slots ↔ tokens = [] ∧ slots = [] := by
  constructor
  · intro below
    cases below with
    | here => exact ⟨rfl, rfl⟩
    | part mem => rw [none] at mem; cases mem
    | full mem => rw [none] at mem; cases mem
  · rintro ⟨rfl, rfl⟩
    exact .here

omit [SlotAllocator α] in
theorem Inv.start (disable : Bool) (pageSize : Nat) (enableKvCacheEvents : Bool) (hasher : BlockHash) (allocator : α) :
    (Tracked.start disable pageSize enableKvCacheEvents hasher allocator).Inv disable := by
  refine ⟨.start .., init_wf .., fun _ mem => (by cases mem), fun extraKey tokens slots => ?_⟩
  rw [below_of_empty rfl]
  exact find_nil

section
variable {disable : Bool} {s : Tracked α pageSize}

theorem step_insert (pos : 0 < pageSize) (inv : s.Inv disable) {key : RadixKey} (allowed : s.guard (.insert clock key value priority chunked)) :
    (s.step (.insert clock key value priority chunked)).cache.tree.Aligned ∧ (s.step (.insert clock key value priority chunked)).map.Represents
        (s.step (.insert clock key value priority chunked)).cache.tree.toRadixCache := by
  let s' := s.step (.insert clock key value priority chunked)
  have sized : (value.getD key.tokenIds).length = key.tokenIds.length := allowed.2.2
  have whole : pageSize ∣ key.tokenIds.length := allowed.2.1
  obtain ⟨cache, wf, aligned, represents⟩ := inv
  cases disable with
  | true =>
    have tree : s'.cache.tree = s.cache.tree := CacheState.step_of_disabled cache.setting _
    have map : s'.map = s.map := dif_neg (fun on => absurd cache.setting (by simp [on.1]))
    rw [tree, map]
    exact ⟨aligned, represents⟩
  | false =>
    have map : s'.map =
        Function.update s.map key.extraKey ((s.map key.extraKey).insert key.tokenIds (value.getD key.tokenIds) sized) :=
      dif_pos ⟨cache.setting, sized⟩
    have size := cache.size
    obtain ⟨_, longest, _, aligned', stored⟩ := insert_found clock priority chunked cache.setting wf
      (by rw [size]; exact pos) aligned (by rw [size]; exact whole) sized
    obtain ⟨length, slots⟩ := represents.found longest
    refine ⟨aligned', fun extraKey tokens slots' => ?_⟩
    refine Iff.trans ?_ (stored extraKey tokens slots').symm
    rw [map, size]
    by_cases same : extraKey = key.extraKey
    · subst same
      rw [Function.update_self, find_insert, represents, length, slots]
      exact or_congr_right ⟨fun new => ⟨rfl, new⟩, fun new => new.2⟩
    · rw [Function.update_of_ne same, represents]
      exact ⟨.inl, fun held => held.elim id (fun new => absurd new.1 same)⟩

theorem step_inv (pos : 0 < pageSize) (op : CacheOp) (inv : s.Inv disable) (allowed : s.guard op) : (s.step op).Inv disable := by
  have cache := CacheState.step_inv pos op inv.cache allowed.1
  have wf := inv.wf
  have pos' : 0 < s.cache.tree.pageSize := by rw [inv.cache.size]; exact pos
  -- a step that leaves every node at its place changes nothing that is stored
  have still {t : RadixTree} (accounts : t.bare.Wf)
      (embeds : Embeds s.cache.tree.toRadixCache t.toRadixCache ∧ Embeds t.toRadixCache s.cache.tree.toRadixCache) :
      t.Wf ∧ t.Aligned ∧ s.map.Represents t.toRadixCache := by
    refine ⟨accounts.of_bare (fun n mem => ?_), embeds.2.aligned inv.aligned,
      inv.represents.congr (fun _ _ _ => ⟨fun below => below.mono embeds.2, fun below => below.mono embeds.1⟩)⟩
    obtain ⟨m, lt, _, _, key, value⟩ := embeds.2.nodes n mem
    rw [← key, ← value]
    exact (wf.keys m lt).1
  cases op with
  | insert clock key value priority chunked =>
    obtain ⟨aligned, represents⟩ := step_insert pos inv allowed
    exact ⟨cache, (insert_grows clock priority chunked wf pos' allowed.2.2).wf wf, aligned, represents⟩
  | matchPrefix clock key =>
    have steps := (match_steps clock key wf pos').1
    exact ⟨cache, steps.wf wf, steps.aligned wf inv.aligned, inv.represents.congr (fun _ _ _ => steps.below_iff wf (.inl rfl))⟩
  | incLockRef id =>
    obtain ⟨wf', aligned, represents⟩ := still (t := s.cache.tree.incLockRef id) cache.accounts.wf (incLock_embeds _ id)
    exact ⟨cache, wf', aligned, represents⟩
  | decLockRef id =>
    obtain ⟨wf', aligned, represents⟩ := still (t := s.cache.tree.decLockRef id) cache.accounts.wf (decLock_embeds _ id)
    exact ⟨cache, wf', aligned, represents⟩
  | evict order numTokens =>
    obtain ⟨wf', fewer⟩ := evict_rule (fun (t : RadixTree) (_ : α) => Embeds t.toRadixCache s.cache.tree.toRadixCache)
      (fun t _ x _ _ before => by
        rw [evictLeaf_cache]
        refine Embeds.trans (embeds_of_subset (t.delete_settings x).2.symm (fun n mem => ?_)) before
        rw [nodes_delete] at mem
        exact (mem_filter.mp mem).1) order numTokens (a := s.cache.allocator) wf
      (embeds_of_subset rfl (fun _ mem => mem))
    have aligned' := fewer.aligned inv.aligned
    exact ⟨cache, wf', aligned', inv.represents.restrict wf inv.aligned wf' aligned' cache.size fewer s.cache.tree.disable order numTokens⟩

omit [SlotAllocator α] in
theorem Inv.match_eq (pos : 0 < pageSize) (inv : s.Inv disable) (clock : Nat → Int) (key : RadixKey) :
    (s.cache.tree.matchPrefix clock key).1.deviceIndices = (s.map key.extraKey).slots key.tokenIds := by
  obtain ⟨cache, wf, aligned, represents⟩ := inv
  have size := cache.size
  have found : Found s.cache.tree.toRadixCache key.extraKey 0 (pageAlignKeys key.tokenIds pageSize)
      (s.cache.tree.matchPrefix clock key).1.deviceIndices := by
    cases disable with
    | true =>
      have none : (s.cache.tree.matchPrefix clock key).1.deviceIndices = [] := by simp [RadixTree.matchPrefix, cache.setting]
      rw [none]
      refine ⟨Nat.zero_le _, .here, fun tokens slots _ below => ?_⟩
      rw [((below_of_empty (cache.idle rfl)).mp below).1]
    | false =>
      have walked := (matchPrefix_found clock key cache.setting wf (by rw [size]; exact pos) aligned).1
      rwa [size] at walked
  exact (represents.found_aligned found).2.symm

omit [SlotAllocator α] in
theorem Inv.insert_eq (pos : 0 < pageSize) (inv : s.Inv disable) {key : RadixKey} (allowed : s.guard (.insert clock key value priority chunked)) :
    (s.cache.tree.insert clock key value priority chunked).1 = (s.map key.extraKey).longest key.tokenIds := by
  obtain ⟨cache, wf, aligned, represents⟩ := inv
  have size := cache.size
  cases disable with
  | true =>
    have none : (s.cache.tree.insert clock key value priority chunked).1 = 0 := by simp [RadixTree.insert, cache.setting]
    have found : Found s.cache.tree.toRadixCache key.extraKey 0 key.tokenIds [] := by
      refine ⟨Nat.zero_le _, .here, fun tokens slots _ below => ?_⟩
      rw [((below_of_empty (cache.idle rfl)).mp below).1]
    rw [none, (represents.found found).1]
    rfl
  | false =>
    obtain ⟨found, longest, result, _⟩ := insert_found clock priority chunked cache.setting wf
      (by rw [size]; exact pos) aligned (by rw [size]; exact allowed.2.1) allowed.2.2
    rw [result, (represents.found longest).1]

end

section
variable {disable : Bool} {s s' : Tracked α pageSize} {extraKey : Option String} {op : CacheOp}

theorem map_step_other (quiet : op.writes extraKey = false) (stays : op.evicts = false) : (s.step op).map extraKey = s.map extraKey := by
  cases op with
  | insert clock key value priority chunked =>
    have other : extraKey ≠ key.extraKey := by
      rintro rfl
      simp [CacheOp.writes] at quiet
    change (if sized : _ then _ else s.map) extraKey = _
    split
    · exact Function.update_of_ne other _ _
    · rfl
  | evict => cases stays
  | _ => rfl

theorem map_step_same (writes : op.writes extraKey = true) (same : s.map extraKey = s'.map extraKey)
    (setting : s.cache.tree.disable = s'.cache.tree.disable) : (s.step op).map extraKey = (s'.step op).map extraKey := by
  cases op with
  | insert clock key value priority chunked =>
    obtain rfl : key.extraKey = extraKey := by simpa [CacheOp.writes] using writes
    change (if sized : _ then _ else s.map) key.extraKey = (if sized : _ then _ else s'.map) key.extraKey
    rw [setting]
    split
    · rw [Function.update_self, Function.update_self, same]
    · exact same
  | _ => cases writes

theorem run_writes (pos : 0 < pageSize) {ops : List CacheOp} (inv : s.Inv disable) (inv' : s'.Inv disable)
    (same : s.map extraKey = s'.map extraKey) (guarded : Runs.Guarded step guard s ops) (stays : ∀ op ∈ ops, op.evicts = false) :
    (ops.foldl step s).Inv disable ∧ ((ops.filter (CacheOp.writes extraKey)).foldl step s').Inv disable ∧
      (ops.foldl step s).map extraKey = ((ops.filter (CacheOp.writes extraKey)).foldl step s').map extraKey := by
  induction ops generalizing s s' with
  | nil => exact ⟨inv, inv', same⟩
  | cons op ops ih =>
    obtain ⟨allowed, later⟩ := guarded
    have after := step_inv pos op inv allowed
    have stays' : ∀ op ∈ ops, op.evicts = false := fun op mem => stays op (mem_cons_of_mem _ mem)
    cases writes : op.writes extraKey with
    | false =>
      rw [filter_cons_of_neg (by simp [writes])]
      exact ih after inv' ((map_step_other writes (stays op mem_cons_self)).trans same) later stays'
    | true =>
      have allowed' : s'.guard op := by
        cases op with
        | insert => exact allowed
        | _ => cases writes
      rw [filter_cons_of_pos writes]
      exact ih after (step_inv pos op inv' allowed')
        (map_step_same writes same (inv.cache.setting.trans inv'.cache.setting.symm)) later stays'

end

/-- The tree holds the runs that insertions left, with their first slots, and answers by the longest of them under the same extra key. -/
theorem longest_prefix_map (positive : 0 < pageSize) (disable enableKvCacheEvents : Bool) (hasher : BlockHash) (allocator : α)
    {s : Tracked α pageSize} (reachable : Runs.Reachable step guard (start disable pageSize enableKvCacheEvents hasher allocator) s) :
    (∀ extraKey tokens slots, (s.map extraKey).find tokens = some slots ↔ Below s.cache.tree.toRadixCache extraKey 0 tokens slots) ∧
      (∀ clock key, (s.cache.tree.matchPrefix clock key).1.deviceIndices = (s.map key.extraKey).slots key.tokenIds) ∧
      (∀ clock key value priority chunked, s.guard (.insert clock key value priority chunked) →
        (s.cache.tree.insert clock key value priority chunked).1 = (s.map key.extraKey).longest key.tokenIds) ∧
      ∀ ops, Runs.Guarded step guard s ops → (∀ op ∈ ops, op.evicts = false) → ∀ key clock,
        ((ops.foldl step s).cache.tree.matchPrefix clock key).1.deviceIndices =
          (((ops.filter (CacheOp.writes key.extraKey)).foldl step s).cache.tree.matchPrefix clock key).1.deviceIndices ∧
        ∀ value priority chunked, s.guard (.insert clock key value priority chunked) →
          ((ops.foldl step s).cache.tree.insert clock key value priority chunked).1 =
            (((ops.filter (CacheOp.writes key.extraKey)).foldl step s).cache.tree.insert clock key value priority chunked).1 := by
  have inv : s.Inv disable := reachable.invariant _ (.start disable pageSize enableKvCacheEvents hasher allocator)
    (fun _ op before allowed => step_inv positive op before allowed)
  refine ⟨inv.represents, inv.match_eq positive, fun clock key value priority chunked allowed => inv.insert_eq positive allowed, ?_⟩
  intro ops guarded stays key clock
  obtain ⟨after, after', same⟩ := run_writes positive inv inv (rfl : s.map key.extraKey = s.map key.extraKey) guarded stays
  refine ⟨?_, fun value priority chunked allowed => ?_⟩
  · rw [after.match_eq positive, after'.match_eq positive, same]
  · rw [after.insert_eq positive allowed, after'.insert_eq positive allowed, same]

theorem longest_prefix_map_two_spaces :
    ∃ s : Tracked KVAllocator 2, Runs.Reachable step guard (start false 2 false ⟨fun _ _ => 0, fun _ => 0⟩ (.token (.clear 8 false))) s ∧
      (s.cache.tree.matchPrefix (fun _ => 3) ⟨[1, 2, 3, 4, 5], none⟩).1.deviceIndices = [4, 5, 6, 7] ∧
      (s.cache.tree.matchPrefix (fun _ => 3) ⟨[1, 2, 3, 4, 5], some "a"⟩).1.deviceIndices = [2, 3] ∧
      (s.cache.tree.matchPrefix (fun _ => 3) ⟨[1, 2, 3, 4, 5], none⟩).1.deviceIndices = (s.map none).slots [1, 2, 3, 4, 5] := by
  have guarded : Runs.Guarded step guard (start false 2 false ⟨fun _ _ => 0, fun _ => 0⟩ (KVAllocator.token (.clear 8 false)))
      [.insert (fun _ => 0) ⟨[1, 2, 3, 4], none⟩ (some [4, 5, 6, 7]) none false, .matchPrefix (fun _ => 1) ⟨[1, 2, 9], none⟩,
        .insert (fun _ => 2) ⟨[1, 2], some "a"⟩ (some [2, 3]) none false] :=
    ⟨⟨trivial, by unfold CacheOp.Whole; decide, rfl⟩, ⟨trivial, trivial, trivial⟩, ⟨trivial, by unfold CacheOp.Whole; decide, rfl⟩, trivial⟩
  have reachable := guarded.reachable .start
  exact ⟨_, reachable, by decide +kernel, by decide +kernel, (longest_prefix_map Nat.two_pos _ _ _ _ reachable).2.1 _ _⟩

end Tracked

/-- A lookup splits a node, and the next eviction frees only a part of it. -/
theorem lookup_changes_eviction :
    let start : CacheState KVAllocator := .start false 1 false ⟨fun _ _ => 0, fun _ => 0⟩ (.token (.clear 8 false))
    let insert : CacheOp := .insert (fun _ => 0) ⟨[1, 2, 3], none⟩ (some [1, 2, 3]) none false
    let lookup : CacheOp := .matchPrefix (fun _ => 1) ⟨[1, 2], none⟩
    let evict : CacheOp := .evict (.ofStrategy .lru) 1
    (Runs.Guarded CacheState.step CacheState.guard start [insert, lookup, evict] ∧
        Runs.Guarded CacheState.step CacheState.guard start [insert, evict]) ∧
      (([insert, lookup, evict].foldl CacheState.step start).tree.matchPrefix (fun _ => 2) ⟨[1, 2], none⟩).1.deviceIndices = [1, 2] ∧
      (([insert, evict].foldl CacheState.step start).tree.matchPrefix (fun _ => 2) ⟨[1, 2], none⟩).1.deviceIndices = [] := by
  refine ⟨⟨⟨trivial, trivial, trivial, trivial⟩, trivial, trivial, trivial⟩, ?_⟩
  decide +kernel

end TriaxialKV
