import TriaxialKV.Cache.TreeRuns
import TriaxialKV.Cache.KVAllocator

/-! # Locks over whole runs -/

namespace TriaxialKV
open List RadixTree

variable {child x : TreeNode} {l id : Nat}

namespace RadixCache

def chainFrom (c : RadixCache) : Nat → Nat → List Nat
  | 0, _ => []
  | fuel + 1, id =>
    match c.node? id with
    | none => []
    | some n => n.id :: chainFrom c fuel n.parent

/-- `m` lies in the subtree of `n` when `n.id ∈ c.chain m.id`. -/
def chain (c : RadixCache) (id : Nat) : List Nat := c.chainFrom c.nodes.length id

theorem bare_chain (c : RadixCache) (id : Nat) : c.bare.chain id = c.chain id := by
  have walk (fuel : Nat) : c.bare.chainFrom fuel id = c.chainFrom fuel id := by
    induction fuel generalizing id with
    | zero => rfl
    | succ fuel ih =>
      unfold chainFrom
      rw [bare_node?]
      cases c.node? id with
      | none => rfl
      | some n => exact congrArg (n.id :: ·) (ih n.parent)
  unfold chain
  rw [walk, show c.bare.nodes.length = c.nodes.length from length_map _]

section
variable {c c' : RadixCache} {id : Nat} {ids : List Nat}

theorem chainFrom_eq (wf : c.Wf) (up : Chain c id ids) {fuel : Nat} (enough : ids.length ≤ fuel) : c.chainFrom fuel id = ids := by
  have top : c.node? 0 = none := find?_eq_none.mpr (fun n mem => by simpa using wf.root n mem)
  induction up generalizing fuel with
  | root =>
    cases fuel with
    | zero => rfl
    | succ fuel => rw [chainFrom, top]
  | @up n ids mem _ ih =>
    cases fuel with
    | zero => cases enough
    | succ fuel =>
      rw [chainFrom, node?_of_mem wf.ids mem]
      exact congrArg (n.id :: ·) (ih (Nat.le_of_succ_le_succ enough))

theorem chain_eq (wf : c.Wf) (up : Chain c id ids) : c.chain id = ids := chainFrom_eq wf up (up.length_le wf)

theorem Wf.chain_chain (wf : c.Wf) (here : id = 0 ∨ ∃ n ∈ c.nodes, n.id = id) : Chain c id (c.chain id) := by
  obtain ⟨_, up⟩ := wf.chain here
  rwa [chain_eq wf up]

theorem Chain.mono (embeds : Embeds c c') (up : Chain c id ids) : Chain c' id ids := by
  induction up with
  | root => exact .root
  | up mem _ ih =>
    obtain ⟨m, lt, same, parent, _⟩ := embeds.nodes _ mem
    rw [← parent] at ih
    rw [← same]
    exact .up lt ih

theorem Chain.split (clock : Nat → Int) (splitLen : Nat) (wf : c.Wf) (mem : child ∈ c.nodes) (up : Chain c id ids) :
    Chain (c.splitNode clock child splitLen) id (ids.flatMap (fun j => if j = child.id then [j, c.freshId] else [j])) := by
  have nodes {n : TreeNode} := mem_splitNode clock splitLen wf.ids mem n
  induction up with
  | root => exact .root
  | @up n ids lt _ ih =>
    rw [flatMap_cons]
    by_cases same : n.id = child.id
    · obtain rfl := eq_of_id wf.ids lt mem same
      have upper : Chain (c.splitNode clock n splitLen) c.freshId _ := .up (n := c.newParent clock n splitLen) (nodes.mpr (.inl rfl)) ih
      have lower : Chain (c.splitNode clock n splitLen) n.id _ := .up (n := lowerPart splitLen c.freshId n) (nodes.mpr (.inr (.inl rfl))) upper
      rw [if_pos rfl]
      exact lower
    · rw [if_neg same]
      exact .up (nodes.mpr (.inr (.inr ⟨lt, same⟩))) ih

theorem Chain.deleteLeaf (other : x.id ∉ ids) (up : Chain c id ids) : Chain (c.deleteLeaf x) id ids := by
  induction up with
  | root => exact .root
  | @up n ids mem _ ih =>
    obtain ⟨here, rest⟩ := not_or.mp (fun found => other (mem_cons.mpr found))
    refine .up ?_ (ih rest)
    rw [nodes_delete]
    exact mem_filter.mpr ⟨mem, by simpa using Ne.symm here⟩

end

structure Accounts (c : RadixCache) (locks : List Nat) : Prop where
  wf : c.Wf
  held : ∀ l ∈ locks, l = 0 ∨ ∃ n ∈ c.nodes, n.id = l
  counts : ∀ n ∈ c.nodes, n.lockRef = (locks.countP (fun l => n.id ∈ c.chain l) : Nat)

namespace Accounts
variable {c c' : RadixCache} {locks : List Nat}

theorem chain_eq (accounts : Accounts c locks) (wf' : c'.Wf) (kept : ∀ l ids, l ∈ locks → Chain c l ids → Chain c' l ids)
    (held : l ∈ locks) : c'.chain l = c.chain l :=
  RadixCache.chain_eq wf' (kept l _ held (accounts.wf.chain_chain (accounts.held l held)))

theorem count_congr {id' : Nat} (same : ∀ l ∈ locks, id' ∈ c'.chain l ↔ id ∈ c.chain l) :
    locks.countP (fun l => id' ∈ c'.chain l) = locks.countP (fun l => id ∈ c.chain l) :=
  countP_congr (fun l held => by simpa using same l held)

section
variable (accounts : Accounts c locks)
include accounts

theorem retouch (same : Retouch c c') : Accounts c' locks := by
  have wf' := same.wf accounts.wf
  refine ⟨wf', fun l held => ?_, fun n mem => ?_⟩
  · rcases accounts.held l held with top | ⟨n, mem, rfl⟩
    · exact .inl top
    · obtain ⟨m, lt, eq⟩ := same.symm.mem mem
      exact .inr ⟨m, lt, eq.id⟩
  · obtain ⟨m, lt, eq⟩ := same.mem mem
    rw [← eq.lockRef, accounts.counts m lt, eq.id]
    congr 1
    refine (count_congr (fun l held => ?_)).symm
    rw [accounts.chain_eq wf' (fun _ _ _ up => up.mono same.embeds) held]

theorem split (clock : Nat → Int) {splitLen : Nat} (splits : c.Splits child splitLen) : Accounts (c.splitNode clock child splitLen) locks := by
  have wf := accounts.wf
  have wf' := splitNode_wf clock wf splits
  have nodes {n : TreeNode} := mem_splitNode clock splitLen wf.ids splits.member n
  have chain {l : Nat} (held : l ∈ locks) : (c.splitNode clock child splitLen).chain l =
      (c.chain l).flatMap (fun j => if j = child.id then [j, c.freshId] else [j]) :=
    RadixCache.chain_eq wf' ((wf.chain_chain (accounts.held l held)).split clock splitLen wf splits.member)
  -- the upper part is on the chains of the node, every old node on its own
  have fresh {l : Nat} (held : l ∈ locks) : c.freshId ∈ (c.splitNode clock child splitLen).chain l ↔ child.id ∈ c.chain l := by
    rw [chain held, mem_flatMap]
    constructor
    · rintro ⟨j, listed, found⟩
      split at found
      · next same => exact same ▸ listed
      · obtain ⟨n, mem, same⟩ := (wf.chain_chain (accounts.held l held)).mem_nodes j listed
        rw [mem_singleton] at found
        exact absurd (same.trans found.symm) (id_ne_freshId mem)
    · intro listed
      exact ⟨child.id, listed, by simp⟩
  have old {l : Nat} (held : l ∈ locks) {n : TreeNode} (mem : n ∈ c.nodes) :
      n.id ∈ (c.splitNode clock child splitLen).chain l ↔ n.id ∈ c.chain l := by
    have other := id_ne_freshId mem
    rw [chain held, mem_flatMap]
    constructor
    · rintro ⟨j, listed, found⟩
      split at found
      · rcases mem_cons.mp found with same | new
        · exact same ▸ listed
        · exact absurd (mem_singleton.mp new) other
      · exact mem_singleton.mp found ▸ listed
    · intro listed
      refine ⟨n.id, listed, ?_⟩
      split <;> simp
  refine ⟨wf', fun l held => ?_, fun n mem => ?_⟩
  · rcases accounts.held l held with top | ⟨n, mem, rfl⟩
    · exact .inl top
    · exact .inr ((Steps.split clock .refl splits).known wf mem)
  · rcases nodes.mp mem with rfl | rfl | ⟨before, _⟩
    · change child.lockRef = _
      rw [accounts.counts child splits.member]
      congr 1
      exact (count_congr (fun l held => fresh held)).symm
    · change child.lockRef = _
      rw [accounts.counts child splits.member]
      congr 1
      exact (count_congr (fun l held => old held splits.member)).symm
    · rw [accounts.counts n before]
      congr 1
      exact (count_congr (fun l held => old held before)).symm

theorem steps (steps : Steps c c') : Accounts c' locks := by
  induction steps with
  | refl => exact accounts
  | retouch _ same ih => exact ih.retouch same
  | split clock _ splits ih => exact ih.split clock splits

theorem addLeaf {leaf : TreeNode} (fits : c.Fits leaf) : Accounts (c.addLeaf leaf) locks := by
  have wf' := addLeaf_wf accounts.wf fits
  have chain {l : Nat} (held : l ∈ locks) : (c.addLeaf leaf).chain l = c.chain l :=
    accounts.chain_eq wf' (fun _ _ _ up => up.mono (embeds_addLeaf c leaf)) held
  refine ⟨wf', fun l held => ?_, fun n mem => ?_⟩
  · rcases accounts.held l held with top | ⟨n, mem, rfl⟩
    · exact .inl top
    · exact .inr ⟨n, by rw [addLeaf_nodes]; exact mem_append_left _ mem, rfl⟩
  · rw [addLeaf_nodes, mem_append, mem_singleton] at mem
    rcases mem with old | rfl
    · rw [accounts.counts n old]
      congr 1
      exact (count_congr (fun l held => by rw [chain held])).symm
    · rw [fits.unlocked, countP_eq_zero.mpr]
      · rfl
      · intro l held
        rw [decide_eq_true_eq, chain held]
        intro listed
        obtain ⟨m, before, same⟩ := (accounts.wf.chain_chain (accounts.held l held)).mem_nodes _ listed
        exact id_ne_freshId before (same.trans fits.fresh)

theorem grows (grows : RadixTree.Grows c c') : Accounts c' locks := by
  cases grows with
  | steps steps => exact accounts.steps steps
  | leaf steps fits => exact (accounts.steps steps).addLeaf fits

theorem not_mem_chain (mem : x ∈ c.nodes) (unlocked : x.lockRef = 0) (held : l ∈ locks) : x.id ∉ c.chain l := by
  have none := accounts.counts x mem
  rw [unlocked] at none
  have := countP_eq_zero.mp (Int.ofNat_eq_zero.mp none.symm) l held
  simpa using this

theorem deleteLeaf (leaf : c.IsLeaf x) : Accounts (c.deleteLeaf x) locks := by
  have wf' := deleteLeaf_wf accounts.wf leaf
  have free {l : Nat} (held : l ∈ locks) := accounts.not_mem_chain leaf.member leaf.unlocked held
  have chain {l : Nat} (held : l ∈ locks) : (c.deleteLeaf x).chain l = c.chain l :=
    RadixCache.chain_eq wf' ((accounts.wf.chain_chain (accounts.held l held)).deleteLeaf (free held))
  refine ⟨wf', fun l held => ?_, fun n mem => ?_⟩
  · rcases accounts.held l held with top | ⟨n, mem, rfl⟩
    · exact .inl top
    · have listed := (accounts.wf.chain_chain (.inr ⟨n, mem, rfl⟩)).mem_of_ne_zero (accounts.wf.root n mem)
      refine .inr ⟨n, ?_, rfl⟩
      rw [nodes_delete]
      exact mem_filter.mpr ⟨mem, by simpa using fun same : n.id = x.id => free held (same ▸ listed)⟩
  · rw [nodes_delete] at mem
    rw [accounts.counts n (mem_filter.mp mem).1]
    congr 1
    exact (count_congr (fun l held => by rw [chain held])).symm

end

theorem lockSum_of_counts (wf : c.Wf) {locks : List Nat} (held : ∀ l ∈ locks, l = 0 ∨ ∃ n ∈ c.nodes, n.id = l) {f : TreeNode → Int}
    (counts : ∀ n ∈ c.nodes, f n = (locks.countP (fun l => n.id ∈ c.chain l) : Nat)) {n : TreeNode} (mem : n ∈ c.nodes) :
    ((c.children n.id).map f).sum ≤ f n := by
  have listed : (c.children n.id).map f = (c.children n.id).map (fun m => ((locks.countP (fun l => m.id ∈ c.chain l) : Nat) : Int)) :=
    map_congr_left (fun m child => counts m (mem_filter.mp child).1)
  rw [listed, counts n mem]
  clear listed counts
  induction locks with
  | nil => simp
  | cons l locks ih =>
    have rest := ih (fun l' later => held l' (mem_cons_of_mem _ later))
    have here := (wf.chain_chain (held l mem_cons_self)).children_le wf mem
    have split : ∀ ms : List TreeNode, (ms.map (fun m => (((l :: locks).countP (fun l => m.id ∈ c.chain l) : Nat) : Int))).sum =
        (ms.countP (fun m => m.id ∈ c.chain l) : Nat) + (ms.map (fun m => ((locks.countP (fun l => m.id ∈ c.chain l) : Nat) : Int))).sum := by
      intro ms
      induction ms with
      | nil => rfl
      | cons m ms ih =>
        rw [map_cons, sum_cons, ih, map_cons, sum_cons, countP_cons, countP_cons]
        push_cast
        omega
    rw [split, countP_cons]
    push_cast
    simp only [decide_eq_true_eq]
    split at here
    · next through =>
      rw [if_pos through]
      omega
    · next apart =>
      rw [if_neg apart]
      omega

theorem incLockRef (accounts : Accounts c locks) (enabled : c.disable = false) (here : id = 0 ∨ ∃ n ∈ c.nodes, n.id = id) :
    Accounts (c.incLockRef id) (id :: locks) := by
  have up := accounts.wf.chain_chain here
  obtain ⟨wf', nodes⟩ := incLock_spec accounts.wf enabled up
  have embeds := (incLock_embeds c id).1
  have chain {l : Nat} (known : l = 0 ∨ ∃ n ∈ c.nodes, n.id = l) : (c.incLockRef id).chain l = c.chain l :=
    RadixCache.chain_eq wf' ((accounts.wf.chain_chain known).mono embeds)
  refine ⟨wf', fun l held => ?_, fun n mem => ?_⟩
  · rw [shifted_exists nodes]
    rcases mem_cons.mp held with rfl | old
    · exact here
    · exact accounts.held l old
  · rw [nodes, mem_map] at mem
    obtain ⟨n, mem, rfl⟩ := mem
    have old : locks.countP (fun l => n.id ∈ (c.incLockRef id).chain l) = locks.countP (fun l => n.id ∈ c.chain l) :=
      count_congr (fun l held => by rw [chain (accounts.held l held)])
    rw [shift_lockRef, shift_id, accounts.counts n mem, countP_cons, old, chain here]
    simp only [decide_eq_true_eq]
    push_cast
    rfl

theorem decLockRef (accounts : Accounts c locks) (enabled : c.disable = false) (held : id ∈ locks) : Accounts (c.decLockRef id) (locks.erase id) := by
  have wf := accounts.wf
  have up := wf.chain_chain (accounts.held id held)
  have count {n : TreeNode} (mem : n ∈ c.nodes) :
      n.lockRef = (if n.id ∈ c.chain id then 1 else 0) + ((locks.erase id).countP (fun l => n.id ∈ c.chain l) : Nat) := by
    rw [accounts.counts n mem, (perm_cons_erase held).countP_eq, countP_cons]
    simp only [decide_eq_true_eq]
    push_cast
    exact Int.add_comm _ _
  have legal : ∀ n ∈ c.nodes, n.id ∈ c.chain id → Legal 1 (-1) n.lockRef := by
    intro n mem listed
    refine .inr ⟨rfl, rfl, ?_⟩
    rw [count mem, if_pos listed]
    omega
  have after {n : TreeNode} (mem : n ∈ c.nodes) :
      (shift (-1) (c.chain id) n).lockRef = ((locks.erase id).countP (fun l => n.id ∈ c.chain l) : Nat) := by
    rw [shift_lockRef, count mem]
    split <;> omega
  have subset {l : Nat} (left : l ∈ locks.erase id) : l = 0 ∨ ∃ n ∈ c.nodes, n.id = l := accounts.held l (mem_of_mem_erase left)
  obtain ⟨counted, nodes⟩ := lockWalk_spec 1 (-1) up (up.nodup wf) wf.counted legal (up.length_le wf)
  have pageSize := (decLock_settings c id).2
  unfold RadixCache.decLockRef at pageSize ⊢
  rw [if_neg (by simp [enabled])] at pageSize ⊢
  have wf' := wf.of_shifted counted nodes pageSize (fun n mem => by rw [after mem]; omega)
    (fun n mem => by
      rw [map_map]
      exact lockSum_of_counts wf (fun l => subset) (fun n mem => after mem) mem)
  have chain {l : Nat} (left : l ∈ locks.erase id) : (lockWalk 1 (-1) c.nodes.length c id).chain l = c.chain l :=
    RadixCache.chain_eq wf' ((wf.chain_chain (subset left)).mono (embeds_shift nodes pageSize).1)
  refine ⟨wf', fun l left => ?_, fun n mem => ?_⟩
  · rw [shifted_exists nodes]
    exact subset left
  · rw [nodes, mem_map] at mem
    obtain ⟨n, mem, rfl⟩ := mem
    rw [after mem, shift_id]
    congr 1
    exact (count_congr (fun l left => by rw [chain left])).symm

end Accounts

end RadixCache

namespace CacheState
variable {α : Type} [SlotAllocator α]

structure Inv (disable : Bool) (pageSize : Nat) (s : CacheState α) : Prop where
  accounts : s.tree.bare.Accounts s.locks
  setting : s.tree.disable = disable
  size : s.tree.pageSize = pageSize
  /-- A disabled cache holds nothing. -/
  idle : disable = true → s.tree.nodes = []

omit [SlotAllocator α] in
theorem Inv.start (disable : Bool) (pageSize : Nat) (enableKvCacheEvents : Bool) (hasher : BlockHash) (allocator : α) :
    (CacheState.start disable pageSize enableKvCacheEvents hasher allocator).Inv disable pageSize :=
  ⟨⟨init_wf .., fun _ held => (by cases held), fun _ mem => (by cases mem)⟩, rfl, rfl, fun _ => rfl⟩

section
variable {disable : Bool} {pageSize : Nat} {s : CacheState α}

omit [SlotAllocator α] in
theorem known_bare (here : id = 0 ∨ ∃ n ∈ s.tree.nodes, n.id = id) : id = 0 ∨ ∃ n ∈ s.tree.bare.nodes, n.id = id := by
  rcases here with top | ⟨n, mem, same⟩
  · exact .inl top
  · exact .inr ⟨n.bare, mem_map_of_mem mem, same⟩

theorem step_of_disabled (off : s.tree.disable = true) (op : CacheOp) : (s.step op).tree = s.tree := by
  cases op with
  | insert => simp [step, RadixTree.insert, off]
  | matchPrefix => simp [step, RadixTree.matchPrefix, off]
  | incLockRef id => simp [step, RadixTree.incLockRef, RadixCache.incLockRef, off]
  | decLockRef id => simp [step, RadixTree.decLockRef, RadixCache.decLockRef, off]
  | evict => simp [step, RadixTree.evict, off]

theorem step_inv (pos : 0 < pageSize) (op : CacheOp) (inv : s.Inv disable pageSize) (allowed : s.guard op) : (s.step op).Inv disable pageSize := by
  obtain ⟨accounts, settings, size, idle⟩ := inv
  cases disable with
  | true =>
    have none := idle rfl
    have bare : s.tree.bare.nodes = [] := map_eq_nil_iff.mpr none
    have known {id : Nat} {nodes : List TreeNode} (empty : nodes = []) (here : id = 0 ∨ ∃ n ∈ nodes, n.id = id) : id = 0 := by
      rcases here with top | ⟨_, mem, _⟩
      · exact top
      · rw [empty] at mem
        cases mem
    have held : ∀ l ∈ (s.step op).locks, l = 0 := by
      cases op with
      | incLockRef id =>
        intro l lt
        rcases mem_cons.mp lt with rfl | old
        · exact known none allowed
        · exact known bare (accounts.held l old)
      | decLockRef id => exact fun l lt => known bare (accounts.held l (mem_of_mem_erase lt))
      | _ => exact fun l lt => known bare (accounts.held l lt)
    refine ⟨?_, ?_, ?_, ?_⟩ <;> rw [step_of_disabled settings op]
    · exact ⟨accounts.wf, fun l lt => .inl (held l lt), fun n mem => by rw [bare] at mem; cases mem⟩
    · exact settings
    · exact size
    · exact idle
  | false =>
    have pos' : 0 < s.tree.pageSize := by rw [size]; exact pos
    have on {t : RadixTree} : false = true → t.nodes = [] := nofun
    cases op with
    | insert clock key value priority chunked =>
      have grows : RadixTree.Grows s.tree.bare.toRadixCache (s.tree.bare.insert clock key none priority chunked).2.toRadixCache :=
        insert_grows clock priority chunked accounts.wf pos' rfl
      have settled := grows.settings
      rw [← bare_insert _ _ _ _ value] at grows settled
      exact ⟨accounts.grows grows, settled.1.trans settings, settled.2.trans size, on⟩
    | matchPrefix clock key =>
      have steps := (match_steps clock key accounts.wf pos').1
      rw [(s.tree.bare_matchPrefix clock key).1] at steps
      exact ⟨accounts.steps steps, steps.disable.trans settings, steps.pageSize.trans size, on⟩
    | incLockRef id =>
      obtain ⟨same, same'⟩ := RadixCache.incLock_settings s.tree.toRadixCache id
      have locked := accounts.incLockRef settings (known_bare allowed)
      rw [show s.tree.bare.toRadixCache.incLockRef id = _ from (s.tree.toRadixCache.bare_incLockRef id).symm] at locked
      exact ⟨locked, same.trans settings, same'.trans size, on⟩
    | decLockRef id =>
      obtain ⟨same, same'⟩ := RadixCache.decLock_settings s.tree.toRadixCache id
      have released := accounts.decLockRef settings allowed
      rw [show s.tree.bare.toRadixCache.decLockRef id = _ from (s.tree.toRadixCache.bare_decLockRef id).symm] at released
      exact ⟨released, same.trans settings, same'.trans size, on⟩
    | evict order numTokens =>
      obtain ⟨same, same'⟩ := evict_settings order accounts.wf s.allocator numTokens
      have kept := (evict_rule_bare (fun (t : RadixTree) (_ : α) => t.bare.Accounts s.locks)
        (fun t _ x _ leaf before => by
          rw [bare_evictLeaf, evictLeaf_cache]
          exact before.deleteLeaf leaf.bare) order numTokens (a := s.allocator) accounts.wf accounts).2
      exact ⟨kept, same.trans settings, same'.trans size, on⟩

theorem inv_of_reachable (pos : 0 < pageSize) {enableKvCacheEvents : Bool} {hasher : BlockHash} {allocator : α}
    (reachable : Runs.Reachable step guard (start disable pageSize enableKvCacheEvents hasher allocator) s) : s.Inv disable pageSize :=
  reachable.invariant _ (.start disable pageSize enableKvCacheEvents hasher allocator) (fun _ op before allowed => step_inv pos op before allowed)

end

/-- The lock count of a node is the number of outstanding locks in its subtree; sizes and leaves are those of the locks. -/
theorem locks_accounted {pageSize : Nat} (positive : 0 < pageSize) (disable enableKvCacheEvents : Bool) (hasher : BlockHash) (allocator : α)
    {s : CacheState α} (reachable : Runs.Reachable step guard (start disable pageSize enableKvCacheEvents hasher allocator) s) :
    (∀ n ∈ s.tree.nodes, n.lockRef = (s.locks.countP (fun l => n.id ∈ s.tree.chain l) : Nat)) ∧
      s.tree.evictableSize = ((s.tree.nodes.filter (fun n => n.lockRef = 0)).map (fun n => n.key.tokenIds.length)).sum ∧
      s.tree.protectedSize = ((s.tree.nodes.filter (fun n => 0 < n.lockRef)).map (fun n => n.key.tokenIds.length)).sum ∧
      s.tree.evictableLeaves.Nodup ∧
      (∀ id, id ∈ s.tree.evictableLeaves ↔ ∃ n ∈ s.tree.nodes, n.id = id ∧ n.lockRef = 0 ∧ ∀ m ∈ s.tree.nodes, m.parent ≠ id) ∧
      ∀ l ∈ s.locks, l = 0 ∨ ∃ n ∈ s.tree.nodes, n.id = l := by
  have accounts := (inv_of_reachable positive reachable).accounts
  have wf := accounts.wf
  have alike := s.tree.toRadixCache.alike_bare
  have inside {n : TreeNode} (member : n ∈ s.tree.nodes) : n.bare ∈ s.tree.bare.nodes := mem_map_of_mem member
  have leaf {n : TreeNode} (member : n ∈ s.tree.nodes) : n.id ∈ s.tree.evictableLeaves ↔ ¬ n.lockRef > 0 ∧ ∀ m ∈ s.tree.nodes, m.parent ≠ n.id :=
    (wf.leaf_iff (inside member)).trans (and_congr_right (fun _ => forall_mem_map))
  refine ⟨fun n member => ?_, ?_, ?_, wf.leavesNodup, fun id => ?_, fun l held => ?_⟩
  · have count := accounts.counts n.bare (inside member)
    simp only [show ∀ l, s.tree.bare.chain l = s.tree.chain l from s.tree.toRadixCache.bare_chain] at count
    exact count
  · rw [show s.tree.evictableSize = _ from wf.evictable]
    exact congrArg Nat.cast (alike.sizeOf_eq _ (fun _ => rfl))
  · have same : s.tree.nodes.filter (fun n => decide (0 < n.lockRef)) = s.tree.nodes.filter (fun n => decide (n.lockRef ≠ 0)) := by
      refine filter_congr (fun n member => ?_)
      have : 0 ≤ n.lockRef := wf.locks n.bare (inside member)
      rw [decide_eq_decide]
      omega
    rw [same, show s.tree.protectedSize = _ from wf.locked]
    exact congrArg Nat.cast (alike.sizeOf_eq _ (fun _ => rfl))
  · constructor
    · intro listed
      obtain ⟨⟨_, there, rfl⟩, _⟩ := (wf.leaves id).mp listed
      obtain ⟨n, member, rfl⟩ := mem_map.mp there
      obtain ⟨unlocked, last⟩ := (leaf member).mp listed
      have : 0 ≤ n.lockRef := wf.locks n.bare (inside member)
      exact ⟨n, member, rfl, by omega, last⟩
    · rintro ⟨n, member, rfl, unlocked, last⟩
      exact (leaf member).mpr ⟨by omega, last⟩
  · rcases accounts.held l held with top | ⟨_, there, same⟩
    · exact .inl top
    · obtain ⟨n, member, rfl⟩ := mem_map.mp there
      exact .inr ⟨n, member, same⟩

theorem locks_accounted_after_split : ∃ s : CacheState KVAllocator,
      Runs.Reachable step guard (start false 1 false ⟨fun _ _ => 0, fun _ => 0⟩ (.token (.clear 8 false))) s ∧
        s.tree.nodes.map (fun n => (n.id, n.lockRef)) = [(1, 1), (2, 1)] ∧ s.locks = [1] ∧
        ∀ n ∈ s.tree.nodes, n.lockRef = (s.locks.countP (fun l => n.id ∈ s.tree.chain l) : Nat) := by
  have guarded : Runs.Guarded step guard (start false 1 false ⟨fun _ _ => 0, fun _ => 0⟩ (KVAllocator.token (.clear 8 false)))
      [.insert (fun _ => 0) ⟨[1, 2, 3], none⟩ (some [1, 2, 3]) none false, .incLockRef 1,
        .insert (fun _ => 1) ⟨[1, 2, 9], none⟩ (some [1, 2, 4]) none false, .evict (.ofStrategy .lru) 8] :=
    ⟨trivial, by unfold guard; decide +kernel, trivial, trivial, trivial⟩
  have reachable := guarded.reachable .start
  exact ⟨_, reachable, by decide +kernel, by decide +kernel, (locks_accounted Nat.one_pos _ _ _ _ reachable).1⟩

end CacheState

end TriaxialKV
