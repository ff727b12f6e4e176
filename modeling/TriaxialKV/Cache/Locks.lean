import TriaxialKV.Cache.Evict

/-! # Locks on the tree -/

namespace TriaxialKV.RadixCache
open List

def shift (delta : Int) (ids : List Nat) (n : TreeNode) : TreeNode :=
  if n.id ∈ ids then { n with lockRef := n.lockRef + delta } else n

def relock (edge delta : Int) (c : RadixCache) (n : TreeNode) : RadixCache :=
  let size : Int := n.key.tokenIds.length
  let moved : Int := if n.lockRef = edge then delta * size else 0
  { c with
    nodes := c.nodes.map (shift delta [n.id])
    evictableSize := c.evictableSize - moved
    protectedSize := c.protectedSize + moved }

def lockNode (edge delta : Int) (c : RadixCache) (n : TreeNode) : RadixCache := (c.relock edge delta n).updateLeafStatus n.id

/-- The walk passes every node at most once, so their number bounds it. -/
def lockWalk (edge delta : Int) : Nat → RadixCache → Nat → RadixCache
  | 0, c, _ => c
  | fuel + 1, c, id =>
    if id = 0 then c else
    match c.node? id with
    | none => c
    | some n => lockWalk edge delta fuel (c.lockNode edge delta n) n.parent

def incLockRef (c : RadixCache) (id : Nat) : RadixCache :=
  if c.disable then c else c.lockWalk 0 1 c.nodes.length id

def decLockRef (c : RadixCache) (id : Nat) : RadixCache :=
  if c.disable then c else c.lockWalk 1 (-1) c.nodes.length id

theorem lockNode_settings (edge delta : Int) (c : RadixCache) (n : TreeNode) :
    (c.lockNode edge delta n).disable = c.disable ∧ (c.lockNode edge delta n).pageSize = c.pageSize := by
  unfold lockNode
  rw [leafStatus_eq]
  exact ⟨rfl, rfl⟩

theorem lockWalk_settings (edge delta : Int) (fuel : Nat) (c : RadixCache) (id : Nat) :
    (lockWalk edge delta fuel c id).disable = c.disable ∧ (lockWalk edge delta fuel c id).pageSize = c.pageSize := by
  induction fuel generalizing c id with
  | zero => exact ⟨rfl, rfl⟩
  | succ fuel ih =>
    unfold lockWalk
    split
    · exact ⟨rfl, rfl⟩
    · split
      · exact ⟨rfl, rfl⟩
      · obtain ⟨disable, pageSize⟩ := ih (c.lockNode edge delta _) _
        obtain ⟨disable', pageSize'⟩ := lockNode_settings edge delta c _
        exact ⟨disable.trans disable', pageSize.trans pageSize'⟩

theorem incLock_settings (c : RadixCache) (id : Nat) : (c.incLockRef id).disable = c.disable ∧ (c.incLockRef id).pageSize = c.pageSize := by
  unfold incLockRef
  split
  · exact ⟨rfl, rfl⟩
  · exact lockWalk_settings 0 1 _ c id

theorem decLock_settings (c : RadixCache) (id : Nat) : (c.decLockRef id).disable = c.disable ∧ (c.decLockRef id).pageSize = c.pageSize := by
  unfold decLockRef
  split
  · exact ⟨rfl, rfl⟩
  · exact lockWalk_settings 1 (-1) _ c id

structure Counted (c : RadixCache) : Prop where
  ids : (c.nodes.map (·.id)).Nodup
  root : ∀ n ∈ c.nodes, n.id ≠ 0
  leavesNodup : c.evictableLeaves.Nodup
  leaves : ∀ id, id ∈ c.evictableLeaves ↔ (∃ n ∈ c.nodes, n.id = id) ∧ ¬ c.lockRef id > 0 ∧ c.children id = []
  evictable : c.evictableSize = sizeOf (fun n => n.lockRef = 0) c.nodes
  locked : c.protectedSize = sizeOf (fun n => n.lockRef ≠ 0) c.nodes

variable {c : RadixCache} {id : Nat}

theorem Wf.counted (wf : c.Wf) : c.Counted := { wf with }

section
variable (delta : Int) (ids : List Nat) (n : TreeNode)

@[simp] theorem shift_id : (shift delta ids n).id = n.id := by
  unfold shift
  split <;> rfl

@[simp] theorem shift_parent : (shift delta ids n).parent = n.parent := by
  unfold shift
  split <;> rfl

@[simp] theorem shift_key : (shift delta ids n).key = n.key := by
  unfold shift
  split <;> rfl

@[simp] theorem shift_value : (shift delta ids n).value = n.value := by
  unfold shift
  split <;> rfl

theorem shift_lockRef : (shift delta ids n).lockRef = n.lockRef + if n.id ∈ ids then delta else 0 := by
  unfold shift
  split
  · rfl
  · exact (Int.add_zero _).symm

theorem shift_cons (fresh : id ∉ ids) : shift delta ids (shift delta [id] n) = shift delta (id :: ids) n := by
  by_cases here : n.id = id
  · subst here
    simp [shift, fresh]
  · simp [shift, here]

theorem shift_shift (epsilon : Int) : shift epsilon ids (shift delta ids n) = shift (delta + epsilon) ids n := by
  by_cases here : n.id ∈ ids
  · simp [shift, here, Int.add_assoc]
  · simp [shift, here]

end

def Legal (edge delta lock : Int) : Prop := edge = 0 ∧ delta = 1 ∧ 0 ≤ lock ∨ edge = 1 ∧ delta = -1 ∧ 1 ≤ lock

section
variable {c : RadixCache} {n : TreeNode} {edge delta : Int}

theorem lockNode_nodes (edge delta : Int) (c : RadixCache) (n : TreeNode) : (c.lockNode edge delta n).nodes = c.nodes.map (shift delta [n.id]) := by
  unfold lockNode
  rw [leafStatus_eq]
  rfl

theorem sizeOf_shift (delta : Int) (ids : (c.nodes.map (·.id)).Nodup) (mem : n ∈ c.nodes) (p : TreeNode → Bool) :
    sizeOf p (c.nodes.map (shift delta [n.id])) =
      (if p (shift delta [n.id] n) then n.key.tokenIds.length else 0) + sizeOf p (c.nodes.filter (fun m => m.id ≠ n.id)) := by
  have others : (c.nodes.filter (fun m => m.id ≠ n.id)).map (shift delta [n.id]) = c.nodes.filter (fun m => m.id ≠ n.id) := by
    refine (map_congr_left ?_).trans (map_id _)
    intro m lt
    have other : m.id ≠ n.id := by simpa using (mem_filter.mp lt).2
    simp [shift, other]
  have order := (nodes_perm ids mem).map (shift delta [n.id])
  rw [map_cons, others] at order
  rw [sizeOf_perm p order, sizeOf, filter_cons]
  split
  · rw [map_cons, sum_cons, sizeOf, shift_key]
  · rw [sizeOf, zero_add]

section
variable {c' : RadixCache} {ids : List Nat} (nodes : c'.nodes = c.nodes.map (shift delta ids))
include nodes

theorem shifted_ids : c'.nodes.map (·.id) = c.nodes.map (·.id) := by
  rw [nodes, map_map]
  exact map_congr_left (fun m _ => shift_id delta ids m)

theorem shifted_children (id : Nat) : c'.children id = (c.children id).map (shift delta ids) := by
  unfold children
  rw [nodes, filter_map]
  congr 2
  funext m
  simp

theorem shifted_lockRef (other : id ∉ ids) : c'.lockRef id = c.lockRef id := by
  have found : c'.node? id = (c.node? id).map (shift delta ids) := by
    unfold node?
    rw [nodes, find?_map]
    congr 2
    funext m
    simp
  unfold lockRef
  rw [found]
  split
  · rfl
  · cases seen : c.node? id with
    | none => rfl
    | some m =>
      have same := (mem_of_node? seen).2
      simp [shift_lockRef, same, other]

theorem shifted_exists (id : Nat) : (∃ m ∈ c'.nodes, m.id = id) ↔ ∃ m ∈ c.nodes, m.id = id := by
  simp [nodes]

end

section
variable (counted : c.Counted) (mem : n ∈ c.nodes) (legal : Legal edge delta n.lockRef)
include counted mem legal

theorem lockNode_evictable : (c.lockNode edge delta n).evictableSize = sizeOf (fun m => m.lockRef = 0) (c.nodes.map (shift delta [n.id])) := by
  have before := sizeOf_remove counted.ids mem (fun m => m.lockRef = 0)
  have after := sizeOf_shift delta counted.ids mem (fun m => m.lockRef = 0)
  unfold lockNode
  rw [leafStatus_eq, after]
  simp only [relock, counted.evictable, before, shift_lockRef, mem_singleton, if_true, decide_eq_true_eq]
  rcases legal with ⟨rfl, rfl, low⟩ | ⟨rfl, rfl, low⟩
  · split <;> split <;> omega
  · split <;> split <;> split <;> omega

theorem lockNode_protected : (c.lockNode edge delta n).protectedSize = sizeOf (fun m => m.lockRef ≠ 0) (c.nodes.map (shift delta [n.id])) := by
  have before := sizeOf_remove counted.ids mem (fun m => m.lockRef ≠ 0)
  have after := sizeOf_shift delta counted.ids mem (fun m => m.lockRef ≠ 0)
  unfold lockNode
  rw [leafStatus_eq, after]
  simp only [relock, counted.locked, before, shift_lockRef, mem_singleton, if_true, decide_eq_true_eq]
  rcases legal with ⟨rfl, rfl, low⟩ | ⟨rfl, rfl, low⟩
  · rw [if_pos (show n.lockRef + 1 ≠ 0 by omega)]
    split <;> omega
  · split <;> split <;> split <;> omega

theorem lockNode_counted : (c.lockNode edge delta n).Counted := by
  have nodes := lockNode_nodes edge delta c n
  have listed : ∀ j, j ∈ (c.lockNode edge delta n).evictableLeaves ↔
      if j = n.id then ¬ (c.lockNode edge delta n).lockRef n.id > 0 ∧ (c.lockNode edge delta n).children n.id = []
      else j ∈ c.evictableLeaves := by
    intro j
    unfold lockNode
    rw [mem_leafStatus (c := c.relock edge delta n) counted.leavesNodup, leafStatus_eq]
    rfl
  refine ⟨?_, ?_, ?_, ?_, ?_, ?_⟩
  · rw [shifted_ids nodes]
    exact counted.ids
  · intro m lt
    rw [nodes, mem_map] at lt
    obtain ⟨m, lt, rfl⟩ := lt
    rw [shift_id]
    exact counted.root m lt
  · exact nodup_leafStatus (c := c.relock edge delta n) counted.leavesNodup _
  · intro _
    rw [listed, shifted_exists nodes]
    split
    · next here =>
      subst here
      exact ⟨fun bare => ⟨⟨n, mem, rfl⟩, bare⟩, fun bare => bare.2⟩
    · next other =>
      rw [counted.leaves, shifted_lockRef nodes (by simpa using other), shifted_children nodes, map_eq_nil_iff]
  · rw [nodes]
    exact lockNode_evictable counted mem legal
  · rw [nodes]
    exact lockNode_protected counted mem legal

end

end

/-- The ids from `id` up to the root, which is left out. -/
inductive Chain (c : RadixCache) : Nat → List Nat → Prop where
  | root : Chain c 0 []
  | up {n : TreeNode} {ids : List Nat} : n ∈ c.nodes → Chain c n.parent ids → Chain c n.id (n.id :: ids)

namespace Chain
variable {c c' : RadixCache} {id : Nat} {ids : List Nat} {delta : Int}

theorem shifted {js : List Nat} (nodes : c'.nodes = c.nodes.map (shift delta js)) (chain : Chain c id ids) : Chain c' id ids := by
  induction chain with
  | root => exact .root
  | @up n ids mem _ ih =>
    have inside : shift delta js n ∈ c'.nodes := by
      rw [nodes]
      exact mem_map_of_mem mem
    have step := Chain.up inside (by rwa [shift_parent])
    rwa [shift_id] at step

theorem mem_nodes (chain : Chain c id ids) : ∀ j ∈ ids, ∃ n ∈ c.nodes, n.id = j := by
  induction chain with
  | root =>
    exact nofun
  | @up n ids mem _ ih =>
    intro j lt
    rcases mem_cons.mp lt with rfl | later
    · exact ⟨n, mem, rfl⟩
    · exact ih j later

theorem of_zero (wf : c.Wf) (chain : Chain c id ids) (top : id = 0) : ids = [] := by
  cases chain with
  | root => rfl
  | up mem _ => exact absurd top (wf.root _ mem)

theorem mem_of_ne_zero (chain : Chain c id ids) (below : id ≠ 0) : id ∈ ids := by
  cases chain with
  | root => exact absurd rfl below
  | up => exact mem_cons_self

theorem depth_le {depth : Nat → Nat} (wf : c.Wf) (nearer : ∀ n ∈ c.nodes, n.parent = 0 ∨ ∃ p ∈ c.nodes, p.id = n.parent ∧ depth p.id < depth n.id)
    (chain : Chain c id ids) : ∀ j ∈ ids, depth j ≤ depth id := by
  induction chain with
  | root =>
    exact nofun
  | @up n ids mem rest ih =>
    intro j lt
    rcases mem_cons.mp lt with rfl | later
    · exact le_refl _
    · rcases nearer n mem with top | ⟨p, _, same, _⟩
      · rw [rest.of_zero wf top] at later
        cases later
      · have := ih j later
        rw [← same] at this
        omega

theorem nodup (wf : c.Wf) (chain : Chain c id ids) : ids.Nodup := by
  obtain ⟨_, nearer⟩ := wf.parents
  induction chain with
  | root => exact nodup_nil
  | @up n ids mem rest ih =>
    refine nodup_cons.mpr ⟨?_, ih⟩
    intro again
    rcases nearer n mem with top | ⟨p, _, same, _⟩
    · rw [rest.of_zero wf top] at again
      cases again
    · have := rest.depth_le wf nearer n.id again
      rw [← same] at this
      omega

theorem length_le (wf : c.Wf) (chain : Chain c id ids) : ids.length ≤ c.nodes.length := by
  have inside : ids ⊆ c.nodes.map (·.id) := by
    intro j mem
    obtain ⟨n, here, rfl⟩ := chain.mem_nodes j mem
    exact mem_map_of_mem here
  have := (subperm_of_subset (chain.nodup wf) inside).length_le
  rwa [length_map] at this

end Chain

theorem Wf.chain (wf : c.Wf) (here : id = 0 ∨ ∃ n ∈ c.nodes, n.id = id) : ∃ ids, Chain c id ids := by
  obtain ⟨depth, nearer⟩ := wf.parents
  generalize bound : depth id = d
  induction d using Nat.strong_induction_on generalizing id with
  | _ d ih =>
    rcases here with rfl | ⟨n, mem, rfl⟩
    · exact ⟨[], .root⟩
    · rcases nearer n mem with top | ⟨p, lt, same, _⟩
      · exact ⟨_, .up mem (top ▸ Chain.root)⟩
      · obtain ⟨ids, chain⟩ := ih (depth p.id) (by omega) (.inr ⟨p, lt, rfl⟩) rfl
        exact ⟨_, .up mem (same ▸ chain)⟩

theorem lockWalk_spec (edge delta : Int) {ids : List Nat} {fuel : Nat} (chain : Chain c id ids)
    (nodup : ids.Nodup) (counted : c.Counted) (legal : ∀ n ∈ c.nodes, n.id ∈ ids → Legal edge delta n.lockRef)
    (enough : ids.length ≤ fuel) :
    (lockWalk edge delta fuel c id).Counted ∧ (lockWalk edge delta fuel c id).nodes = c.nodes.map (shift delta ids) := by
  induction ids generalizing c id fuel with
  | nil =>
    cases chain
    have same : lockWalk edge delta fuel c 0 = c := by cases fuel <;> rfl
    rw [same]
    refine ⟨counted, ?_⟩
    exact (map_id _).symm.trans (map_congr_left (fun n _ => by simp [shift]))
  | cons j ids ih =>
    cases chain with
    | @up n _ mem rest =>
      obtain ⟨fresh, nodup⟩ := nodup_cons.mp nodup
      cases fuel with
      | zero => cases enough
      | succ fuel =>
        have here := node?_of_mem counted.ids mem
        have nodes := lockNode_nodes edge delta c n
        have later : ∀ m ∈ (c.lockNode edge delta n).nodes, m.id ∈ ids → Legal edge delta m.lockRef := by
          intro m lt listed
          rw [nodes, mem_map] at lt
          obtain ⟨m, lt, rfl⟩ := lt
          rw [shift_id] at listed
          have other : m.id ≠ n.id := fun same => fresh (same ▸ listed)
          simpa [shift_lockRef, other] using legal m lt (mem_cons_of_mem _ listed)
        obtain ⟨counted', nodes'⟩ := ih (rest.shifted nodes) nodup
          (lockNode_counted counted mem (legal n mem mem_cons_self)) later (Nat.le_of_succ_le_succ enough)
        have step : lockWalk edge delta (fuel + 1) c n.id = lockWalk edge delta fuel (c.lockNode edge delta n) n.parent := by
          rw [lockWalk, if_neg (counted.root n mem), here]
        rw [step]
        refine ⟨counted', ?_⟩
        rw [nodes', nodes, map_map]
        exact map_congr_left (fun m _ => shift_cons delta ids m fresh)

section
variable {c c' : RadixCache} {id : Nat} {ids : List Nat} {delta : Int}

theorem Wf.of_shifted (wf : c.Wf) (counted : c'.Counted) (nodes : c'.nodes = c.nodes.map (shift delta ids))
    (pageSize : c'.pageSize = c.pageSize) (locks : ∀ n ∈ c.nodes, 0 ≤ (shift delta ids n).lockRef)
    (lockSum : ∀ n ∈ c.nodes, (((c.children n.id).map (shift delta ids)).map (·.lockRef)).sum ≤ (shift delta ids n).lockRef) : c'.Wf := by
  have back : ∀ m ∈ c'.nodes, ∃ n ∈ c.nodes, shift delta ids n = m := by
    intro m lt
    rw [nodes] at lt
    exact mem_map.mp lt
  refine { counted with parents := ?_, siblings := ?_, keys := ?_, locks := ?_, lockSum := ?_ }
  · obtain ⟨depth, nearer⟩ := wf.parents
    refine ⟨depth, ?_⟩
    intro m lt
    obtain ⟨n, mem, rfl⟩ := back m lt
    rcases nearer n mem with _ | ⟨p, mem', _, _⟩
    · exact .inl (by rwa [shift_parent])
    · refine .inr ⟨shift delta ids p, by rw [nodes]; exact mem_map_of_mem mem', ?_, ?_⟩
      · rwa [shift_id, shift_parent]
      · rwa [shift_id, shift_id]
  · intro m lt n lt' parent key
    obtain ⟨m, mem, rfl⟩ := back m lt
    obtain ⟨n, mem', rfl⟩ := back n lt'
    rw [shift_parent, shift_parent] at parent
    rw [shift_key, shift_key, pageSize] at key
    rw [wf.siblings m mem n mem' parent key]
  · intro m lt
    obtain ⟨n, mem, rfl⟩ := back m lt
    rw [shift_value, shift_key]
    exact wf.keys n mem
  · intro m lt
    obtain ⟨n, mem, rfl⟩ := back m lt
    exact locks n mem
  · intro m lt
    obtain ⟨n, mem, rfl⟩ := back m lt
    rw [shift_id, shifted_children nodes]
    exact lockSum n mem

theorem Wf.of_counted (wf : c.Wf) (counted : c'.Counted) (nodes : c'.nodes = c.nodes) (pageSize : c'.pageSize = c.pageSize) : c'.Wf := by
  have children : ∀ id, c'.children id = c.children id := by
    intro id
    unfold children
    rw [nodes]
  refine { counted with parents := ?_, siblings := ?_, keys := ?_, locks := ?_, lockSum := ?_ }
  · rw [nodes]
    exact wf.parents
  · rw [nodes, pageSize]
    exact wf.siblings
  · rw [nodes]
    exact wf.keys
  · rw [nodes]
    exact wf.locks
  · intro n mem
    rw [nodes] at mem
    rw [children]
    exact wf.lockSum n mem

theorem sum_shift (delta : Int) (ids : List Nat) (nodes : List TreeNode) : ((nodes.map (shift delta ids)).map (·.lockRef)).sum =
      (nodes.map (·.lockRef)).sum + delta * nodes.countP (fun m => m.id ∈ ids) := by
  induction nodes with
  | nil => simp
  | cons n nodes ih =>
    simp only [map_cons, sum_cons, ih, shift_lockRef, countP_cons, decide_eq_true_eq]
    split
    · rw [Nat.cast_add, Int.mul_add]
      simp only [Nat.cast_one, Int.mul_one]
      omega
    · simp only [add_zero]
      omega

theorem Chain.children_le (wf : c.Wf) (chain : Chain c id ids) {n : TreeNode} (mem : n ∈ c.nodes) :
    (c.children n.id).countP (fun m => m.id ∈ ids) ≤ if n.id ∈ ids then 1 else 0 := by
  obtain ⟨_, nearer⟩ := wf.parents
  induction chain with
  | root => simp
  | @up low ids lt rest ih =>
    by_cases parent : low.parent = n.id
    · -- the other nodes of the chain are nearer to the root than the children of `n`
      have above : ∀ m ∈ c.children n.id, m.id ∉ ids := by
        intro m child listed
        obtain ⟨lt, same⟩ := mem_filter.mp child
        rw [decide_eq_true_eq] at same
        rcases nearer m lt with top | ⟨p, _, same', less⟩
        · exact wf.root n mem (same.symm.trans top)
        · have := rest.depth_le wf nearer m.id listed
          rw [same', same] at less
          rw [parent] at this
          omega
      have head : n.id ∈ ids := (parent ▸ rest).mem_of_ne_zero (wf.root n mem)
      rw [if_pos (mem_cons_of_mem _ head)]
      have single : (c.children n.id).countP (fun m => m.id ∈ low.id :: ids) = ((c.children n.id).map (·.id)).count low.id := by
        rw [List.count, countP_map]
        apply countP_congr
        intro m child
        simp [above m child]
      rw [single]
      exact nodup_iff_count_le_one.mp (wf.ids.sublist ((filter_sublist).map _)) _
    · have same : (c.children n.id).countP (fun m => m.id ∈ low.id :: ids) = (c.children n.id).countP (fun m => m.id ∈ ids) := by
        apply countP_congr
        intro m child
        obtain ⟨lt', below⟩ := mem_filter.mp child
        rw [decide_eq_true_eq] at below
        have other : m.id ≠ low.id := by
          intro eq
          rw [eq_of_id wf.ids lt' lt eq] at below
          exact parent below
        simp [other]
      rw [same]
      refine ih.trans ?_
      split
      · next listed => rw [if_pos (mem_cons_of_mem _ listed)]
      · exact Nat.zero_le _

theorem incLock_spec (wf : c.Wf) (enabled : c.disable = false) (chain : Chain c id ids) :
    (c.incLockRef id).Wf ∧ (c.incLockRef id).nodes = c.nodes.map (shift 1 ids) := by
  have pageSize := (incLock_settings c id).2
  obtain ⟨counted, nodes⟩ := lockWalk_spec 0 1 chain (chain.nodup wf) wf.counted
    (fun n mem _ => .inl ⟨rfl, rfl, wf.locks n mem⟩) (chain.length_le wf)
  unfold incLockRef at pageSize ⊢
  rw [if_neg (by simp [enabled])] at pageSize ⊢
  refine ⟨wf.of_shifted counted nodes pageSize ?_ ?_, nodes⟩
  · intro n mem
    have := wf.locks n mem
    rw [shift_lockRef]
    split <;> omega
  · intro n mem
    have below := chain.children_le wf mem
    have sum := wf.lockSum n mem
    rw [sum_shift, shift_lockRef]
    split at below
    · next listed =>
      rw [if_pos listed]
      omega
    · next free =>
      rw [if_neg free]
      omega

theorem sizeOf_unlocked_shift (ids : List Nat) {nodes : List TreeNode} (locks : ∀ n ∈ nodes, 0 ≤ n.lockRef) :
    sizeOf (fun n => n.lockRef = 0) (nodes.map (shift 1 ids)) ≤ sizeOf (fun n => n.lockRef = 0) nodes := by
  induction nodes with
  | nil => exact le_refl _
  | cons n nodes ih =>
    have rest := ih (fun m mem => locks m (mem_cons_of_mem _ mem))
    have here := locks n mem_cons_self
    have unlocked : (shift 1 ids n).lockRef = 0 → n.lockRef = 0 := by
      rw [shift_lockRef]
      split <;> omega
    unfold sizeOf at rest ⊢
    rw [map_cons, filter_cons, filter_cons]
    by_cases free : (shift 1 ids n).lockRef = 0
    · simp only [free, unlocked free, decide_true, if_true, map_cons, sum_cons, shift_key]
      omega
    · simp only [free, decide_false, Bool.false_eq_true, if_false]
      split
      · rw [map_cons, sum_cons]
        omega
      · exact rest

section
variable (wf : c.Wf) (here : id = 0 ∨ ∃ n ∈ c.nodes, n.id = id)
include wf here

theorem incLockRef_keeps : (∀ j, (∃ n ∈ (c.incLockRef id).nodes, n.id = j) ↔ ∃ n ∈ c.nodes, n.id = j) ∧
      (c.incLockRef id).evictableSize ≤ c.evictableSize := by
  cases enabled : c.disable with
  | true =>
    unfold incLockRef
    rw [if_pos enabled]
    exact ⟨fun _ => Iff.rfl, Int.le_refl _⟩
  | false =>
    obtain ⟨ids, chain⟩ := wf.chain here
    obtain ⟨wf', nodes⟩ := incLock_spec wf enabled chain
    refine ⟨shifted_exists nodes, ?_⟩
    rw [wf'.evictable, wf.evictable, nodes]
    exact Int.ofNat_le.mpr (sizeOf_unlocked_shift ids wf.locks)

theorem incLockRef_wf : (c.incLockRef id).Wf := by
  cases enabled : c.disable with
  | true =>
    unfold incLockRef
    rwa [if_pos enabled]
  | false =>
    obtain ⟨_, chain⟩ := wf.chain here
    exact (incLock_spec wf enabled chain).1

theorem decLock_incLock : ((c.incLockRef id).decLockRef id).Wf ∧ ((c.incLockRef id).decLockRef id).nodes = c.nodes ∧
      ((c.incLockRef id).decLockRef id).evictableSize = c.evictableSize := by
  cases enabled : c.disable with
  | true =>
    unfold decLockRef incLockRef
    rw [if_pos enabled, if_pos enabled]
    exact ⟨wf, rfl, rfl⟩
  | false =>
    obtain ⟨ids, chain⟩ := wf.chain here
    obtain ⟨wf₁, nodes₁⟩ := incLock_spec wf enabled chain
    have chain₁ := chain.shifted nodes₁
    have legal : ∀ n ∈ (c.incLockRef id).nodes, n.id ∈ ids → Legal 1 (-1) n.lockRef := by
      intro m lt listed
      rw [nodes₁, mem_map] at lt
      obtain ⟨n, mem, rfl⟩ := lt
      rw [shift_id] at listed
      have := wf.locks n mem
      rw [shift_lockRef, if_pos listed]
      exact .inr ⟨rfl, rfl, by omega⟩
    obtain ⟨counted, nodes⟩ := lockWalk_spec 1 (-1) chain₁ (chain₁.nodup wf₁) wf₁.counted legal (chain₁.length_le wf₁)
    have restored : (c.incLockRef id).nodes.map (shift (-1) ids) = c.nodes := by
      rw [nodes₁, map_map]
      refine (map_congr_left ?_).trans (map_id _)
      intro n _
      rw [Function.comp_apply, shift_shift]
      simp [shift]
    have pageSize := (decLock_settings (c.incLockRef id) id).2.trans (incLock_settings c id).2
    unfold decLockRef at pageSize ⊢
    rw [if_neg (by simp [(incLock_settings c id).1, enabled])] at pageSize ⊢
    have same := nodes.trans restored
    have wf₂ := wf.of_counted counted same pageSize
    exact ⟨wf₂, same, by rw [wf₂.evictable, same, wf.evictable]⟩


end

end

end TriaxialKV.RadixCache
