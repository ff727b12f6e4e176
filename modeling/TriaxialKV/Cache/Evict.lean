import Mathlib.Data.List.MinMax
import TriaxialKV.Cache.RadixCache

/-! # What an eviction does -/

namespace TriaxialKV.RadixCache
open List Function

def sizeOf (p : TreeNode → Bool) (nodes : List TreeNode) : Nat := ((nodes.filter p).map (·.key.tokenIds.length)).sum

structure Wf (c : RadixCache) : Prop where
  ids : (c.nodes.map (·.id)).Nodup
  root : ∀ n ∈ c.nodes, n.id ≠ 0
  /-- Parents are in the tree and nearer to the root. -/
  parents : ∃ depth : Nat → Nat, ∀ n ∈ c.nodes, n.parent = 0 ∨ ∃ p ∈ c.nodes, p.id = n.parent ∧ depth p.id < depth n.id
  siblings : ∀ m ∈ c.nodes, ∀ n ∈ c.nodes, m.parent = n.parent → getChildKey m.key c.pageSize = getChildKey n.key c.pageSize → m = n
  keys : ∀ n ∈ c.nodes, n.value.length = n.key.tokenIds.length ∧ n.key.tokenIds ≠ []
  locks : ∀ n ∈ c.nodes, 0 ≤ n.lockRef
  /-- A lock reaches up to the root. -/
  lockSum : ∀ n ∈ c.nodes, ((c.children n.id).map (·.lockRef)).sum ≤ n.lockRef
  leavesNodup : c.evictableLeaves.Nodup
  leaves : ∀ id, id ∈ c.evictableLeaves ↔ (∃ n ∈ c.nodes, n.id = id) ∧ ¬ c.lockRef id > 0 ∧ c.children id = []
  evictable : c.evictableSize = sizeOf (fun n => n.lockRef = 0) c.nodes
  locked : c.protectedSize = sizeOf (fun n => n.lockRef ≠ 0) c.nodes

variable {c : RadixCache} {id : Nat}

theorem leaves_of_listed (sound : ∀ id ∈ c.evictableLeaves, (∃ n ∈ c.nodes, n.id = id) ∧ ¬ c.lockRef id > 0 ∧ c.children id = [])
    (complete : ∀ n ∈ c.nodes, ¬ c.lockRef n.id > 0 → c.children n.id = [] → n.id ∈ c.evictableLeaves) (id : Nat) :
    id ∈ c.evictableLeaves ↔ (∃ n ∈ c.nodes, n.id = id) ∧ ¬ c.lockRef id > 0 ∧ c.children id = [] := by
  refine ⟨sound id, ?_⟩
  rintro ⟨⟨n, mem, rfl⟩, unlocked, last⟩
  exact complete n mem unlocked last

section
variable {c : RadixCache} {n : TreeNode}

theorem mem_of_node? (found : c.node? id = some n) : n ∈ c.nodes ∧ n.id = id := ⟨mem_of_find?_eq_some found, by simpa using find?_some found⟩

theorem node?_of_mem (ids : (c.nodes.map (·.id)).Nodup) (mem : n ∈ c.nodes) : c.node? n.id = some n := by
  unfold node?
  generalize c.nodes = nodes at ids mem
  induction nodes with
  | nil => cases mem
  | cons m nodes ih =>
    rw [map_cons, nodup_cons] at ids
    rcases mem_cons.mp mem with rfl | rest
    · simp
    · have ne : m.id ≠ n.id := by
        intro same
        exact ids.1 (same ▸ mem_map_of_mem rest)
      rw [find?_cons_of_neg (by simpa using ne)]
      exact ih ids.2 rest

theorem lockRef_of_mem (wf : c.Wf) (mem : n ∈ c.nodes) : c.lockRef n.id = n.lockRef := by
  rw [lockRef, if_neg (wf.root n mem), node?_of_mem wf.ids mem]
  rfl

theorem eq_of_id (ids : (c.nodes.map (·.id)).Nodup) {m : TreeNode} (left : m ∈ c.nodes) (right : n ∈ c.nodes) (same : m.id = n.id) : m = n := by
  have found := node?_of_mem ids left
  rw [same, node?_of_mem ids right] at found
  exact (Option.some.inj found).symm

theorem mem_leafStatus (nodup : c.evictableLeaves.Nodup) (id j : Nat) : j ∈ (c.updateLeafStatus id).evictableLeaves ↔
      if j = id then ¬ c.lockRef id > 0 ∧ c.children id = [] else j ∈ c.evictableLeaves := by
  unfold updateLeafStatus
  by_cases locked : c.lockRef id > 0
  · by_cases same : j = id <;> simp [locked, same, nodup.mem_erase_iff]
  · by_cases inner : c.children id = []
    · by_cases listed : id ∈ c.evictableLeaves
      · by_cases same : j = id <;> simp [locked, inner, listed, same]
      · by_cases same : j = id <;> simp [locked, inner, listed, same]
    · by_cases same : j = id <;> simp [locked, inner, same, nodup.mem_erase_iff]

theorem nodup_leafStatus (nodup : c.evictableLeaves.Nodup) (id : Nat) : (c.updateLeafStatus id).evictableLeaves.Nodup := by
  unfold updateLeafStatus
  split
  · exact nodup.erase id
  · split
    · exact nodup.erase id
    · split
      · exact nodup
      · next absent => simpa [nodup_append'] using ⟨nodup, absent⟩

theorem leafStatus_eq (c : RadixCache) (id : Nat) :
    c.updateLeafStatus id = { c with evictableLeaves := (c.updateLeafStatus id).evictableLeaves } := by
  unfold updateLeafStatus
  split
  · rfl
  · split
    · rfl
    · split <;> rfl

end

theorem evictable_add_protected (c : RadixCache) (wf : c.Wf) : c.evictableSize + c.protectedSize = c.totalSize := by
  have split : ∀ nodes : List TreeNode, (∀ n ∈ nodes, n.value.length = n.key.tokenIds.length) →
      sizeOf (fun n => n.lockRef = 0) nodes + sizeOf (fun n => n.lockRef ≠ 0) nodes = (nodes.map (·.value.length)).sum := by
    intro nodes keys
    induction nodes with
    | nil => rfl
    | cons n nodes ih =>
      have rest := ih (fun m mem => keys m (mem_cons_of_mem _ mem))
      have here := keys n mem_cons_self
      by_cases unlocked : n.lockRef = 0
      · simp only [sizeOf, unlocked, decide_true, filter_cons_of_pos, map_cons, sum_cons, ne_eq,
          not_true_eq_false, decide_false, Bool.false_eq_true, not_false_eq_true, filter_cons_of_neg] at rest ⊢
        omega
      · simp only [sizeOf, unlocked, decide_false, Bool.false_eq_true, not_false_eq_true, filter_cons_of_neg, ne_eq,
          decide_true, filter_cons_of_pos, map_cons, sum_cons] at rest ⊢
        omega
  rw [wf.evictable, wf.locked, totalSize, ← split c.nodes (fun n mem => (wf.keys n mem).1)]
  omega

def remove (c : RadixCache) (n : TreeNode) : RadixCache :=
  { c with
    nodes := c.nodes.filter (fun m => m.id ≠ n.id)
    evictableSize := c.evictableSize - n.key.tokenIds.length
    evictableLeaves := c.evictableLeaves.erase n.id }

theorem deleteLeaf_eq (c : RadixCache) (n : TreeNode) : c.deleteLeaf n = (c.remove n).updateLeafStatus n.parent := rfl

structure IsLeaf (c : RadixCache) (n : TreeNode) : Prop where
  member : n ∈ c.nodes
  unlocked : n.lockRef = 0
  last : c.children n.id = []

theorem isLeaf_of_mem_leaves (wf : c.Wf) (listed : id ∈ c.evictableLeaves) : ∃ n, c.node? id = some n ∧ n.id = id ∧ c.IsLeaf n := by
  obtain ⟨⟨n, mem, rfl⟩, unlocked, last⟩ := (wf.leaves id).mp listed
  rw [lockRef_of_mem wf mem] at unlocked
  have := wf.locks n mem
  exact ⟨n, node?_of_mem wf.ids mem, rfl, mem, by omega, last⟩

section
variable {c : RadixCache} {n : TreeNode}

theorem nodes_delete (c : RadixCache) (n : TreeNode) : (c.deleteLeaf n).nodes = c.nodes.filter (fun m => m.id ≠ n.id) := by
  rw [deleteLeaf_eq, leafStatus_eq]
  rfl

theorem nodes_perm (ids : (c.nodes.map (·.id)).Nodup) (mem : n ∈ c.nodes) : c.nodes.Perm (n :: c.nodes.filter (fun m => m.id ≠ n.id)) := by
  have here : c.nodes.filter (fun m => decide (m.id = n.id)) = [n] := by
    have nodup : c.nodes.Nodup := List.Nodup.of_map _ ids
    apply perm_singleton.mp
    apply (perm_ext_iff_of_nodup (nodup.filter _) (nodup_singleton n)).mpr
    intro m
    rw [mem_filter, decide_eq_true_eq, mem_singleton]
    constructor
    · rintro ⟨lt, same⟩
      exact eq_of_id ids lt mem same
    · rintro rfl
      exact ⟨mem, rfl⟩
  have split := (filter_append_perm (fun m => decide (m.id = n.id)) c.nodes).symm
  rw [here] at split
  simpa using split

theorem children_remove (c : RadixCache) (n : TreeNode) (other : id ≠ n.parent) (wf : c.Wf)
    (mem : n ∈ c.nodes) : (c.remove n).children id = c.children id := by
  unfold children remove
  rw [filter_filter]
  apply filter_congr
  intro m lt
  by_cases same : m.id = n.id
  · have := eq_of_id wf.ids lt mem same
    subst this
    simp [Ne.symm other]
  · simp [same]

theorem lockRef_remove (c : RadixCache) (n : TreeNode) (other : id ≠ n.id) : (c.remove n).lockRef id = c.lockRef id := by
  unfold lockRef node? remove
  rw [find?_filter]
  congr 4
  funext m
  by_cases same : m.id = id <;> simp [same, other]

theorem sizeOf_perm (p : TreeNode → Bool) {xs ys : List TreeNode} (perm : xs.Perm ys) : sizeOf p xs = sizeOf p ys := ((perm.filter p).map _).sum_nat

theorem sizeOf_remove (ids : (c.nodes.map (·.id)).Nodup) (mem : n ∈ c.nodes) (p : TreeNode → Bool) :
    sizeOf p c.nodes = (if p n then n.key.tokenIds.length else 0) + sizeOf p (c.nodes.filter (fun m => m.id ≠ n.id)) := by
  rw [sizeOf_perm p (nodes_perm ids mem), sizeOf, filter_cons]
  split
  · rw [map_cons, sum_cons, sizeOf]
  · rw [sizeOf, zero_add]

theorem parent_ne (wf : c.Wf) (mem : n ∈ c.nodes) : n.parent ≠ n.id := by
  obtain ⟨_, nearer⟩ := wf.parents
  rcases nearer n mem with root | ⟨p, _, same, less⟩
  · rw [root]
    exact (wf.root n mem).symm
  · rintro loop
    rw [same, loop] at less
    omega

theorem mem_leaves_delete (wf : c.Wf) (leaf : c.IsLeaf n) (id : Nat) : id ∈ (c.deleteLeaf n).evictableLeaves ↔ id ≠ n.id ∧
      (id ∈ c.evictableLeaves ∨ id = n.parent ∧ ¬ c.lockRef id > 0 ∧ (c.remove n).children id = []) := by
  have nodup : (c.remove n).evictableLeaves.Nodup := wf.leavesNodup.erase _
  have apart := parent_ne wf leaf.member
  rw [deleteLeaf_eq, mem_leafStatus nodup]
  by_cases same : id = n.parent
  · subst same
    have inner : n.parent ∉ c.evictableLeaves := by
      intro listed
      have none := ((wf.leaves _).mp listed).2.2
      have child : n ∈ c.children n.parent := mem_filter.mpr ⟨leaf.member, by simp⟩
      rw [none] at child
      cases child
    rw [if_pos rfl, lockRef_remove c n apart]
    simp [apart, inner]
  · rw [if_neg same]
    show id ∈ c.evictableLeaves.erase n.id ↔ _
    rw [wf.leavesNodup.mem_erase_iff]
    simp [same]

theorem deleteLeaf_wf (wf : c.Wf) (leaf : c.IsLeaf n) : (c.deleteLeaf n).Wf := by
  have nodes := nodes_delete c n
  have subset : ∀ m ∈ (c.deleteLeaf n).nodes, m ∈ c.nodes ∧ m.id ≠ n.id := by
    intro m mem
    rw [nodes] at mem
    simpa using mem
  have children : ∀ id, (c.deleteLeaf n).children id = (c.remove n).children id := by
    intro id
    unfold RadixCache.children
    rw [nodes]
    rfl
  have lockRef : ∀ id ≠ n.id, (c.deleteLeaf n).lockRef id = c.lockRef id := by
    intro id other
    rw [← lockRef_remove c n other, deleteLeaf_eq, leafStatus_eq]
    rfl
  refine ⟨?_, ?_, ?_, ?_, ?_, ?_, ?_, ?_, ?_, ?_, ?_⟩
  · rw [nodes]
    exact wf.ids.sublist (filter_sublist.map _)
  · intro m mem
    exact wf.root m (subset m mem).1
  · obtain ⟨depth, nearer⟩ := wf.parents
    refine ⟨depth, fun m mem => ?_⟩
    rcases nearer m (subset m mem).1 with root | ⟨p, lt, same, less⟩
    · exact .inl root
    · refine .inr ⟨p, ?_, same, less⟩
      -- a deleted parent would still have `m` as its child
      have other : p.id ≠ n.id := by
        intro gone
        have child : m ∈ c.children n.id := mem_filter.mpr ⟨(subset m mem).1, by simp [← same, gone]⟩
        rw [leaf.last] at child
        cases child
      rw [nodes]
      simpa using ⟨lt, other⟩
  · intro m left m' right
    have size : (c.deleteLeaf n).pageSize = c.pageSize := by rw [deleteLeaf_eq, leafStatus_eq]; rfl
    rw [size]
    exact wf.siblings m (subset m left).1 m' (subset m' right).1
  · intro m mem
    exact wf.keys m (subset m mem).1
  · intro m mem
    exact wf.locks m (subset m mem).1
  · intro m mem
    refine le_trans ?_ (wf.lockSum m (subset m mem).1)
    rw [children]
    have fewer : ((c.remove n).children m.id).Sublist (c.children m.id) := filter_sublist.filter _
    refine (fewer.map _).sum_le_sum ?_
    intro _ lt
    obtain ⟨m', child, rfl⟩ := mem_map.mp lt
    exact wf.locks m' (mem_filter.mp child).1
  · rw [deleteLeaf_eq]
    exact nodup_leafStatus (wf.leavesNodup.erase _) _
  · intro id
    rw [mem_leaves_delete wf leaf, children]
    constructor
    · rintro ⟨other, listed | ⟨rfl, unlocked, last⟩⟩
      · obtain ⟨⟨m, lt, rfl⟩, unlocked, last⟩ := (wf.leaves id).mp listed
        have notParent : m.id ≠ n.parent := by
          intro same
          have child : n ∈ c.children m.id := mem_filter.mpr ⟨leaf.member, by simp [same]⟩
          rw [last] at child
          cases child
        rw [lockRef _ other, children_remove c n notParent wf leaf.member, nodes]
        exact ⟨⟨m, by simpa using ⟨lt, other⟩, rfl⟩, unlocked, last⟩
      · obtain ⟨depth, nearer⟩ := wf.parents
        rw [lockRef _ other, nodes]
        refine ⟨?_, unlocked, last⟩
        rcases nearer n leaf.member with root | ⟨p, lt, same, _⟩
        · rw [root] at unlocked
          exact absurd (by simp [RadixCache.lockRef, rootLockRef]) unlocked
        · exact ⟨p, by simpa using ⟨lt, same ▸ other⟩, same⟩
    · rintro ⟨⟨m, lt, rfl⟩, unlocked, last⟩
      obtain ⟨lt, other⟩ := subset m lt
      rw [lockRef _ other] at unlocked
      refine ⟨other, ?_⟩
      by_cases same : m.id = n.parent
      · exact .inr ⟨same, unlocked, last⟩
      · rw [children_remove c n same wf leaf.member] at last
        exact .inl ((wf.leaves _).mpr ⟨⟨m, lt, rfl⟩, unlocked, last⟩)
  · have size := sizeOf_remove wf.ids leaf.member (fun m => m.lockRef = 0)
    have current : (c.deleteLeaf n).evictableSize = c.evictableSize - n.key.tokenIds.length := by
      rw [deleteLeaf_eq, leafStatus_eq]
      rfl
    rw [nodes, current, wf.evictable, size]
    simp [leaf.unlocked]
  · have size := sizeOf_remove wf.ids leaf.member (fun m => m.lockRef ≠ 0)
    have current : (c.deleteLeaf n).protectedSize = c.protectedSize := by
      rw [deleteLeaf_eq, leafStatus_eq]
      rfl
    rw [nodes, current, wf.locked, size]
    simp [leaf.unlocked]

theorem lockRef_parent_nonneg (wf : c.Wf) (mem : n ∈ c.nodes) : 0 ≤ c.lockRef n.parent := by
  obtain ⟨_, nearer⟩ := wf.parents
  rcases nearer n mem with root | ⟨p, lt, same, _⟩
  · rw [root]
    simp [RadixCache.lockRef, rootLockRef]
  · rw [← same, lockRef_of_mem wf lt]
    exact wf.locks p lt

theorem heap_evictNode {α : Type} [SlotAllocator α] (wf : c.Wf) (leaf : c.IsLeaf n) (a : α) {heap : List Nat} (listed : heap.Perm c.evictableLeaves) :
    (evictNode heap c a n).1.Perm (c.deleteLeaf n).evictableLeaves := by
  have children : (c.deleteLeaf n).children n.parent = (c.remove n).children n.parent := by
    unfold RadixCache.children
    rw [nodes_delete]
    rfl
  have apart := parent_ne wf leaf.member
  have lock : (c.deleteLeaf n).lockRef n.parent = c.lockRef n.parent := by
    rw [← lockRef_remove c n apart, deleteLeaf_eq, leafStatus_eq]
    rfl
  have inner : n.parent ∉ c.evictableLeaves := by
    intro found
    have none := ((wf.leaves _).mp found).2.2
    have child : n ∈ c.children n.parent := mem_filter.mpr ⟨leaf.member, by simp⟩
    rw [none] at child
    cases child
  have nodup : heap.Nodup := listed.nodup_iff.mpr wf.leavesNodup
  have nonneg := lockRef_parent_nonneg wf leaf.member
  have fresh : n.parent ∉ heap := fun found => inner (listed.mem_iff.mp found)
  apply (perm_ext_iff_of_nodup ?_ (deleteLeaf_wf wf leaf).leavesNodup).mpr
  · intro _
    rw [mem_leaves_delete wf leaf, ← listed.mem_iff]
    unfold evictNode
    dsimp only
    rw [children, lock]
    split
    · next exposed =>
      rw [mem_cons, nodup.mem_erase_iff]
      constructor
      · rintro (rfl | ⟨other, found⟩)
        · exact ⟨apart, .inr ⟨rfl, by omega, exposed.1⟩⟩
        · exact ⟨other, .inl found⟩
      · rintro ⟨other, found | ⟨rfl, _⟩⟩
        · exact .inr ⟨other, found⟩
        · exact .inl rfl
    · next closed =>
      rw [nodup.mem_erase_iff]
      constructor
      · rintro ⟨other, found⟩
        exact ⟨other, .inl found⟩
      · rintro ⟨other, found | ⟨rfl, _, last⟩⟩
        · exact ⟨other, found⟩
        · exact absurd ⟨last, by omega⟩ closed
  · unfold evictNode
    dsimp only
    split
    · exact nodup_cons.mpr ⟨fun found => fresh (mem_of_mem_erase found), nodup.erase _⟩
    · exact nodup.erase _

end

theorem evictableSize_no_leaves (wf : c.Wf) (none : c.evictableLeaves = []) : c.evictableSize = 0 := by
  obtain ⟨depth, nearer⟩ := wf.parents
  let unlocked := c.nodes.filter (fun n => decide (n.lockRef = 0))
  suffices empty : unlocked = [] by
    rw [wf.evictable, sizeOf]
    simp only [unlocked] at empty
    rw [empty]
    rfl
  -- an unlocked node farthest from the root has no children
  cases farthest : unlocked.argmax (fun n => depth n.id) with
  | none => exact argmax_eq_none.mp farthest
  | some n =>
    exfalso
    obtain ⟨mem, free⟩ := mem_filter.mp (argmax_mem farthest)
    rw [decide_eq_true_eq] at free
    have last : c.children n.id = [] := by
      rw [eq_nil_iff_forall_not_mem]
      intro m child
      obtain ⟨lt, parent⟩ := mem_filter.mp child
      rw [decide_eq_true_eq] at parent
      have low : m.lockRef ≤ n.lockRef := by
        refine le_trans (single_le_sum ?_ _ (mem_map_of_mem child)) (wf.lockSum n mem)
        intro _ found
        obtain ⟨m', child', rfl⟩ := mem_map.mp found
        exact wf.locks m' (mem_filter.mp child').1
      have := wf.locks m lt
      have deeper : depth m.id ≤ depth n.id :=
        le_of_mem_argmax (f := fun n : TreeNode => depth n.id)
          (mem_filter.mpr ⟨lt, by rw [decide_eq_true_eq]; omega⟩) farthest
      rcases nearer m lt with root | ⟨p, _, same, less⟩
      · exact wf.root n mem (parent.symm.trans root)
      · rw [same, parent] at less
        omega
    have leaf : n.id ∈ c.evictableLeaves := by
      refine (wf.leaves n.id).mpr ⟨⟨n, mem, rfl⟩, ?_, last⟩
      rw [lockRef_of_mem wf mem]
      omega
    rw [none] at leaf
    cases leaf

section
variable {α : Type} [SlotAllocator α]

def evictOne (order : EvictionOrder) (s : Nat × RadixCache × α) : Nat × RadixCache × α :=
  if s.2.1.evictableLeaves = [] then s else
  match s.2.1.node? (order.next s.2.1 s.2.1.evictableLeaves) with
  | none => s
  | some x => (s.1 + x.value.length, s.2.1.deleteLeaf x, SlotAllocator.free s.2.2 x.value)

structure StopsAt (order : EvictionOrder) (numTokens : Nat) (start : Nat × RadixCache × α) (k : Nat) : Prop where
  stop : numTokens ≤ ((evictOne order)^[k] start).1 ∨ ((evictOne order)^[k] start).2.1.evictableLeaves = []
  running : ∀ j < k, ((evictOne order)^[j] start).1 < numTokens ∧ ((evictOne order)^[j] start).2.1.evictableLeaves ≠ []

section
variable (order : EvictionOrder) {s : Nat × RadixCache × α}
include order

theorem evictOne_cases (wf : c.Wf) (numEvicted : Nat) (a : α) (nonempty : c.evictableLeaves ≠ []) :
    ∃ x, c.IsLeaf x ∧ c.node? (order.next c c.evictableLeaves) = some x ∧ x.id = order.next c c.evictableLeaves ∧
      evictOne order (numEvicted, c, a) = (numEvicted + x.value.length, c.deleteLeaf x, SlotAllocator.free a x.value) := by
  obtain ⟨x, found, same, leaf⟩ := isLeaf_of_mem_leaves wf (order.next_mem c _ nonempty)
  refine ⟨x, leaf, found, same, ?_⟩
  simp only [evictOne, if_neg nonempty, found]

theorem evictLoop_stops (numTokens : Nat) {fuel : Nat} (numEvicted : Nat) {heap : List Nat}
    (a : α) (wf : c.Wf) (listed : heap.Perm c.evictableLeaves) (enough : c.nodes.length ≤ fuel) :
    ∃ k, evictLoop order numTokens fuel numEvicted heap c a = (evictOne order)^[k] (numEvicted, c, a) ∧
      StopsAt order numTokens (numEvicted, c, a) k := by
  induction fuel generalizing numEvicted heap c a with
  | zero =>
    have empty : c.nodes = [] := length_eq_zero_iff.mp (by omega)
    have none : c.evictableLeaves = [] := by
      rw [eq_nil_iff_forall_not_mem]
      intro id found
      obtain ⟨⟨n, mem, _⟩, _⟩ := (wf.leaves id).mp found
      rw [empty] at mem
      cases mem
    exact ⟨0, rfl, .inr none, fun j less => absurd less (by omega)⟩
  | succ fuel ih =>
    rw [evictLoop]
    split
    · next going =>
      have nonempty : c.evictableLeaves ≠ [] := by
        rintro none
        rw [none, perm_nil] at listed
        exact going.2 listed
      obtain ⟨x, leaf, found, _, round⟩ := evictOne_cases order wf numEvicted a nonempty
      rw [order.next_perm c _ _ listed, found]
      have fewer : (c.deleteLeaf x).nodes.length ≤ fuel := by
        rw [nodes_delete]
        have := (nodes_perm wf.ids leaf.member).length_eq
        rw [length_cons] at this
        omega
      obtain ⟨k, result, stops⟩ := ih (numEvicted + x.value.length) (SlotAllocator.free a x.value)
        (deleteLeaf_wf wf leaf) (heap_evictNode wf leaf a listed) fewer
      refine ⟨k + 1, ?_, ?_, ?_⟩
      · rw [iterate_succ_apply, round]
        exact result
      · rw [iterate_succ_apply, round]
        exact stops.stop
      · intro j less
        cases j with
        | zero => exact ⟨going.1, nonempty⟩
        | succ j =>
          rw [iterate_succ_apply, round]
          exact stops.running j (by omega)
    · next done =>
      refine ⟨0, rfl, ?_, fun j less => absurd less (by omega)⟩
      by_cases freed : numEvicted < numTokens
      · right
        have none : heap = [] := by
          by_contra nonempty
          exact done ⟨freed, nonempty⟩
        rw [none, nil_perm] at listed
        exact listed
      · left
        exact Nat.le_of_not_lt freed

theorem evictOne_wf (wf : s.2.1.Wf) : (evictOne order s).2.1.Wf := by
  obtain ⟨numEvicted, c, a⟩ := s
  by_cases none : c.evictableLeaves = []
  · simpa only [evictOne, if_pos none] using wf
  · obtain ⟨x, leaf, _, _, round⟩ := evictOne_cases order wf numEvicted a none
    rw [round]
    exact deleteLeaf_wf wf leaf

theorem rounds_wf (wf : s.2.1.Wf) (k : Nat) : ((evictOne order)^[k] s).2.1.Wf := by
  induction k with
  | zero => exact wf
  | succ k ih =>
    rw [iterate_succ_apply']
    exact evictOne_wf order ih

theorem rounds_disable (s : Nat × RadixCache × α) (k : Nat) : ((evictOne order)^[k] s).2.1.disable = s.2.1.disable := by
  induction k with
  | zero => rfl
  | succ k ih =>
    rw [iterate_succ_apply', ← ih]
    generalize (evictOne order)^[k] s = t
    unfold evictOne
    split
    · rfl
    · split
      · rfl
      · simp only
        rw [deleteLeaf_eq, leafStatus_eq]
        rfl

theorem evictOne_size (wf : s.2.1.Wf) : ((evictOne order s).1 : Int) + (evictOne order s).2.1.evictableSize = s.1 + s.2.1.evictableSize ∧
      (evictOne order s).2.1.protectedSize = s.2.1.protectedSize := by
  obtain ⟨numEvicted, c, a⟩ := s
  by_cases none : c.evictableLeaves = []
  · simp only [evictOne, if_pos none, and_self]
  · obtain ⟨x, leaf, _, _, round⟩ := evictOne_cases order wf numEvicted a none
    have size : (c.deleteLeaf x).evictableSize = c.evictableSize - x.key.tokenIds.length ∧ (c.deleteLeaf x).protectedSize = c.protectedSize := by
      rw [deleteLeaf_eq, leafStatus_eq]
      exact ⟨rfl, rfl⟩
    have length := (wf.keys x leaf.member).1
    rw [round]
    refine ⟨?_, size.2⟩
    simp only [size.1]
    omega

theorem rounds_size (wf : s.2.1.Wf) (k : Nat) :
    (((evictOne order)^[k] s).1 : Int) + ((evictOne order)^[k] s).2.1.evictableSize = s.1 + s.2.1.evictableSize ∧
      ((evictOne order)^[k] s).2.1.protectedSize = s.2.1.protectedSize := by
  induction k with
  | zero => exact ⟨rfl, rfl⟩
  | succ k ih =>
    have round := evictOne_size order (rounds_wf order wf k)
    rw [iterate_succ_apply']
    exact ⟨round.1.trans ih.1, round.2.trans ih.2⟩

theorem evict_stops (wf : c.Wf) (enabled : c.disable = false) (a : α) (numTokens : Nat) :
    ∃ k, evict order c a numTokens = (evictOne order)^[k] (0, c, a) ∧ StopsAt order numTokens (0, c, a) k := by
  simp only [evict, enabled]
  exact evictLoop_stops order numTokens 0 a wf (.refl _) (le_refl _)

end

end

end TriaxialKV.RadixCache
