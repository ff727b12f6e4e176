import TriaxialKV.Pool.Partition

/-!
# The radix tree cache

The nodes below the root as a list with parent pointers; the root has id 0 and holds a lock of its own.
-/

namespace TriaxialKV
open List

structure RadixKey where
  tokenIds : List Nat
  extraKey : Option String
  deriving DecidableEq

structure TreeNode where
  id : Nat
  parent : Nat
  key : RadixKey
  value : List Nat
  lockRef : Int
  lastAccessTime : Int
  creationTime : Int
  hitCount : Nat
  priority : Int
  deriving DecidableEq

structure RadixCache where
  disable : Bool
  pageSize : Nat
  nodes : List TreeNode
  evictableLeaves : List Nat
  evictableSize : Int
  protectedSize : Int

/-- What the cache and the scheduler ask of a slot allocator. `availableSizeInt4` is `none` for the
allocators without that method. -/
class SlotAllocator (α : Type) where
  free : α → List Nat → α
  availableSize : α → Int
  availableSizeInt4 : α → Option Int

instance : SlotAllocator TriaxialAllocator where
  free := TriaxialAllocator.free
  availableSize := TriaxialAllocator.availableSize
  availableSizeInt4 a := some a.availableSizeInt4

def getChildKey (key : RadixKey) (pageSize : Nat) : Option String × List Nat := (key.extraKey, key.tokenIds.take pageSize)

namespace RadixCache

def children (c : RadixCache) (id : Nat) : List TreeNode := c.nodes.filter (fun n => n.parent = id)

def node? (c : RadixCache) (id : Nat) : Option TreeNode := c.nodes.find? (fun n => n.id = id)

def rootLockRef : Int := 1

def lockRef (c : RadixCache) (id : Nat) : Int :=
  if id = 0 then rootLockRef else ((c.node? id).map (·.lockRef)).getD 0

/-- The slots of a live node are never dropped while it is in the tree, so no child is evicted. -/
def updateLeafStatus (c : RadixCache) (id : Nat) : RadixCache :=
  if c.lockRef id > 0 then { c with evictableLeaves := c.evictableLeaves.erase id }
  else if c.children id ≠ [] then { c with evictableLeaves := c.evictableLeaves.erase id }
  else if id ∈ c.evictableLeaves then c
  else { c with evictableLeaves := c.evictableLeaves ++ [id] }

def deleteLeaf (c : RadixCache) (n : TreeNode) : RadixCache :=
  let c := { c with nodes := c.nodes.filter (fun m => m.id ≠ n.id) }
  let c := { c with evictableSize := c.evictableSize - n.key.tokenIds.length }
  let c := { c with evictableLeaves := c.evictableLeaves.erase n.id }
  c.updateLeafStatus n.parent

def totalSize (c : RadixCache) : Nat := (c.nodes.map (·.value.length)).sum

end RadixCache

inductive EvictionStrategy where
  | lru
  | lfu
  | fifo
  | mru
  | filo
  | priority
  | slru (protectedThreshold : Nat)

/-- A strategy with one component leaves the second one constant. -/
def EvictionStrategy.getPriority (strategy : EvictionStrategy) (n : TreeNode) : Int × Int :=
  match strategy with
  | .lru => (n.lastAccessTime, 0)
  | .lfu => (n.hitCount, n.lastAccessTime)
  | .fifo => (n.creationTime, 0)
  | .mru => (-n.lastAccessTime, 0)
  | .filo => (-n.creationTime, 0)
  | .priority => (n.priority, n.lastAccessTime)
  | .slru protectedThreshold => (if n.hitCount ≥ protectedThreshold then 1 else 0, n.lastAccessTime)

/-- Which entry of the heap comes out next. -/
structure EvictionOrder where
  next : RadixCache → List Nat → Nat
  next_mem : ∀ c heap, heap ≠ [] → next c heap ∈ heap
  next_perm : ∀ c heap heap', heap.Perm heap' → next c heap = next c heap'

namespace EvictionOrder

def first (le : Nat → Nat → Bool) (x : Nat) : List Nat → Nat
  | [] => x
  | y :: ys => first le (if le x y then x else y) ys

section
variable {le : Nat → Nat → Bool} (total : ∀ x y, le x y ∨ le y x) (trans : ∀ x y z, le x y → le y z → le x z)

theorem first_mem (le : Nat → Nat → Bool) (x : Nat) (ys : List Nat) : first le x ys ∈ x :: ys := by
  induction ys generalizing x with
  | nil => exact mem_cons_self
  | cons y ys ih =>
    rw [first]
    split
    · rcases mem_cons.mp (ih x) with same | later
      · rw [same]
        exact mem_cons_self
      · exact mem_cons_of_mem _ (mem_cons_of_mem _ later)
    · exact mem_cons_of_mem _ (ih y)

include total trans in
theorem first_le (x : Nat) (ys : List Nat) : ∀ z ∈ x :: ys, le (first le x ys) z := by
  have refl : ∀ x, le x x := fun x => (total x x).elim id id
  induction ys generalizing x with
  | nil =>
    intro z mem
    rw [mem_singleton.mp mem]
    exact refl x
  | cons y ys ih =>
    rw [first]
    intro z mem
    split
    · next less =>
      have head := ih x x mem_cons_self
      rcases mem_cons.mp mem with rfl | rest
      · exact head
      · rcases mem_cons.mp rest with rfl | later
        · exact trans _ _ _ head less
        · exact ih x z (mem_cons_of_mem _ later)
    · next more =>
      have head := ih y y mem_cons_self
      rcases mem_cons.mp mem with rfl | rest
      · exact trans _ _ _ head ((total z y).resolve_left more)
      · exact ih y z rest

end

/-- The heap order of a strategy: the priority, then the access time as `TreeNode.__lt__` compares it.
Nodes that tie on both come out by id. -/
def heapLe (strategy : EvictionStrategy) (c : RadixCache) (i j : Nat) : Bool :=
  let p : Int × Int := ((c.node? i).map strategy.getPriority).getD (0, 0)
  let q : Int × Int := ((c.node? j).map strategy.getPriority).getD (0, 0)
  let t : Int := ((c.node? i).map (·.lastAccessTime)).getD 0
  let u : Int := ((c.node? j).map (·.lastAccessTime)).getD 0
  decide (p.1 < q.1 ∨ p.1 = q.1 ∧ (p.2 < q.2 ∨ p.2 = q.2 ∧ (t < u ∨ t = u ∧ i ≤ j)))

section
variable (strategy : EvictionStrategy) (c : RadixCache)

theorem heapLe_total (i j : Nat) : heapLe strategy c i j ∨ heapLe strategy c j i := by
  simp only [heapLe, decide_eq_true_eq]
  omega

theorem heapLe_trans (i j k : Nat) (left : heapLe strategy c i j) (right : heapLe strategy c j k) : heapLe strategy c i k := by
  simp only [heapLe, decide_eq_true_eq] at left right ⊢
  omega

theorem heapLe_antisymm (i j : Nat) (left : heapLe strategy c i j) (right : heapLe strategy c j i) : i = j := by
  simp only [heapLe, decide_eq_true_eq] at left right
  omega

end

def pop (strategy : EvictionStrategy) (c : RadixCache) : List Nat → Nat
  | [] => 0
  | x :: ys => first (heapLe strategy c) x ys

def ofStrategy (strategy : EvictionStrategy) : EvictionOrder where
  next := pop strategy
  next_mem c heap nonempty := by
    cases heap with
    | nil => exact absurd rfl nonempty
    | cons x ys => exact first_mem _ x ys
  next_perm c heap heap' perm := by
    cases heap with
    | nil => rw [nil_perm.mp perm]
    | cons x ys =>
      cases heap' with
      | nil => exact absurd (perm_nil.mp perm) (cons_ne_nil _ _)
      | cons z ws =>
        have least := first_le (heapLe_total strategy c) (heapLe_trans strategy c)
        exact heapLe_antisymm strategy c _ _ (least x ys _ (perm.mem_iff.mpr (first_mem _ z ws)))
          (least z ws _ (perm.mem_iff.mp (first_mem _ x ys)))

end EvictionOrder

namespace RadixCache

/-- The leaf `x` is freed and deleted, and its parent enters the heap once it is an unlocked leaf. -/
def evictNode {α : Type} [SlotAllocator α] (heap : List Nat) (c : RadixCache) (a : α) (x : TreeNode) : List Nat × RadixCache × α :=
  let a := SlotAllocator.free a x.value
  let c := c.deleteLeaf x
  let heap := heap.erase x.id
  let heap := if c.children x.parent = [] ∧ c.lockRef x.parent = 0 then x.parent :: heap else heap
  (heap, c, a)

def evictLoop {α : Type} [SlotAllocator α] (order : EvictionOrder) (numTokens : Nat) : Nat → Nat → List Nat → RadixCache → α → Nat × RadixCache × α
  | 0, numEvicted, _, c, a => (numEvicted, c, a)
  | fuel + 1, numEvicted, heap, c, a =>
    if numEvicted < numTokens ∧ heap ≠ [] then
      match c.node? (order.next c heap) with
      | none => (numEvicted, c, a)
      | some x =>
        let (heap, c, a) := evictNode heap c a x
        evictLoop order numTokens fuel (numEvicted + x.value.length) heap c a
    else (numEvicted, c, a)

/-- Every round deletes a node, so the number of nodes bounds the rounds. -/
def evict {α : Type} [SlotAllocator α] (order : EvictionOrder) (c : RadixCache) (a : α) (numTokens : Nat) : Nat × RadixCache × α :=
  if c.disable then (0, c, a)
  else evictLoop order numTokens c.nodes.length 0 c.evictableLeaves c a

def evictFromTreeCache {α : Type} [SlotAllocator α] (order : EvictionOrder) (c : RadixCache) (a : α) (numTokens : Nat) : RadixCache × α :=
  let short := match SlotAllocator.availableSizeInt4 a with
    | some int4 => decide (SlotAllocator.availableSize a < numTokens) || decide (int4 < numTokens)
    | none => decide (SlotAllocator.availableSize a < numTokens)
  if short then (evict order c a numTokens).2 else (c, a)

end RadixCache

end TriaxialKV
