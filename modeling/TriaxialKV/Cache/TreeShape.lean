import TriaxialKV.Cache.RadixTree

/-! # The shape of the tree -/

namespace TriaxialKV
open List

variable {id : Nat} {n : TreeNode}

section
variable {pageSize : Nat} {key0 key1 : List Nat}

structure Matched (pageSize : Nat) (key0 key1 : List Nat) (len : Nat) : Prop where
  whole : pageSize ∣ len
  same : key0.take len = key1.take len
  differ : len < key0.length → (key0.drop len).take pageSize ≠ (key1.drop len).take pageSize
  short : len < min key0.length key1.length + pageSize

theorem keyMatch1_matched (key0 key1 : List Nat) : Matched 1 key0 key1 (keyMatchPageSize1 key0 key1) := by
  induction key0 generalizing key1 with
  | nil => exact ⟨Nat.one_dvd _, by simp [keyMatchPageSize1], fun less => absurd less (by simp), by simp [keyMatchPageSize1]⟩
  | cons k0 key0 ih =>
    cases key1 with
    | nil => exact ⟨Nat.one_dvd _, rfl, fun _ => by simp [keyMatchPageSize1], by simp [keyMatchPageSize1]⟩
    | cons k1 key1 =>
      rw [keyMatchPageSize1]
      split
      · next other => exact ⟨Nat.one_dvd _, rfl, fun _ => by simpa using other, by simp⟩
      · next eq =>
        obtain rfl : k0 = k1 := by simpa using eq
        obtain ⟨_, same, differ, _⟩ := ih key1
        refine ⟨Nat.one_dvd _, by simpa using same, fun less => ?_, ?_⟩
        · simpa using differ (by simpa using less)
        · simp only [length_cons]
          omega

theorem keyMatchFrom_matched (pos : 0 < pageSize) {fuel i : Nat} (enough : min key0.length key1.length ≤ i + fuel)
    (whole : pageSize ∣ i) (same : key0.take i = key1.take i) (short : i < min key0.length key1.length + pageSize) :
    Matched pageSize key0 key1 (keyMatchFrom key0 key1 pageSize fuel i) := by
  have stop {j : Nat} (whole : pageSize ∣ j) (same : key0.take j = key1.take j) (short : j < min key0.length key1.length + pageSize)
      (past : ¬ j < min key0.length key1.length) : Matched pageSize key0 key1 j := by
    refine ⟨whole, same, fun less pages => ?_, short⟩
    rw [drop_eq_nil_of_le (show key1.length ≤ j by omega), take_nil, take_eq_nil_iff] at pages
    rcases pages with none | none
    · omega
    · have := drop_eq_nil_iff.mp none
      omega
  induction fuel generalizing i with
  | zero =>
    change Matched pageSize key0 key1 i
    exact stop whole same short (by omega)
  | succ fuel ih =>
    rw [keyMatchFrom]
    split
    · next _ =>
      split
      · next other => exact ⟨whole, same, fun _ => other, short⟩
      · next eq =>
        refine ih (by omega) (Nat.dvd_add whole (Nat.dvd_refl _)) ?_ (by omega)
        rw [take_add, take_add, same, not_not.mp eq]
    · next past => exact stop whole same short past

theorem keyMatch_matched (pos : 0 < pageSize) (key0 key1 : List Nat) : Matched pageSize key0 key1 (keyMatch pageSize key0 key1) := by
  unfold keyMatch
  split
  · next one =>
    subst one
    exact keyMatch1_matched key0 key1
  · exact keyMatchFrom_matched pos (by omega) (Nat.dvd_zero _) rfl (by omega)

namespace Matched
variable {len : Nat}

section
variable (matched : Matched pageSize key0 key1 len)
include matched

theorem page_le (some : key0 ≠ []) (first : key0.take pageSize = key1.take pageSize) : pageSize ≤ len := by
  rcases Nat.eq_zero_or_pos len with rfl | pos
  · exact absurd first (by simpa using matched.differ (length_pos_iff.mpr some))
  · exact Nat.le_of_dvd pos matched.whole

theorem full (covers : key0.length ≤ len) : key1 = key0 ++ key1.drop len := by
  have same := matched.same
  rw [take_of_length_le covers] at same
  conv_lhs => rw [← take_append_drop len key1]
  rw [same]

theorem le_length (whole : pageSize ∣ key0.length) (whole' : pageSize ∣ key1.length) : len ≤ key0.length ∧ len ≤ key1.length := by
  have short := matched.short
  have bound {n : Nat} (whole : pageSize ∣ n) (less : len < n + pageSize) : len ≤ n := by
    obtain ⟨q, rfl⟩ := matched.whole
    obtain ⟨r, rfl⟩ := whole
    rw [← Nat.mul_succ] at less
    have := Nat.lt_of_mul_lt_mul_left less
    exact Nat.mul_le_mul_left _ (by omega)
  exact ⟨bound whole (by omega), bound whole' (by omega)⟩

end

end Matched

end

namespace RadixCache
variable {c : RadixCache}

theorem lockRef_mem (ids : (c.nodes.map (·.id)).Nodup) (root : ∀ n ∈ c.nodes, n.id ≠ 0) (mem : n ∈ c.nodes) : c.lockRef n.id = n.lockRef := by
  rw [lockRef, if_neg (root n mem), node?_of_mem ids mem]
  rfl

theorem children_eq_nil : c.children id = [] ↔ ∀ m ∈ c.nodes, m.parent ≠ id := by
  unfold children
  rw [filter_eq_nil_iff]
  simp

theorem leaves_of_nodes (ids : (c.nodes.map (·.id)).Nodup) (root : ∀ n ∈ c.nodes, n.id ≠ 0)
    (listed : ∀ id ∈ c.evictableLeaves, ∃ n ∈ c.nodes, n.id = id)
    (leaves : ∀ n ∈ c.nodes, n.id ∈ c.evictableLeaves ↔ ¬ n.lockRef > 0 ∧ ∀ m ∈ c.nodes, m.parent ≠ n.id) (id : Nat) :
    id ∈ c.evictableLeaves ↔ (∃ n ∈ c.nodes, n.id = id) ∧ ¬ c.lockRef id > 0 ∧ c.children id = [] := by
  constructor
  · intro leaf
    obtain ⟨n, mem, rfl⟩ := listed id leaf
    obtain ⟨unlocked, last⟩ := (leaves n mem).mp leaf
    exact ⟨⟨n, mem, rfl⟩, by rwa [lockRef_mem ids root mem], children_eq_nil.mpr last⟩
  · rintro ⟨⟨n, mem, rfl⟩, unlocked, last⟩
    rw [lockRef_mem ids root mem] at unlocked
    exact (leaves n mem).mpr ⟨unlocked, children_eq_nil.mp last⟩

theorem Wf.leaf_iff (wf : c.Wf) (mem : n ∈ c.nodes) : n.id ∈ c.evictableLeaves ↔ ¬ n.lockRef > 0 ∧ ∀ m ∈ c.nodes, m.parent ≠ n.id := by
  rw [wf.leaves, lockRef_of_mem wf mem, children_eq_nil]
  exact ⟨fun leaf => leaf.2, fun leaf => ⟨⟨n, mem, rfl⟩, leaf⟩⟩

theorem lt_freshId (mem : n ∈ c.nodes) : n.id < c.freshId := by
  unfold freshId
  have bound : ∀ ids : List Nat, ∀ id ∈ ids, id ≤ ids.foldr max 0 := by
    intro ids
    induction ids with
    | nil =>
      exact nofun
    | cons j ids ih =>
      intro id lt
      rw [foldr_cons]
      rcases mem_cons.mp lt with rfl | later
      · omega
      · have := ih id later
        omega
  exact Nat.lt_succ_of_le (bound _ _ (mem_map_of_mem mem))

theorem freshId_pos (c : RadixCache) : 0 < c.freshId := Nat.succ_pos _

theorem id_ne_freshId (mem : n ∈ c.nodes) : n.id ≠ c.freshId := (lt_freshId mem).ne

theorem Wf.parent_ne_freshId (wf : c.Wf) (mem : n ∈ c.nodes) : n.parent ≠ c.freshId := by
  obtain ⟨_, nearer⟩ := wf.parents
  rcases nearer n mem with top | ⟨p, lt, same, _⟩
  · rw [top]
    exact c.freshId_pos.ne
  · rw [← same]
    exact id_ne_freshId lt

def frame (n : TreeNode) : TreeNode := { n with value := [], lastAccessTime := 0, creationTime := 0, hitCount := 0, priority := 0 }

structure SameFrame (m n : TreeNode) : Prop where
  id : m.id = n.id
  parent : m.parent = n.parent
  key : m.key = n.key
  lockRef : m.lockRef = n.lockRef

structure Alike (c c' : RadixCache) : Prop where
  rest : c' = { c with nodes := c'.nodes }
  nodes : c'.nodes.map frame = c.nodes.map frame

namespace Alike
variable {c c' : RadixCache}

section
variable (same : Alike c c')
include same

theorem symm : Alike c' c := ⟨by rw [same.rest], same.nodes.symm⟩

theorem pageSize : c'.pageSize = c.pageSize := by rw [same.rest]

theorem evictableLeaves : c'.evictableLeaves = c.evictableLeaves := by rw [same.rest]

theorem mem (member : n ∈ c'.nodes) : ∃ m ∈ c.nodes, SameFrame m n := by
  have listed : frame n ∈ c'.nodes.map frame := mem_map_of_mem member
  rw [same.nodes] at listed
  obtain ⟨m, lt, eq⟩ := mem_map.mp listed
  obtain ⟨id, parent, key, _, lockRef⟩ := TreeNode.mk.inj eq
  exact ⟨m, lt, id, parent, key, lockRef.1⟩

theorem map_eq {β : Type} (g : TreeNode → β) (reads : ∀ n, g (frame n) = g n) : c'.nodes.map g = c.nodes.map g := by
  have frames : ∀ nodes : List TreeNode, nodes.map g = (nodes.map frame).map g := by
    intro nodes
    rw [map_map]
    exact map_congr_left (fun n _ => (reads n).symm)
  rw [frames, same.nodes, ← frames]

theorem sizeOf_eq (p : TreeNode → Bool) (reads : ∀ n, p (frame n) = p n) : sizeOf p c'.nodes = sizeOf p c.nodes := by
  have frames : ∀ nodes : List TreeNode, sizeOf p nodes = sizeOf p (nodes.map frame) := by
    intro nodes
    unfold sizeOf
    rw [filter_map, map_map]
    simp only [Function.comp_def, reads]
    rfl
  rw [frames, same.nodes, ← frames]

theorem lockSum_eq (id : Nat) : ((c'.children id).map (·.lockRef)).sum = ((c.children id).map (·.lockRef)).sum := by
  have frames : ∀ nodes : List TreeNode, (nodes.filter (fun n => n.parent = id)).map (·.lockRef) =
      ((nodes.map frame).filter (fun n => n.parent = id)).map (·.lockRef) := by
    intro nodes
    rw [filter_map, map_map]
    rfl
  unfold children
  rw [frames, same.nodes, ← frames]

theorem wf (sized : ∀ n ∈ c'.nodes, n.value.length = n.key.tokenIds.length) (wf : c.Wf) : c'.Wf := by
  have ids : (c'.nodes.map (·.id)).Nodup := by
    rw [same.map_eq (·.id) (fun _ => rfl)]
    exact wf.ids
  have root : ∀ n ∈ c'.nodes, n.id ≠ 0 := by
    intro n mem
    obtain ⟨m, lt, eq⟩ := same.mem mem
    have := wf.root m lt
    rwa [eq.id] at this
  refine ⟨ids, root, ?_, ?_, ?_, ?_, ?_, ?_, leaves_of_nodes ids root ?_ ?_, ?_, ?_⟩
  · obtain ⟨depth, nearer⟩ := wf.parents
    refine ⟨depth, fun n mem => ?_⟩
    obtain ⟨m, lt, eq⟩ := same.mem mem
    have parent : m.parent = n.parent := eq.parent
    have id : m.id = n.id := eq.id
    rcases nearer m lt with _ | ⟨p, above, up, _⟩
    · exact .inl (by rwa [← parent])
    · obtain ⟨p', above', eq'⟩ := same.symm.mem above
      have id' : p'.id = p.id := eq'.id
      exact .inr ⟨p', above', by rw [id', up, parent], by rwa [id', ← id]⟩
  · intro m mem n mem' parent key
    obtain ⟨m', lt, eq⟩ := same.mem mem
    obtain ⟨n', lt', eq'⟩ := same.mem mem'
    have twins := wf.siblings m' lt n' lt'
      ((eq.parent.trans parent).trans eq'.parent.symm)
      (by
        rw [eq.key, eq'.key, ← same.pageSize]
        exact key)
    refine eq_of_id ids mem mem' ?_
    rw [← eq.id, ← eq'.id, twins]
  · intro n mem
    obtain ⟨m, lt, eq⟩ := same.mem mem
    refine ⟨sized n mem, ?_⟩
    rw [← eq.key]
    exact (wf.keys m lt).2
  · intro n mem
    obtain ⟨m, lt, eq⟩ := same.mem mem
    have := wf.locks m lt
    rwa [eq.lockRef] at this
  · intro n mem
    obtain ⟨m, lt, eq⟩ := same.mem mem
    have := wf.lockSum m lt
    rwa [← same.lockSum_eq, eq.lockRef, eq.id] at this
  · rw [same.evictableLeaves]
    exact wf.leavesNodup
  · intro id leaf
    rw [same.evictableLeaves] at leaf
    obtain ⟨⟨n, mem, rfl⟩, _⟩ := (wf.leaves id).mp leaf
    obtain ⟨m, lt, eq⟩ := same.symm.mem mem
    exact ⟨m, lt, eq.id⟩
  · intro n mem
    obtain ⟨m, lt, eq⟩ := same.mem mem
    have leaf := wf.leaf_iff lt
    rw [eq.id, eq.lockRef] at leaf
    rw [same.evictableLeaves, leaf]
    refine and_congr_right (fun _ => ⟨fun last m' mem' => ?_, fun last m' mem' => ?_⟩)
    · obtain ⟨m'', lt'', eq'⟩ := same.mem mem'
      rw [← eq'.parent]
      exact last m'' lt''
    · obtain ⟨m'', lt'', eq'⟩ := same.symm.mem mem'
      rw [← eq'.parent]
      exact last m'' lt''
  · rw [same.sizeOf_eq _ (fun _ => rfl), same.rest]
    exact wf.evictable
  · rw [same.sizeOf_eq _ (fun _ => rfl), same.rest]
    exact wf.locked

end

end Alike

def core (n : TreeNode) : TreeNode := { n with lastAccessTime := 0, creationTime := 0, hitCount := 0, priority := 0 }

structure SameCore (m n : TreeNode) : Prop where
  id : m.id = n.id
  parent : m.parent = n.parent
  key : m.key = n.key
  value : m.value = n.value
  lockRef : m.lockRef = n.lockRef

structure Retouch (c c' : RadixCache) : Prop where
  rest : c' = { c with nodes := c'.nodes }
  nodes : c'.nodes.map core = c.nodes.map core

namespace Retouch
variable {c c' c'' : RadixCache}

theorem symm (same : Retouch c c') : Retouch c' c := ⟨by rw [same.rest], same.nodes.symm⟩

theorem modifyNode (c : RadixCache) (id : Nat) {f : TreeNode → TreeNode} (keeps : ∀ n, core (f n) = core n) : Retouch c (c.modifyNode id f) := by
  refine ⟨rfl, ?_⟩
  unfold RadixCache.modifyNode
  rw [map_map]
  refine map_congr_left (fun n _ => ?_)
  rw [Function.comp_apply]
  split
  · exact keeps n
  · rfl

theorem pageSize (same : Retouch c c') : c'.pageSize = c.pageSize := by rw [same.rest]

theorem mem (same : Retouch c c') (member : n ∈ c'.nodes) : ∃ m ∈ c.nodes, SameCore m n := by
  have listed : core n ∈ c'.nodes.map core := mem_map_of_mem member
  rw [same.nodes] at listed
  obtain ⟨m, lt, eq⟩ := mem_map.mp listed
  obtain ⟨id, parent, key, value, lockRef⟩ := TreeNode.mk.inj eq
  exact ⟨m, lt, id, parent, key, value, lockRef.1⟩

theorem alike (same : Retouch c c') : Alike c c' := by
  have frames (nodes : List TreeNode) : nodes.map frame = (nodes.map core).map frame := by
    rw [map_map]
    rfl
  refine ⟨same.rest, ?_⟩
  rw [frames, same.nodes, ← frames]

theorem wf (same : Retouch c c') (wf : c.Wf) : c'.Wf := by
  refine same.alike.wf (fun n mem => ?_) wf
  obtain ⟨m, lt, eq⟩ := same.mem mem
  rw [← eq.value, ← eq.key]
  exact (wf.keys m lt).1

end Retouch

structure Splits (c : RadixCache) (child : TreeNode) (splitLen : Nat) : Prop where
  member : child ∈ c.nodes
  page : c.pageSize ≤ splitLen
  whole : c.pageSize ∣ splitLen
  positive : 0 < splitLen
  inside : splitLen < child.key.tokenIds.length

section
variable {c : RadixCache} {child : TreeNode} {splitLen : Nat} (clock : Nat → Int)

theorem splitNode_perm (splitLen : Nat) (ids : (c.nodes.map (·.id)).Nodup) (mem : child ∈ c.nodes) : (c.splitNode clock child splitLen).nodes.Perm
      (c.newParent clock child splitLen :: lowerPart splitLen c.freshId child :: c.nodes.filter (fun n => n.id ≠ child.id)) := by
  have others : (c.nodes.filter (fun n => n.id ≠ child.id)).map (fun n => if n.id = child.id then lowerPart splitLen c.freshId n else n) =
      c.nodes.filter (fun n => n.id ≠ child.id) := by
    refine (map_congr_left (fun n lt => ?_)).trans (map_id _)
    have other : n.id ≠ child.id := by simpa using (mem_filter.mp lt).2
    rw [if_neg other]
    rfl
  have split := (nodes_perm ids mem).map (fun n => if n.id = child.id then lowerPart splitLen c.freshId n else n)
  rw [map_cons, if_pos rfl, others] at split
  exact perm_append_comm.trans (split.cons _)

theorem mem_splitNode (splitLen : Nat) (ids : (c.nodes.map (·.id)).Nodup) (mem : child ∈ c.nodes) (n : TreeNode) :
    n ∈ (c.splitNode clock child splitLen).nodes ↔
      n = c.newParent clock child splitLen ∨ n = lowerPart splitLen c.freshId child ∨ n ∈ c.nodes ∧ n.id ≠ child.id := by
  rw [(splitNode_perm clock splitLen ids mem).mem_iff, mem_cons, mem_cons, mem_filter]
  simp

theorem sizeOf_splitNode (splits : c.Splits child splitLen) (ids : (c.nodes.map (·.id)).Nodup) (p : TreeNode → Bool)
    (lock : ∀ m n : TreeNode, m.lockRef = n.lockRef → p m = p n) : sizeOf p (c.splitNode clock child splitLen).nodes = sizeOf p c.nodes := by
  rw [sizeOf_perm p (splitNode_perm clock splitLen ids splits.member), sizeOf_remove ids splits.member p]
  unfold sizeOf
  rw [filter_cons, filter_cons, lock (c.newParent clock child splitLen) child rfl, lock (lowerPart splitLen c.freshId child) child rfl]
  cases p child with
  | false => simp
  | true =>
    simp only [if_true, map_cons, sum_cons, newParent, lowerPart, length_take, length_drop]
    omega

theorem lockSum_splitNode (wf : c.Wf) (splits : c.Splits child splitLen) (old : id ≠ c.freshId) :
    (((c.splitNode clock child splitLen).children id).map (·.lockRef)).sum = ((c.children id).map (·.lockRef)).sum := by
  have after := (((splitNode_perm clock splitLen wf.ids splits.member).filter (fun n => decide (n.parent = id))).map (·.lockRef)).sum_eq
  have before := (((nodes_perm wf.ids splits.member).filter (fun n => decide (n.parent = id))).map (·.lockRef)).sum_eq
  unfold children
  rw [after, before]
  have lower : decide ((lowerPart splitLen c.freshId child).parent = id) = false := decide_eq_false (Ne.symm old)
  rw [filter_cons, filter_cons, filter_cons, lower]
  by_cases here : child.parent = id
  · simp [newParent, here]
  · simp [newParent, here]

theorem children_splitNode (wf : c.Wf) (mem : child ∈ c.nodes) :
    ((c.splitNode clock child splitLen).children c.freshId).Perm [lowerPart splitLen c.freshId child] := by
  have perm := (splitNode_perm clock splitLen wf.ids mem).filter (fun n => decide (n.parent = c.freshId))
  have deeper : child.parent ≠ c.freshId := wf.parent_ne_freshId mem
  have upper : decide ((c.newParent clock child splitLen).parent = c.freshId) = false := decide_eq_false deeper
  have others : (c.nodes.filter (fun n => n.id ≠ child.id)).filter (fun n => decide (n.parent = c.freshId)) = [] := by
    refine filter_eq_nil_iff.mpr (fun n lt => ?_)
    simpa using wf.parent_ne_freshId (mem_filter.mp lt).1
  rw [filter_cons, filter_cons, others, upper] at perm
  exact perm.trans (by simp [lowerPart])

theorem parent_splitNode (ids : (c.nodes.map (·.id)).Nodup) (mem : child ∈ c.nodes) (old : id ≠ c.freshId) :
    (∀ m ∈ (c.splitNode clock child splitLen).nodes, m.parent ≠ id) ↔ ∀ m ∈ c.nodes, m.parent ≠ id := by
  have nodes {n : TreeNode} := mem_splitNode clock splitLen ids mem n
  constructor
  · intro last m lt
    by_cases same : m.id = child.id
    · rw [eq_of_id ids lt mem same]
      exact last (c.newParent clock child splitLen) (nodes.mpr (.inl rfl))
    · exact last m (nodes.mpr (.inr (.inr ⟨lt, same⟩)))
  · intro last m lt
    rcases nodes.mp lt with rfl | rfl | ⟨lt, _⟩
    · exact last child mem
    · exact old.symm
    · exact last m lt

theorem splitNode_wf (wf : c.Wf) (splits : c.Splits child splitLen) : (c.splitNode clock child splitLen).Wf := by
  let c' := c.splitNode clock child splitLen
  obtain ⟨mem, page, _, pos, lt⟩ := splits
  have nodes {n : TreeNode} := mem_splitNode clock splitLen wf.ids mem n
  have values := wf.keys child mem
  have known : child.id ≠ c.freshId := id_ne_freshId mem
  have deeper : child.parent ≠ c.freshId := wf.parent_ne_freshId mem
  have ids : (c'.nodes.map (·.id)).Nodup := by
    have fresh : c.freshId ∉ (child :: c.nodes.filter (fun n => n.id ≠ child.id)).map (·.id) := by
      intro found
      obtain ⟨n, listed, same⟩ := mem_map.mp found
      exact id_ne_freshId ((nodes_perm wf.ids mem).mem_iff.mpr listed) same
    have before := ((nodes_perm wf.ids mem).map (·.id)).nodup_iff.mp wf.ids
    exact ((splitNode_perm clock splitLen wf.ids mem).map (·.id)).nodup_iff.mpr (nodup_cons.mpr ⟨fresh, before⟩)
  have root : ∀ n ∈ c'.nodes, n.id ≠ 0 := by
    intro n lt
    rcases nodes.mp lt with rfl | rfl | ⟨old, _⟩
    · exact c.freshId_pos.ne'
    · exact wf.root child mem
    · exact wf.root n old
  refine ⟨ids, root, ?_, ?_, ?_, ?_, ?_, wf.leavesNodup, leaves_of_nodes ids root ?_ ?_, ?_, ?_⟩
  · -- the upper part lies halfway between the node and its parent
    obtain ⟨depth, nearer⟩ := wf.parents
    refine ⟨fun id => if id = c.freshId then 2 * depth child.id else 2 * depth id + 1, fun n listed => ?_⟩
    have above {m : TreeNode} (old : m ∈ c.nodes) : m.parent = 0 ∨ ∃ p ∈ c'.nodes,
        p.id = m.parent ∧ p.id ≠ c.freshId ∧ depth p.id < depth m.id := by
      rcases nearer m old with top | ⟨p, up, same, less⟩
      · exact .inl top
      · by_cases split : p.id = child.id
        · exact .inr ⟨lowerPart splitLen c.freshId child, nodes.mpr (.inr (.inl rfl)), split.symm.trans same, known,
            by change depth child.id < _; rwa [← split]⟩
        · exact .inr ⟨p, nodes.mpr (.inr (.inr ⟨up, split⟩)), same, id_ne_freshId up, less⟩
    rcases nodes.mp listed with rfl | rfl | ⟨old, other⟩
    · rcases above mem with top | ⟨p, up, same, fresh, less⟩
      · exact .inl top
      · refine .inr ⟨p, up, same, ?_⟩
        dsimp only [newParent]
        rw [if_neg fresh, if_pos rfl]
        omega
    · refine .inr ⟨c.newParent clock child splitLen, nodes.mpr (.inl rfl), rfl, ?_⟩
      dsimp only [newParent, lowerPart]
      rw [if_pos rfl, if_neg known]
      exact Nat.lt_succ_self _
    · rcases above old with top | ⟨p, up, same, fresh, less⟩
      · exact .inl top
      · refine .inr ⟨p, up, same, ?_⟩
        dsimp only
        rw [if_neg fresh, if_neg (id_ne_freshId old)]
        omega
  · have first : getChildKey (c.newParent clock child splitLen).key c.pageSize = getChildKey child.key c.pageSize := by
      simp [getChildKey, newParent, take_take, min_eq_left page]
    have lowest {m : TreeNode} (old : m ∈ c.nodes) : m.parent ≠ c.freshId := wf.parent_ne_freshId old
    intro m left n right parent key
    rcases nodes.mp left with rfl | rfl | ⟨old, other⟩ <;> rcases nodes.mp right with rfl | rfl | ⟨old', other'⟩
    · rfl
    · exact absurd parent deeper
    · exact absurd (congrArg TreeNode.id (wf.siblings child mem n old' parent (first.symm.trans key))) other'.symm
    · exact absurd parent.symm deeper
    · rfl
    · exact absurd parent.symm (lowest old')
    · exact absurd (congrArg TreeNode.id (wf.siblings m old child mem parent (key.trans first))) other
    · exact absurd parent (lowest old)
    · exact wf.siblings m old n old' parent key
  · intro n listed
    rcases nodes.mp listed with rfl | rfl | ⟨old, _⟩
    · refine ⟨by simp [newParent, values.1], fun none => ?_⟩
      have := congrArg List.length none
      simp only [newParent, length_take, length_nil] at this
      omega
    · refine ⟨by simp [lowerPart, values.1], fun none => ?_⟩
      have := congrArg List.length none
      simp only [lowerPart, length_drop, length_nil] at this
      omega
    · exact wf.keys n old
  · intro n listed
    rcases nodes.mp listed with rfl | rfl | ⟨old, _⟩
    · exact wf.locks child mem
    · exact wf.locks child mem
    · exact wf.locks n old
  · intro n listed
    rcases nodes.mp listed with rfl | rfl | ⟨old, _⟩
    · rw [show (c.newParent clock child splitLen).id = c.freshId from rfl, ((children_splitNode clock wf mem).map _).sum_eq]
      simp [lowerPart, newParent]
    · rw [show (lowerPart splitLen c.freshId child).id = child.id from rfl, lockSum_splitNode clock wf ⟨mem, page, ‹_›, pos, lt⟩ known]
      exact wf.lockSum child mem
    · rw [lockSum_splitNode clock wf ⟨mem, page, ‹_›, pos, lt⟩ (id_ne_freshId old)]
      exact wf.lockSum n old
  · intro id leaf
    obtain ⟨⟨n, old, rfl⟩, _⟩ := (wf.leaves id).mp leaf
    by_cases same : n.id = child.id
    · exact ⟨lowerPart splitLen c.freshId child, nodes.mpr (.inr (.inl rfl)), same.symm⟩
    · exact ⟨n, nodes.mpr (.inr (.inr ⟨old, same⟩)), rfl⟩
  · intro n listed
    have leaf {m : TreeNode} (old : m ∈ c.nodes) : m.id ∈ c.evictableLeaves ↔
        ¬ m.lockRef > 0 ∧ ∀ m' ∈ c'.nodes, m'.parent ≠ m.id := by
      rw [wf.leaf_iff old, parent_splitNode clock wf.ids mem (id_ne_freshId old)]
    rcases nodes.mp listed with rfl | rfl | ⟨old, _⟩
    · refine ⟨fun leaf => ?_, fun last => absurd rfl (last.2 _ (nodes.mpr (.inr (.inl rfl))))⟩
      obtain ⟨⟨n, old, same⟩, _⟩ := (wf.leaves _).mp leaf
      exact absurd same (id_ne_freshId old)
    · have lower := leaf mem
      exact lower
    · exact leaf old
  · rw [sizeOf_splitNode clock ⟨mem, page, ‹_›, pos, lt⟩ wf.ids _ (fun m n same => by simp [same])]
    exact wf.evictable
  · rw [sizeOf_splitNode clock ⟨mem, page, ‹_›, pos, lt⟩ wf.ids _ (fun m n same => by simp [same])]
    exact wf.locked

end

structure Fits (c : RadixCache) (leaf : TreeNode) : Prop where
  fresh : leaf.id = c.freshId
  parent : leaf.parent = 0 ∨ ∃ p ∈ c.nodes, p.id = leaf.parent
  values : leaf.value.length = leaf.key.tokenIds.length
  nonempty : leaf.key.tokenIds ≠ []
  unlocked : leaf.lockRef = 0
  only : ∀ m ∈ c.nodes, m.parent = leaf.parent → getChildKey m.key c.pageSize ≠ getChildKey leaf.key c.pageSize

section
variable {c : RadixCache} {leaf : TreeNode}

def grown (c : RadixCache) (leaf : TreeNode) : RadixCache :=
  { c with nodes := c.nodes ++ [leaf], evictableSize := c.evictableSize + leaf.key.tokenIds.length }

theorem addLeaf_eq (c : RadixCache) (leaf : TreeNode) :
    c.addLeaf leaf = { c.grown leaf with evictableLeaves := (c.addLeaf leaf).evictableLeaves } := by
  have twice : c.addLeaf leaf = ((c.grown leaf).updateLeafStatus leaf.parent).updateLeafStatus leaf.id := rfl
  rw [twice, leafStatus_eq, leafStatus_eq (c.grown leaf)]

@[simp] theorem addLeaf_nodes (c : RadixCache) (leaf : TreeNode) : (c.addLeaf leaf).nodes = c.nodes ++ [leaf] := by
  rw [addLeaf_eq]
  rfl

@[simp] theorem addLeaf_pageSize (c : RadixCache) (leaf : TreeNode) : (c.addLeaf leaf).pageSize = c.pageSize := by
  rw [addLeaf_eq]
  rfl

theorem addLeaf_ids (wf : c.Wf) (fits : c.Fits leaf) : ((c.nodes ++ [leaf]).map (·.id)).Nodup := by
  rw [map_append, map_singleton]
  refine nodup_append'.mpr ⟨wf.ids, nodup_singleton _, fun id old new => ?_⟩
  obtain ⟨n, mem, rfl⟩ := mem_map.mp old
  exact id_ne_freshId mem ((mem_singleton.mp new).trans fits.fresh)

theorem addLeaf_root (wf : c.Wf) (fits : c.Fits leaf) : ∀ n ∈ c.nodes ++ [leaf], n.id ≠ 0 := by
  intro n mem
  rcases mem_append.mp mem with old | new
  · exact wf.root n old
  · rw [mem_singleton.mp new, fits.fresh]
    exact c.freshId_pos.ne'

theorem Fits.parent_ne (fits : c.Fits leaf) : leaf.parent ≠ leaf.id := by
  rw [fits.fresh]
  rcases fits.parent with top | ⟨p, mem, same⟩
  · rw [top]
    exact c.freshId_pos.ne
  · rw [← same]
    exact id_ne_freshId mem

theorem addLeaf_leavesNodup (wf : c.Wf) (leaf : TreeNode) : (c.addLeaf leaf).evictableLeaves.Nodup := by
  have once : ((c.grown leaf).updateLeafStatus leaf.parent).evictableLeaves.Nodup := nodup_leafStatus (c := c.grown leaf) wf.leavesNodup _
  exact nodup_leafStatus once leaf.id

theorem mem_leaves_addLeaf (wf : c.Wf) (fits : c.Fits leaf) (id : Nat) :
    id ∈ (c.addLeaf leaf).evictableLeaves ↔ id = leaf.id ∨ id ≠ leaf.parent ∧ id ∈ c.evictableLeaves := by
  have twice : c.addLeaf leaf = ((c.grown leaf).updateLeafStatus leaf.parent).updateLeafStatus leaf.id := rfl
  have nodes : ((c.grown leaf).updateLeafStatus leaf.parent).nodes = c.nodes ++ [leaf] := by
    rw [leafStatus_eq]
    rfl
  have inner : ¬ (c.grown leaf).children leaf.parent = [] := by
    rw [children_eq_nil]
    exact fun last => last leaf (mem_append_right _ mem_cons_self) rfl
  have unlocked : ((c.grown leaf).updateLeafStatus leaf.parent).lockRef leaf.id = 0 := by
    rw [lockRef_mem (by rw [nodes]; exact addLeaf_ids wf fits) (by rw [nodes]; exact addLeaf_root wf fits)
      (by rw [nodes]; exact mem_append_right _ mem_cons_self), fits.unlocked]
  have last : ((c.grown leaf).updateLeafStatus leaf.parent).children leaf.id = [] := by
    rw [children_eq_nil, nodes]
    intro m mem
    rcases mem_append.mp mem with old | new
    · rw [fits.fresh]
      exact wf.parent_ne_freshId old
    · rw [mem_singleton.mp new]
      exact fits.parent_ne
  have nodup : (c.grown leaf).evictableLeaves.Nodup := wf.leavesNodup
  rw [twice, mem_leafStatus (nodup_leafStatus nodup _), mem_leafStatus nodup]
  by_cases new : id = leaf.id
  · simp [new, unlocked, last]
  · by_cases parent : id = leaf.parent
    · rw [if_neg new, if_pos parent]
      simp [inner, parent, fits.parent_ne]
    · rw [if_neg new, if_neg parent]
      simp [new, parent, grown]

theorem addLeaf_wf (wf : c.Wf) (fits : c.Fits leaf) : (c.addLeaf leaf).Wf := by
  let c' := c.addLeaf leaf
  have nodes := addLeaf_nodes c leaf
  have mem {n : TreeNode} : n ∈ c'.nodes ↔ n ∈ c.nodes ∨ n = leaf := by
    rw [nodes, mem_append, mem_singleton]
  have ids : (c'.nodes.map (·.id)).Nodup := by
    rw [nodes]
    exact addLeaf_ids wf fits
  have root : ∀ n ∈ c'.nodes, n.id ≠ 0 := by
    rw [nodes]
    exact addLeaf_root wf fits
  refine ⟨ids, root, ?_, ?_, ?_, ?_, ?_, ?_, leaves_of_nodes ids root ?_ ?_, ?_, ?_⟩
  · obtain ⟨depth, nearer⟩ := wf.parents
    refine ⟨fun id => if id = c.freshId then depth leaf.parent + 1 else depth id, fun n member => ?_⟩
    rcases mem.mp member with old | rfl
    · rcases nearer n old with top | ⟨p, up, same, _⟩
      · exact .inl top
      · refine .inr ⟨p, mem.mpr (.inl up), same, ?_⟩
        dsimp only
        rwa [if_neg (id_ne_freshId up), if_neg (id_ne_freshId old)]
    · rcases fits.parent with top | ⟨p, up, same⟩
      · exact .inl top
      · refine .inr ⟨p, mem.mpr (.inl up), same, ?_⟩
        dsimp only
        rw [if_neg (id_ne_freshId up), if_pos fits.fresh, same]
        exact Nat.lt_succ_self _
  · intro m left n right parent key
    rw [addLeaf_pageSize] at key
    rcases mem.mp left with old | rfl <;> rcases mem.mp right with old' | rfl
    · exact wf.siblings m old n old' parent key
    · exact absurd key (fits.only m old parent)
    · exact absurd key.symm (fits.only n old' parent.symm)
    · rfl
  · intro n member
    rcases mem.mp member with old | rfl
    · exact wf.keys n old
    · exact ⟨fits.values, fits.nonempty⟩
  · intro n member
    rcases mem.mp member with old | rfl
    · exact wf.locks n old
    · exact fits.unlocked.ge
  · intro n member
    have children : ((c'.children n.id).map (·.lockRef)).sum = ((c.children n.id).map (·.lockRef)).sum := by
      unfold RadixCache.children
      rw [nodes, filter_append, map_append, sum_append]
      by_cases here : leaf.parent = n.id <;> simp [here, fits.unlocked]
    rw [children]
    rcases mem.mp member with old | rfl
    · exact wf.lockSum n old
    · have none : c.children n.id = [] := by
        rw [children_eq_nil, fits.fresh]
        exact fun m old => wf.parent_ne_freshId old
      rw [none, fits.unlocked]
      rfl
  · exact addLeaf_leavesNodup wf leaf
  · intro id listed
    rcases (mem_leaves_addLeaf wf fits id).mp listed with rfl | ⟨_, old⟩
    · exact ⟨leaf, mem.mpr (.inr rfl), rfl⟩
    · obtain ⟨⟨n, member, same⟩, _⟩ := (wf.leaves id).mp old
      exact ⟨n, mem.mpr (.inl member), same⟩
  · intro n member
    rw [mem_leaves_addLeaf wf fits]
    rcases mem.mp member with old | rfl
    · rw [wf.leaf_iff old]
      constructor
      · rintro (new | ⟨other, unlocked, last⟩)
        · exact absurd (new.trans fits.fresh) (id_ne_freshId old)
        · refine ⟨unlocked, fun m lt => ?_⟩
          rcases mem.mp lt with old' | rfl
          · exact last m old'
          · exact other.symm
      · rintro ⟨unlocked, last⟩
        exact .inr ⟨(last leaf (mem.mpr (.inr rfl))).symm, unlocked, fun m lt => last m (mem.mpr (.inl lt))⟩
    · refine ⟨fun _ => ⟨by rw [fits.unlocked]; omega, fun m lt => ?_⟩, fun _ => .inl rfl⟩
      rcases mem.mp lt with old' | rfl
      · rw [fits.fresh]
        exact wf.parent_ne_freshId old'
      · exact fits.parent_ne
  · rw [addLeaf_eq]
    change c.evictableSize + leaf.key.tokenIds.length = sizeOf _ (c.nodes ++ [leaf])
    rw [wf.evictable, sizeOf, sizeOf, filter_append, map_append, sum_append]
    simp [fits.unlocked]
  · rw [addLeaf_eq]
    change c.protectedSize = sizeOf _ (c.nodes ++ [leaf])
    rw [wf.locked, sizeOf, sizeOf, filter_append, map_append, sum_append]
    simp [fits.unlocked]

end

end RadixCache

end TriaxialKV
