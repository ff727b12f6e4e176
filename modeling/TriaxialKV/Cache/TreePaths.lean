import TriaxialKV.Cache.TreeShape

/-! # Paths through the tree -/

namespace TriaxialKV.RadixCache
open List

variable {back front : List Nat} {n : TreeNode}

inductive Path (c : RadixCache) (extraKey : Option String) : Nat → List Nat → List Nat → Prop where
  | root : Path c extraKey 0 [] []
  | node {n : TreeNode} {tokens slots : List Nat} : n ∈ c.nodes → n.key.extraKey = extraKey → Path c extraKey n.parent tokens slots →
      Path c extraKey n.id (tokens ++ n.key.tokenIds) (slots ++ n.value)

inductive Below (c : RadixCache) (extraKey : Option String) : Nat → List Nat → List Nat → Prop where
  | here {id : Nat} : Below c extraKey id [] []
  | part {n : TreeNode} {len : Nat} : n ∈ c.nodes → n.key.extraKey = extraKey → c.pageSize ∣ len → len ≤ n.key.tokenIds.length →
      Below c extraKey n.parent (n.key.tokenIds.take len) (n.value.take len)
  | full {n : TreeNode} {tokens slots : List Nat} : n ∈ c.nodes → n.key.extraKey = extraKey → Below c extraKey n.id tokens slots →
      Below c extraKey n.parent (n.key.tokenIds ++ tokens) (n.value ++ slots)

structure Embeds (c c' : RadixCache) : Prop where
  pageSize : c'.pageSize = c.pageSize
  nodes : ∀ n ∈ c.nodes, ∃ m ∈ c'.nodes, m.id = n.id ∧ m.parent = n.parent ∧ m.key = n.key ∧ m.value = n.value

section
variable {c c' : RadixCache} {extraKey : Option String} {id : Nat} {tokens slots : List Nat}

theorem Retouch.embeds (same : Retouch c c') : Embeds c c' := by
  refine ⟨same.pageSize, fun n mem => ?_⟩
  obtain ⟨m, lt, eq⟩ := same.symm.mem mem
  exact ⟨m, lt, eq.id, eq.parent, eq.key, eq.value⟩

theorem embeds_addLeaf (c : RadixCache) (leaf : TreeNode) : Embeds c (c.addLeaf leaf) :=
  ⟨addLeaf_pageSize c leaf, fun n mem => ⟨n, by rw [addLeaf_nodes]; exact mem_append_left _ mem, rfl, rfl, rfl, rfl⟩⟩

theorem embeds_of_subset (pageSize : c'.pageSize = c.pageSize) (subset : ∀ n ∈ c.nodes, n ∈ c'.nodes) : Embeds c c' :=
  ⟨pageSize, fun n mem => ⟨n, subset n mem, rfl, rfl, rfl, rfl⟩⟩

theorem Embeds.trans {c'' : RadixCache} (first : Embeds c c') (second : Embeds c' c'') : Embeds c c'' := by
  refine ⟨second.pageSize.trans first.pageSize, fun n mem => ?_⟩
  obtain ⟨m, lt, same, parent, key, value⟩ := first.nodes n mem
  obtain ⟨m', lt', same', parent', key', value'⟩ := second.nodes m lt
  exact ⟨m', lt', same'.trans same, parent'.trans parent, key'.trans key, value'.trans value⟩

theorem embeds_shift {delta : Int} {ids : List Nat} (nodes : c'.nodes = c.nodes.map (shift delta ids)) (pageSize : c'.pageSize = c.pageSize) :
    Embeds c c' ∧ Embeds c' c := by
  refine ⟨⟨pageSize, fun n mem => ⟨shift delta ids n, ?_, by simp, by simp, by simp, by simp⟩⟩, pageSize.symm, fun n mem => ?_⟩
  · rw [nodes]
    exact mem_map_of_mem mem
  · rw [nodes] at mem
    obtain ⟨m, lt, rfl⟩ := mem_map.mp mem
    exact ⟨m, lt, by simp, by simp, by simp, by simp⟩

theorem lockWalk_embeds (edge delta : Int) (fuel : Nat) (c : RadixCache) (id : Nat) :
    Embeds c (lockWalk edge delta fuel c id) ∧ Embeds (lockWalk edge delta fuel c id) c := by
  have refl (c : RadixCache) : Embeds c c := embeds_of_subset rfl (fun _ mem => mem)
  induction fuel generalizing c id with
  | zero => exact ⟨refl c, refl c⟩
  | succ fuel ih =>
    unfold lockWalk
    split
    · exact ⟨refl c, refl c⟩
    · split
      · exact ⟨refl c, refl c⟩
      · next n _ =>
        obtain ⟨there, back⟩ := embeds_shift (lockNode_nodes edge delta c n) (lockNode_settings edge delta c n).2
        obtain ⟨there', back'⟩ := ih (c.lockNode edge delta n) n.parent
        exact ⟨there.trans there', back'.trans back⟩

theorem incLock_embeds (c : RadixCache) (id : Nat) : Embeds c (c.incLockRef id) ∧ Embeds (c.incLockRef id) c := by
  unfold incLockRef
  split
  · exact ⟨embeds_of_subset rfl (fun _ mem => mem), embeds_of_subset rfl (fun _ mem => mem)⟩
  · exact lockWalk_embeds 0 1 _ c id

theorem decLock_embeds (c : RadixCache) (id : Nat) : Embeds c (c.decLockRef id) ∧ Embeds (c.decLockRef id) c := by
  unfold decLockRef
  split
  · exact ⟨embeds_of_subset rfl (fun _ mem => mem), embeds_of_subset rfl (fun _ mem => mem)⟩
  · exact lockWalk_embeds 1 (-1) _ c id

theorem Path.mono (embeds : Embeds c c') (path : Path c extraKey id tokens slots) : Path c' extraKey id tokens slots := by
  induction path with
  | root => exact .root
  | node mem space _ ih =>
    obtain ⟨m, lt, same, parent, key, value⟩ := embeds.nodes _ mem
    rw [← key] at space
    rw [← parent] at ih
    rw [← same, ← key, ← value]
    exact .node lt space ih

theorem Below.mono (embeds : Embeds c c') (below : Below c extraKey id tokens slots) : Below c' extraKey id tokens slots := by
  induction below with
  | here => exact .here
  | part mem space whole le =>
    obtain ⟨m, lt, _, parent, key, value⟩ := embeds.nodes _ mem
    rw [← key] at space le
    rw [← embeds.pageSize] at whole
    rw [← parent, ← key, ← value]
    exact .part lt space whole le
  | full mem space _ ih =>
    obtain ⟨m, lt, same, parent, key, value⟩ := embeds.nodes _ mem
    rw [← key] at space
    rw [← same] at ih
    rw [← parent, ← key, ← value]
    exact .full lt space ih

end

section
variable {c : RadixCache} {extraKey : Option String} {id : Nat} {tokens slots tokens' slots' : List Nat}

theorem Path.stored (path : Path c extraKey id tokens slots) (below : Below c extraKey id tokens' slots') :
    Below c extraKey 0 (tokens ++ tokens') (slots ++ slots') := by
  induction path generalizing tokens' slots' with
  | root => exact below
  | node mem space _ ih =>
    rw [append_assoc, append_assoc]
    exact ih (.full mem space below)

theorem Path.unique (wf : c.Wf) (path : Path c extraKey id tokens slots) (path' : Path c extraKey id tokens' slots') :
    tokens = tokens' ∧ slots = slots' := by
  induction path generalizing tokens' slots' with
  | root =>
    generalize top : 0 = id at path'
    cases path' with
    | root => exact ⟨rfl, rfl⟩
    | node mem _ _ => exact absurd top.symm (wf.root _ mem)
  | @node n tokens slots mem space _ ih =>
    generalize here : n.id = id at path'
    cases path' with
    | root => exact absurd here (wf.root _ mem)
    | node mem' _ rest =>
      obtain rfl := eq_of_id wf.ids mem mem' here
      obtain ⟨rfl, rfl⟩ := ih rest
      exact ⟨rfl, rfl⟩

theorem Below.length (wf : c.Wf) (below : Below c extraKey id tokens slots) : slots.length = tokens.length := by
  induction below with
  | here => rfl
  | part mem _ _ _ => rw [length_take, length_take, (wf.keys _ mem).1]
  | full mem _ _ ih => rw [length_append, length_append, ih, (wf.keys _ mem).1]

end

def Aligned (c : RadixCache) : Prop := ∀ n ∈ c.nodes, c.pageSize ∣ n.key.tokenIds.length

theorem Embeds.aligned {c c' : RadixCache} (embeds : Embeds c' c) (aligned : c.Aligned) : c'.Aligned := by
  intro n mem
  obtain ⟨m, lt, _, _, key, _⟩ := embeds.nodes n mem
  rw [← embeds.pageSize, ← key]
  exact aligned m lt

section
variable {c : RadixCache} {extraKey : Option String} {id : Nat} {tokens slots : List Nat}

theorem Below.whole (aligned : c.Aligned) (below : Below c extraKey id tokens slots) : c.pageSize ∣ tokens.length := by
  induction below with
  | here => exact Nat.dvd_zero _
  | part _ _ whole le => rwa [length_take, min_eq_left le]
  | full mem _ _ ih =>
    rw [length_append]
    exact Nat.dvd_add (aligned _ mem) ih

theorem Aligned.page_le (aligned : c.Aligned) (wf : c.Wf) (mem : n ∈ c.nodes) : c.pageSize ≤ n.key.tokenIds.length :=
  Nat.le_of_dvd (length_pos_iff.mpr (wf.keys n mem).2) (aligned n mem)

theorem Below.through (wf : c.Wf) (aligned : c.Aligned) (below : Below c extraKey id tokens slots) (some : tokens ≠ []) :
    ∃ n ∈ c.nodes, n.parent = id ∧ n.key.extraKey = extraKey ∧ n.key.tokenIds.take c.pageSize = tokens.take c.pageSize ∧
      ((∃ len ≤ n.key.tokenIds.length, tokens = n.key.tokenIds.take len ∧ slots = n.value.take len) ∨
        ∃ tokens' slots', Below c extraKey n.id tokens' slots' ∧ tokens = n.key.tokenIds ++ tokens' ∧ slots = n.value ++ slots') := by
  cases below with
  | here => exact absurd rfl some
  | @part n len mem space whole le =>
    have pos : 0 < len := by
      rcases Nat.eq_zero_or_pos len with rfl | pos
      · exact absurd rfl some
      · exact pos
    refine ⟨n, mem, rfl, space, ?_, .inl ⟨len, le, rfl, rfl⟩⟩
    rw [take_take, min_eq_left (Nat.le_of_dvd pos whole)]
  | @full n tokens' slots' mem space rest =>
    refine ⟨n, mem, rfl, space, ?_, .inr ⟨tokens', slots', rest, rfl, rfl⟩⟩
    rw [take_append_of_le_length (aligned.page_le wf mem)]

theorem Below.take (wf : c.Wf) (aligned : c.Aligned) (below : Below c extraKey id tokens slots) {n : Nat} (whole : c.pageSize ∣ n)
    (le : n ≤ tokens.length) : Below c extraKey id (tokens.take n) (slots.take n) := by
  induction below generalizing n with
  | here =>
    rw [take_nil]
    exact .here
  | part mem space _ bound =>
    rw [length_take] at le
    rw [take_take, take_take, min_eq_left (by omega)]
    exact .part mem space whole (by omega)
  | @full node tokens slots mem space _ ih =>
    have size := (wf.keys node mem).1
    rw [length_append] at le
    rcases Nat.le_total n node.key.tokenIds.length with short | long
    · rw [take_append_of_le_length short, take_append_of_le_length (by omega)]
      exact .part mem space whole short
    · have all : node.value.take n = node.value := take_of_length_le (by omega)
      rw [take_append, take_append, take_of_length_le long, all, size]
      exact .full mem space (ih (Nat.dvd_sub whole (aligned node mem)) (by omega))

theorem child_unique (wf : c.Wf) {m : TreeNode} (left : m ∈ c.nodes) (right : n ∈ c.nodes) (parent : m.parent = n.parent)
    (space : m.key.extraKey = n.key.extraKey) (page : m.key.tokenIds.take c.pageSize = n.key.tokenIds.take c.pageSize) : m = n :=
  wf.siblings m left n right parent (Prod.ext space page)

theorem Below.unique (wf : c.Wf) (aligned : c.Aligned) {slots' : List Nat} (below : Below c extraKey id tokens slots)
    (below' : Below c extraKey id tokens slots') : slots = slots' := by
  generalize bound : tokens.length = size
  induction size using Nat.strong_induction_on generalizing id tokens slots slots' with
  | _ size ih =>
    by_cases none : tokens = []
    · subst none
      rw [length_eq_zero_iff.mp (below.length wf), length_eq_zero_iff.mp (below'.length wf)]
    · obtain ⟨m, left, parent, space, page, stored⟩ := below.through wf aligned none
      obtain ⟨n, right, parent', space', page', stored'⟩ := below'.through wf aligned none
      obtain rfl := child_unique wf left right (parent.trans parent'.symm) (space.trans space'.symm) (page.trans page'.symm)
      have length := wf.keys m left
      have part {len : Nat} (le : len ≤ m.key.tokenIds.length) (same : tokens = m.key.tokenIds.take len) :
          m.value.take len = m.value.take tokens.length := by rw [same, length_take, min_eq_left le]
      have full {tokens' slots' : List Nat} (rest : Below c extraKey m.id tokens' slots') (same : tokens = m.key.tokenIds ++ tokens')
          (short : tokens.length ≤ m.key.tokenIds.length) : m.value ++ slots' = m.value.take tokens.length := by
        have none : tokens'.length = 0 := by
          rw [same, length_append] at short
          omega
        rw [same, length_append, none, add_zero, length_eq_zero_iff.mp ((rest.length wf).trans none), ← length.1, take_length, append_nil]
      rcases stored with ⟨len, le, same, rfl⟩ | ⟨rest, _, deeper, same, rfl⟩ <;>
        rcases stored' with ⟨_, le', same', rfl⟩ | ⟨rest', _, deeper', same', rfl⟩
      · rw [part le same, part le' same']
      · rw [part le same, full deeper' same' (by rw [same, length_take]; omega)]
      · rw [part le' same', full deeper same (by rw [same', length_take]; omega)]
      · obtain rfl : rest = rest' := append_cancel_left (same.symm.trans same')
        have shorter : rest.length < size := by
          have := length_pos_iff.mpr length.2
          rw [← bound, same, length_append]
          omega
        rw [ih rest.length shorter deeper deeper' rfl]

end

section
variable {c : RadixCache} {id : Nat} {key : RadixKey}

theorem child?_some (found : c.child? id key = some n) :
    n ∈ c.nodes ∧ n.parent = id ∧ n.key.extraKey = key.extraKey ∧ n.key.tokenIds.take c.pageSize = key.tokenIds.take c.pageSize := by
  obtain ⟨mem, parent⟩ := mem_filter.mp (mem_of_find?_eq_some found)
  have same : getChildKey n.key c.pageSize = getChildKey key c.pageSize := by simpa using find?_some found
  exact ⟨mem, by simpa using parent, congrArg Prod.fst same, congrArg Prod.snd same⟩

theorem child?_none (absent : c.child? id key = none) (mem : n ∈ c.nodes) (parent : n.parent = id) :
    getChildKey n.key c.pageSize ≠ getChildKey key c.pageSize := by
  have := find?_eq_none.mp absent n (mem_filter.mpr ⟨mem, by simpa using parent⟩)
  simpa using this

end

section
variable {c : RadixCache} {child : TreeNode} {splitLen : Nat} {extraKey : Option String} {id : Nat} {tokens slots : List Nat}
  (clock : Nat → Int)

theorem Path.split (wf : c.Wf) (mem : child ∈ c.nodes) (path : Path c extraKey id tokens slots) :
    Path (c.splitNode clock child splitLen) extraKey id tokens slots := by
  have nodes {n : TreeNode} := mem_splitNode clock splitLen wf.ids mem n
  induction path with
  | root => exact .root
  | @node n tokens slots lt space _ ih =>
    by_cases same : n.id = child.id
    · obtain rfl := eq_of_id wf.ids lt mem same
      have upper : Path (c.splitNode clock n splitLen) extraKey c.freshId _ _ :=
        .node (n := c.newParent clock n splitLen) (nodes.mpr (.inl rfl)) space ih
      have lower : Path (c.splitNode clock n splitLen) extraKey n.id _ _ :=
        .node (n := lowerPart splitLen c.freshId n) (nodes.mpr (.inr (.inl rfl))) space upper
      rwa [append_assoc, append_assoc, newParent, lowerPart, take_append_drop, take_append_drop] at lower
    · exact .node (nodes.mpr (.inr (.inr ⟨lt, same⟩))) space ih

theorem Path.upper (wf : c.Wf) (mem : child ∈ c.nodes) (space : child.key.extraKey = extraKey) (path : Path c extraKey child.parent tokens slots) :
    Path (c.splitNode clock child splitLen) extraKey c.freshId (tokens ++ child.key.tokenIds.take splitLen)
      (slots ++ child.value.take splitLen) :=
  .node (n := c.newParent clock child splitLen) ((mem_splitNode clock splitLen wf.ids mem _).mpr (.inl rfl)) space
    (path.split clock wf mem)

theorem Below.split (wf : c.Wf) (splits : c.Splits child splitLen) (below : Below c extraKey id tokens slots) :
    Below (c.splitNode clock child splitLen) extraKey id tokens slots := by
  obtain ⟨mem, _, wholeLen, _, _⟩ := splits
  have nodes {n : TreeNode} := mem_splitNode clock splitLen wf.ids mem n
  have upper : c.newParent clock child splitLen ∈ (c.splitNode clock child splitLen).nodes := nodes.mpr (.inl rfl)
  have lower : lowerPart splitLen c.freshId child ∈ (c.splitNode clock child splitLen).nodes := nodes.mpr (.inr (.inl rfl))
  induction below with
  | here => exact .here
  | @part n len here space whole le =>
    by_cases same : n.id = child.id
    · obtain rfl := eq_of_id wf.ids here mem same
      rcases Nat.le_total len splitLen with short | _
      · have part := @Below.part _ extraKey _ len upper space whole (by simp only [newParent, length_take]; omega)
        rwa [newParent, take_take, take_take, min_eq_left short] at part
      · have part := Below.full upper space (@Below.part _ extraKey _ (len - splitLen) lower space (Nat.dvd_sub whole wholeLen)
          (by simp only [lowerPart, length_drop]; omega))
        rw [newParent, lowerPart] at part
        rw [show len = splitLen + (len - splitLen) by omega, take_add, take_add]
        exact part
    · exact .part (nodes.mpr (.inr (.inr ⟨here, same⟩))) space whole le
  | @full n tokens slots here space _ ih =>
    by_cases same : n.id = child.id
    · obtain rfl := eq_of_id wf.ids here mem same
      have full := Below.full upper space (Below.full lower space ih)
      rwa [newParent, lowerPart, ← append_assoc, ← append_assoc, take_append_drop, take_append_drop] at full
    · exact .full (nodes.mpr (.inr (.inr ⟨here, same⟩))) space ih

theorem Below.unsplit (wf : c.Wf) (splits : c.Splits child splitLen) (below : Below (c.splitNode clock child splitLen) extraKey id tokens slots) :
    (id ≠ c.freshId → Below c extraKey id tokens slots) ∧
      (id = c.freshId → child.key.extraKey = extraKey → Below c extraKey child.parent (child.key.tokenIds.take splitLen ++ tokens)
        (child.value.take splitLen ++ slots)) := by
  obtain ⟨mem, _, wholeLen, _, _⟩ := splits
  have nodes {n : TreeNode} := mem_splitNode clock splitLen wf.ids mem n
  have deeper : child.parent ≠ c.freshId := wf.parent_ne_freshId mem
  have known : child.id ≠ c.freshId := id_ne_freshId mem
  induction below with
  | here =>
    refine ⟨fun _ => .here, fun _ space => ?_⟩
    rw [append_nil, append_nil]
    exact .part mem space wholeLen (by omega)
  | @part n len here space whole le =>
    rcases nodes.mp here with rfl | rfl | ⟨old, _⟩
    · refine ⟨fun _ => ?_, fun same => absurd same deeper⟩
      simp only [newParent, length_take] at le ⊢
      rw [take_take, take_take, min_eq_left (by omega)]
      exact .part mem space whole (by omega)
    · refine ⟨fun other => absurd rfl other, fun _ space => ?_⟩
      simp only [lowerPart, length_drop] at le ⊢
      rw [← take_add, ← take_add]
      exact .part mem space (Nat.dvd_add wholeLen whole) (by omega)
    · exact ⟨fun _ => .part old space whole le, fun same => absurd same (wf.parent_ne_freshId old)⟩
  | @full n tokens slots here space _ ih =>
    rcases nodes.mp here with rfl | rfl | ⟨old, _⟩
    · exact ⟨fun _ => ih.2 rfl space, fun same => absurd same deeper⟩
    · refine ⟨fun other => absurd rfl other, fun _ space => ?_⟩
      have full := Below.full mem space (ih.1 known)
      rw [lowerPart, ← append_assoc, ← append_assoc, take_append_drop, take_append_drop]
      exact full
    · exact ⟨fun _ => .full old space (ih.1 (id_ne_freshId old)), fun same => absurd same (wf.parent_ne_freshId old)⟩

theorem splitNode_aligned (wf : c.Wf) (aligned : c.Aligned) (splits : c.Splits child splitLen) : (c.splitNode clock child splitLen).Aligned := by
  obtain ⟨mem, _, whole, _, _⟩ := splits
  intro n listed
  change c.pageSize ∣ _
  rcases (mem_splitNode clock splitLen wf.ids mem n).mp listed with rfl | rfl | ⟨old, _⟩
  · rwa [newParent, length_take, min_eq_left (by omega)]
  · rw [lowerPart, length_drop]
    exact Nat.dvd_sub (aligned child mem) whole
  · exact aligned n old

end

section
variable {c : RadixCache} {leaf : TreeNode} {extraKey : Option String} {id : Nat} {tokens slots tokens' slots' : List Nat}

theorem Below.addLeaf_cases (wf : c.Wf) (fits : c.Fits leaf) (whole : c.pageSize ∣ leaf.key.tokenIds.length)
    (path : Path c extraKey id tokens slots) (below : Below (c.addLeaf leaf) extraKey id tokens' slots') :
    Below c extraKey id tokens' slots' ∨ leaf.key.extraKey = extraKey ∧ ∃ front back len, Path c extraKey leaf.parent front back ∧
      c.pageSize ∣ len ∧ len ≤ leaf.key.tokenIds.length ∧ tokens ++ tokens' = front ++ leaf.key.tokenIds.take len ∧
        slots ++ slots' = back ++ leaf.value.take len := by
  have mem {n : TreeNode} : n ∈ (c.addLeaf leaf).nodes ↔ n ∈ c.nodes ∨ n = leaf := by
    rw [addLeaf_nodes, mem_append, mem_singleton]
  induction below generalizing tokens slots with
  | here => exact .inl .here
  | @part n len member space pages le =>
    rw [addLeaf_pageSize] at pages
    rcases mem.mp member with old | rfl
    · exact .inl (.part old space pages le)
    · exact .inr ⟨space, tokens, slots, len, path, pages, le, rfl, rfl⟩
  | @full n tokens' slots' member space rest ih =>
    rcases mem.mp member with old | rfl
    · rcases ih (.node old space path) with stored | ⟨same, front, back, len, parent, pages, le, rest, rest'⟩
      · exact .inl (.full old space stored)
      · rw [append_assoc] at rest rest'
        exact .inr ⟨same, front, back, len, parent, pages, le, rest, rest'⟩
    · -- the leaf has no children
      have none : tokens' = [] ∧ slots' = [] := by
        have last {m : TreeNode} (inside : m ∈ (c.addLeaf n).nodes) : m.parent ≠ n.id := by
          rcases mem.mp inside with old | rfl
          · rw [fits.fresh]
            exact wf.parent_ne_freshId old
          · exact fits.parent_ne
        generalize same : n.id = id at rest
        cases rest with
        | here => exact ⟨rfl, rfl⟩
        | part inside => exact absurd same.symm (last inside)
        | full inside => exact absurd same.symm (last inside)
      obtain ⟨rfl, rfl⟩ := none
      refine .inr ⟨space, tokens, slots, n.key.tokenIds.length, path, whole, le_refl _, ?_, ?_⟩
      · rw [append_nil, take_length]
      · rw [append_nil, ← fits.values, take_length]

end

section
variable {c : RadixCache} {x : TreeNode} {extraKey : Option String} {id : Nat} {tokens slots : List Nat}

theorem Path.whole (aligned : c.Aligned) (path : Path c extraKey id tokens slots) : c.pageSize ∣ tokens.length := by
  induction path with
  | root => exact Nat.dvd_zero _
  | node mem _ _ ih =>
    rw [length_append]
    exact Nat.dvd_add ih (aligned _ mem)

theorem Path.descend (wf : c.Wf) (aligned : c.Aligned) {slots' tokens' : List Nat} (path : Path c extraKey id tokens slots)
    (below : Below c extraKey 0 (tokens ++ tokens') slots') : ∃ slots'', Below c extraKey id tokens' slots'' := by
  induction path generalizing tokens' with
  | root => exact ⟨_, below⟩
  | @node n tokens slots mem space _ ih =>
    rw [append_assoc] at below
    obtain ⟨slots'', under⟩ := ih below
    have nonempty : n.key.tokenIds ++ tokens' ≠ [] := fun none => (wf.keys n mem).2 (append_eq_nil_iff.mp none).1
    obtain ⟨m, lt, parent, space', page, stored⟩ := under.through wf aligned nonempty
    rw [take_append_of_le_length (aligned.page_le wf mem)] at page
    obtain rfl := child_unique wf lt mem parent (space'.trans space.symm) page
    rcases stored with ⟨_, _, same, _⟩ | ⟨_, found, deeper, same, _⟩
    · have short := congrArg List.length same
      rw [length_append, length_take] at short
      obtain rfl : tokens' = [] := length_eq_zero_iff.mp (by omega)
      exact ⟨[], .here⟩
    · rw [append_cancel_left same]
      exact ⟨found, deeper⟩

theorem Path.deleteLeaf (leaf : c.IsLeaf x) (path : Path c extraKey id tokens slots) (other : id ≠ x.id) :
    Path (c.deleteLeaf x) extraKey id tokens slots := by
  have last := children_eq_nil.mp leaf.last
  induction path with
  | root => exact .root
  | @node n tokens slots mem space _ ih =>
    refine .node ?_ space (ih (last n mem))
    rw [nodes_delete]
    exact mem_filter.mpr ⟨mem, by simpa using other⟩

theorem mem_deleteLeaf (mem : n ∈ (c.deleteLeaf x).nodes) : n ∈ c.nodes ∧ n.id ≠ x.id := by
  rw [nodes_delete] at mem
  obtain ⟨lt, other⟩ := mem_filter.mp mem
  exact ⟨lt, by simpa using other⟩

theorem delete_pageSize (c : RadixCache) (x : TreeNode) : (c.deleteLeaf x).pageSize = c.pageSize := by
  rw [deleteLeaf_eq, leafStatus_eq]
  rfl

theorem delete_embeds (c : RadixCache) (x : TreeNode) : Embeds (c.deleteLeaf x) c :=
  embeds_of_subset (delete_pageSize c x).symm (fun _ mem => (mem_deleteLeaf mem).1)

theorem Below.deleteLeaf_cases (wf : c.Wf) (aligned : c.Aligned) (leaf : c.IsLeaf x) (path : Path c extraKey id front back)
    (below : Below c extraKey id tokens slots) :
    Below (c.deleteLeaf x) extraKey id tokens slots ∨ x.key.extraKey = extraKey ∧ ∃ front' back' len, Path c extraKey x.parent front' back' ∧
      0 < len ∧ c.pageSize ∣ len ∧ len ≤ x.key.tokenIds.length ∧ front ++ tokens = front' ++ x.key.tokenIds.take len := by
  have stays {n : TreeNode} (mem : n ∈ c.nodes) (other : n.id ≠ x.id) : n ∈ (c.deleteLeaf x).nodes := by
    rw [nodes_delete]
    exact mem_filter.mpr ⟨mem, by simpa using other⟩
  have last := children_eq_nil.mp leaf.last
  induction below generalizing front back with
  | here => exact .inl .here
  | @part n len mem space pages le =>
    by_cases same : n.id = x.id
    · obtain rfl := eq_of_id wf.ids mem leaf.member same
      rcases Nat.eq_zero_or_pos len with rfl | some
      · exact .inl (by rw [take_zero, take_zero]; exact .here)
      · exact .inr ⟨space, front, back, len, path, some, pages, le, rfl⟩
    · exact .inl (.part (stays mem same) space (by rwa [delete_pageSize]) le)
  | @full n tokens slots mem space rest ih =>
    by_cases same : n.id = x.id
    · obtain rfl := eq_of_id wf.ids mem leaf.member same
      have none : tokens = [] := by
        generalize here : n.id = id at rest
        cases rest with
        | here => rfl
        | part lt => exact absurd here.symm (last _ lt)
        | full lt => exact absurd here.symm (last _ lt)
      refine .inr ⟨space, front, back, n.key.tokenIds.length, path, length_pos_iff.mpr (wf.keys n mem).2, aligned n mem, le_refl _, ?_⟩
      rw [none, append_nil, take_length]
    · rcases ih (.node mem space path) with stored | ⟨space', front', back', len, parent, some, pages, le, rest⟩
      · exact .inl (.full (stays mem same) space stored)
      · rw [append_assoc] at rest
        exact .inr ⟨space', front', back', len, parent, some, pages, le, rest⟩

theorem not_below_delete (wf : c.Wf) (aligned : c.Aligned) (leaf : c.IsLeaf x)
    (path : Path c x.key.extraKey x.parent front back) {len : Nat} (nonempty : 0 < len) (pages : c.pageSize ∣ len)
      (le : len ≤ x.key.tokenIds.length) :
    ¬ Below (c.deleteLeaf x) x.key.extraKey 0 (front ++ x.key.tokenIds.take len) slots := by
  intro below
  have wf' := deleteLeaf_wf wf leaf
  have aligned' := (delete_embeds c x).aligned aligned
  obtain ⟨_, under⟩ := (path.deleteLeaf leaf (parent_ne wf leaf.member)).descend wf' aligned' below
  have length : (x.key.tokenIds.take len).length = len := by
    rw [length_take]
    omega
  obtain ⟨m, lt, parent, space, page, _⟩ := under.through wf' aligned' (fun none => by simp [none] at length; omega)
  obtain ⟨mem, other⟩ := mem_deleteLeaf lt
  rw [delete_pageSize, take_take, min_eq_left (Nat.le_of_dvd nonempty pages)] at page
  exact other (congrArg TreeNode.id (child_unique wf mem leaf.member parent space page))

end

inductive Steps (c : RadixCache) : RadixCache → Prop where
  | refl : Steps c c
  | retouch {c₁ c₂ : RadixCache} : Steps c c₁ → Retouch c₁ c₂ → Steps c c₂
  | split {c₁ : RadixCache} {child : TreeNode} {splitLen : Nat} (clock : Nat → Int) : Steps c c₁ → c₁.Splits child splitLen →
      Steps c (c₁.splitNode clock child splitLen)

namespace Steps
variable {c c' c'' : RadixCache} {extraKey : Option String} {tokens slots : List Nat}

theorem trans (first : Steps c c') (second : Steps c' c'') : Steps c c'' := by
  induction second with
  | refl => exact first
  | retouch _ same ih => exact .retouch ih same
  | split clock _ splits ih => exact .split clock ih splits

section
variable (steps : Steps c c')
include steps

theorem wf (wf : c.Wf) : c'.Wf := by
  induction steps with
  | refl => exact wf
  | retouch _ same ih => exact same.wf ih
  | split clock _ splits ih => exact splitNode_wf clock ih splits

theorem pageSize : c'.pageSize = c.pageSize := by
  induction steps with
  | refl => rfl
  | retouch _ same ih => exact same.pageSize.trans ih
  | split _ _ _ ih => exact ih

theorem disable : c'.disable = c.disable := by
  induction steps with
  | refl => rfl
  | retouch _ same ih =>
    rw [same.rest]
    exact ih
  | split _ _ _ ih => exact ih

theorem aligned (wf : c.Wf) (aligned : c.Aligned) : c'.Aligned := by
  induction steps with
  | refl => exact aligned
  | retouch _ same ih =>
    intro n mem
    obtain ⟨m, lt, eq⟩ := same.mem mem
    rw [same.pageSize, ← eq.key]
    exact ih m lt
  | split clock before splits ih => exact splitNode_aligned clock (before.wf wf) ih splits

theorem known (wf : c.Wf) (mem : n ∈ c.nodes) : ∃ m ∈ c'.nodes, m.id = n.id := by
  induction steps with
  | refl => exact ⟨n, mem, rfl⟩
  | retouch _ same ih =>
    obtain ⟨m, lt, eq⟩ := ih
    obtain ⟨m', lt', eq'⟩ := same.symm.mem lt
    exact ⟨m', lt', eq'.id.trans eq⟩
  | @split c₁ child splitLen clock before splits ih =>
    obtain ⟨m, lt, eq⟩ := ih
    have nodes {n : TreeNode} := mem_splitNode clock splitLen (before.wf wf).ids splits.member n
    by_cases same : m.id = child.id
    · exact ⟨lowerPart splitLen c₁.freshId child, nodes.mpr (.inr (.inl rfl)), same.symm.trans eq⟩
    · exact ⟨m, nodes.mpr (.inr (.inr ⟨lt, same⟩)), eq⟩

theorem below_iff (wf : c.Wf) {id : Nat} (here : id = 0 ∨ ∃ n ∈ c.nodes, n.id = id) :
    Below c' extraKey id tokens slots ↔ Below c extraKey id tokens slots := by
  induction steps with
  | refl => rfl
  | retouch _ same ih => exact ⟨fun below => ih.mp (below.mono same.symm.embeds), fun below => (ih.mpr below).mono same.embeds⟩
  | @split c₁ child splitLen clock before splits ih =>
    have wf₁ := before.wf wf
    have old : id ≠ c₁.freshId := by
      rcases here with rfl | ⟨n, mem, rfl⟩
      · exact c₁.freshId_pos.ne
      · obtain ⟨m, lt, eq⟩ := before.known wf mem
        rw [← eq]
        exact id_ne_freshId lt
    exact ⟨fun below => ih.mp ((below.unsplit clock wf₁ splits).1 old), fun below => (ih.mpr below).split clock wf₁ splits⟩

end

end Steps

end TriaxialKV.RadixCache
