import Mathlib.Algebra.Order.BigOperators.Group.List
import Mathlib.Algebra.Order.Ring.Nat
import Mathlib.Data.Finset.Card
import TriaxialKV.Gateway.TreeUpdate

/-! # Removal from the prefix tree -/

namespace TriaxialKV.Gateway.Tree
open List AList

variable {curr q : List Char} {n : Node} {other : String} {queue : List (List Char)} {t' : Tree}

section
variable {t : Tree} {path q : List Char} {tenant : String} {state : NodeState}

theorem hasChild_iff (separate : t.Separate) :
    t.hasChildWithTenant path tenant = true ↔ ∃ n ∈ t.nodes, n.parent = path ∧ tenant ∈ t.tenantsAt n.path := by
  unfold hasChildWithTenant
  rw [any_eq_true]
  refine exists_congr (fun n => and_congr_right (fun mem => ?_))
  rw [decide_eq_true_iff, separate.tenantsAt_path mem]

theorem mem_eraseTenant : other ∈ (eraseTenant tenant state).tenantLastAccessTime ↔ other ≠ tenant ∧ other ∈ state.tenantLastAccessTime := mem_erase

structure Removed (t t' : Tree) (path : List Char) (tenant : String) : Prop where
  shape : t'.Shape
  counts : t'.tenantCharCount = t.tenantCharCount
  tenants : ∀ q other, other ∈ t'.tenantsAt q ↔ other ∈ t.tenantsAt q ∧ ¬ (q = path ∧ other = tenant)
  frame : ∀ n' ∈ t'.nodes, ∃ n ∈ t.nodes, n.path = n'.path ∧ n.parent = n'.parent ∧ ∀ w, n'.Covers w ↔ n.Covers w
  kept : ∀ n ∈ t.nodes, ∀ other ∈ t'.tenantsAt n.path, ∃ n' ∈ t'.nodes, n'.path = n.path ∧ n'.parent = n.parent ∧ ∀ w, n'.Covers w ↔ n.Covers w
  others : ∀ other ≠ tenant, t'.chars other = t.chars other
  chars : ∀ n ∈ t.nodes, n.path = path → tenant ∈ n.tenantLastAccessTime → t'.chars tenant + n.text.text.length = t.chars tenant
  fewer : tenant ∈ t.tenantsAt path → t'.memberships < t.memberships

theorem modifyAt_removed (shape : t.Shape) (here : t.stateAt path = some state)
    (fits : t.Fits path (eraseTenant tenant state).tenantLastAccessTime) : Removed t (t.modifyAt path (eraseTenant tenant)) path tenant := by
  have shape' := modifyAt_shape shape here fits
  have nodes := nodes_modifyAt shape path (eraseTenant tenant)
  have at_ {n : Node} (mem : n ∈ t.nodes) (eq : n.path = path) : n.toNodeState = state := by
    rw [← eq, shape.stateAt_path mem] at here
    exact Option.some.inj here
  refine ⟨shape', ?_, fun q other => mem_tenantsAt_erase, fun n' mem => ?_, fun n mem other _ => ?_, fun other differ => ?_, fun n mem eq has => ?_,
    fun has => ?_⟩
  · unfold modifyAt
    split <;> rfl
  · rw [nodes] at mem
    obtain ⟨n, mem', rfl⟩ := mem_map.mp mem
    obtain ⟨parent, _, same⟩ := touch_frame path (eraseTenant tenant) n
    exact ⟨n, mem', same.symm, parent.symm, fun w => touch_covers⟩
  · rw [nodes]
    obtain ⟨parent, _, same⟩ := touch_frame path (eraseTenant tenant) n
    exact ⟨_, mem_map_of_mem mem, same, parent, fun w => touch_covers⟩
  · unfold Tree.chars
    rw [nodes, map_map]
    refine congrArg List.sum (map_congr_left (fun n mem => ?_))
    rw [Function.comp_apply, (touch_frame path (eraseTenant tenant) n).2.1]
    have iff : other ∈ (touch path (eraseTenant tenant) n).tenantLastAccessTime ↔ other ∈ n.tenantLastAccessTime := by
      unfold touch
      split
      · exact mem_eraseTenant.trans (and_iff_right differ)
      · exact Iff.rfl
    simp only [iff]
  · have sum := chars_modifyAt shape mem (eraseTenant tenant) tenant
    rw [if_pos has, if_neg (fun lt => (mem_eraseTenant.mp lt).1 rfl), eq, add_zero] at sum
    exact sum
  · rw [tenantsAt_eq here] at has
    have shorter : (eraseTenant tenant state).tenantLastAccessTime.keys.length + 1 = state.tenantLastAccessTime.keys.length := by
      unfold eraseTenant
      rw [keys_erase, length_erase_of_mem (AList.mem_keys.mp has)]
      exact Nat.sub_add_cancel (length_pos_of_mem (AList.mem_keys.mp has))
    unfold memberships
    rw [root_modifyAt]
    by_cases top : path = []
    · subst top
      cases here
      have nodes' : (t.modifyAt [] (eraseTenant tenant)).nodes = t.nodes := rfl
      rw [if_pos rfl, nodes']
      omega
    · obtain ⟨n, mem, rfl⟩ := (isPath_of_stateAt here).resolve_left top
      have sum := sum_modifyAt shape mem (eraseTenant tenant) (·.tenantLastAccessTime.keys.length)
      rw [at_ mem rfl] at sum
      dsimp only at sum
      rw [if_neg top]
      omega

theorem sum_filter (shape : t.Shape) (mem : n ∈ t.nodes) (g : Node → Nat) :
    ((t.nodes.filter (fun m => m.path ≠ n.path)).map g).sum + g n = (t.nodes.map g).sum := by
  obtain ⟨before, behind, same, left, right⟩ := shape.around mem
  have rest {nodes : List Node} (others : ∀ m ∈ nodes, m.path ≠ n.path) : nodes.filter (fun m => m.path ≠ n.path) = nodes :=
    filter_eq_self.mpr (fun m lt => decide_eq_true (others m lt))
  have all : t.nodes.filter (fun m => m.path ≠ n.path) = before ++ behind := by
    rw [same, filter_append, filter_cons_of_neg (by simp), rest left, rest right]
  rw [all, same]
  simp only [map_append, map_cons, sum_append, sum_cons]
  omega

theorem chars_filter (shape : t.Shape) (mem : n ∈ t.nodes) (other : String) :
    chars { t with nodes := t.nodes.filter (fun m => m.path ≠ n.path) } other + (if other ∈ n.tenantLastAccessTime then n.text.text.length else 0) =
      t.chars other :=
  sum_filter shape mem (fun m => if other ∈ m.tenantLastAccessTime then m.text.text.length else 0)

theorem stateAt_of_mem (has : tenant ∈ t.tenantsAt q) : ∃ state, t.stateAt q = some state := by
  unfold tenantsAt at has
  split at has
  · next state here => exact ⟨state, here⟩
  · exact absurd has (notMem_empty _)

theorem isPath_of_mem (has : tenant ∈ t.tenantsAt q) : t.IsPath q := by
  obtain ⟨_, here⟩ := stateAt_of_mem has
  exact isPath_of_stateAt here

theorem filter_removed (shape : t.Shape) (proper : path ≠ []) (childless : ∀ n ∈ t.nodes, n.parent ≠ path)
    (only : ∀ other ∈ t.tenantsAt path, other = tenant) :
    Removed t { t with nodes := t.nodes.filter (fun n => n.path ≠ path) } path tenant := by
  have mem {m : Node} : m ∈ t.nodes.filter (fun n => n.path ≠ path) ↔ m ∈ t.nodes ∧ m.path ≠ path := by
    rw [mem_filter, decide_eq_true_iff]
  have separate : Separate { t with nodes := t.nodes.filter (fun n => n.path ≠ path) } :=
    ⟨fun n member => shape.nonempty n (mem.mp member).1, shape.apart.sublist filter_sublist⟩
  have same {q : List Char} (other : q ≠ path) : tenantsAt { t with nodes := t.nodes.filter (fun n => n.path ≠ path) } q = t.tenantsAt q := by
    have found : (t.nodes.filter (fun n => n.path ≠ path)).find? (fun n => n.path = q) = t.nodes.find? (fun n => n.path = q) := by
      rw [find?_filter]
      congr 1
      funext n
      refine decide_eq_decide.mpr ⟨fun both => of_decide_eq_true both.2, fun eq => ⟨?_, decide_eq_true eq⟩⟩
      exact decide_eq_true (fun same => other (eq.symm.trans same))
    unfold tenantsAt stateAt
    rw [found]
  have gone (other : String) : other ∉ tenantsAt { t with nodes := t.nodes.filter (fun n => n.path ≠ path) } path := by
    have missing : (t.nodes.filter (fun n => n.path ≠ path)).find? (fun n => n.path = path) = none := by
      rw [find?_eq_none]
      intro n member eq
      exact (mem.mp member).2 (of_decide_eq_true eq)
    unfold tenantsAt stateAt
    rw [if_neg proper, missing]
    exact notMem_empty other
  have shape' : Shape { t with nodes := t.nodes.filter (fun n => n.path ≠ path) } := by
    refine ⟨separate, fun n member => ?_, fun n member other has => ?_, fun n member => shape.owned n (mem.mp member).1⟩
    · refine (shape.attached n (mem.mp member).1).imp id ?_
      rintro ⟨m, mem', eq⟩
      exact ⟨m, mem.mpr ⟨mem', fun path => childless n (mem.mp member).1 (eq.symm.trans path)⟩, eq⟩
    · rw [same (childless n (mem.mp member).1)]
      exact shape.inherited n (mem.mp member).1 other has
  refine ⟨shape', rfl, fun q other => ?_, fun n member => ⟨n, (mem.mp member).1, rfl, rfl, fun w => Iff.rfl⟩, fun n member other has => ?_,
    fun other differ => ?_, fun n member eq has => ?_, fun has => ?_⟩
  · by_cases eq : q = path
    · rw [eq]
      refine iff_of_false (gone other) ?_
      rintro ⟨has, differ⟩
      exact differ ⟨rfl, only other has⟩
    · rw [same eq]
      exact (and_iff_left (fun both => eq both.1)).symm
  · refine ⟨n, mem.mpr ⟨member, fun eq => ?_⟩, rfl, rfl, fun w => Iff.rfl⟩
    rw [eq] at has
    exact gone other has
  · by_cases present : ∃ n ∈ t.nodes, n.path = path
    · obtain ⟨n, member, rfl⟩ := present
      have sum := chars_filter shape member other
      rw [shape.tenantsAt_path member] at only
      rw [if_neg (fun has => differ (only other has)), add_zero] at sum
      exact sum
    · have all : t.nodes.filter (fun n => n.path ≠ path) = t.nodes :=
        filter_eq_self.mpr (fun n member => decide_eq_true (fun eq => present ⟨n, member, eq⟩))
      unfold Tree.chars
      rw [all]
  · subst eq
    have sum := chars_filter shape member tenant
    rw [if_pos has] at sum
    exact sum
  · obtain ⟨n, member, rfl⟩ := (isPath_of_mem has).resolve_left proper
    rw [shape.tenantsAt_path member] at has
    have sum := sum_filter shape member (·.tenantLastAccessTime.keys.length)
    have pos := length_pos_of_mem (AList.mem_keys.mp has)
    unfold memberships
    dsimp only at sum ⊢
    omega

theorem fromNode_removed (shape : t.Shape) (here : t.stateAt path = some state) (leaf : ¬ t.hasChildWithTenant path tenant) :
    Removed t (t.removeFromNode path tenant) path tenant := by
  have nodes := nodes_modifyAt shape path (eraseTenant tenant)
  have erased : (t.modifyAt path (eraseTenant tenant)).tenantsAt path = (eraseTenant tenant state).tenantLastAccessTime := tenantsAt_modify here
  have up (n : Node) (mem : n ∈ t.nodes) (eq : n.path = path) (other : String)
      (inside : other ∈ (eraseTenant tenant state).tenantLastAccessTime) : other ∈ t.tenantsAt n.parent := by
    rw [← eq, shape.stateAt_path mem] at here
    rw [← Option.some.inj here, mem_eraseTenant] at inside
    exact shape.inherited n mem other inside.2
  -- a child has tenants of its own, which the node keeps
  have down (n : Node) (mem : n ∈ t.nodes) (child : n.parent = path) (other : String) (has : other ∈ n.tenantLastAccessTime) :
      other ∈ (eraseTenant tenant state).tenantLastAccessTime := by
    refine mem_eraseTenant.mpr ⟨?_, ?_⟩
    · rintro rfl
      refine leaf ((hasChild_iff shape.toSeparate).mpr ⟨n, mem, child, ?_⟩)
      rw [shape.tenantsAt_path mem]
      exact has
    · have inherited := shape.inherited n mem other has
      rw [child, tenantsAt_eq here] at inherited
      exact inherited
  unfold removeFromNode
  dsimp only
  rw [erased]
  split
  · next empty =>
    obtain ⟨childless, none⟩ := empty
    by_cases top : path = []
    · have all : (t.modifyAt path (eraseTenant tenant)).nodes.filter (fun n => n.path ≠ path) = (t.modifyAt path (eraseTenant tenant)).nodes := by
        refine filter_eq_self.mpr (fun n mem => decide_eq_true ?_)
        rw [nodes] at mem
        obtain ⟨old, mem', rfl⟩ := mem_map.mp mem
        rw [(touch_frame path (eraseTenant tenant) old).2.2, top]
        exact shape.path_ne_nil mem'
      rw [all]
      exact modifyAt_removed shape here ⟨up, down, fun proper => absurd top proper⟩
    · have parts :
          { t.modifyAt path (eraseTenant tenant) with
            nodes := (t.modifyAt path (eraseTenant tenant)).nodes.filter (fun n => n.path ≠ path) } =
          { t with nodes := t.nodes.filter (fun n => n.path ≠ path) } := by
        have rest : (t.nodes.map (touch path (eraseTenant tenant))).filter (fun n => n.path ≠ path) = t.nodes.filter (fun n => n.path ≠ path) := by
          have paths : (fun n : Node => decide (n.path ≠ path)) ∘ touch path (eraseTenant tenant) = fun n => decide (n.path ≠ path) := by
            funext n
            rw [Function.comp_apply, (touch_frame path (eraseTenant tenant) n).2.2]
          rw [filter_map, paths]
          refine (map_congr_left (fun n mem => ?_)).trans (map_id _)
          exact if_neg (of_decide_eq_true (mem_filter.mp mem).2)
        rw [nodes, rest]
        unfold modifyAt
        rw [if_neg top]
      rw [parts]
      refine filter_removed shape top (fun n mem child => ?_) (fun other has => ?_)
      · refine childless (touch path (eraseTenant tenant) n) ?_ ((touch_frame path (eraseTenant tenant) n).1.trans child)
        rw [nodes]
        exact mem_map_of_mem mem
      · by_contra differ
        rw [tenantsAt_eq here] at has
        have left := AList.mem_keys.mp (mem_eraseTenant.mpr ⟨differ, has⟩)
        rw [none] at left
        cases left
  · next some =>
    refine modifyAt_removed shape here ⟨up, down, fun _ none => some ⟨fun n mem child => ?_, none⟩⟩
    rw [nodes] at mem
    obtain ⟨old, mem', rfl⟩ := mem_map.mp mem
    rw [(touch_frame path (eraseTenant tenant) old).1] at child
    obtain ⟨other, first⟩ := exists_mem_of_ne_nil _ (shape.owned old mem')
    have left := AList.mem_keys.mp (down old mem' child other (AList.mem_keys.mpr first))
    rw [none] at left
    cases left

theorem Removed.holds (removed : Removed t t' path tenant) (shape : t.Shape) {w : List Char} :
    t'.Holds other w ↔ t.Holds other w ∧ ¬ (other = tenant ∧ t.At path w) := by
  have unique {p : List Char} (here : t.At p w) (here' : t.At path w) : p = path := by
    rcases here with ⟨rfl, rfl⟩ | ⟨n, mem, rfl, covers⟩
    · rcases here' with ⟨rfl, _⟩ | ⟨m, _, _, covers⟩
      · rfl
      · exact absurd covers.1 (Nat.not_lt_zero _)
    · rcases here' with ⟨_, rfl⟩ | ⟨m, mem', rfl, covers'⟩
      · exact absurd covers.1 (Nat.not_lt_zero _)
      · rw [shape.unique mem mem' covers covers']
  rw [holds_iff removed.shape, holds_iff shape]
  constructor
  · rintro ⟨p, here, has⟩
    obtain ⟨old, differ⟩ := (removed.tenants p other).mp has
    have before : t.At p w := by
      rcases here with top | ⟨n', mem, eq, covers⟩
      · exact .inl top
      · obtain ⟨n, mem', path', _, same⟩ := removed.frame n' mem
        exact .inr ⟨n, mem', path'.trans eq, (same w).mp covers⟩
    exact ⟨⟨p, before, old⟩, fun both => differ ⟨unique before both.2, both.1⟩⟩
  · rintro ⟨⟨p, here, old⟩, differ⟩
    have has : other ∈ t'.tenantsAt p := by
      refine (removed.tenants p other).mpr ⟨old, fun both => differ ⟨both.2, ?_⟩⟩
      rw [← both.1]
      exact here
    refine ⟨p, ?_, has⟩
    rcases here with top | ⟨n, mem, rfl, covers⟩
    · exact .inl top
    · obtain ⟨n', mem', path', _, same⟩ := removed.kept n mem other has
      exact .inr ⟨n', mem', path', (same w).mpr covers⟩

theorem Removed.hasChild (removed : Removed t t' path tenant) (shape : t.Shape) (child : t'.hasChildWithTenant q other) :
    t.hasChildWithTenant q other := by
  rw [hasChild_iff removed.shape.toSeparate] at child
  rw [hasChild_iff shape.toSeparate]
  obtain ⟨n', mem, parent, has⟩ := child
  obtain ⟨n, mem', path', parent', _⟩ := removed.frame n' mem
  exact ⟨n, mem', parent'.trans parent, path' ▸ ((removed.tenants n'.path other).mp has).1⟩

end

section
variable {t : Tree} {tenant : String}

theorem eq_nil_of_leaves (shape : t.Shape) (leaves : ∀ q, tenant ∈ t.tenantsAt q → t.hasChildWithTenant q tenant) (q : List Char) :
    tenant ∉ t.tenantsAt q := by
  intro has
  have below (k : Nat) : ∃ n ∈ t.nodes, tenant ∈ t.tenantsAt n.path ∧ k ≤ n.path.length := by
    induction k with
    | zero =>
      obtain ⟨n, mem, _, has⟩ := (hasChild_iff shape.toSeparate).mp (leaves q has)
      exact ⟨n, mem, has, Nat.zero_le _⟩
    | succ k ih =>
      obtain ⟨m, _, has, le⟩ := ih
      obtain ⟨n, mem, parent, has'⟩ := (hasChild_iff shape.toSeparate).mp (leaves m.path has)
      have longer := shape.length_path mem
      rw [parent] at longer
      exact ⟨n, mem, has', by omega⟩
  obtain ⟨n, mem, _, le⟩ := below ((t.nodes.map (·.path.length)).sum + 1)
  have bound := single_le_sum (fun _ _ => Nat.zero_le _) n.path.length (mem_map_of_mem (f := fun n : Node => n.path.length) mem)
  omega

structure Leaves (t : Tree) (tenant : String) (queue : List (List Char)) : Prop where
  nodup : queue.Nodup
  iff : ∀ q, q ∈ queue ↔ tenant ∈ t.tenantsAt q ∧ ¬ t.hasChildWithTenant q tenant

theorem holds_nil : t.Holds tenant [] ↔ tenant ∈ t.root.tenantLastAccessTime := by
  constructor
  · rintro (⟨_, has⟩ | ⟨n, _, covers, _⟩)
    · exact has
    · exact absurd covers.1 (Nat.not_lt_zero _)
  · exact fun has => .inl ⟨rfl, has⟩

def owners (t : Tree) (tenant : String) : Finset (List Char) := (t.paths.filter (fun q => tenant ∈ t.tenantsAt q)).toFinset

theorem mem_paths : q ∈ t.paths ↔ t.IsPath q := by
  unfold paths IsPath
  rw [mem_cons, mem_map]

theorem mem_owners : q ∈ t.owners tenant ↔ tenant ∈ t.tenantsAt q := by
  unfold owners
  rw [mem_toFinset, mem_filter, decide_eq_true_iff]
  exact and_iff_right_of_imp (fun has => mem_paths.mpr (isPath_of_mem has))

theorem parentOf_eq (shape : t.Shape) (mem : n ∈ t.nodes) : t.parentOf n.path = some n.parent := by
  unfold parentOf
  rw [if_neg (shape.path_ne_nil mem), shape.find?_path mem]
  rfl

theorem parentOf_some (parent : t.parentOf curr = some q) : ∃ n ∈ t.nodes, n.path = curr ∧ n.parent = q := by
  unfold parentOf at parent
  split at parent
  · cases parent
  · obtain ⟨n, found, same⟩ := Option.map_eq_some_iff.mp parent
    have eq := find?_some found
    exact ⟨n, mem_of_find?_eq_some found, of_decide_eq_true eq, same⟩

theorem mem_newLeafOf {parent : Option (List Char)} :
    q ∈ t.newLeafOf parent tenant ↔ parent = some q ∧ tenant ∈ t.tenantsAt q ∧ ¬ t.hasChildWithTenant q tenant := by
  unfold newLeafOf
  cases parent with
  | none => simp
  | some parent =>
    dsimp only
    split
    · next leaf =>
      rw [mem_singleton, Option.some_inj]
      constructor
      · rintro rfl
        exact ⟨rfl, leaf⟩
      · exact fun both => both.1.symm
    · next other =>
      refine iff_of_false not_mem_nil ?_
      rintro ⟨same, leaf⟩
      rw [Option.some.inj same] at other
      exact other leaf

theorem newLeafOf_nodup (parent : Option (List Char)) : (t.newLeafOf parent tenant).Nodup := by
  unfold newLeafOf
  split
  · split
    · exact nodup_singleton _
    · exact nodup_nil
  · exact nodup_nil

theorem Leaves.step (shape : t.Shape) (leaves : Leaves t tenant (curr :: queue)) : Removed t (t.removeFromNode curr tenant) curr tenant ∧
      Leaves (t.removeFromNode curr tenant) tenant (queue ++ (t.removeFromNode curr tenant).newLeafOf (t.parentOf curr) tenant) := by
  obtain ⟨has, leaf⟩ := (leaves.iff curr).mp mem_cons_self
  obtain ⟨_, here⟩ := stateAt_of_mem has
  have removed := fromNode_removed shape here leaf
  obtain ⟨fresh, nodup⟩ := nodup_cons.mp leaves.nodup
  have kept {q : List Char} : tenant ∈ (t.removeFromNode curr tenant).tenantsAt q ↔ tenant ∈ t.tenantsAt q ∧ q ≠ curr := by
    rw [removed.tenants, and_iff_left rfl]
  refine ⟨removed, ?_, fun q => ?_⟩
  · refine nodup_append.mpr ⟨nodup, newLeafOf_nodup _, fun q lt q' pushed eq => ?_⟩
    subst eq
    obtain ⟨n, mem, path, parent⟩ := parentOf_some (mem_newLeafOf.mp pushed).1
    refine ((leaves.iff q).mp (mem_cons_of_mem curr lt)).2 ?_
    exact (hasChild_iff shape.toSeparate).mpr ⟨n, mem, parent, path ▸ has⟩
  · rw [mem_append, mem_newLeafOf]
    constructor
    · rintro (lt | ⟨_, leaf'⟩)
      · obtain ⟨has', leaf'⟩ := (leaves.iff q).mp (mem_cons_of_mem curr lt)
        refine ⟨kept.mpr ⟨has', ?_⟩, fun child => leaf' (removed.hasChild shape child)⟩
        rintro rfl
        exact fresh lt
      · exact leaf'
    · rintro ⟨has', leaf'⟩
      obtain ⟨before, other⟩ := kept.mp has'
      by_cases child : t.hasChildWithTenant q tenant
      · obtain ⟨n, mem, parent, below⟩ := (hasChild_iff shape.toSeparate).mp child
        have last : n.path = curr := by
          by_contra differ
          have stays := kept.mpr ⟨below, differ⟩
          obtain ⟨n', mem', path', parent', _⟩ := removed.kept n mem tenant stays
          exact leaf' ((hasChild_iff removed.shape.toSeparate).mpr ⟨n', mem', parent'.trans parent, path' ▸ stays⟩)
        refine .inr ⟨?_, has', leaf'⟩
        rw [← last, parentOf_eq shape mem, parent]
      · exact .inl (mem_of_ne_of_mem other ((leaves.iff q).mpr ⟨before, child⟩))

structure Purged (t t' : Tree) (tenant : String) : Prop where
  shape : t'.Shape
  gone : ∀ q, tenant ∉ t'.tenantsAt q
  counts : t'.tenantCharCount = t.tenantCharCount
  holds : ∀ other ≠ tenant, ∀ w, t'.Holds other w ↔ t.Holds other w
  chars : ∀ other ≠ tenant, t'.chars other = t.chars other

theorem removeLoop_purged (shape : t.Shape) (leaves : Leaves t tenant queue) {fuel : Nat}
    (enough : (t.owners tenant).card ≤ fuel) : Purged t (removeLoop tenant fuel t queue) tenant := by
  induction fuel generalizing t queue with
  | zero =>
    have none := Finset.card_eq_zero.mp (Nat.le_zero.mp enough)
    refine ⟨shape, fun q has => ?_, rfl, fun _ _ _ => Iff.rfl, fun _ _ => rfl⟩
    have inside : q ∈ t.owners tenant := mem_owners.mpr has
    rw [none] at inside
    cases inside
  | succ fuel ih =>
    cases queue with
    | nil =>
      refine ⟨shape, eq_nil_of_leaves shape (fun q has => ?_), rfl, fun _ _ _ => Iff.rfl, fun _ _ => rfl⟩
      by_contra leaf
      cases (leaves.iff q).mpr ⟨has, leaf⟩
    | cons curr queue =>
      obtain ⟨removed, leaves'⟩ := leaves.step shape
      have has := ((leaves.iff curr).mp mem_cons_self).1
      have fewer : (t.removeFromNode curr tenant).owners tenant = (t.owners tenant).erase curr := by
        ext q
        rw [mem_owners, Finset.mem_erase, mem_owners, removed.tenants, and_comm, and_iff_left rfl]
      have later := ih removed.shape leaves' (by rw [fewer, Finset.card_erase_of_mem (mem_owners.mpr has)]; omega)
      refine ⟨later.shape, later.gone, later.counts.trans removed.counts, fun other differ w => ?_, fun other differ => ?_⟩
      · refine (later.holds other differ w).trans ((removed.holds shape).trans ?_)
        exact and_iff_left (fun both => differ both.1)
      · exact (later.chars other differ).trans (removed.others other differ)

theorem paths_nodup (shape : t.Shape) : t.paths.Nodup := by
  refine nodup_cons.mpr ⟨fun mem => ?_, ?_⟩
  · obtain ⟨n, mem', none⟩ := mem_map.mp mem
    exact shape.path_ne_nil mem' none
  · refine pairwise_map.mpr (shape.apart.imp_of_mem (fun {m n} mem mem' apart same => ?_))
    exact apart m.path (shape.covers_path mem) (same ▸ shape.covers_path mem')

theorem leaves_start (shape : t.Shape) (tenant : String) :
    Leaves t tenant (t.paths.filter (fun path => tenant ∈ t.tenantsAt path ∧ ¬ t.hasChildWithTenant path tenant)) := by
  refine ⟨(paths_nodup shape).filter _, fun q => ?_⟩
  rw [mem_filter, decide_eq_true_iff]
  exact and_iff_right_of_imp (fun leaf => mem_paths.mpr (isPath_of_mem leaf.1))

theorem card_owners (t : Tree) (tenant : String) : (t.owners tenant).card ≤ t.nodes.length + 1 := by
  have bound := (toFinset_card_le (t.paths.filter (fun q => tenant ∈ t.tenantsAt q))).trans (length_filter_le _ _)
  have length : t.paths.length = t.nodes.length + 1 := by
    unfold paths
    rw [length_cons, length_map]
  rw [← length]
  exact bound

theorem removeTenant_spec (shape : t.Shape) (counted : t.Counted) (tenant : String) :
    (t.removeTenant tenant).Shape ∧ (t.removeTenant tenant).Counted ∧
      ∀ other w, (t.removeTenant tenant).Holds other w ↔ t.Holds other w ∧ other ≠ tenant := by
  have purged := removeLoop_purged shape (leaves_start shape tenant) (card_owners t tenant)
  have atRoot {other : String} (differ : other ≠ tenant) : other ∈ (t.removeTenant tenant).root.tenantLastAccessTime ↔
      other ∈ t.root.tenantLastAccessTime := by
    have same := purged.holds other differ []
    rw [holds_nil, holds_nil] at same
    exact same
  have shape' := purged.shape
  refine ⟨⟨⟨shape'.nonempty, shape'.apart⟩, shape'.attached, shape'.inherited, shape'.owned⟩,
    ⟨fun other has => ?_, fun other listed => ?_⟩, fun other w => ?_⟩
  · have differ : other ≠ tenant := by
      rintro rfl
      exact purged.gone [] has
    have known := counted.known other ((atRoot differ).mp has)
    rw [← purged.counts, ← purged.chars other differ] at known
    exact (lookup_erase_ne differ).trans known
  · obtain ⟨differ, listed'⟩ := AList.mem_erase.mp listed
    rw [purged.counts] at listed'
    exact (atRoot differ).mpr (counted.listed other listed')
  · by_cases differ : other = tenant
    · refine iff_of_false (fun holds => ?_) (fun both => both.2 differ)
      obtain ⟨q, _, has⟩ := (holds_iff purged.shape).mp holds
      rw [differ] at has
      exact purged.gone q has
    · exact (purged.holds other differ w).trans (and_iff_left differ).symm

end

section
variable {t : Tree} {tenant : String}

theorem chars_of_root (shape : t.Shape) (leaf : ¬ t.hasChildWithTenant [] tenant) : t.chars tenant = 0 := by
  unfold chars
  refine sum_eq_zero (fun k mem => ?_)
  obtain ⟨n, mem', rfl⟩ := mem_map.mp mem
  refine if_neg (fun has => leaf ?_)
  obtain ⟨c, rest, same⟩ := exists_cons_of_ne_nil (shape.path_ne_nil mem')
  obtain ⟨m, lt, covers, has'⟩ := (shape.above mem' has).2 [c] (cons_ne_nil c []) (by rw [same]; exact ⟨rest, rfl⟩)
  refine (hasChild_iff shape.toSeparate).mpr ⟨m, lt, eq_nil_of_length_eq_zero (Nat.lt_one_iff.mp covers.1), ?_⟩
  rw [shape.tenantsAt_path lt]
  exact has'

structure Shrunk (t t' : Tree) : Prop where
  shape : t'.Shape
  counted : t'.Counted
  root : ∀ other, other ∈ t'.root.tenantLastAccessTime ↔ other ∈ t.root.tenantLastAccessTime
  holds : ∀ other w, t'.Holds other w → t.Holds other w

theorem Shrunk.trans {t'' : Tree} (first : Shrunk t t') (second : Shrunk t' t'') : Shrunk t t'' :=
  ⟨second.shape, second.counted, fun other => (second.root other).trans (first.root other),
    fun other w holds => first.holds other w (second.holds other w holds)⟩

def discount (t : Tree) (tenant : String) (node : List Char) : Tree :=
  let nodeLen := ((t.nodes.find? (fun n => n.path = node)).map (·.text.charCount)).getD 0
  { t with tenantCharCount := match t.tenantCharCount.lookup tenant with
      | some count => t.tenantCharCount.insert tenant (count - nodeLen)
      | none => t.tenantCharCount }

theorem evict_node (shape : t.Shape) (counted : t.Counted) {maxSize : Nat} {node : List Char}
    (large : ¬ ∃ usedSize ∈ t.tenantCharCount.lookup tenant, usedSize ≤ maxSize)
    (leaf : tenant ∈ t.tenantsAt node ∧ ¬ t.hasChildWithTenant node tenant) :
    Removed (t.discount tenant node) ((t.discount tenant node).removeFromNode node tenant) node tenant ∧
      Shrunk t ((t.discount tenant node).removeFromNode node tenant) := by
  obtain ⟨has, leaf⟩ := leaf
  have shape' : (t.discount tenant node).Shape := { shape with }
  obtain ⟨_, here⟩ := stateAt_of_mem has
  have removed : Removed (t.discount tenant node) ((t.discount tenant node).removeFromNode node tenant) node tenant :=
    fromNode_removed (t := t.discount tenant node) shape' here leaf
  have atRoot : tenant ∈ t.root.tenantLastAccessTime := by
    rcases isPath_of_mem has with rfl | ⟨n, mem, rfl⟩
    · exact has
    · rw [shape.tenantsAt_path mem] at has
      exact (shape.above mem has).1
  have known := counted.known tenant atRoot
  -- the root is a leaf only for a tenant without characters
  have proper : node ≠ [] := by
    rintro rfl
    refine large ⟨_, known, ?_⟩
    rw [chars_of_root shape leaf]
    exact Nat.zero_le _
  obtain ⟨n, mem, rfl⟩ := (isPath_of_mem has).resolve_left proper
  rw [shape.tenantsAt_path mem] at has
  let rest := (t.discount tenant n.path).removeFromNode n.path tenant
  have counts : rest.tenantCharCount =
      t.tenantCharCount.insert tenant (t.chars tenant - n.text.text.length) := by
    rw [removed.counts]
    unfold discount
    rw [known, shape.find?_path mem]
    rw [Option.map_some, Option.getD_some, n.text.counted]
  have root (other : String) : other ∈ rest.root.tenantLastAccessTime ↔
      other ∈ t.root.tenantLastAccessTime := by
    refine (removed.tenants [] other).trans (and_iff_left (fun both => proper both.1.symm))
  refine ⟨removed, removed.shape, ⟨fun other lt => ?_, fun other listed => ?_⟩, root, fun other w holds => ?_⟩
  · rw [counts]
    by_cases same : other = tenant
    · have sum : rest.chars tenant + n.text.text.length = t.chars tenant := removed.chars n mem rfl has
      rw [same, lookup_insert, ← sum, Nat.add_sub_cancel]
    · have unchanged : rest.chars other = t.chars other := removed.others other same
      rw [lookup_insert_ne same, unchanged]
      exact counted.known other ((root other).mp lt)
  · rw [counts, mem_insert] at listed
    rcases listed with rfl | old
    · exact (root other).mpr atRoot
    · exact (root other).mpr (counted.listed other old)
  · exact ((removed.holds shape').mp holds).1

theorem evictLoop_shrunk (order : HeapOrder) (maxSize : Nat) (shape : t.Shape) (counted : t.Counted) (fuel : Nat) (pq : List EvictionEntry) :
    Shrunk t (evictLoop order maxSize fuel t pq).1 := by
  have same {t : Tree} (shape : t.Shape) (counted : t.Counted) : Shrunk t t := ⟨shape, counted, fun _ => Iff.rfl, fun _ _ => id⟩
  induction fuel generalizing t pq with
  | zero => exact same shape counted
  | succ fuel ih =>
    unfold evictLoop
    cases order.pop pq with
    | none => exact same shape counted
    | some popped =>
      obtain ⟨⟨_, _, _⟩, rest⟩ := popped
      dsimp only
      split
      · exact ih shape counted rest
      next large =>
      split
      · exact ih shape counted rest
      · next leaf =>
        have step := (evict_node shape counted large (not_not.mp leaf)).2
        exact step.trans (ih step.shape step.counted _)

theorem keys_erase_lt {tenants : Tenants} (has : tenant ∈ tenants) : (tenants.erase tenant).keys.length < tenants.keys.length := by
  have some := length_pos_of_mem (mem_keys.mp has)
  rw [keys_erase, length_erase_of_mem (mem_keys.mp has)]
  omega

theorem memberships_modifyAt (has : tenant ∈ t.tenantsAt path) : (t.modifyAt path (eraseTenant tenant)).memberships < t.memberships := by
  unfold modifyAt memberships
  unfold tenantsAt stateAt at has
  split at has
  · next state here =>
    split at here
    · next top =>
      cases here
      rw [if_pos top]
      exact Nat.add_lt_add_right (keys_erase_lt has) _
    · next proper =>
      obtain ⟨n, found, rfl⟩ := Option.map_eq_some_iff.mp here
      have at_ : n.path = path := by simpa using find?_some found
      rw [if_neg proper, map_map]
      refine Nat.add_lt_add_left (sum_lt_sum _ _ (fun m _ => ?_) ⟨n, mem_of_find?_eq_some found, ?_⟩) _
      · dsimp only [Function.comp_apply]
        split
        · exact (keys_erase tenant m.tenantLastAccessTime).symm ▸ length_erase_le
        · exact Nat.le_refl _
      · dsimp only [Function.comp_apply]
        rw [if_pos at_]
        exact keys_erase_lt has
  · exact absurd has (notMem_empty _)

theorem memberships_removeFromNode (has : tenant ∈ t.tenantsAt path) : (t.removeFromNode path tenant).memberships < t.memberships := by
  refine Nat.lt_of_le_of_lt ?_ (memberships_modifyAt has)
  unfold removeFromNode
  dsimp only
  split
  · exact Nat.add_le_add_left ((filter_sublist.map _).sum_le_sum (fun _ _ => Nat.zero_le _)) _
  · exact Nat.le_refl _

theorem length_newEntries (t : Tree) (parent : Option (List Char)) (tenant : String) :
    ((t.newLeafOf parent tenant).filterMap (t.entryOf tenant)).length ≤ 1 := by
  refine (length_filterMap_le _ _).trans ?_
  unfold newLeafOf
  split <;> [split <;> simp; simp]

/-- A round takes an entry from the queue, and one that adds an entry takes a tenant from a node. -/
theorem evictLoop_drains (order : HeapOrder) (maxSize fuel : Nat) (t : Tree) (pq : List EvictionEntry) (enough : pq.length + t.memberships ≤ fuel) :
    (evictLoop order maxSize fuel t pq).2 = [] := by
  induction fuel generalizing t pq with
  | zero =>
    have none : pq.length = 0 := by omega
    exact length_eq_zero_iff.mp none
  | succ fuel ih =>
    unfold evictLoop
    cases popped : order.pop pq with
    | none => exact (order.none_iff pq).mp popped
    | some entry =>
      obtain ⟨⟨_, tenant, node⟩, rest⟩ := entry
      have size := (order.perm _ _ _ popped).length_eq
      rw [length_cons] at size
      dsimp only
      split
      · exact ih t rest (by omega)
      split
      · exact ih t rest (by omega)
      · next leaf =>
        have has : tenant ∈ (t.discount tenant node).tenantsAt node := (not_not.mp leaf).1
        let next := (t.discount tenant node).removeFromNode node tenant
        have fewer : next.memberships < t.memberships := memberships_removeFromNode has
        have added := length_newEntries next (t.parentOf node) tenant
        have bound : (rest ++ (next.newLeafOf (t.parentOf node) tenant).filterMap (next.entryOf tenant)).length + next.memberships ≤ fuel := by
          rw [length_append]
          omega
        exact ih next _ bound

theorem evictBySize_spec (shape : t.Shape) (counted : t.Counted) (maxSize : Nat) (order : HeapOrder) :
    Shrunk t (t.evictTenantBySize maxSize order) := evictLoop_shrunk order maxSize shape counted _ _

end

end TriaxialKV.Gateway.Tree
