import TriaxialKV.Gateway.TreeCover

/-! # Insertion into the prefix tree -/

namespace TriaxialKV.Gateway.Tree
open List AList

def touch (path : List Char) (f : NodeState → NodeState) (n : Node) : Node :=
  if n.path = path then { n with toNodeState := f n.toNodeState } else n

variable {tenant other : String} {w : List Char}

section
variable {t : Tree} {path q : List Char} {f : NodeState → NodeState} {n : Node} {state : NodeState}

theorem touch_frame (path : List Char) (f : NodeState → NodeState) (n : Node) :
    (touch path f n).parent = n.parent ∧ (touch path f n).text = n.text ∧ (touch path f n).path = n.path := by
  unfold touch
  split <;> exact ⟨rfl, rfl, rfl⟩

theorem touch_covers : (touch path f n).Covers w ↔ n.Covers w := by
  obtain ⟨parent, _, same⟩ := touch_frame path f n
  unfold Node.Covers
  rw [parent, same]

theorem root_modifyAt : (t.modifyAt path f).root = if path = [] then f t.root else t.root := by
  unfold modifyAt
  split <;> rfl

theorem nodes_modifyAt (shape : t.Shape) (path : List Char) (f : NodeState → NodeState) : (t.modifyAt path f).nodes = t.nodes.map (touch path f) := by
  unfold modifyAt
  split
  · next top =>
    refine (map_id _).symm.trans (map_congr_left (fun n member => ?_))
    unfold touch
    rw [if_neg (fun same => shape.path_ne_nil member (same.trans top))]
    rfl
  · rfl

theorem stateAt_modifyAt (t : Tree) (path q : List Char) (f : NodeState → NodeState) :
    (t.modifyAt path f).stateAt q = if q = path then (t.stateAt q).map f else t.stateAt q := by
  unfold stateAt modifyAt
  by_cases top : path = []
  · rw [if_pos top]
    by_cases here : q = []
    · rw [if_pos here, if_pos here, if_pos (here.trans top.symm)]
      rfl
    · rw [if_neg here, if_neg here, if_neg (fun same => here (same.trans top))]
  · rw [if_neg top]
    by_cases here : q = []
    · rw [if_pos here, if_pos here, if_neg (fun same => top (same.symm.trans here))]
    · rw [if_neg here, if_neg here]
      change ((t.nodes.map (touch path f)).find? _).map _ = _
      have found : (t.nodes.map (touch path f)).find? (fun n => n.path = q) = (t.nodes.find? (fun n => n.path = q)).map (touch path f) := by
        rw [find?_map]
        congr 2
        funext n
        exact decide_eq_decide.mpr (by rw [(touch_frame path f n).2.2])
      rw [found]
      cases first : t.nodes.find? (fun n => n.path = q) with
      | none => split <;> rfl
      | some n =>
        have here := find?_some first
        have same : n.path = q := of_decide_eq_true here
        rw [Option.map_some, Option.map_some, Option.map_some]
        unfold touch
        rw [same]
        split <;> rfl

theorem tenantsAt_other (other : q ≠ path) : (t.modifyAt path f).tenantsAt q = t.tenantsAt q := by
  unfold tenantsAt
  rw [stateAt_modifyAt, if_neg other]

theorem tenantsAt_modify (here : t.stateAt path = some state) : (t.modifyAt path f).tenantsAt path = (f state).tenantLastAccessTime := by
  unfold tenantsAt
  rw [stateAt_modifyAt, if_pos rfl, here]
  rfl

theorem tenantsAt_eq (here : t.stateAt path = some state) : t.tenantsAt path = state.tenantLastAccessTime := by
  unfold tenantsAt
  rw [here]

theorem IsPath.stateAt (shape : t.Shape) (isPath : t.IsPath path) : ∃ state, t.stateAt path = some state := by
  rcases isPath with rfl | ⟨n, member, rfl⟩
  · exact ⟨t.root, rfl⟩
  · exact ⟨_, shape.stateAt_path member⟩

theorem isPath_of_stateAt (here : t.stateAt path = some state) : t.IsPath path := by
  unfold stateAt at here
  split at here
  · next top => exact .inl top
  · obtain ⟨n, found, _⟩ := Option.map_eq_some_iff.mp here
    have eq := find?_some found
    exact .inr ⟨n, mem_of_find?_eq_some found, of_decide_eq_true eq⟩

structure Fits (t : Tree) (path : List Char) (tenants : Tenants) : Prop where
  up : ∀ n ∈ t.nodes, n.path = path → ∀ tenant ∈ tenants, tenant ∈ t.tenantsAt n.parent
  down : ∀ n ∈ t.nodes, n.parent = path → ∀ tenant ∈ n.tenantLastAccessTime, tenant ∈ tenants
  owned : path ≠ [] → tenants.keys ≠ []

theorem modifyAt_shape (shape : t.Shape) (here : t.stateAt path = some state)
    (fits : t.Fits path (f state).tenantLastAccessTime) : (t.modifyAt path f).Shape := by
  have nodes := nodes_modifyAt shape path f
  have tenants {n : Node} (member : n ∈ t.nodes) :
      (touch path f n).tenantLastAccessTime = if n.path = path then (f state).tenantLastAccessTime else n.tenantLastAccessTime := by
    unfold touch
    split
    · next same =>
      rw [← same, shape.stateAt_path member] at here
      rw [← Option.some.inj here]
    · rfl
  refine ⟨⟨?_, ?_⟩, ?_, ?_, ?_⟩ <;> rw [nodes]
  · rw [forall_mem_map]
    intro n member
    rw [(touch_frame path f n).2.1]
    exact shape.nonempty n member
  · rw [pairwise_map]
    exact shape.apart.imp (fun apart w covers covers' => apart w (touch_covers.mp covers) (touch_covers.mp covers'))
  · rw [forall_mem_map]
    intro n member
    rw [(touch_frame path f n).1]
    refine (shape.attached n member).imp id ?_
    rintro ⟨m, mem', same⟩
    exact ⟨touch path f m, mem_map_of_mem mem', (touch_frame path f m).2.2.trans same⟩
  · rw [forall_mem_map]
    intro n member tenant has
    rw [tenants member] at has
    rw [(touch_frame path f n).1]
    by_cases child : n.parent = path
    · have other : n.path ≠ path := by
        intro same
        have := shape.length_path member
        rw [child, same] at this
        exact lt_irrefl _ this
      rw [if_neg other] at has
      rw [child, tenantsAt_modify here]
      exact fits.down n member child tenant has
    · rw [tenantsAt_other child]
      split at has
      · next same => exact fits.up n member same tenant has
      · exact shape.inherited n member tenant has
  · rw [forall_mem_map]
    intro n member
    rw [tenants member]
    split
    · next same =>
      refine fits.owned (fun top => shape.path_ne_nil member (same.trans top))
    · exact shape.owned n member

/-- The text is covered by the node with the path; the root covers the empty one. -/
def At (t : Tree) (path w : List Char) : Prop := path = [] ∧ w = [] ∨ ∃ n ∈ t.nodes, n.path = path ∧ n.Covers w

theorem holds_iff (shape : t.Shape) : t.Holds tenant w ↔ ∃ path, t.At path w ∧ tenant ∈ t.tenantsAt path := by
  constructor
  · rintro (⟨rfl, has⟩ | ⟨n, member, covers, has⟩)
    · exact ⟨[], .inl ⟨rfl, rfl⟩, has⟩
    · exact ⟨n.path, .inr ⟨n, member, rfl, covers⟩, by rw [shape.tenantsAt_path member]; exact has⟩
  · rintro ⟨path, ⟨rfl, rfl⟩ | ⟨n, member, rfl, covers⟩, has⟩
    · exact .inl ⟨rfl, has⟩
    · rw [shape.tenantsAt_path member] at has
      exact .inr ⟨n, member, covers, has⟩

theorem exists_modifyAt (shape : t.Shape) {P : Node → Prop} (same : ∀ n, P (touch path f n) ↔ P n) :
    (∃ n ∈ (t.modifyAt path f).nodes, P n) ↔ ∃ n ∈ t.nodes, P n := by
  rw [nodes_modifyAt shape]
  simp only [mem_map, exists_exists_and_eq_and, same]

theorem at_modifyAt (shape : t.Shape) : (t.modifyAt path f).At q w ↔ t.At q w :=
  or_congr Iff.rfl (exists_modifyAt shape (fun n => and_congr (by rw [(touch_frame path f n).2.2]) touch_covers))

theorem isPath_modifyAt (shape : t.Shape) : (t.modifyAt path f).IsPath q ↔ t.IsPath q :=
  or_congr Iff.rfl (exists_modifyAt shape (fun n => by rw [(touch_frame path f n).2.2]))

theorem mem_tenantsInsert (here : t.stateAt path = some state) {epoch : Nat} :
    other ∈ (t.modifyAt path (insertAccess tenant epoch)).tenantsAt q ↔ other ∈ t.tenantsAt q ∨ q = path ∧ other = tenant := by
  by_cases same : q = path
  · rw [same, tenantsAt_modify here, tenantsAt_eq here, and_iff_right rfl]
    exact (mem_insert _).trans or_comm
  · rw [tenantsAt_other same, or_iff_left (fun both => same both.1)]

theorem mem_tenantsAt_erase : other ∈ (t.modifyAt path (eraseTenant tenant)).tenantsAt q ↔ other ∈ t.tenantsAt q ∧ ¬ (q = path ∧ other = tenant) := by
  by_cases same : q = path
  · rw [same, not_and, forall_prop_of_true rfl]
    cases here : t.stateAt path with
    | none =>
      unfold tenantsAt
      rw [stateAt_modifyAt, if_pos rfl, here]
      exact ⟨fun absurd => (notMem_empty _ absurd).elim, fun both => both.1⟩
    | some state =>
      rw [tenantsAt_modify here, tenantsAt_eq here]
      exact AList.mem_erase.trans and_comm
  · rw [tenantsAt_other same, and_iff_left (fun both => same both.1)]

end

def chars (t : Tree) (tenant : String) : Nat := (t.nodes.map (fun n => if tenant ∈ n.tenantLastAccessTime then n.text.text.length else 0)).sum

/-- The sizes of the tenants of the root are known, and no others. -/
structure Counted (t : Tree) : Prop where
  known : ∀ tenant ∈ t.root.tenantLastAccessTime, t.tenantCharCount.lookup tenant = some (t.chars tenant)
  listed : ∀ tenant ∈ t.tenantCharCount, tenant ∈ t.root.tenantLastAccessTime

section
variable {t : Tree} {n : Node} {path : List Char} {f : NodeState → NodeState} {tenant : String}

theorem Shape.around (shape : t.Shape) (member : n ∈ t.nodes) :
    ∃ before behind, t.nodes = before ++ n :: behind ∧ (∀ m ∈ before, m.path ≠ n.path) ∧ ∀ m ∈ behind, m.path ≠ n.path := by
  obtain ⟨before, behind, same⟩ := append_of_mem member
  have apart := shape.apart
  rw [same, pairwise_append, pairwise_cons] at apart
  have covers := shape.covers_path member
  have other {m : Node} (lt : m ∈ t.nodes) (apart : m.Apart n) : m.path ≠ n.path := by
    intro path
    exact apart n.path (path ▸ shape.covers_path lt) covers
  refine ⟨before, behind, same, fun m lt => ?_, fun m lt => ?_⟩
  · exact other (by rw [same]; exact mem_append_left _ lt) (apart.2.2 m lt n mem_cons_self)
  · exact other (by rw [same]; exact mem_append_right _ (mem_cons_of_mem n lt)) (Std.Symm.symm _ _ (apart.2.1.1 m lt))

theorem chars_eq_zero (shape : t.Shape) (absent : tenant ∉ t.root.tenantLastAccessTime) : t.chars tenant = 0 := by
  unfold chars
  refine sum_eq_zero (fun k member => ?_)
  obtain ⟨n, mem', rfl⟩ := mem_map.mp member
  exact if_neg (fun has => absent (shape.above mem' has).1)

theorem sum_modifyAt (shape : t.Shape) (member : n ∈ t.nodes) (f : NodeState → NodeState) (g : Node → Nat) :
    ((t.modifyAt n.path f).nodes.map g).sum + g n = (t.nodes.map g).sum + g { n with toNodeState := f n.toNodeState } := by
  obtain ⟨_, _, same, left, right⟩ := shape.around member
  have rest {nodes : List Node} (others : ∀ m ∈ nodes, m.path ≠ n.path) : nodes.map (touch n.path f) = nodes := by
    refine (map_congr_left (fun m lt => ?_)).trans (map_id _)
    exact if_neg (others m lt)
  have here : touch n.path f n = { n with toNodeState := f n.toNodeState } := if_pos rfl
  rw [nodes_modifyAt shape, same, map_append, map_cons, rest left, rest right, here]
  simp only [map_append, map_cons, sum_append, sum_cons]
  omega

theorem chars_modifyAt (shape : t.Shape) (member : n ∈ t.nodes) (f : NodeState → NodeState) (tenant : String) :
    (t.modifyAt n.path f).chars tenant + (if tenant ∈ n.tenantLastAccessTime then n.text.text.length else 0) =
      t.chars tenant + (if tenant ∈ (f n.toNodeState).tenantLastAccessTime then n.text.text.length else 0) :=
  sum_modifyAt shape member f (fun m => if tenant ∈ m.tenantLastAccessTime then m.text.text.length else 0)

end

section
variable {t : Tree} {path : List Char} {state : NodeState} {f : NodeState → NodeState}

structure SameTenants (t t' : Tree) : Prop where
  shape : t'.Shape
  isPath : ∀ q, t'.IsPath q ↔ t.IsPath q
  tenants : ∀ q tenant, tenant ∈ t'.tenantsAt q ↔ tenant ∈ t.tenantsAt q
  holds : ∀ tenant w, t'.Holds tenant w ↔ t.Holds tenant w
  counted : t.Counted → t'.Counted

theorem modifyAt_same (shape : t.Shape) (here : t.stateAt path = some state)
    (same : ∀ tenant, tenant ∈ (f state).tenantLastAccessTime ↔ tenant ∈ state.tenantLastAccessTime) : SameTenants t (t.modifyAt path f) := by
  have at_ {n : Node} (member : n ∈ t.nodes) (eq : n.path = path) : n.toNodeState = state := by
    rw [← eq, shape.stateAt_path member] at here
    exact Option.some.inj here
  have fits : t.Fits path (f state).tenantLastAccessTime := by
    refine ⟨fun n member eq tenant lt => ?_, fun n member child tenant lt => ?_, fun proper none => ?_⟩
    · rw [same, ← at_ member eq] at lt
      exact shape.inherited n member tenant lt
    · have up := shape.inherited n member tenant lt
      rw [child, tenantsAt_eq here] at up
      exact (same tenant).mpr up
    · obtain ⟨n, member, eq⟩ := (isPath_of_stateAt here).resolve_left proper
      obtain ⟨tenant, first⟩ := exists_mem_of_ne_nil _ (shape.owned n member)
      have lt : tenant ∈ (f state).tenantLastAccessTime := by
        rw [same, ← at_ member eq]
        exact AList.mem_keys.mpr first
      rw [AList.mem_keys, none] at lt
      cases lt
  have shape' := modifyAt_shape shape here fits
  have tenants (q : List Char) (tenant : String) : tenant ∈ (t.modifyAt path f).tenantsAt q ↔ tenant ∈ t.tenantsAt q := by
    by_cases eq : q = path
    · rw [eq, tenantsAt_modify here, tenantsAt_eq here]
      exact same tenant
    · rw [tenantsAt_other eq]
  have chars (tenant : String) : (t.modifyAt path f).chars tenant = t.chars tenant := by
    unfold Tree.chars
    rw [nodes_modifyAt shape, map_map]
    refine congrArg List.sum (map_congr_left (fun n member => ?_))
    rw [Function.comp_apply, (touch_frame path f n).2.1]
    have iff : tenant ∈ (touch path f n).tenantLastAccessTime ↔ tenant ∈ n.tenantLastAccessTime := by
      unfold touch
      split
      · next eq =>
        rw [at_ member eq]
        exact same tenant
      · exact Iff.rfl
    simp only [iff]
  refine ⟨shape', fun q => isPath_modifyAt shape, tenants, fun tenant w => ?_, fun counted => ?_⟩
  · rw [holds_iff shape', holds_iff shape]
    exact exists_congr (fun q => and_congr (at_modifyAt shape) (tenants q tenant))
  · have counts : (t.modifyAt path f).tenantCharCount = t.tenantCharCount := by
      unfold modifyAt
      split <;> rfl
    refine ⟨fun tenant atRoot => ?_, fun tenant lt => ?_⟩
    · rw [counts, chars]
      exact counted.known tenant ((tenants [] tenant).mp atRoot)
    · rw [counts] at lt
      exact (tenants [] tenant).mpr (counted.listed tenant lt)

end

/-- The tenant holds its text up to `prev` besides what was held at first. -/
structure Progress (start t : Tree) (tenant : String) (prev : List Char) : Prop where
  shape : t.Shape
  counted : t.Counted
  isPath : t.IsPath prev
  has : tenant ∈ t.tenantsAt prev
  holds : ∀ other w, t.Holds other w ↔ start.Holds other w ∨ other = tenant ∧ w <+: prev

section
variable {start t : Tree} {tenant : String} {prev : List Char} {n : Node}

theorem prefix_or_covers : w <+: n.path ↔ w <+: n.parent ∨ n.Covers w := by
  constructor
  · intro begins
    by_cases lt : n.parent.length < w.length
    · exact .inr ⟨lt, begins⟩
    · exact .inl (prefix_of_prefix_length_le begins ⟨n.text.text, rfl⟩ (Nat.le_of_not_lt lt))
  · rintro (begins | covers)
    · exact begins.trans ⟨n.text.text, rfl⟩
    · exact covers.2

theorem Progress.atRoot (progress : Progress start t tenant prev) : tenant ∈ t.root.tenantLastAccessTime := by
  have has := progress.has
  rcases progress.isPath with rfl | ⟨n, member, rfl⟩
  · exact has
  · rw [progress.shape.tenantsAt_path member] at has
    exact (progress.shape.above member has).1

theorem addChars_shape (shape : t.Shape) (tenant : String) (k : Nat) : (t.addChars tenant k).Shape := { shape with }

theorem Counted.grow {t' : Tree} (k : Nat) (counted : t.Counted) (atRoot : tenant ∈ t.root.tenantLastAccessTime) (root : t'.root = t.root)
    (counts : t'.tenantCharCount = (t.addChars tenant k).tenantCharCount)
    (sum : ∀ other, t'.chars other = t.chars other + if other = tenant then k else 0) : t'.Counted := by
  constructor <;> intro other listed <;> rw [counts, addChars] at * <;> rw [root] at *
  · rw [sum]
    have known := counted.known other listed
    by_cases same : other = tenant
    · subst same
      rw [lookup_insert, known, if_pos rfl]
      rfl
    · rw [lookup_insert_ne same, known, if_neg same, add_zero]
  · rcases (mem_insert _).mp listed with rfl | old
    · exact atRoot
    · exact counted.listed other old

theorem Progress.attach (progress : Progress start t tenant prev) (member : n ∈ t.nodes) (parent : n.parent = prev) :
    Progress start (t.attach n.path tenant n.text.charCount) tenant n.path := by
  have shape := progress.shape
  have extended {other : String} {w : List Char} : other = tenant ∧ w <+: n.path ↔ other = tenant ∧ w <+: prev ∨ other = tenant ∧ n.Covers w := by
    rw [prefix_or_covers, parent, and_or_left]
  unfold Tree.attach
  split
  · next here =>
    refine ⟨shape, progress.counted, .inr ⟨n, member, rfl⟩, here, fun other w => ?_⟩
    rw [extended, ← or_assoc, ← progress.holds]
    refine (or_iff_left_of_imp ?_).symm
    rintro ⟨rfl, covers⟩
    rw [shape.tenantsAt_path member] at here
    exact .inr ⟨n, member, covers, here⟩
  · next absent =>
    rw [shape.tenantsAt_path member] at absent
    have shapeChars := addChars_shape shape tenant n.text.charCount
    have here : (t.addChars tenant n.text.charCount).stateAt n.path = some n.toNodeState := shape.stateAt_path member
    have inserted {other : String} : other ∈ (insertAccess tenant 0 n.toNodeState).tenantLastAccessTime ↔
        other = tenant ∨ other ∈ n.tenantLastAccessTime := mem_insert _
    have fits : (t.addChars tenant n.text.charCount).Fits n.path (insertAccess tenant 0 n.toNodeState).tenantLastAccessTime := by
      refine ⟨fun m mem' same other lt => ?_, fun m mem' child other lt => ?_, fun _ none => ?_⟩
      · obtain rfl := shape.path_inj mem' member same
        rcases inserted.mp lt with rfl | old
        · rw [parent]
          exact progress.has
        · exact shape.inherited m mem' other old
      · have up := shape.inherited m mem' other lt
        rw [child, shape.tenantsAt_path member] at up
        exact inserted.mpr (.inr up)
      · have first := AList.mem_keys.mp (inserted.mpr (.inl rfl))
        rw [none] at first
        cases first
    have shape' := modifyAt_shape shapeChars here fits
    refine ⟨shape', ?_, (isPath_modifyAt shapeChars).mpr (.inr ⟨n, member, rfl⟩), (mem_tenantsInsert here).mpr (.inr ⟨rfl, rfl⟩), fun other w => ?_⟩
    · have root : ((t.addChars tenant n.text.charCount).modifyAt n.path (insertAccess tenant 0)).root = t.root := by
        rw [root_modifyAt, if_neg (shape.path_ne_nil member)]
        rfl
      refine progress.counted.grow n.text.charCount progress.atRoot root ?_ (fun other => ?_)
      · unfold modifyAt
        rw [if_neg (shape.path_ne_nil member)]
      · have sum := chars_modifyAt shapeChars member (insertAccess tenant 0) other
        have old : (t.addChars tenant n.text.charCount).chars other = t.chars other := rfl
        rw [old] at sum
        by_cases same : other = tenant
        · subst same
          rw [if_neg absent, if_pos (inserted.mpr (.inl rfl)), ← n.text.counted] at sum
          rw [if_pos rfl]
          exact sum
        · simp only [inserted, same, false_or] at sum
          rw [if_neg same]
          exact Nat.add_right_cancel sum
    · have before : (t.addChars tenant n.text.charCount).Holds other w ↔ t.Holds other w := Iff.rfl
      rw [extended, ← or_assoc, ← progress.holds, ← before, holds_iff shape', holds_iff shapeChars]
      constructor
      · rintro ⟨q, covers, has⟩
        rw [at_modifyAt shapeChars] at covers
        rcases (mem_tenantsInsert here).mp has with old | ⟨rfl, rfl⟩
        · exact .inl ⟨q, covers, old⟩
        · rcases covers with ⟨top, _⟩ | ⟨m, mem', same, covers⟩
          · exact absurd top (shape.path_ne_nil member)
          · rw [shape.path_inj mem' member same] at covers
            exact .inr ⟨rfl, covers⟩
      · rintro (⟨q, covers, has⟩ | ⟨rfl, covers⟩)
        · exact ⟨q, (at_modifyAt shapeChars).mpr covers, (mem_tenantsInsert here).mpr (.inl has)⟩
        · exact ⟨n.path, (at_modifyAt shapeChars).mpr (.inr ⟨n, member, rfl, covers⟩), (mem_tenantsInsert here).mpr (.inr ⟨rfl, rfl⟩)⟩

end

section
variable {t : Tree} {n m : Node} {k : Nat} {w : List Char}

def upperPart (n : Node) (k : Nat) : Node := { n with text := (n.text.splitAtChar k).1 }

def lowerPart (n : Node) (k : Nat) : Node := { n with parent := (upperPart n k).path, text := (n.text.splitAtChar k).2 }

theorem upperPart_path : (upperPart n k).path = n.parent ++ n.text.text.take k := by
  unfold upperPart Node.path
  rw [(n.text.splitAtChar_text k).1]

theorem lowerPart_path : (lowerPart n k).path = n.path := by
  change (upperPart n k).path ++ (n.text.splitAtChar k).2.text = n.parent ++ n.text.text
  rw [upperPart_path, (n.text.splitAtChar_text k).2, append_assoc, take_append_drop]

section
variable (lt : k < n.text.text.length)
include lt

theorem length_upperPart : (upperPart n k).path.length = n.parent.length + k := by
  rw [upperPart_path, length_append, length_take, min_eq_left (le_of_lt lt)]

theorem upperPart_charCount : (upperPart n k).text.charCount = k := by
  have text : (upperPart n k).text.text = n.text.text.take k := (n.text.splitAtChar_text k).1
  rw [(upperPart n k).text.counted, text, length_take, min_eq_left (le_of_lt lt)]

theorem upperPart_covers : (upperPart n k).Covers w ↔ n.Covers w ∧ w.length ≤ n.parent.length + k := by
  have begins : (upperPart n k).path <+: n.path := by
    rw [upperPart_path]
    exact (prefix_append_right_inj _).mpr (List.take_prefix k _)
  have length := length_upperPart lt
  constructor
  · rintro ⟨below, covers⟩
    exact ⟨⟨below, covers.trans begins⟩, by rw [← length]; exact covers.length_le⟩
  · rintro ⟨⟨below, covers⟩, le⟩
    exact ⟨below, prefix_of_prefix_length_le covers begins (by rw [length]; exact le)⟩

theorem lowerPart_covers : (lowerPart n k).Covers w ↔ n.Covers w ∧ n.parent.length + k < w.length := by
  unfold Node.Covers
  rw [lowerPart_path]
  have parent : (lowerPart n k).parent.length = n.parent.length + k := length_upperPart lt
  rw [parent]
  constructor
  · rintro ⟨below, covers⟩
    exact ⟨⟨by omega, covers⟩, below⟩
  · rintro ⟨⟨_, covers⟩, below⟩
    exact ⟨below, covers⟩

end

theorem nodes_splitNode (t : Tree) (n : Node) (k : Nat) : (t.splitNode n k).nodes =
    t.nodes.map (fun m => if m.path = n.path then { m with parent := (upperPart n k).path, text := (n.text.splitAtChar k).2 } else m) ++
      [upperPart n k] := rfl

variable (shape : t.Shape) (member : n ∈ t.nodes)
include shape member

theorem mem_splitNode : m ∈ (t.splitNode n k).nodes ↔ m = upperPart n k ∨ m = lowerPart n k ∨ m ∈ t.nodes ∧ m.path ≠ n.path := by
  rw [nodes_splitNode, mem_append, mem_singleton, mem_map, or_comm]
  refine or_congr Iff.rfl ?_
  constructor
  · rintro ⟨_, lt, rfl⟩
    split
    · next same =>
      rw [shape.path_inj lt member same]
      exact .inl rfl
    · next other => exact .inr ⟨lt, other⟩
  · rintro (rfl | ⟨lt, other⟩)
    · exact ⟨n, member, if_pos rfl⟩
    · exact ⟨m, lt, if_neg other⟩

omit member in
theorem upperPart_mem (member : n ∈ t.nodes) (k : Nat) : upperPart n k ∈ (t.splitNode n k).nodes := (mem_splitNode shape member).mpr (.inl rfl)

theorem isPath_splitNode {q : List Char} (isPath : t.IsPath q) : (t.splitNode n k).IsPath q := by
  rcases isPath with rfl | ⟨m, lt, rfl⟩
  · exact .inl rfl
  · by_cases same : m.path = n.path
    · exact .inr ⟨lowerPart n k, (mem_splitNode shape member).mpr (.inr (.inl rfl)), lowerPart_path.trans same.symm⟩
    · exact .inr ⟨m, (mem_splitNode shape member).mpr (.inr (.inr ⟨lt, same⟩)), rfl⟩

variable (pos : 0 < k) (lt : k < n.text.text.length)
include pos lt

theorem splitNode_separate : (t.splitNode n k).Separate := by
  have cases_ {w : List Char} {old : Node} (here : old ∈ t.nodes)
      (covers : Node.Covers (if old.path = n.path then { old with parent := (upperPart n k).path, text := (n.text.splitAtChar k).2 } else old) w) :
      old.Covers w ∧ (old.path = n.path → n.parent.length + k < w.length) := by
    split at covers
    · next same =>
      obtain rfl := shape.path_inj here member same
      have both := (lowerPart_covers lt).mp covers
      exact ⟨both.1, fun _ => both.2⟩
    · next other => exact ⟨covers, fun same => absurd same other⟩
  constructor
  · intro m here
    rcases (mem_splitNode shape member).mp here with rfl | rfl | ⟨old, _⟩
    · have text : (upperPart n k).text.text = n.text.text.take k := (n.text.splitAtChar_text k).1
      rw [text]
      exact ne_nil_of_length_pos (by rw [length_take]; omega)
    · have text : (lowerPart n k).text.text = n.text.text.drop k := (n.text.splitAtChar_text k).2
      rw [text]
      exact ne_nil_of_length_pos (by rw [length_drop]; omega)
    · exact shape.nonempty m old
  · rw [nodes_splitNode, pairwise_append]
    refine ⟨?_, pairwise_singleton _ _, ?_⟩
    · rw [pairwise_map]
      refine shape.apart.imp_of_mem (fun here here' apart w covers covers' => ?_)
      exact apart w (cases_ here covers).1 (cases_ here' covers').1
    · intro m here _ same w covers covers'
      obtain rfl := mem_singleton.mp same
      obtain ⟨old, mem', rfl⟩ := mem_map.mp here
      obtain ⟨covered, low⟩ := cases_ mem' covers
      obtain ⟨covered', _⟩ := (upperPart_covers lt).mp covers'
      have eq := shape.unique mem' member covered covered'
      have := low (congrArg Node.path eq)
      omega

theorem tenantsAt_splitNode {q : List Char} (isPath : t.IsPath q) : (t.splitNode n k).tenantsAt q = t.tenantsAt q := by
  have separate := splitNode_separate shape member pos lt
  rcases isPath with rfl | ⟨m, here, rfl⟩
  · rfl
  · rw [shape.tenantsAt_path here]
    by_cases same : m.path = n.path
    · obtain rfl := shape.path_inj here member same
      rw [← lowerPart_path (k := k)]
      exact separate.tenantsAt_path ((mem_splitNode shape member).mpr (.inr (.inl rfl)))
    · exact separate.tenantsAt_path ((mem_splitNode shape member).mpr (.inr (.inr ⟨here, same⟩)))

theorem splitNode_shape : (t.splitNode n k).Shape := by
  have separate := splitNode_separate shape member pos lt
  have upper := upperPart_mem shape member k
  have parent {m : Node} (here : m ∈ t.nodes) : t.IsPath m.parent := shape.attached m here
  refine ⟨separate, fun m here => ?_, fun m here tenant has => ?_, fun m here => ?_⟩
  · rcases (mem_splitNode shape member).mp here with rfl | rfl | ⟨old, _⟩
    · exact isPath_splitNode shape member (shape.attached n member)
    · exact .inr ⟨_, upper, rfl⟩
    · exact isPath_splitNode shape member (parent old)
  · rcases (mem_splitNode shape member).mp here with rfl | rfl | ⟨old, _⟩
    · have up := shape.inherited n member tenant has
      rw [← tenantsAt_splitNode shape member pos lt (parent member)] at up
      exact up
    · have up := separate.tenantsAt_path upper
      change tenant ∈ (t.splitNode n k).tenantsAt (upperPart n k).path
      rw [up]
      exact has
    · rw [tenantsAt_splitNode shape member pos lt (parent old)]
      exact shape.inherited m old tenant has
  · rcases (mem_splitNode shape member).mp here with rfl | rfl | ⟨old, _⟩
    · exact shape.owned n member
    · exact shape.owned n member
    · exact shape.owned m old

omit pos in
theorem holds_splitNode : (t.splitNode n k).Holds tenant w ↔ t.Holds tenant w := by
  refine or_congr Iff.rfl ?_
  constructor
  · rintro ⟨m, here, covers, has⟩
    rcases (mem_splitNode shape member).mp here with rfl | rfl | ⟨old, _⟩
    · exact ⟨n, member, ((upperPart_covers lt).mp covers).1, has⟩
    · exact ⟨n, member, ((lowerPart_covers lt).mp covers).1, has⟩
    · exact ⟨m, old, covers, has⟩
  · rintro ⟨m, old, covers, has⟩
    by_cases same : m.path = n.path
    · obtain rfl := shape.path_inj old member same
      by_cases high : w.length ≤ m.parent.length + k
      · exact ⟨upperPart m k, (mem_splitNode shape member).mpr (.inl rfl), (upperPart_covers lt).mpr ⟨covers, high⟩, has⟩
      · exact ⟨lowerPart m k, (mem_splitNode shape member).mpr (.inr (.inl rfl)), (lowerPart_covers lt).mpr ⟨covers, by omega⟩, has⟩
    · exact ⟨m, (mem_splitNode shape member).mpr (.inr (.inr ⟨old, same⟩)), covers, has⟩

omit pos in
theorem chars_splitNode (tenant : String) : (t.splitNode n k).chars tenant = t.chars tenant := by
  obtain ⟨before, behind, same, left, right⟩ := shape.around member
  have rest {nodes : List Node} (others : ∀ m ∈ nodes, m.path ≠ n.path) : nodes.map (fun m =>
      if m.path = n.path then { m with parent := (upperPart n k).path, text := (n.text.splitAtChar k).2 } else m) = nodes := by
    refine (map_congr_left (fun m lt => ?_)).trans (map_id _)
    exact if_neg (others m lt)
  have parts : (t.splitNode n k).nodes = before ++ lowerPart n k :: behind ++ [upperPart n k] := by
    rw [nodes_splitNode, same, map_append, map_cons, rest left, rest right, if_pos rfl]
    rfl
  have upper : (upperPart n k).text.text = n.text.text.take k := (n.text.splitAtChar_text k).1
  have lower : (lowerPart n k).text.text = n.text.text.drop k := (n.text.splitAtChar_text k).2
  have upperTenants : (upperPart n k).tenantLastAccessTime = n.tenantLastAccessTime := rfl
  have lowerTenants : (lowerPart n k).tenantLastAccessTime = n.tenantLastAccessTime := rfl
  unfold chars
  rw [parts, same]
  simp only [map_append, map_cons, map_nil, sum_append, sum_cons, sum_nil, upperTenants, lowerTenants, upper, lower, length_take, length_drop]
  split <;> omega

end

section
variable {start t : Tree} {tenant : String} {prev : List Char} {n : Node} {epoch : Nat}

theorem Progress.split (progress : Progress start t tenant prev) (member : n ∈ t.nodes) {k : Nat} (pos : 0 < k)
    (lt : k < n.text.text.length) : Progress start (t.splitNode n k) tenant prev := by
  have shape := progress.shape
  refine ⟨splitNode_shape shape member pos lt, ?_, isPath_splitNode shape member progress.isPath, ?_, fun other w => ?_⟩
  · refine ⟨fun other atRoot => ?_, progress.counted.listed⟩
    rw [chars_splitNode shape member lt]
    exact progress.counted.known other atRoot
  · rw [tenantsAt_splitNode shape member pos lt progress.isPath]
    exact progress.has
  · rw [holds_splitNode shape member lt]
    exact progress.holds other w

def leafNode (prev remaining : List Char) (tenant : String) (epoch : Nat) : Node where
  parent := prev
  text := NodeText.new remaining
  tenantLastAccessTime := (∅ : Tenants).insert tenant epoch
  lastTenant := some tenant

theorem mem_leafNode {remaining : List Char} : other ∈ (leafNode prev remaining tenant epoch).tenantLastAccessTime ↔ other = tenant :=
  (mem_insert _).trans (or_iff_left (notMem_empty _))

section
variable (progress : Progress start t tenant prev)
include progress

theorem Progress.leaf {firstChar : Char} {rest : List Char} (missing : t.child? prev firstChar = none) (epoch : Nat) :
    Progress start (t.newLeaf prev (firstChar :: rest) tenant epoch) tenant (prev ++ firstChar :: rest) := by
  have shape := progress.shape
  let leaf := leafNode prev (firstChar :: rest) tenant epoch
  let t' := t.newLeaf prev (firstChar :: rest) tenant epoch
  have nodes : t'.nodes = t.nodes ++ [leaf] := rfl
  have path : leaf.path = prev ++ firstChar :: rest := rfl
  have mem {m : Node} : m ∈ t'.nodes ↔
      m ∈ t.nodes ∨ m = leaf := by
    rw [nodes, mem_append, mem_singleton]
  have free {m : Node} (member : m ∈ t.nodes) : m.Apart leaf := by
    intro w covers covers'
    have begins : prev ++ [firstChar] <+: w := by
      refine prefix_of_prefix_length_le ?_ covers'.2 ?_
      · rw [path]
        exact (prefix_append_right_inj prev).mpr ⟨rest, rfl⟩
      · have := covers'.1
        rw [length_append, length_singleton]
        exact this
    obtain ⟨_, mem', covered⟩ := shape.covered_prefix member covers (by simp) begins
    exact shape.child?_none missing progress.isPath mem' covered
  have separate : t'.Separate := by
    constructor
    · intro m member
      rcases mem.mp member with old | rfl
      · exact shape.nonempty m old
      · exact cons_ne_nil _ _
    · rw [nodes, pairwise_append]
      refine ⟨shape.apart, pairwise_singleton _ _, fun m member leaf same => ?_⟩
      obtain rfl := mem_singleton.mp same
      exact free member
  have isPath {q : List Char} (isPath : t.IsPath q) : t'.IsPath q :=
    isPath.imp id (fun ⟨m, member, same⟩ => ⟨m, mem.mpr (.inl member), same⟩)
  have tenants {q : List Char} (isPath : t.IsPath q) : t'.tenantsAt q = t.tenantsAt q := by
    rcases isPath with rfl | ⟨m, member, rfl⟩
    · rfl
    · rw [shape.tenantsAt_path member]
      exact separate.tenantsAt_path (mem.mpr (.inl member))
  have shape' : t'.Shape := by
    refine ⟨separate, fun m member => ?_, fun m member other has => ?_, fun m member => ?_⟩
    · rcases mem.mp member with old | rfl
      · exact isPath (shape.attached m old)
      · exact isPath progress.isPath
    · rcases mem.mp member with old | rfl
      · rw [tenants (shape.attached m old)]
        exact shape.inherited m old other has
      · rw [mem_leafNode.mp has]
        exact (tenants progress.isPath).symm ▸ progress.has
    · rcases mem.mp member with old | rfl
      · exact shape.owned m old
      · exact ne_nil_of_mem (AList.mem_keys.mp (mem_leafNode.mpr rfl))
  have last := mem.mpr (.inr rfl)
  refine ⟨shape', ?_, .inr ⟨_, last, path⟩, ?_, fun other w => ?_⟩
  · refine progress.counted.grow (firstChar :: rest).length progress.atRoot rfl rfl (fun other => ?_)
    unfold chars
    rw [nodes, map_append, sum_append, map_singleton, sum_singleton]
    simp only [mem_leafNode, leaf]
    rfl
  · rw [← path, separate.tenantsAt_path last]
    exact mem_leafNode.mpr rfl
  · have covered : other = tenant ∧ w <+: prev ++ firstChar :: rest ↔
        other = tenant ∧ w <+: prev ∨ other = tenant ∧ leaf.Covers w := by
      rw [← path, prefix_or_covers, and_or_left]
      rfl
    rw [covered, ← or_assoc, ← progress.holds]
    constructor
    · rintro (top | ⟨m, member, covers, has⟩)
      · exact .inl (.inl top)
      · rcases mem.mp member with old | rfl
        · exact .inl (.inr ⟨m, old, covers, has⟩)
        · exact .inr ⟨mem_leafNode.mp has, covers⟩
    · rintro ((top | ⟨m, member, covers, has⟩) | ⟨rfl, covers⟩)
      · exact .inl top
      · exact .inr ⟨m, mem.mpr (.inl member), covers, has⟩
      · exact .inr ⟨_, last, covers, mem_leafNode.mpr rfl⟩

theorem Progress.touch (epoch : Nat) : Progress start (t.modifyAt prev (insertAccess tenant epoch)) tenant prev := by
  obtain ⟨state, here⟩ := progress.isPath.stateAt progress.shape
  have has := progress.has
  rw [tenantsAt_eq here] at has
  have same (other : String) : other ∈ (insertAccess tenant epoch state).tenantLastAccessTime ↔ other ∈ state.tenantLastAccessTime := by
    refine (mem_insert _).trans (or_iff_right_of_imp ?_)
    rintro rfl
    exact has
  have after := modifyAt_same progress.shape here same
  refine ⟨after.shape, after.counted progress.counted, (after.isPath prev).mpr progress.isPath, (after.tenants prev tenant).mpr progress.has, ?_⟩
  intro other w
  rw [after.holds]
  exact progress.holds other w

theorem Progress.insertLoop (epoch : Nat) {fuel : Nat} {remaining : List Char}
    (enough : remaining.length < fuel) : Progress start (insertLoop tenant epoch fuel t prev remaining) tenant (prev ++ remaining) := by
  induction fuel generalizing t prev remaining with
  | zero => exact absurd enough (Nat.not_lt_zero _)
  | succ fuel ih =>
    unfold Tree.insertLoop
    cases remaining with
    | nil =>
      rw [append_nil]
      exact progress.touch epoch
    | cons firstChar rest =>
      dsimp only
      cases found : t.child? prev firstChar with
      | none => exact progress.leaf found epoch
      | some n =>
        obtain ⟨member, parent, first⟩ := Shape.child?_some found
        have pos := Shape.shared_pos first rest
        have bound := commonLen_le (firstChar :: rest) n.text.text
        have same := take_commonLen (firstChar :: rest) n.text.text
        have shorter : ((firstChar :: rest).drop (commonLen (firstChar :: rest) n.text.text)).length < fuel := by
          rw [length_drop]
          omega
        dsimp only
        rw [sharedCount_eq, advanceByChars_eq, Option.getD_some, n.text.counted, (n.text.splitAtChar_text _).1]
        split
        · next lt =>
          have step := (progress.split member pos lt).attach (upperPart_mem progress.shape member _) parent
          rw [upperPart_charCount lt, upperPart_path, parent] at step
          have later := ih step shorter
          rw [append_assoc, ← same, take_append_drop] at later
          rw [← same]
          exact later
        · next full =>
          have length : commonLen (firstChar :: rest) n.text.text = n.text.text.length := le_antisymm bound.2 (Nat.le_of_not_lt full)
          have step := progress.attach member parent
          rw [n.text.counted] at step
          have later := ih step shorter
          have whole : n.path ++ (firstChar :: rest).drop (commonLen (firstChar :: rest) n.text.text) = prev ++ firstChar :: rest := by
            rw [length, take_length] at same
            unfold Node.path
            rw [parent, length, append_assoc]
            conv_rhs => rw [← take_append_drop n.text.text.length (firstChar :: rest), same]
          rw [whole] at later
          exact later

end

theorem insert_spec (shape : t.Shape) (counted : t.Counted) (text : List Char) (tenant : String) (epoch : Nat) :
    Progress t (t.insert text tenant epoch) tenant text := by
  have inRoot {other : String} :
      other ∈ (if tenant ∈ t.root.tenantLastAccessTime then t.root else insertAccess tenant 0 t.root).tenantLastAccessTime ↔
      other = tenant ∨ other ∈ t.root.tenantLastAccessTime := by
    split
    · next has =>
      refine (or_iff_right_of_imp ?_).symm
      rintro rfl
      exact has
    · exact mem_insert _
  suffices begun : Progress t { t with
      root := if tenant ∈ t.root.tenantLastAccessTime then t.root else insertAccess tenant 0 t.root
      tenantCharCount := if tenant ∈ t.tenantCharCount then t.tenantCharCount else t.tenantCharCount.insert tenant 0 } tenant [] from
    begun.insertLoop epoch (Nat.lt_succ_self _)
  have tenants {q : List Char} {other : String} (has : other ∈ t.tenantsAt q) : other ∈ tenantsAt { t with
        root := if tenant ∈ t.root.tenantLastAccessTime then t.root else insertAccess tenant 0 t.root
        tenantCharCount := if tenant ∈ t.tenantCharCount then t.tenantCharCount else t.tenantCharCount.insert tenant 0 } q := by
    by_cases top : q = []
    · rw [top] at has ⊢
      exact inRoot.mpr (.inr has)
    · unfold tenantsAt stateAt at has ⊢
      rw [if_neg top] at has ⊢
      exact has
  refine ⟨{ shape with inherited := fun n member other has => tenants (shape.inherited n member other has) },
    ⟨fun other atRoot => ?_, fun other lt => ?_⟩, .inl rfl, inRoot.mpr (.inl rfl), fun other w => ?_⟩
  · change (if tenant ∈ t.tenantCharCount then t.tenantCharCount else t.tenantCharCount.insert tenant 0).lookup other = some (t.chars other)
    by_cases old : other ∈ t.root.tenantLastAccessTime
    · have known := counted.known other old
      split
      · exact known
      · next missing =>
        have differ : other ≠ tenant := by
          rintro rfl
          exact missing (AList.lookup_isSome.mp (by rw [known]; rfl))
        rw [lookup_insert_ne differ, known]
    · obtain rfl := (inRoot.mp atRoot).resolve_right old
      rw [if_neg (fun lt => old (counted.listed other lt)), lookup_insert, chars_eq_zero shape old]
  · change other ∈ (if tenant ∈ t.tenantCharCount then t.tenantCharCount else t.tenantCharCount.insert tenant 0) at lt
    refine inRoot.mpr ?_
    split at lt
    · exact .inr (counted.listed other lt)
    · exact ((mem_insert _).mp lt).imp id (counted.listed other)
  · rw [prefix_nil]
    constructor
    · rintro (⟨rfl, has⟩ | covered)
      · rcases inRoot.mp has with rfl | old
        · exact .inr ⟨rfl, rfl⟩
        · exact .inl (.inl ⟨rfl, old⟩)
      · exact .inl (.inr covered)
    · rintro ((⟨rfl, has⟩ | covered) | ⟨rfl, rfl⟩)
      · exact .inl ⟨rfl, inRoot.mpr (.inr has)⟩
      · exact .inr covered
      · exact .inl ⟨rfl, inRoot.mpr (.inl rfl)⟩

end

end TriaxialKV.Gateway.Tree
