import TriaxialKV.Gateway.TreeRemoval

/-! # Lookups over histories of the prefix tree -/

namespace TriaxialKV.Gateway.Tree
open List AList

variable {curr text : List Char} {epoch k : Nat} {order : MapOrder} {state : NodeState} {before : List Op}

inductive Update where
  | insert (text : List Char) (tenant : String) (epoch : Nat)
  | removeTenant (tenant : String)
  | evictTenantBySize (maxSize : Nat) (order : HeapOrder)

def update (t : Tree) : Update → Tree
  | .insert text tenant epoch => t.insert text tenant epoch
  | .removeTenant tenant => t.removeTenant tenant
  | .evictTenantBySize maxSize order => t.evictTenantBySize maxSize order

def Update.Takes (held held' : String → List Char → Prop) : Update → Prop
  | .insert text tenant _ => ∀ other w, held' other w ↔ held other w ∨ other = tenant ∧ w <+: text
  | .removeTenant tenant => ∀ other w, held' other w ↔ held other w ∧ other ≠ tenant
  | .evictTenantBySize _ _ => (∀ other w, held' other w → held other w) ∧ ∀ other, held' other [] ↔ held other []

structure Inv (t : Tree) : Prop where
  shape : t.Shape
  counted : t.Counted

theorem inv_new : Inv new := by
  refine ⟨⟨⟨nofun, List.Pairwise.nil⟩, nofun, nofun, nofun⟩, fun tenant has => ?_, fun tenant has => ?_⟩
  · exact absurd has (notMem_empty tenant)
  · exact absurd has (notMem_empty tenant)

theorem Inv.update {t : Tree} (inv : t.Inv) (u : Update) : (t.update u).Inv ∧ u.Takes t.Holds (t.update u).Holds := by
  obtain ⟨shape, counted⟩ := inv
  cases u with
  | insert text tenant epoch =>
    have progress := insert_spec shape counted text tenant epoch
    exact ⟨⟨progress.shape, progress.counted⟩, progress.holds⟩
  | removeTenant tenant =>
    obtain ⟨shape', counted', holds⟩ := removeTenant_spec shape counted tenant
    exact ⟨⟨shape', counted'⟩, holds⟩
  | evictTenantBySize maxSize order =>
    have shrunk := evictBySize_spec shape counted maxSize order
    refine ⟨⟨shrunk.shape, shrunk.counted⟩, shrunk.holds, fun other => ?_⟩
    exact holds_nil.trans ((shrunk.root other).trans holds_nil.symm)

theorem inv_updates (us : List Update) : (us.foldl update new).Inv := by
  induction us using reverseRecOn with
  | nil => exact inv_new
  | append_singleton us u ih =>
    rw [foldl_append]
    exact (ih.update u).1

section
variable {t : Tree} (order : MapOrder)

def touched (order : MapOrder) (epoch : Nat) (state : NodeState) : NodeState :=
  if epoch % 8 = 0 then insertAccess (selectTenant order state).1 epoch (selectTenant order state).2 else (selectTenant order state).2

theorem selectTenant_tenants (state : NodeState) : (selectTenant order state).2.tenantLastAccessTime = state.tenantLastAccessTime := by
  unfold selectTenant
  dsimp only
  split
  · split <;> rfl
  · rfl

theorem selectTenant_mem (some : state.tenantLastAccessTime.keys ≠ []) : (selectTenant order state).1 ∈ state.tenantLastAccessTime := by
  have first : (order.first state.tenantLastAccessTime).getD "empty" ∈ state.tenantLastAccessTime := by
    cases found : order.first state.tenantLastAccessTime with
    | none => exact absurd ((order.none_iff _).mp found) some
    | some tenant => exact order.mem _ tenant found
  unfold selectTenant
  dsimp only
  split
  · split
    · next cached => exact cached
    · exact first
  · exact first

theorem selectTenant_empty (none : state.tenantLastAccessTime.keys = []) : (selectTenant order state).1 = "empty" := by
  have first : order.first state.tenantLastAccessTime = Option.none := (order.none_iff _).mpr none
  unfold selectTenant
  dsimp only
  rw [first]
  split
  · split
    · next cached =>
      rw [AList.mem_keys, none] at cached
      cases cached
    · rfl
  · rfl

theorem prefixMatch_found (shape : t.Shape) (text : List Char) (epoch : Nat) (order : MapOrder) :
    ∃ curr state, t.stateAt curr = some state ∧ Shape.Found t text (t.prefixMatchWithCounts text epoch order).1.matchedCharCount curr ∧
      (t.prefixMatchWithCounts text epoch order).1.tenant = (selectTenant order state).1 ∧
      (t.prefixMatchWithCounts text epoch order).2 = t.modifyAt curr (fun _ => touched order epoch state) := by
  have walk : Shape.Found t text (t.matchLoop (text.length + 1) text 0 []).1 (t.matchLoop (text.length + 1) text 0 []).2 :=
    shape.matchLoop_found (nil_append text) (.inl rfl) (Nat.lt_succ_self text.length)
  have isPath : t.IsPath (t.matchLoop (text.length + 1) text 0 []).2 := walk.node.imp (·.2) (fun ⟨n, mem, path, _⟩ => ⟨n, mem, path⟩)
  obtain ⟨state, here⟩ := isPath.stateAt shape
  refine ⟨_, state, here, walk, ?_, ?_⟩
  · unfold prefixMatchWithCounts
    dsimp only
    rw [here, Option.getD_some]
  · unfold prefixMatchWithCounts touched
    dsimp only
    rw [here, Option.getD_some]

section
variable (shape : t.Shape) (found : Shape.Found t text k curr) (here : t.stateAt curr = some state)
include shape found here

theorem found_tenants {tenant : String} (has : tenant ∈ state.tenantLastAccessTime) : t.Holds tenant (text.take k) := by
  rcases found.node with ⟨rfl, rfl⟩ | ⟨n, mem, rfl, covers⟩
  · cases here
    exact .inl ⟨rfl, has⟩
  · rw [shape.stateAt_path mem] at here
    rw [← Option.some.inj here] at has
    exact .inr ⟨n, mem, covers, has⟩

theorem found_owned (none : state.tenantLastAccessTime.keys = []) : curr = [] ∧ k = 0 ∧ state = t.root := by
  rcases found.node with ⟨rfl, rfl⟩ | ⟨n, mem, rfl, _⟩
  · exact ⟨rfl, rfl, (Option.some.inj here).symm⟩
  · rw [shape.stateAt_path mem] at here
    rw [← Option.some.inj here] at none
    exact absurd none (shape.owned n mem)

end

end

theorem commonLen_take (text : List Char) (le : k ≤ text.length) : commonLen text (text.take k) = k := by
  have bound := (commonLen_le text (text.take k)).2
  rw [length_take, min_eq_left le] at bound
  refine le_antisymm bound (le_commonLen le ?_ (by rw [length_take, min_eq_left le]))
  rw [take_take, Nat.min_self]

/-- After any history: what tenants hold follows the updates and is closed under beginnings, and a lookup counts the longest beginning that the query
shares with a held text. -/
theorem prefixMatch_longest (us : List Update) :
    let t := us.foldl update new
    (∀ u : Update, u.Takes t.Holds (t.update u).Holds) ∧
    (∀ tenant w u, t.Holds tenant w → u <+: w → t.Holds tenant u) ∧
    (∀ n ∈ t.nodes, ∃ c, n.text.firstChar = some c ∧ t.child? n.parent c = some n ∧
      ∀ tenant ∈ n.tenantLastAccessTime, tenant ∈ t.tenantsAt n.parent) ∧
    (∀ text epoch order,
      let result := (t.prefixMatchWithCounts text epoch order).1
      result.inputCharCount = text.length ∧
      (∀ tenant w, t.Holds tenant w → commonLen text w ≤ result.matchedCharCount) ∧
      ((∃ tenant w, t.Holds tenant w ∧ commonLen text w = result.matchedCharCount) ∨
        (∀ tenant w, ¬ t.Holds tenant w) ∧ result.matchedCharCount = 0)) ∧
    (∀ a b, sharedPrefixCount a b = sharedPrefixCountChars a b) ∧ ∀ s n, advanceByChars s n = some (s.drop n) := by
  have inv := inv_updates us
  have shape := inv.shape
  refine ⟨fun u => (inv.update u).2, fun tenant w u holds start => shape.holds_prefix holds start, fun n member => ?_,
    fun text epoch order => ?_, fun a b => ?_, advanceByChars_eq⟩
  · obtain ⟨c, _, same⟩ := exists_cons_of_ne_nil (shape.nonempty n member)
    have first : n.text.firstChar = some c := by
      unfold NodeText.firstChar
      rw [same]
      rfl
    refine ⟨c, first, ?_, shape.inherited n member⟩
    cases found : child? (us.foldl update new) n.parent c with
    | none => exact absurd (Shape.covers_of_child rfl first) (shape.child?_none found (shape.attached n member) member)
    | some m =>
      obtain ⟨member', parent, first'⟩ := Shape.child?_some found
      rw [shape.unique member' member (Shape.covers_of_child parent first') (Shape.covers_of_child rfl first)]
  · obtain ⟨_, state, here, found, _, _⟩ := prefixMatch_found shape text epoch order
    refine ⟨rfl, fun tenant w holds => found.longest shape holds, ?_⟩
    by_cases none : state.tenantLastAccessTime.keys = []
    · obtain ⟨_, zero, root⟩ := found_owned shape found here none
      refine .inr ⟨fun tenant w holds => ?_, zero⟩
      have atRoot := holds_nil.mp (shape.holds_prefix holds List.nil_prefix)
      rw [← root, AList.mem_keys, none] at atRoot
      cases atRoot
    · obtain ⟨tenant, first⟩ := exists_mem_of_ne_nil _ none
      exact .inl ⟨tenant, _, found_tenants shape found here (AList.mem_keys.mpr first), commonLen_take text found.le⟩
  · rw [sharedCount_eq, sharedChars_eq]

inductive Op where
  | update (u : Update)
  | lookup (text : List Char) (epoch : Nat) (order : MapOrder)

def step (t : Tree) : Op → Tree
  | .update u => t.update u
  | .lookup text epoch order => (t.prefixMatchWithCounts text epoch order).2

def present (ops : List Op) : String → Prop :=
  ops.foldl (fun present op => match op with
    | .update (.insert _ tenant _) => fun other => present other ∨ other = tenant
    | .update (.removeTenant tenant) => fun other => present other ∧ other ≠ tenant
    | _ => present) (fun _ => False)

/-- It adds no tenant, and names one that is present and holds the matched characters, or the placeholder. -/
structure RightLookup (before : List Op) (text : List Char) (epoch : Nat) (order : MapOrder) : Prop where
  same : ∀ q tenant, tenant ∈ ((before.foldl step new).prefixMatchWithCounts text epoch order).2.tenantsAt q ↔
    tenant ∈ (before.foldl step new).tenantsAt q
  tenant : (∃ tenant, present before tenant) → present before ((before.foldl step new).prefixMatchWithCounts text epoch order).1.tenant ∧
      (before.foldl step new).Holds ((before.foldl step new).prefixMatchWithCounts text epoch order).1.tenant
        (text.take ((before.foldl step new).prefixMatchWithCounts text epoch order).1.matchedCharCount)
  placeholder : (∀ tenant, ¬ present before tenant) → ((before.foldl step new).prefixMatchWithCounts text epoch order).1.tenant = "empty"

def Haunts (before : List Op) (epoch : Nat) : Prop := epoch % 8 = 0 ∧ ∀ tenant, ¬ present before tenant

def Quiet (ops : List Op) : Prop := ∀ before text epoch order after, ops = before ++ .lookup text epoch order :: after → ¬ Haunts before epoch

structure Lasting (ops : List Op) : Prop where
  inv : (ops.foldl step new).Inv
  root : ∀ tenant, tenant ∈ (ops.foldl step new).root.tenantLastAccessTime ↔ present ops tenant

theorem touched_same {t : Tree} (shape : t.Shape)
    (calm : epoch % 8 = 0 → t.root.tenantLastAccessTime.keys ≠ []) : SameTenants t (t.prefixMatchWithCounts text epoch order).2 := by
  obtain ⟨_, state, here, found, _, after⟩ := prefixMatch_found shape text epoch order
  rw [after]
  refine modifyAt_same shape here (fun tenant => ?_)
  have cached : tenant ∈ (selectTenant order state).2.tenantLastAccessTime ↔ tenant ∈ state.tenantLastAccessTime := by rw [selectTenant_tenants]
  unfold touched
  split
  · next writes =>
    refine (mem_insert _).trans ((or_congr Iff.rfl cached).trans (or_iff_right_of_imp ?_))
    rintro rfl
    refine selectTenant_mem order (fun none => calm writes ?_)
    obtain ⟨_, _, root⟩ := found_owned shape found here none
    rw [← root]
    exact none
  · exact cached

theorem Lasting.nobody (lasting : Lasting before) :
    (before.foldl step new).root.tenantLastAccessTime.keys = [] ↔ ∀ tenant, ¬ present before tenant := by
  rw [eq_nil_iff_forall_not_mem]
  exact forall_congr' (fun tenant => not_congr (AList.mem_keys.symm.trans (lasting.root tenant)))

theorem Lasting.right (lasting : Lasting before) (text : List Char) (calm : ¬ Haunts before epoch) (order : MapOrder) :
    RightLookup before text epoch order := by
  have shape := lasting.inv.shape
  have same : SameTenants _ ((before.foldl step new).prefixMatchWithCounts text epoch order).2 :=
    touched_same shape (fun writes none => calm ⟨writes, lasting.nobody.mp none⟩)
  obtain ⟨_, state, here, found, name, _⟩ := prefixMatch_found shape text epoch order
  refine ⟨same.tenants, fun ⟨tenant, somebody⟩ => ?_, fun none => ?_⟩
  · have some : state.tenantLastAccessTime.keys ≠ [] := by
      intro none
      obtain ⟨_, _, root⟩ := found_owned shape found here none
      rw [root] at none
      exact lasting.nobody.mp none tenant somebody
    have has := selectTenant_mem order some
    rw [← name] at has
    have holds := found_tenants shape found here has
    exact ⟨(lasting.root _).mp (holds_nil.mp (shape.holds_prefix holds List.nil_prefix)), holds⟩
  · rw [name]
    refine selectTenant_empty order (eq_nil_iff_forall_not_mem.mpr (fun tenant first => ?_))
    have holds := found_tenants shape found here (AList.mem_keys.mpr first)
    exact none tenant ((lasting.root tenant).mp (holds_nil.mp (shape.holds_prefix holds List.nil_prefix)))

theorem present_snoc (before : List Op) (op : Op) : present (before ++ [op]) = match op with
    | .update (.insert _ tenant _) => fun other => present before other ∨ other = tenant
    | .update (.removeTenant tenant) => fun other => present before other ∧ other ≠ tenant
    | _ => present before := by
  unfold present
  rw [foldl_append]
  rfl

theorem Lasting.update (lasting : Lasting before) (u : Update) : Lasting (before ++ [.update u]) := by
  obtain ⟨_, takes⟩ := lasting.inv.update u
  have after : (before ++ [Op.update u]).foldl Tree.step new = (before.foldl Tree.step new).update u := by
    rw [foldl_append]
    rfl
  refine ⟨by rwa [after], fun tenant => ?_⟩
  rw [after, present_snoc, ← holds_nil]
  have had : (before.foldl Tree.step new).Holds tenant [] ↔ present before tenant := holds_nil.trans (lasting.root tenant)
  cases u with
  | insert text added epoch =>
    refine (takes tenant []).trans (or_congr had ?_)
    exact ⟨fun new => new.1, fun same => ⟨same, List.nil_prefix⟩⟩
  | removeTenant removed => exact (takes tenant []).trans (and_congr_left (fun _ => had))
  | evictTenantBySize maxSize order => exact (takes.2 tenant).trans had

theorem Lasting.lookup (lasting : Lasting before) (text : List Char) (calm : ¬ Haunts before epoch) (order : MapOrder) :
    Lasting (before ++ [.lookup text epoch order]) := by
  have same : SameTenants _ ((before.foldl Tree.step new).prefixMatchWithCounts text epoch order).2 :=
    touched_same lasting.inv.shape (fun writes none => calm ⟨writes, lasting.nobody.mp none⟩)
  have after : (before ++ [Op.lookup text epoch order]).foldl Tree.step new =
      ((before.foldl Tree.step new).prefixMatchWithCounts text epoch order).2 := by
    rw [foldl_append]
    rfl
  refine ⟨?_, fun tenant => ?_⟩
  · rw [after]
    exact ⟨same.shape, same.counted lasting.inv.counted⟩
  · rw [after, present_snoc, ← holds_nil]
    exact (same.holds tenant []).trans (holds_nil.trans (lasting.root tenant))

theorem Quiet.left {after : List Op} (quiet : Quiet (before ++ after)) : Quiet before := by
  intro earlier text epoch order later split
  apply quiet earlier text epoch order (later ++ after)
  rw [split, append_assoc, cons_append]

theorem lasting_of_quiet (ops : List Op) (quiet : Quiet ops) : Lasting ops := by
  induction ops using reverseRecOn with
  | nil => exact ⟨inv_new, fun tenant => ⟨fun has => absurd has (notMem_empty tenant), False.elim⟩⟩
  | append_singleton before op ih =>
    have lasting := ih quiet.left
    cases op with
    | update u => exact lasting.update u
    | lookup text epoch order => exact lasting.lookup text (quiet before text epoch order [] rfl) order

theorem Lasting.haunted (lasting : Lasting before) (haunts : Haunts before epoch) : ¬ RightLookup before text epoch order := by
  let chosen := selectTenant order (before.foldl step new).root
  intro right
  have none := lasting.nobody.mpr haunts.2
  obtain ⟨_, state, here, found, _, after⟩ := prefixMatch_found lasting.inv.shape text epoch order
  have empty : state.tenantLastAccessTime.keys = [] := by
    refine eq_nil_iff_forall_not_mem.mpr (fun tenant first => ?_)
    have holds := found_tenants lasting.inv.shape found here (AList.mem_keys.mpr first)
    exact haunts.2 tenant ((lasting.root tenant).mp (holds_nil.mp (lasting.inv.shape.holds_prefix holds List.nil_prefix)))
  obtain ⟨rfl, _, rfl⟩ := found_owned lasting.inv.shape found here empty
  have kept := right.same [] chosen.1
  rw [after] at kept
  have ghost : chosen.1 ∈ (touched order epoch (before.foldl step new).root).tenantLastAccessTime := by
    unfold touched
    rw [if_pos haunts.1]
    exact (mem_insert _).mpr (.inl rfl)
  have old : chosen.1 ∈ (before.foldl step new).root.tenantLastAccessTime := kept.mp ghost
  rw [AList.mem_keys, none] at old
  cases old

/-- In a history the lookups are right exactly when none of them writes its epoch to a tree without tenants. -/
theorem lookups_right_iff (ops : List Op) :
    (∀ before text epoch order after, ops = before ++ .lookup text epoch order :: after → RightLookup before text epoch order) ↔ Quiet ops := by
  constructor
  · intro right
    induction ops using reverseRecOn with
    | nil =>
      intro before text epoch order after split
      cases before <;> cases split
    | append_singleton earlier op ih =>
      have quiet : Quiet earlier := by
        refine ih (fun before text epoch order after split => right before text epoch order (after ++ [op]) ?_)
        rw [split, append_assoc, cons_append]
      intro before text epoch order after split haunts
      rcases eq_nil_or_concat after with rfl | ⟨middle, last, rfl⟩
      · obtain ⟨rfl, _⟩ := append_inj' split rfl
        exact (lasting_of_quiet earlier quiet).haunted haunts (right earlier text epoch order [] split)
      · have same : earlier ++ [op] = (before ++ .lookup text epoch order :: middle) ++ [last] := by
          rw [split, append_assoc, cons_append, concat_eq_append]
        obtain ⟨shorter, _⟩ := append_inj' same rfl
        exact quiet before text epoch order middle shorter haunts
  · intro quiet before text epoch order after split
    rw [split] at quiet
    exact (lasting_of_quiet before quiet.left).right text (quiet before text epoch order after rfl) order

def firstKey : MapOrder where
  first tenants := tenants.keys.head?
  none_iff _ := head?_eq_none_iff
  mem _ _ found := AList.mem_keys.mpr (mem_of_mem_head? found)

/-- A lookup in the new tree makes the placeholder a tenant. -/
theorem lookup_names_placeholder :
    let before := [Op.lookup ['x'] 0 firstKey, .update (.insert ['a', 'b', 'c'] "t1" 1)]
    ((before.foldl step new).prefixMatchWithCounts ['x'] 2 firstKey).1.tenant = "empty" ∧ present before "t1" ∧ ¬ present before "empty" ∧
      "empty" ∈ ([Op.lookup ['x'] 0 firstKey].foldl step new).tenantsAt [] := by
  refine ⟨by decide +kernel, .inr rfl, ?_, by decide +kernel⟩
  rintro (nobody | equal)
  · exact nobody
  · exact absurd equal (by decide)

end TriaxialKV.Gateway.Tree
