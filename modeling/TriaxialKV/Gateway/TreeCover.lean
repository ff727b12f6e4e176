import TriaxialKV.Gateway.PrefixTree

/-! # What the nodes of the prefix tree cover -/

namespace TriaxialKV.Gateway
open List Utf8

variable {k : Nat} {path remaining text u : List Char} {tenant : String}

theorem advanceByChars_eq (s : List Char) (n : Nat) : advanceByChars s n = some (s.drop n) := by
  unfold advanceByChars
  split
  · next zero => rw [zero, drop_zero]
  split
  · next past => rw [drop_eq_nil_of_le (le_trans (length_le s) past)]
  next lt =>
  split
  · next ascii =>
    have slice := sliceFrom_take s n
    rw [length_take_of_ascii ascii (Nat.le_of_not_le lt)] at slice
    exact slice
  · have index := charIndices_getElem? 0 s n
    split
    · next idx c found =>
      rw [found] at index
      split at index
      · have same : idx = 0 + (encode (s.take n)).length := Option.some.inj index
        rw [same, zero_add]
        exact sliceFrom_take s n
      · cases index
    · next missing =>
      rw [missing] at index
      split at index
      · cases index
      · next short => rw [drop_eq_nil_of_le (Nat.le_of_not_lt short)]

theorem sharedChars_eq (a b : List Char) : sharedPrefixCountChars a b = commonLen a b := commonLen_takeWhile a b

theorem sharedCount_eq (a b : List Char) : sharedPrefixCount a b = commonLen a b := by
  unfold sharedPrefixCount
  rw [commonLen_position]
  dsimp only
  split
  · next ascii => exact commonLen_encode a b ascii
  · exact sharedChars_eq a b

theorem NodeText.splitAtChar_text (self : NodeText) (k : Nat) :
    (self.splitAtChar k).1.text = self.text.take k ∧ (self.splitAtChar k).2.text = self.text.drop k := by
  unfold splitAtChar
  split
  · next zero => rw [zero]; exact ⟨rfl, rfl⟩
  split
  · next past =>
    rw [self.counted] at past
    rw [take_of_length_le past, drop_eq_nil_of_le past]
    exact ⟨rfl, rfl⟩
  · next lt =>
    rw [self.counted, not_le] at lt
    dsimp only
    rw [byteIdx_eq lt, sliceTo_take, sliceFrom_take]
    exact ⟨rfl, rfl⟩

def Node.Covers (n : Node) (w : List Char) : Prop := n.parent.length < w.length ∧ w <+: n.path

def Node.Apart (m n : Node) : Prop := ∀ w, m.Covers w → ¬ n.Covers w

instance : Std.Symm Node.Apart := ⟨fun _ _ apart w covers covers' => apart w covers' covers⟩

namespace Tree

structure Separate (t : Tree) : Prop where
  nonempty : ∀ n ∈ t.nodes, n.text.text ≠ []
  apart : t.nodes.Pairwise Node.Apart

structure Shape (t : Tree) : Prop extends Separate t where
  attached : ∀ n ∈ t.nodes, n.parent = [] ∨ ∃ m ∈ t.nodes, m.path = n.parent
  inherited : ∀ n ∈ t.nodes, ∀ tenant ∈ n.tenantLastAccessTime, tenant ∈ t.tenantsAt n.parent
  owned : ∀ n ∈ t.nodes, n.tenantLastAccessTime.keys ≠ []

def Holds (t : Tree) (tenant : String) (w : List Char) : Prop :=
  w = [] ∧ tenant ∈ t.root.tenantLastAccessTime ∨ ∃ n ∈ t.nodes, n.Covers w ∧ tenant ∈ n.tenantLastAccessTime

def IsPath (t : Tree) (path : List Char) : Prop := path = [] ∨ ∃ n ∈ t.nodes, n.path = path

namespace Separate
variable {t : Tree} (separate : t.Separate) {m n : Node} {w : List Char}
include separate

theorem length_path (mem : n ∈ t.nodes) : n.parent.length < n.path.length := by
  unfold Node.path
  rw [length_append]
  exact Nat.lt_add_of_pos_right (length_pos_of_ne_nil (separate.nonempty n mem))

theorem covers_path (mem : n ∈ t.nodes) : n.Covers n.path := ⟨separate.length_path mem, prefix_rfl⟩

theorem path_ne_nil (mem : n ∈ t.nodes) : n.path ≠ [] := ne_nil_of_length_pos (Nat.zero_lt_of_lt (separate.length_path mem))

theorem unique (mem : m ∈ t.nodes) (mem' : n ∈ t.nodes) (covers : m.Covers w) (covers' : n.Covers w) : m = n := by
  by_contra differ
  exact separate.apart.forall mem mem' differ w covers covers'

theorem path_inj (mem : m ∈ t.nodes) (mem' : n ∈ t.nodes) (same : m.path = n.path) : m = n :=
  separate.unique mem mem' (separate.covers_path mem) (same ▸ separate.covers_path mem')

theorem find?_path (mem : n ∈ t.nodes) : t.nodes.find? (fun m => m.path = n.path) = some n := by
  cases found : t.nodes.find? (fun m => m.path = n.path) with
  | none => exact absurd (decide_eq_true rfl) (find?_eq_none.mp found n mem)
  | some m =>
    have same := find?_some found
    rw [separate.path_inj (mem_of_find?_eq_some found) mem (of_decide_eq_true same)]

theorem stateAt_path (mem : n ∈ t.nodes) : t.stateAt n.path = some n.toNodeState := by
  unfold stateAt
  rw [if_neg (separate.path_ne_nil mem), separate.find?_path mem]
  rfl

theorem tenantsAt_path (mem : n ∈ t.nodes) : t.tenantsAt n.path = n.tenantLastAccessTime := by
  unfold tenantsAt
  rw [separate.stateAt_path mem]

end Separate

namespace Shape
variable {t : Tree} (shape : t.Shape) {m n : Node} {w : List Char} {c : Char}
include shape

theorem above (mem : n ∈ t.nodes) (has : tenant ∈ n.tenantLastAccessTime) : tenant ∈ t.root.tenantLastAccessTime ∧
      ∀ u, u ≠ [] → u <+: n.path → ∃ m ∈ t.nodes, m.Covers u ∧ tenant ∈ m.tenantLastAccessTime := by
  induction length : n.parent.length using Nat.strongRecOn generalizing n with
  | ind k ih =>
    have up := shape.inherited n mem tenant has
    rcases shape.attached n mem with top | ⟨m, mem', same⟩
    · rw [top] at up
      refine ⟨up, fun u some begins => ⟨n, mem, ⟨?_, begins⟩, has⟩⟩
      rw [top]
      exact length_pos_of_ne_nil some
    · have shorter := shape.length_path mem'
      rw [same, length] at shorter
      rw [← same, shape.tenantsAt_path mem'] at up
      obtain ⟨atRoot, below⟩ := ih _ shorter mem' up rfl
      refine ⟨atRoot, fun u some begins => ?_⟩
      by_cases lt : n.parent.length < u.length
      · exact ⟨n, mem, ⟨lt, begins⟩, has⟩
      · refine below u some ?_
        rw [same]
        exact prefix_of_prefix_length_le begins ⟨n.text.text, rfl⟩ (Nat.le_of_not_lt lt)

theorem covered_prefix (mem : n ∈ t.nodes) (covers : n.Covers w) (some : u ≠ []) (begins : u <+: w) : ∃ m ∈ t.nodes, m.Covers u := by
  obtain ⟨_, has⟩ := exists_mem_of_ne_nil _ (shape.owned n mem)
  obtain ⟨m, mem', covers', _⟩ := (shape.above mem (AList.mem_keys.mpr has)).2 u some (begins.trans covers.2)
  exact ⟨m, mem', covers'⟩

theorem holds_prefix (holds : t.Holds tenant w) (begins : u <+: w) : t.Holds tenant u := by
  rcases holds with ⟨rfl, has⟩ | ⟨n, mem, covers, has⟩
  · exact .inl ⟨List.prefix_nil.mp begins, has⟩
  · obtain ⟨atRoot, below⟩ := shape.above mem has
    by_cases none : u = []
    · exact .inl ⟨none, atRoot⟩
    · exact .inr (below u none (begins.trans covers.2))

theorem covers_succ (mem : n ∈ t.nodes) (covers : n.Covers (w ++ [c])) (path : m ∈ t.nodes) (ends : m.Covers w) :
    n = m ∨ m.path = w ∧ n.parent = w := by
  have le := covers.1
  rw [length_append, length_singleton] at le
  have begins : w <+: n.path := (prefix_append w [c]).trans covers.2
  by_cases lt : n.parent.length < w.length
  · exact .inl (shape.unique mem path ⟨lt, begins⟩ ends)
  · have same : n.parent = w := by
      refine List.IsPrefix.eq_of_length ?_ (by omega)
      exact prefix_of_prefix_length_le ⟨n.text.text, rfl⟩ begins (by omega)
    rcases shape.attached n mem with top | ⟨_, mem', same'⟩
    · rw [same] at top
      have := ends.1
      rw [top] at this
      cases this
    · have covers' := shape.covers_path mem'
      rw [same', same] at covers'
      rw [shape.unique path mem' ends covers']
      exact .inr ⟨same'.trans same, same⟩

theorem parent_of_covers (isPath : t.IsPath path) (mem : n ∈ t.nodes) (covers : n.Covers (path ++ [c])) :
    n.parent = path ∧ n.text.firstChar = some c := by
  have parent : n.parent = path := by
    rcases isPath with rfl | ⟨m, mem', rfl⟩
    · exact eq_nil_of_length_eq_zero (Nat.lt_one_iff.mp covers.1)
    · rcases shape.covers_succ mem covers mem' (shape.covers_path mem') with rfl | ⟨_, parent⟩
      · have long := covers.2.length_le
        rw [length_append, length_singleton] at long
        omega
      · exact parent
  refine ⟨parent, ?_⟩
  obtain ⟨_, same⟩ := covers.2
  unfold Node.path at same
  rw [parent, append_assoc, append_cancel_left_eq] at same
  unfold NodeText.firstChar
  rw [← same]
  rfl

omit shape in
theorem covers_of_child (parent : n.parent = w) (first : n.text.firstChar = some c) : n.Covers (w ++ [c]) := by
  obtain ⟨rest, same⟩ : ∃ rest, n.text.text = c :: rest := ⟨_, (cons_head?_tail first).symm⟩
  refine ⟨by rw [parent, length_append]; exact Nat.lt_succ_self _, ?_⟩
  unfold Node.path
  rw [parent, same]
  exact ⟨rest, append_assoc ..⟩

omit shape in
theorem child?_some (found : t.child? w c = some n) : n ∈ t.nodes ∧ n.parent = w ∧ n.text.firstChar = some c := by
  have here := find?_some found
  exact ⟨mem_of_find?_eq_some found, of_decide_eq_true here⟩

theorem child?_none (missing : t.child? w c = none) (isPath : t.IsPath w) (mem : n ∈ t.nodes) : ¬ n.Covers (w ++ [c]) := by
  intro covers
  exact find?_eq_none.mp missing n mem (decide_eq_true (shape.parent_of_covers isPath mem covers))

structure Found (t : Tree) (text : List Char) (k : Nat) (curr : List Char) : Prop where
  le : k ≤ text.length
  node : k = 0 ∧ curr = [] ∨ ∃ n ∈ t.nodes, n.path = curr ∧ n.Covers (text.take k)
  most : ∀ n ∈ t.nodes, k < text.length → ¬ n.Covers (text.take (k + 1))

omit shape in
theorem shared_pos {firstChar : Char} (first : n.text.firstChar = some firstChar) (remaining : List Char) :
    0 < commonLen (firstChar :: remaining) n.text.text := by
  obtain ⟨rest, same⟩ : ∃ rest, n.text.text = firstChar :: rest := ⟨_, (cons_head?_tail first).symm⟩
  rw [same, commonLen, if_pos rfl]
  exact Nat.succ_pos _

omit shape in
theorem covers_shared (parent : n.parent = path) (pos : 0 < k) (le : k ≤ commonLen remaining n.text.text) : n.Covers (path ++ remaining.take k) := by
  have bound := commonLen_le remaining n.text.text
  constructor
  · rw [parent, length_append, length_take]
    omega
  · have same := congrArg (List.take k) (take_commonLen remaining n.text.text)
    rw [take_take, take_take, min_eq_left le] at same
    unfold Node.path
    rw [parent, same]
    exact prefix_append_right_inj path |>.mpr (List.take_prefix k _)

theorem partial_most (whole : path ++ remaining = text) (mem : n ∈ t.nodes) (parent : n.parent = path)
    (pos : 0 < commonLen remaining n.text.text) (short : commonLen remaining n.text.text < n.text.text.length) (m : Node) (mem' : m ∈ t.nodes)
    (lt : path.length + commonLen remaining n.text.text < text.length) :
    ¬ m.Covers (text.take (path.length + commonLen remaining n.text.text + 1)) := by
  subst whole
  intro covers
  have covers' := covers_shared parent pos (le_refl (commonLen remaining n.text.text))
  rw [length_append] at lt
  have longer : (path ++ remaining).take (path.length + commonLen remaining n.text.text + 1) =
      path ++ remaining.take (commonLen remaining n.text.text + 1) := by
    rw [add_assoc, take_length_add_append]
  rw [longer] at covers
  rw [take_succ_eq_append_getElem (by omega), ← append_assoc] at covers
  rcases shape.covers_succ mem' covers mem covers' with rfl | ⟨ends, _⟩
  · rw [append_assoc, ← take_succ_eq_append_getElem] at covers
    obtain ⟨back, same⟩ := covers.2
    unfold Node.path at same
    rw [parent, append_assoc, append_cancel_left_eq] at same
    have agree : remaining.take (commonLen remaining m.text.text + 1) = m.text.text.take (commonLen remaining m.text.text + 1) := by
      have taken := List.prefix_iff_eq_take.mp ⟨back, same⟩
      rw [length_take, min_eq_left (by omega)] at taken
      exact taken
    have := le_commonLen (by omega) agree short
    omega
  · have length := congrArg List.length ends
    unfold Node.path at length
    rw [parent, length_append, length_append, length_take] at length
    omega

theorem matchLoop_found {fuel : Nat} (whole : path ++ remaining = text) (isPath : t.IsPath path) (enough : remaining.length < fuel) :
    Found t text (t.matchLoop fuel remaining path.length path).1 (t.matchLoop fuel remaining path.length path).2 := by
  have here (path remaining : List Char) (isPath : t.IsPath path) :
      path.length = 0 ∧ path = [] ∨ ∃ n ∈ t.nodes, n.path = path ∧ n.Covers ((path ++ remaining).take path.length) := by
    rw [take_left]
    rcases isPath with rfl | ⟨n, mem, rfl⟩
    · exact .inl ⟨rfl, rfl⟩
    · exact .inr ⟨n, mem, rfl, shape.covers_path mem⟩
  induction fuel generalizing path remaining with
  | zero => exact absurd enough (Nat.not_lt_zero _)
  | succ fuel ih =>
    subst whole
    cases remaining with
    | nil =>
      refine ⟨by rw [append_nil]; exact le_refl _, here path [] isPath, fun n _ lt => ?_⟩
      rw [append_nil] at lt
      exact absurd lt (lt_irrefl _)
    | cons firstChar rest =>
      unfold matchLoop
      dsimp only
      cases found : t.child? path firstChar with
      | none =>
        refine ⟨by rw [length_append]; exact Nat.le_add_right _ _, here path _ isPath, fun n mem _ => ?_⟩
        rw [take_length_add_append]
        exact shape.child?_none found isPath mem
      | some n =>
        obtain ⟨mem, parent, first⟩ := child?_some found
        have pos := shared_pos first rest
        have bound := commonLen_le (firstChar :: rest) n.text.text
        dsimp only
        rw [sharedCount_eq, advanceByChars_eq, n.text.counted, Option.getD_some]
        split
        · next full =>
          have taken : (firstChar :: rest).take n.text.text.length = n.text.text := by
            have same := take_commonLen (firstChar :: rest) n.text.text
            rw [full, take_length] at same
            exact same
          have length : path.length + commonLen (firstChar :: rest) n.text.text = n.path.length := by
            unfold Node.path
            rw [parent, full, length_append]
          have whole : n.path ++ (firstChar :: rest).drop (commonLen (firstChar :: rest) n.text.text) = path ++ firstChar :: rest := by
            unfold Node.path
            rw [parent, full, append_assoc]
            conv_rhs => rw [← take_append_drop n.text.text.length (firstChar :: rest), taken]
          rw [length]
          refine ih whole (.inr ⟨n, mem, rfl⟩) ?_
          rw [length_drop]
          omega
        · next partial_ =>
          have short : commonLen (firstChar :: rest) n.text.text < n.text.text.length := Nat.lt_of_le_of_ne bound.2 partial_
          refine ⟨by rw [length_append]; omega, .inr ⟨n, mem, rfl, ?_⟩, fun m mem' lt => ?_⟩
          · rw [take_length_add_append]
            exact covers_shared parent pos (le_refl _)
          · exact shape.partial_most rfl mem parent pos short m mem' lt

end Shape

variable {t : Tree}

theorem Shape.Found.longest (shape : t.Shape) {curr : List Char} (found : Shape.Found t text k curr) {w : List Char}
    (holds : t.Holds tenant w) : commonLen text w ≤ k := by
  by_contra more
  have bound := commonLen_le text w
  rcases holds with ⟨rfl, _⟩ | ⟨n, mem, covers, _⟩
  · rw [length_nil] at bound
    omega
  · have begins : text.take (k + 1) <+: w := by
      have same := congrArg (List.take (k + 1)) (take_commonLen text w)
      rw [take_take, take_take, min_eq_left (by omega)] at same
      rw [same]
      exact take_prefix _ _
    have some : text.take (k + 1) ≠ [] := by
      intro none
      have length := congrArg List.length none
      rw [length_take, length_nil] at length
      omega
    obtain ⟨m, mem', covers'⟩ := shape.covered_prefix mem covers some begins
    exact found.most m mem' (by omega) covers'

end Tree

end TriaxialKV.Gateway
