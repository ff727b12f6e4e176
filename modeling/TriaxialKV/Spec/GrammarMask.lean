import Mathlib.Data.List.Nodup
import Mathlib.Tactic.Ring

/-!
# Grammar masks of a draft tree

`traverse_tree` accepts a token on the way down, rolls it back on the way up, and fills the mask row of every node
that it reaches.
-/

namespace TriaxialKV.Speculative
open List

variable {curr fuel i id : Nat} {parentPos : Int}

/-- A row of the vocabulary mask, 32 tokens to a word. -/
abbrev Row := List (BitVec 32)

/-- A grammar object over its states. `fillVocabMask` is what it makes of a row. -/
structure Grammar (σ : Type) where
  acceptToken : σ → Nat → σ
  rollback : σ → Nat → σ
  isTerminated : σ → Bool
  fillVocabMask : σ → Row → Row

namespace Grammar
variable {σ : Type}

def acceptAll (g : Grammar σ) (s : σ) (tokens : List Nat) : σ := tokens.foldl g.acceptToken s

/-- No token is accepted in a terminated state. -/
def Passes (g : Grammar σ) (s : σ) (tokens : List Nat) : Prop := ∀ n < tokens.length, g.isTerminated (g.acceptAll s (tokens.take n)) = false

/-- From `s` on, `rollback k` undoes the last `k` accepted tokens. -/
def Undoes (g : Grammar σ) (s : σ) : Prop :=
  ∀ tokens k, g.Passes s tokens → k ≤ tokens.length → g.rollback (g.acceptAll s tokens) k = g.acceptAll s (tokens.take (tokens.length - k))

end Grammar

section
variable {σ : Type}

/-- The draft tree and the grammar that `traverse_tree` is given. -/
structure DraftTree (σ : Type) where
  grammar : Grammar σ
  retrieveNextToken : List Int
  retrieveNextSibling : List Int
  draftTokens : List Nat
  vocabSize : Option Nat

namespace DraftTree

/-- A negative index counts from the end. -/
def pyIndex (length : Nat) (i : Int) : Nat := if i < 0 then (length + i).toNat else i.toNat

def allows (d : DraftTree σ) (parentBitmask : Row) (token : Nat) : Bool :=
  if d.vocabSize.any (fun size => size ≠ 0 ∧ token ≥ size) then false
  else parentBitmask[token / 32]! &&& (1#32 <<< (token % 32)) ≠ 0

/-- `fuel` bounds the depth of the recursion. -/
def dfs (d : DraftTree σ) : Nat → Nat → Int → σ × List Row → Option (σ × List Row)
  | 0, _, _, _ => none
  | fuel + 1, curr, parentPos, (s, rows) => do
    let token := d.draftTokens[curr]!
    let accepted := if curr = 0 then true else d.allows rows[pyIndex rows.length parentPos]! token
    let (s, rows) ← (if accepted then do
        let s := if curr ≠ 0 then d.grammar.acceptToken s token else s
        let (s, rows) ← (if d.grammar.isTerminated s then some (s, rows)
          else
            let rows := rows.set curr (d.grammar.fillVocabMask s rows[curr]!)
            if d.retrieveNextToken[curr]! ≠ -1 then dfs d fuel d.retrieveNextToken[curr]!.toNat curr (s, rows) else some (s, rows))
        some (if curr ≠ 0 then d.grammar.rollback s 1 else s, rows)
      else some (s, rows))
    if d.retrieveNextSibling[curr]! ≠ -1 then dfs d fuel d.retrieveNextSibling[curr]!.toNat parentPos (s, rows) else some (s, rows)

def traverseTree (d : DraftTree σ) (fuel : Nat) (s : σ) (allocateTokenBitmask : List Row) : Option (σ × List Row) :=
  d.dfs fuel 0 (-1) (s, allocateTokenBitmask)

end DraftTree

end

/-- A forest by first child and next sibling. -/
inductive LinkTree where
  | nil
  | node (id : Nat) (child sibling : LinkTree)

namespace LinkTree

def ids : LinkTree → List Nat
  | nil => []
  | node id child sibling => id :: (child.ids ++ sibling.ids)

def paths : LinkTree → List (List Nat)
  | nil => []
  | node id child sibling => [id] :: (child.paths.map (fun path => id :: path) ++ sibling.paths)

def Linked (nextToken nextSibling : List Int) : LinkTree → Int → Prop
  | nil, first => first = -1
  | node id child sibling, first => first = id ∧ child.Linked nextToken nextSibling nextToken[id]! ∧
    sibling.Linked nextToken nextSibling nextSibling[id]!

variable {t : LinkTree}

theorem paths_ne_nil : ∀ path ∈ t.paths, path ≠ [] := by
  induction t with
  | nil => exact fun path mem => absurd mem not_mem_nil
  | node id child sibling below beside =>
    intro path mem
    rcases mem_cons.mp mem with rfl | rest
    · exact cons_ne_nil _ _
    · rcases mem_append.mp rest with lt | next
      · obtain ⟨_, _, rfl⟩ := mem_map.mp lt
        exact cons_ne_nil _ _
      · exact beside path next

theorem getLast?_below {path : List Nat} (mem : path ∈ t.paths) (last : (id :: path).getLast? = some i) : path.getLast? = some i := by
  rw [getLast?_cons_of_ne_nil (paths_ne_nil path mem)] at last
  exact last

theorem paths_last : ∀ path ∈ t.paths, ∀ i, path.getLast? = some i → i ∈ t.ids := by
  induction t with
  | nil => exact fun path mem => absurd mem not_mem_nil
  | node id child sibling below beside =>
    intro path mem i last
    rcases mem_cons.mp mem with rfl | rest
    · cases last
      exact mem_cons_self
    · refine mem_cons_of_mem _ ?_
      rcases mem_append.mp rest with lt | next
      · obtain ⟨path', mem', rfl⟩ := mem_map.mp lt
        exact mem_append_left _ (below path' mem' i (getLast?_below mem' last))
      · exact mem_append_right _ (beside path next i last)

end LinkTree

namespace DraftTree
variable {σ : Type} {d : DraftTree σ} {rows : List Row} {s : σ}

/-- The state after an accepted path below `node` that meets no terminated state; `s` is the state at `node`. -/
def reach (d : DraftTree σ) (rows : List Row) : σ → Nat → List Nat → Option σ
  | s, _, [] => if d.grammar.isTerminated s then none else some s
  | s, node, next :: path =>
    if d.grammar.isTerminated s then none
    else if d.allows (d.grammar.fillVocabMask s rows[node]!) d.draftTokens[next]! then
      reach d rows (d.grammar.acceptToken s d.draftTokens[next]!) next path
    else none

def rowOf (d : DraftTree σ) (rows : List Row) (reached : Option σ) (id : Nat) : Row :=
  match reached with
  | some s => d.grammar.fillVocabMask s rows[id]!
  | none => rows[id]!

structure Filled (d : DraftTree σ) (before : List Row) (s : σ) (node : Nat) (t : LinkTree) (rows rows' : List Row) : Prop where
  length : rows'.length = rows.length
  other : ∀ id, id ∉ t.ids → rows'[id]! = rows[id]!
  reached : ∀ path ∈ t.paths, ∀ id, path.getLast? = some id → rows'[id]! = d.rowOf before (d.reach before s node path) id

def visit (d : DraftTree σ) (fuel curr : Nat) (s : σ) (rows : List Row) : Option (σ × List Row) :=
  if d.grammar.isTerminated s then some (s, rows)
  else if d.retrieveNextToken[curr]! ≠ -1 then
    d.dfs fuel d.retrieveNextToken[curr]!.toNat curr (s, rows.set curr (d.grammar.fillVocabMask s rows[curr]!))
  else some (s, rows.set curr (d.grammar.fillVocabMask s rows[curr]!))

def siblings (d : DraftTree σ) (fuel curr : Nat) (parentPos : Int) (state : σ × List Row) : Option (σ × List Row) :=
  if d.retrieveNextSibling[curr]! ≠ -1 then d.dfs fuel d.retrieveNextSibling[curr]!.toNat parentPos state else some state

theorem dfs_root (fuel : Nat) (parentPos : Int) (s : σ) (rows : List Row) :
    d.dfs (fuel + 1) 0 parentPos (s, rows) = (d.visit fuel 0 s rows).bind (fun result => d.siblings fuel 0 parentPos (result.1, result.2)) := by
  rw [dfs]
  unfold visit siblings
  simp only [ne_eq, not_true_eq_false, ↓reduceIte, Option.bind_eq_bind, Option.bind_assoc, Option.bind_some]

theorem dfs_accepted (inner : curr ≠ 0) (accepted : d.allows rows[pyIndex rows.length parentPos]! d.draftTokens[curr]! = true) :
    d.dfs (fuel + 1) curr parentPos (s, rows) = (d.visit fuel curr (d.grammar.acceptToken s d.draftTokens[curr]!) rows).bind
      (fun result => d.siblings fuel curr parentPos (d.grammar.rollback result.1 1, result.2)) := by
  rw [dfs]
  unfold visit siblings
  simp only [inner, accepted, ne_eq, not_false_eq_true, ↓reduceIte, Option.bind_eq_bind, Option.bind_assoc, Option.bind_some]

theorem dfs_rejected (inner : curr ≠ 0) (rejected : d.allows rows[pyIndex rows.length parentPos]! d.draftTokens[curr]! = false) :
    d.dfs (fuel + 1) curr parentPos (s, rows) = d.siblings fuel curr parentPos (s, rows) := by
  rw [dfs]
  unfold siblings
  simp only [inner, rejected, Bool.false_eq_true, ↓reduceIte, Option.bind_eq_bind, Option.bind_some]

theorem getElem!_set_self (lt : i < rows.length) (row : Row) : (rows.set i row)[i]! = row := by
  rw [getElem!_pos _ _ (by rwa [length_set]), getElem_set_self]

theorem getElem!_set_other {j : Nat} (other : i ≠ j) (row : Row) : (rows.set i row)[j]! = rows[j]! := by
  rw [getElem!_eq_getElem?_getD, getElem!_eq_getElem?_getD, getElem?_set_ne other]

theorem pyIndex_natCast (length i : Nat) : pyIndex length i = i := by
  unfold pyIndex
  rw [if_neg (by omega), Int.toNat_natCast]

theorem passes_cons {g : Grammar σ} (live : g.isTerminated s = false) {token : Nat} {tokens : List Nat}
    (passes : g.Passes (g.acceptToken s token) tokens) : g.Passes s (token :: tokens) := by
  intro n lt
  cases n with
  | zero => exact live
  | succ n => exact passes n (Nat.lt_of_succ_lt_succ lt)

theorem undoes_one {g : Grammar σ} (undoes : g.Undoes s) (live : g.isTerminated s = false) (token : Nat) :
    g.rollback (g.acceptToken s token) 1 = s := undoes [token] 1 (passes_cons live nofun) (le_refl 1)

theorem undoes_accept {g : Grammar σ} (undoes : g.Undoes s) (live : g.isTerminated s = false) (token : Nat) :
    g.Undoes (g.acceptToken s token) := by
  intro tokens k passes le
  have whole := undoes (token :: tokens) k (passes_cons live passes) (le.trans (Nat.le_succ _))
  rw [length_cons, Nat.succ_sub le, take_succ_cons] at whole
  exact whole

theorem reach_terminated {before : List Row} (ended : d.grammar.isTerminated s = true) (node : Nat) (path : List Nat) :
    d.reach before s node path = none := by
  cases path with
  | nil => rw [reach, if_pos ended]
  | cons next path => rw [reach, if_pos ended]

structure Visited (d : DraftTree σ) (before : List Row) (s : σ) (id : Nat) (child : LinkTree) (rows rows' : List Row) : Prop where
  length : rows'.length = rows.length
  other : ∀ i, i ≠ id → i ∉ child.ids → rows'[i]! = rows[i]!
  self : rows'[id]! = d.rowOf before (d.reach before s id []) id
  below : ∀ path ∈ child.paths, ∀ i, path.getLast? = some i → rows'[i]! = d.rowOf before (d.reach before s id path) i

structure Ready (d : DraftTree σ) (before : List Row) (t : LinkTree) (first : Int) (rows : List Row) : Prop where
  linked : t.Linked d.retrieveNextToken d.retrieveNextSibling first
  nodup : t.ids.Nodup
  inner : 0 ∉ t.ids
  inside : ∀ id ∈ t.ids, id < rows.length
  fresh : ∀ id ∈ t.ids, rows[id]! = before[id]!

def Walks (d : DraftTree σ) (before : List Row) (t : LinkTree) : Prop :=
  ∀ (s : σ) (node fuel : Nat) (first : Int) (rows : List Row), d.grammar.Undoes s → d.grammar.isTerminated s = false → d.Ready before t first rows →
    node ∉ t.ids → rows[node]! = d.grammar.fillVocabMask s before[node]! → t.ids.length ≤ fuel →
    ∃ rows', (if first ≠ -1 then d.dfs fuel first.toNat node (s, rows) else some (s, rows)) = some (s, rows') ∧ d.Filled before s node t rows rows'

theorem visit_visited {before : List Row} {child : LinkTree} (walks : d.Walks before child) (undoes : d.grammar.Undoes s)
    (ready : d.Ready before child d.retrieveNextToken[id]! rows) (outside : id ∉ child.ids) (lt : id < rows.length)
    (fresh : rows[id]! = before[id]!) (enough : child.ids.length ≤ fuel) :
    ∃ rows', d.visit fuel id s rows = some (s, rows') ∧ d.Visited before s id child rows rows' := by
  unfold visit
  cases ended : d.grammar.isTerminated s with
  | true =>
    refine ⟨rows, if_pos rfl, rfl, fun _ _ _ => rfl, ?_, fun path mem i last => ?_⟩
    · rw [reach_terminated ended]
      exact fresh
    · rw [reach_terminated ended]
      exact ready.fresh i (LinkTree.paths_last path mem i last)
  | false =>
    rw [if_neg Bool.false_ne_true, fresh]
    have filled : (rows.set id (d.grammar.fillVocabMask s before[id]!))[id]! = d.grammar.fillVocabMask s before[id]! := getElem!_set_self lt _
    have apart : ∀ i ∈ child.ids, id ≠ i := fun i mem same => outside (same ▸ mem)
    have ready' : d.Ready before child d.retrieveNextToken[id]! (rows.set id (d.grammar.fillVocabMask s before[id]!)) := by
      refine ⟨ready.linked, ready.nodup, ready.inner, fun i mem => ?_, fun i mem => ?_⟩
      · rw [length_set]
        exact ready.inside i mem
      · rw [getElem!_set_other (apart i mem)]
        exact ready.fresh i mem
    obtain ⟨rows', walked, result⟩ := walks s id fuel _ _ undoes ended ready' outside filled enough
    refine ⟨rows', walked, result.length.trans length_set, fun i other beyond => ?_, ?_, result.reached⟩
    · rw [result.other i beyond, getElem!_set_other (Ne.symm other)]
    · rw [result.other id outside, filled, reach, if_neg (by rw [ended]; exact Bool.false_ne_true)]
      rfl

theorem walks (d : DraftTree σ) (before : List Row) (t : LinkTree) : d.Walks before t := by
  induction t with
  | nil =>
    intro s node fuel first rows _ _ ready _ _ _
    refine ⟨rows, if_neg (not_not.mpr ready.linked), rfl, fun _ _ => rfl, fun path mem => absurd mem not_mem_nil⟩
  | node id child sibling below beside =>
    intro s node fuel first rows undoes live ready outside written _
    obtain ⟨rfl, childLinked, siblingLinked⟩ := ready.linked
    have nodup := nodup_cons.mp ready.nodup
    obtain ⟨childNodup, siblingNodup, disjoint⟩ := nodup_append'.mp nodup.2
    have notChild : id ∉ child.ids := fun mem => nodup.1 (mem_append_left _ mem)
    have notSibling : id ∉ sibling.ids := fun mem => nodup.1 (mem_append_right _ mem)
    have inChild : ∀ i ∈ child.ids, i ∈ (LinkTree.node id child sibling).ids := fun i mem => mem_cons_of_mem _ (mem_append_left _ mem)
    have inSibling : ∀ i ∈ sibling.ids, i ∈ (LinkTree.node id child sibling).ids := fun i mem => mem_cons_of_mem _ (mem_append_right _ mem)
    have self : id ∈ (LinkTree.node id child sibling).ids := mem_cons_self
    have inner : id ≠ 0 := fun zero => ready.inner (zero ▸ self)
    have size : child.ids.length + sibling.ids.length + 1 ≤ fuel := by
      have length : (LinkTree.node id child sibling).ids.length = child.ids.length + sibling.ids.length + 1 := by
        rw [LinkTree.ids, length_cons, length_append]
      omega
    obtain ⟨fuel, rfl⟩ : ∃ f, fuel = f + 1 := ⟨fuel - 1, by omega⟩
    rw [if_pos (by omega), Int.toNat_natCast]
    -- The siblings are walked from the state and the rows that the node itself leaves.
    have onward {rows₁ : List Row} (length : rows₁.length = rows.length) (other : ∀ i, i ≠ id → i ∉ child.ids → rows₁[i]! = rows[i]!) :
        ∃ rows', d.siblings fuel id node (s, rows₁) = some (s, rows') ∧ d.Filled before s node sibling rows₁ rows' := by
      refine beside s node fuel _ rows₁ undoes live ⟨siblingLinked, siblingNodup, fun zero => ready.inner (inSibling 0 zero), ?_, ?_⟩
        (fun mem => outside (inSibling node mem)) ?_ (by omega)
      · intro i mem
        rw [length]
        exact ready.inside i (inSibling i mem)
      · intro i mem
        rw [other i (fun same => notSibling (same ▸ mem)) (fun here => disjoint here mem)]
        exact ready.fresh i (inSibling i mem)
      · rw [other node (fun same => outside (same ▸ self)) (fun here => outside (inChild node here))]
        exact written
    cases accepted : d.allows (d.grammar.fillVocabMask s before[node]!) d.draftTokens[id]! with
    | false =>
      have rejected : d.allows rows[pyIndex rows.length node]! d.draftTokens[id]! = false := by
        rw [pyIndex_natCast, written]
        exact accepted
      obtain ⟨rows', walked, result⟩ := onward rfl (fun _ _ _ => rfl)
      have lost (path : List Nat) : d.reach before s node (id :: path) = none := by
        rw [reach, live, accepted]
        rfl
      refine ⟨rows', (dfs_rejected inner rejected).trans walked, result.length, fun i beyond => ?_, fun path mem i last => ?_⟩
      · exact result.other i (fun mem => beyond (inSibling i mem))
      · have old (mem : i = id ∨ i ∈ child.ids) : rows'[i]! = before[i]! := by
          rcases mem with rfl | here
          · rw [result.other i notSibling]
            exact ready.fresh i self
          · rw [result.other i (fun there => disjoint here there)]
            exact ready.fresh i (inChild i here)
        rcases mem_cons.mp mem with rfl | rest
        · rw [lost]
          exact old (.inl (Option.some.inj last).symm)
        · rcases mem_append.mp rest with lt | next
          · obtain ⟨path', mem', rfl⟩ := mem_map.mp lt
            rw [lost]
            exact old (.inr (LinkTree.paths_last path' mem' i (LinkTree.getLast?_below mem' last)))
          · exact result.reached path next i last
    | true =>
      have accepted' : d.allows rows[pyIndex rows.length node]! d.draftTokens[id]! = true := by
        rw [pyIndex_natCast, written]
        exact accepted
      have ready₁ : d.Ready before child d.retrieveNextToken[id]! rows :=
        ⟨childLinked, childNodup, fun zero => ready.inner (inChild 0 zero), fun i mem => ready.inside i (inChild i mem),
          fun i mem => ready.fresh i (inChild i mem)⟩
      have room : child.ids.length ≤ fuel := by omega
      obtain ⟨rows₁, visited, result₁⟩ := visit_visited below (undoes_accept undoes live d.draftTokens[id]!) ready₁ notChild (ready.inside id self)
        (ready.fresh id self) room
      obtain ⟨rows', walked, result⟩ := onward result₁.length result₁.other
      have found (path : List Nat) : d.reach before s node (id :: path) = d.reach before (d.grammar.acceptToken s d.draftTokens[id]!) id path := by
        rw [reach, live, accepted]
        rfl
      refine ⟨rows', ?_, result.length.trans result₁.length, fun i beyond => ?_, fun path mem i last => ?_⟩
      · rw [dfs_accepted inner accepted', visited, Option.bind_some, undoes_one undoes live]
        exact walked
      · rw [result.other i (fun mem => beyond (inSibling i mem))]
        exact result₁.other i (fun same => beyond (same ▸ self)) (fun mem => beyond (inChild i mem))
      · rcases mem_cons.mp mem with rfl | rest
        · obtain rfl : id = i := Option.some.inj last
          rw [result.other id notSibling, found]
          exact result₁.self
        · rcases mem_append.mp rest with lt | next
          · obtain ⟨path', mem', rfl⟩ := mem_map.mp lt
            have last' := LinkTree.getLast?_below mem' last
            have here := LinkTree.paths_last path' mem' i last'
            rw [result.other i (fun there => disjoint here there), found]
            exact result₁.below path' mem' i last'
          · exact result.reached path next i last

/-- A draft tree in the links: node 0 is its root and has no sibling. -/
structure Tree (d : DraftTree σ) (child : LinkTree) : Prop where
  linked : child.Linked d.retrieveNextToken d.retrieveNextSibling d.retrieveNextToken[0]!
  root : d.retrieveNextSibling[0]! = -1
  nodup : (0 :: child.ids).Nodup

theorem traverseTree_visited {child : LinkTree} (tree : d.Tree child) (undoes : d.grammar.Undoes s)
    (lt : ∀ id ∈ 0 :: child.ids, id < rows.length) (enough : child.ids.length < fuel) :
    ∃ rows', d.traverseTree fuel s rows = some (s, rows') ∧ d.Visited rows s 0 child rows rows' := by
  obtain ⟨fuel, rfl⟩ : ∃ f, fuel = f + 1 := ⟨fuel - 1, by omega⟩
  obtain ⟨outside, nodup⟩ := nodup_cons.mp tree.nodup
  have ready : d.Ready rows child d.retrieveNextToken[0]! rows :=
    ⟨tree.linked, nodup, outside, fun id mem => lt id (mem_cons_of_mem _ mem), fun _ _ => rfl⟩
  have room : child.ids.length ≤ fuel := by omega
  obtain ⟨rows', visited, result⟩ := visit_visited (d.walks rows child) undoes ready outside (lt 0 mem_cons_self) rfl room
  refine ⟨rows', ?_, result⟩
  unfold traverseTree
  rw [dfs_root, visited, Option.bind_some, siblings, tree.root]
  rfl

end DraftTree

/-- `tokens_after_think_end` is −1 while the model thinks, and then the number of tokens after the end of thinking. -/
structure ReasonerState (σ : Type) where
  grammar : σ
  tokensAfterThinkEnd : Int
  deriving DecidableEq

namespace ReasonerGrammarObject
variable {σ : Type}

def transferState (thinkEndId : Nat) (tokensAfterThinkEnd : Int) (token : Nat) : Int :=
  if tokensAfterThinkEnd = -1 ∧ token = thinkEndId then 0
  else if tokensAfterThinkEnd ≥ 0 then tokensAfterThinkEnd + 1
  else tokensAfterThinkEnd

def rollbackState (tokensAfterThinkEnd : Int) : Int :=
  if tokensAfterThinkEnd = 0 then -1
  else if tokensAfterThinkEnd > 0 then tokensAfterThinkEnd - 1
  else tokensAfterThinkEnd

def acceptToken (g : Grammar σ) (thinkEndId : Nat) (s : ReasonerState σ) (token : Nat) : ReasonerState σ :=
  ⟨if s.tokensAfterThinkEnd ≥ 0 then g.acceptToken s.grammar token else s.grammar, transferState thinkEndId s.tokensAfterThinkEnd token⟩

def rollback (g : Grammar σ) (s : ReasonerState σ) (k : Nat) : ReasonerState σ :=
  let stepsAfterThink := min (k : Int) s.tokensAfterThinkEnd
  ⟨if stepsAfterThink > 0 then g.rollback s.grammar stepsAfterThink.toNat else s.grammar, rollbackState^[k] s.tokensAfterThinkEnd⟩

def wrap (g : Grammar σ) (thinkEndId : Nat) : Grammar (ReasonerState σ) where
  acceptToken := acceptToken g thinkEndId
  rollback := rollback g
  isTerminated s := g.isTerminated s.grammar
  fillVocabMask s row := if s.tokensAfterThinkEnd ≥ 0 then g.fillVocabMask s.grammar row else row

def init (s : σ) (reasoning : Bool) : ReasonerState σ := ⟨s, if reasoning then -1 else 0⟩

section
variable {g : Grammar σ} {s : σ} {thinkEndId : Nat}

theorem acceptAll_ended (tokens : List Nat) (n : Nat) : (wrap g thinkEndId).acceptAll ⟨s, n⟩ tokens = ⟨g.acceptAll s tokens, n + tokens.length⟩ := by
  induction tokens generalizing s n with
  | nil => rfl
  | cons token tokens ih =>
    have one : acceptToken g thinkEndId ⟨s, n⟩ token = ⟨g.acceptToken s token, ((n + 1 : Nat) : Int)⟩ := by
      unfold acceptToken transferState
      dsimp only
      rw [if_pos (by omega), if_neg (by omega), if_pos (by omega)]
      rfl
    change (wrap g thinkEndId).acceptAll (acceptToken g thinkEndId ⟨s, n⟩ token) tokens = _
    rw [one, ih]
    congr 1
    rw [length_cons]
    push_cast
    ring

theorem acceptAll_thinking {tokens : List Nat} (thinking : thinkEndId ∉ tokens) : (wrap g thinkEndId).acceptAll ⟨s, -1⟩ tokens = ⟨s, -1⟩ := by
  induction tokens with
  | nil => rfl
  | cons token tokens ih =>
    obtain ⟨other, rest⟩ := ne_and_not_mem_of_not_mem_cons thinking
    have one : acceptToken g thinkEndId ⟨s, -1⟩ token = ⟨s, -1⟩ := by
      unfold acceptToken transferState
      dsimp only
      rw [if_neg (by omega), if_neg (fun both => other both.2.symm), if_neg (by omega)]
    change (wrap g thinkEndId).acceptAll (acceptToken g thinkEndId ⟨s, -1⟩ token) tokens = _
    rw [one]
    exact ih rest

theorem acceptAll_split {before : List Nat} (first : thinkEndId ∉ before) (after : List Nat) :
    (wrap g thinkEndId).acceptAll ⟨s, -1⟩ (before ++ thinkEndId :: after) = ⟨g.acceptAll s after, after.length⟩ := by
  have thinking : (wrap g thinkEndId).acceptAll ⟨s, -1⟩ before = ⟨s, -1⟩ := acceptAll_thinking first
  unfold Grammar.acceptAll at thinking
  have ends : acceptToken g thinkEndId ⟨s, -1⟩ thinkEndId = ⟨s, ((0 : Nat) : Int)⟩ := by
    unfold acceptToken transferState
    dsimp only
    rw [if_neg (by omega), if_pos ⟨rfl, rfl⟩]
    rfl
  have rest : (wrap g thinkEndId).acceptAll ⟨s, ((0 : Nat) : Int)⟩ after = _ := acceptAll_ended after 0
  unfold Grammar.acceptAll at rest ⊢
  rw [foldl_append, thinking, foldl_cons]
  change List.foldl _ (acceptToken g thinkEndId ⟨s, -1⟩ thinkEndId) after = _
  rw [ends, rest]
  congr 1
  omega

theorem rollbackState_iterate (n k : Nat) : rollbackState^[k] (n : Int) = if k ≤ n then ((n - k : Nat) : Int) else -1 := by
  induction k generalizing n with
  | zero => rfl
  | succ k ih =>
    rw [Function.iterate_succ_apply]
    cases n with
    | zero =>
      have stays : rollbackState^[k] (-1) = -1 := Function.iterate_fixed rfl k
      change rollbackState^[k] (-1) = _
      rw [stays, if_neg (by omega)]
    | succ n =>
      have one : rollbackState ((n + 1 : Nat) : Int) = (n : Int) := by
        unfold rollbackState
        rw [if_neg (by omega), if_pos (by omega)]
        omega
      rw [one, ih]
      split
      · rw [if_pos (by omega)]
        congr 1
        omega
      · rw [if_neg (by omega)]

theorem passes_ended {tokens : List Nat} (passes : (wrap g thinkEndId).Passes ⟨s, ((0 : Nat) : Int)⟩ tokens) : g.Passes s tokens := by
  intro n lt
  have live := passes n lt
  rw [acceptAll_ended] at live
  exact live

theorem passes_split {before after : List Nat} (first : thinkEndId ∉ before)
    (passes : (wrap g thinkEndId).Passes ⟨s, -1⟩ (before ++ thinkEndId :: after)) : g.Passes s after := by
  intro n lt
  have live := passes (before.length + (n + 1)) (by rw [length_append, length_cons]; omega)
  rw [take_length_add_append, take_succ_cons, acceptAll_split first] at live
  exact live

theorem rollback_ended (undoes : g.Undoes s) {tokens : List Nat} (passes : g.Passes s tokens) (k : Nat) :
    rollback g ⟨g.acceptAll s tokens, tokens.length⟩ k =
      ⟨g.acceptAll s (tokens.take (tokens.length - k)), if k ≤ tokens.length then ((tokens.length - k : Nat) : Int) else -1⟩ := by
  unfold rollback
  dsimp only
  rw [rollbackState_iterate]
  congr 1
  split
  · have steps : (min (k : Int) tokens.length).toNat = min k tokens.length := by omega
    rw [steps, undoes tokens _ passes (Nat.min_le_right _ _)]
    congr 2
    omega
  · next _ =>
    have all : tokens.length - k = tokens.length ∨ tokens.length = 0 := by omega
    rcases all with all | zero
    · rw [all, take_length]
    · rw [length_eq_zero_iff.mp zero, take_nil]

theorem wrap_undoes (undoes : g.Undoes s) (thinkEndId : Nat) (reasoning : Bool) : (wrap g thinkEndId).Undoes (init s reasoning) := by
  intro tokens k passes le
  cases reasoning with
  | false =>
    change rollback g ((wrap g thinkEndId).acceptAll ⟨s, ((0 : Nat) : Int)⟩ tokens) k = (wrap g thinkEndId).acceptAll ⟨s, ((0 : Nat) : Int)⟩ _
    rw [acceptAll_ended, acceptAll_ended]
    have zero : ((0 : Nat) : Int) + tokens.length = tokens.length := by omega
    rw [zero, rollback_ended undoes (passes_ended passes), if_pos le, length_take]
    congr 1
    omega
  | true =>
    change rollback g ((wrap g thinkEndId).acceptAll ⟨s, -1⟩ tokens) k = (wrap g thinkEndId).acceptAll ⟨s, -1⟩ _
    by_cases ends : thinkEndId ∈ tokens
    · obtain ⟨before, after, rfl, first⟩ := eq_append_cons_of_mem ends
      rw [acceptAll_split first, rollback_ended undoes (passes_split first passes)]
      rw [length_append, length_cons] at le ⊢
      by_cases later : k ≤ after.length
      · have kept : (before ++ thinkEndId :: after).take (before.length + (after.length + 1) - k) =
            before ++ thinkEndId :: after.take (after.length - k) := by
          rw [show before.length + (after.length + 1) - k = before.length + (after.length - k + 1) by omega, take_append,
            take_of_length_le (by omega),
            Nat.add_sub_cancel_left, take_succ_cons]
        rw [if_pos later, kept, acceptAll_split first, length_take]
        congr 1
        omega
      · have kept : (before ++ thinkEndId :: after).take (before.length + (after.length + 1) - k) =
            before.take (before.length + (after.length + 1) - k) :=
          take_append_of_le_length (by omega)
        rw [if_neg later, kept, acceptAll_thinking (fun mem => first (mem_of_mem_take mem)), Nat.sub_eq_zero_of_le (by omega), take_zero]
        rfl
    · rw [acceptAll_thinking ends, acceptAll_thinking (fun mem => ends (mem_of_mem_take mem))]
      unfold rollback
      dsimp only
      rw [if_neg (by omega), Function.iterate_fixed rfl k]

end

end ReasonerGrammarObject

/-- The walk leaves the grammar as it was and fills the rows of the accepted paths that meet no terminated state. -/
theorem masks_exact : (∀ {σ : Type} (d : DraftTree σ) (child : LinkTree) (s : σ) (rows : List Row) (fuel : Nat), d.Tree child → d.grammar.Undoes s →
      (∀ id ∈ 0 :: child.ids, id < rows.length) → child.ids.length < fuel →
      ∃ rows', d.traverseTree fuel s rows = some (s, rows') ∧ rows'.length = rows.length ∧
        (∀ path ∈ [] :: child.paths, ∀ id, (0 :: path).getLast? = some id → rows'[id]! = d.rowOf rows (d.reach rows s 0 path) id) ∧
        ∀ id, id ∉ 0 :: child.ids → rows'[id]! = rows[id]!) ∧
      ∀ {σ : Type} (g : Grammar σ) (s : σ) (thinkEndId : Nat) (reasoning : Bool), g.Undoes s →
        (ReasonerGrammarObject.wrap g thinkEndId).Undoes (ReasonerGrammarObject.init s reasoning) := by
  constructor
  · intro σ d child s rows fuel tree undoes inside enough
    obtain ⟨rows', walked, visited⟩ := DraftTree.traverseTree_visited tree undoes inside enough
    refine ⟨rows', walked, visited.length, fun path member id last => ?_, fun id outside => ?_⟩
    · rcases mem_cons.mp member with rfl | below
      · obtain rfl : 0 = id := Option.some.inj last
        exact visited.self
      · exact visited.below path below id (LinkTree.getLast?_below below last)
    · obtain ⟨other, beyond⟩ := ne_and_not_mem_of_not_mem_cons outside
      exact visited.other id other beyond
  · intro σ g s thinkEndId reasoning undoes
    exact ReasonerGrammarObject.wrap_undoes undoes thinkEndId reasoning

def historyGrammar : Grammar (List Nat) where
  acceptToken s token := s ++ [token]
  rollback s k := s.take (s.length - k)
  isTerminated s := s.contains 2
  fillVocabMask _ _ := [6#32]

theorem history_accept (s tokens : List Nat) : historyGrammar.acceptAll s tokens = s ++ tokens := by
  induction tokens generalizing s with
  | nil => exact (append_nil s).symm
  | cons token tokens ih =>
    change historyGrammar.acceptAll (s ++ [token]) tokens = _
    rw [ih, append_assoc]
    rfl

theorem history_undoes (s : List Nat) : historyGrammar.Undoes s := by
  intro tokens k _ le
  rw [history_accept, history_accept]
  change (s ++ tokens).take ((s ++ tokens).length - k) = _
  rw [length_append, Nat.add_sub_assoc le, take_append, take_of_length_le (by omega), Nat.add_sub_cancel_left]

def sampleTree : DraftTree (List Nat) := ⟨historyGrammar, [1, 4, 5, -1, -1, -1], [-1, 2, 3, -1, -1, -1], [1, 1, 2, 0, 1, 1], some 3⟩

def sampleChild : LinkTree := .node 1 (.node 4 .nil .nil) (.node 2 (.node 5 .nil .nil) (.node 3 .nil .nil))

theorem masks_exact_sample : (∃ rows', sampleTree.traverseTree 6 [] (List.replicate 6 [0#32]) = some ([], rows') ∧ rows'.length = 6 ∧
      (∀ path ∈ [] :: sampleChild.paths, ∀ id, (0 :: path).getLast? = some id →
        rows'[id]! = sampleTree.rowOf (List.replicate 6 [0#32]) (sampleTree.reach (List.replicate 6 [0#32]) [] 0 path) id) ∧
      ∀ id, id ∉ 0 :: sampleChild.ids → rows'[id]! = (List.replicate 6 [0#32])[id]!) ∧
      (ReasonerGrammarObject.wrap historyGrammar 7).Undoes (ReasonerGrammarObject.init [] true) := by
  refine ⟨masks_exact.1 sampleTree sampleChild [] (replicate 6 [0#32]) 6 ?_ (history_undoes []) (by decide) (by decide),
    masks_exact.2 historyGrammar [] 7 true (history_undoes [])⟩
  refine ⟨?_, rfl, by decide⟩
  simp [sampleChild, sampleTree, LinkTree.Linked]

-- Rows 0, 1 and 4 are filled; node 2 ends the grammar and node 3 is not allowed.
example : sampleTree.traverseTree 6 [] (replicate 6 [0#32]) = some ([], [[6#32], [6#32], [0#32], [0#32], [6#32], [0#32]]) := by
  decide +kernel

end TriaxialKV.Speculative
