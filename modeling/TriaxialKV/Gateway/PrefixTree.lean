import Mathlib.Algebra.Order.BigOperators.Group.List
import Mathlib.Algebra.Order.Ring.Int
import Mathlib.Data.List.AList
import TriaxialKV.Lib.Utf8

/-!
# Prefix tree of the gateway

The tree holds texts for tenants. A node is known by its path, the text from the root down to its end.
-/

namespace TriaxialKV.Gateway
open Utf8

/-! ### Texts -/

/-- `none` would be a slice inside a character. -/
def advanceByChars (s : List Char) (n : Nat) : Option (List Char) :=
  if n = 0 then some s
  else if (encode s).length ≤ n then some []
  else if isAscii ((encode s).take n) then sliceFrom s n
  else
    match (charIndices 0 s)[n]? with
    | some (idx, _) => sliceFrom s idx
    | none => some []

def sharedPrefixCountChars (a b : List Char) : Nat := ((a.zip b).takeWhile (fun pair => pair.1 = pair.2)).length

def sharedPrefixCount (a b : List Char) : Nat :=
  let commonByteLen := (((encode a).zip (encode b)).findIdx? (fun pair => pair.1 ≠ pair.2)).getD (min (encode a).length (encode b).length)
  if isAscii ((encode a).take commonByteLen) then commonByteLen else sharedPrefixCountChars a b

def byteIdx (text : List Char) (charIdx : Nat) : Nat := (((charIndices 0 text)[charIdx]?).map Prod.fst).getD (encode text).length

theorem byteIdx_eq {text : List Char} {charIdx : Nat} (lt : charIdx < text.length) : byteIdx text charIdx = (encode (text.take charIdx)).length := by
  unfold byteIdx
  rw [charIndices_getElem?, if_pos lt, Option.getD_some, zero_add]

structure NodeText where
  text : List Char
  charCount : Nat
  counted : charCount = text.length

namespace NodeText

def new (text : List Char) : NodeText := ⟨text, text.length, rfl⟩

def empty : NodeText := ⟨[], 0, rfl⟩

def firstChar (self : NodeText) : Option Char := self.text.head?

def splitAtChar (self : NodeText) (charIdx : Nat) : NodeText × NodeText :=
  if charIdx = 0 then (empty, self)
  else if past : self.charCount ≤ charIdx then (self, empty)
  else
    have inside : charIdx < self.text.length := by
      rw [← self.counted]
      exact Nat.lt_of_not_le past
    (⟨(sliceTo self.text (byteIdx self.text charIdx)).getD [], charIdx, by
      rw [byteIdx_eq inside, sliceTo_take, Option.getD_some, List.length_take, min_eq_left (le_of_lt inside)]⟩,
     ⟨(sliceFrom self.text (byteIdx self.text charIdx)).getD [], self.charCount - charIdx, by
      rw [byteIdx_eq inside, sliceFrom_take, Option.getD_some, List.length_drop, self.counted]⟩)

end NodeText

/-! ### Nodes -/

abbrev Tenants := AList (fun _ : String => Nat)

structure NodeState where
  tenantLastAccessTime : Tenants
  lastTenant : Option String

structure Node extends NodeState where
  parent : List Char
  text : NodeText

def Node.path (n : Node) : List Char := n.parent ++ n.text.text

/-- The root has the empty path. -/
structure Tree where
  root : NodeState
  nodes : List Node
  tenantCharCount : AList (fun _ : String => Nat)

namespace Tree

def new : Tree where
  root := ⟨∅, none⟩
  nodes := []
  tenantCharCount := ∅

def stateAt (t : Tree) (path : List Char) : Option NodeState :=
  if path = [] then some t.root else (t.nodes.find? (fun n => n.path = path)).map (·.toNodeState)

def tenantsAt (t : Tree) (path : List Char) : Tenants :=
  match t.stateAt path with
  | some state => state.tenantLastAccessTime
  | none => ∅

def modifyAt (t : Tree) (path : List Char) (f : NodeState → NodeState) : Tree :=
  if path = [] then { t with root := f t.root }
  else { t with nodes := t.nodes.map (fun n => if n.path = path then { n with toNodeState := f n.toNodeState } else n) }

/-- `children.get(&c)` -/
def child? (t : Tree) (path : List Char) (c : Char) : Option Node := t.nodes.find? (fun n => n.parent = path ∧ n.text.firstChar = some c)

def hasChildWithTenant (t : Tree) (path : List Char) (tenant : String) : Bool :=
  t.nodes.any (fun n => n.parent = path ∧ tenant ∈ n.tenantLastAccessTime)

def insertAccess (tenant : String) (epoch : Nat) (state : NodeState) : NodeState :=
  { state with tenantLastAccessTime := state.tenantLastAccessTime.insert tenant epoch }

/-- `.entry(tenant).and_modify(|count| *count += n).or_insert(n)` -/
def addChars (t : Tree) (tenant : String) (n : Nat) : Tree :=
  { t with tenantCharCount := t.tenantCharCount.insert tenant ((t.tenantCharCount.lookup tenant).getD 0 + n) }

def attach (t : Tree) (path : List Char) (tenant : String) (chars : Nat) : Tree :=
  if tenant ∈ t.tenantsAt path then t else (t.addChars tenant chars).modifyAt path (insertAccess tenant 0)

/-! ### `insert` -/

def newLeaf (t : Tree) (prev remaining : List Char) (tenant : String) (epoch : Nat) : Tree :=
  let node : Node := {
    parent := prev
    text := NodeText.new remaining
    tenantLastAccessTime := (∅ : Tenants).insert tenant epoch
    lastTenant := some tenant }
  { t.addChars tenant remaining.length with nodes := t.nodes ++ [node] }

def splitNode (t : Tree) (matched : Node) (sharedCount : Nat) : Tree :=
  let (matchedText, contractedText) := matched.text.splitAtChar sharedCount
  let upper : Node := { matched with text := matchedText }
  { t with nodes := t.nodes.map (fun n => if n.path = matched.path then { n with parent := upper.path, text := contractedText } else n) ++ [upper] }

/-- The loop over the remaining text; every round takes at least one character. -/
def insertLoop (tenant : String) (epoch : Nat) : Nat → Tree → List Char → List Char → Tree
  | 0, t, _, _ => t
  | fuel + 1, t, prev, remaining =>
    match remaining with
    | [] => t.modifyAt prev (insertAccess tenant epoch)
    | firstChar :: _ =>
      match t.child? prev firstChar with
      | none => t.newLeaf prev remaining tenant epoch
      | some matched =>
        let sharedCount := sharedPrefixCount remaining matched.text.text
        let rest := (advanceByChars remaining sharedCount).getD []
        if sharedCount < matched.text.charCount then
          let next := prev ++ (matched.text.splitAtChar sharedCount).1.text
          insertLoop tenant epoch fuel ((t.splitNode matched sharedCount).attach next tenant sharedCount) next rest
        else insertLoop tenant epoch fuel (t.attach matched.path tenant matched.text.charCount) matched.path rest

def insert (t : Tree) (text : List Char) (tenant : String) (epoch : Nat) : Tree :=
  let root := if tenant ∈ t.root.tenantLastAccessTime then t.root else insertAccess tenant 0 t.root
  let counts := if tenant ∈ t.tenantCharCount then t.tenantCharCount else t.tenantCharCount.insert tenant 0
  insertLoop tenant epoch (text.length + 1) { t with root := root, tenantCharCount := counts } [] text

/-! ### `prefix_match_with_counts` -/

structure PrefixMatchResult where
  tenant : String
  matchedCharCount : Nat
  inputCharCount : Nat
deriving DecidableEq

/-- The order in which a map gives its entries is not specified. -/
structure MapOrder where
  first : Tenants → Option String
  none_iff : ∀ m, first m = none ↔ m.keys = []
  mem : ∀ m tenant, first m = some tenant → tenant ∈ m

def matchLoop (t : Tree) : Nat → List Char → Nat → List Char → Nat × List Char
  | 0, _, matchedChars, prev => (matchedChars, prev)
  | fuel + 1, remaining, matchedChars, prev =>
    match remaining with
    | [] => (matchedChars, prev)
    | firstChar :: _ =>
      match t.child? prev firstChar with
      | none => (matchedChars, prev)
      | some matched =>
        let sharedCount := sharedPrefixCount remaining matched.text.text
        if sharedCount = matched.text.charCount then
          matchLoop t fuel ((advanceByChars remaining sharedCount).getD []) (matchedChars + sharedCount) matched.path
        else (matchedChars + sharedCount, matched.path)

/-- The cached tenant if the node still has it, otherwise any tenant, which is cached then. -/
def selectTenant (order : MapOrder) (state : NodeState) : String × NodeState :=
  let any := (order.first state.tenantLastAccessTime).getD "empty"
  match state.lastTenant with
  | some cached =>
    if cached ∈ state.tenantLastAccessTime then (cached, state) else (any, { state with lastTenant := some any })
  | none => (any, { state with lastTenant := some any })

def prefixMatchWithCounts (t : Tree) (text : List Char) (epoch : Nat) (order : MapOrder) : PrefixMatchResult × Tree :=
  let (matchedChars, curr) := t.matchLoop (text.length + 1) text 0 []
  let state := (t.stateAt curr).getD ⟨∅, none⟩
  let (tenant, cached) := selectTenant order state
  let touched := if epoch % 8 = 0 then insertAccess tenant epoch cached else cached
  (⟨tenant, matchedChars, text.length⟩, t.modifyAt curr (fun _ => touched))

/-! ### Removal -/

def eraseTenant (tenant : String) (state : NodeState) : NodeState :=
  { state with tenantLastAccessTime := state.tenantLastAccessTime.erase tenant }

def removeFromNode (t : Tree) (path : List Char) (tenant : String) : Tree :=
  let t := t.modifyAt path (eraseTenant tenant)
  if (∀ n ∈ t.nodes, n.parent ≠ path) ∧ (t.tenantsAt path).keys = [] then { t with nodes := t.nodes.filter (fun n => n.path ≠ path) } else t

def newLeafOf (t : Tree) (parent : Option (List Char)) (tenant : String) : List (List Char) :=
  match parent with
  | some parent => if tenant ∈ t.tenantsAt parent ∧ ¬ t.hasChildWithTenant parent tenant then [parent] else []
  | none => []

def parentOf (t : Tree) (path : List Char) : Option (List Char) :=
  if path = [] then none else (t.nodes.find? (fun n => n.path = path)).map (·.parent)

def paths (t : Tree) : List (List Char) := [] :: t.nodes.map Node.path

/-- At most as many leaves come as there are nodes. -/
def removeLoop (tenant : String) : Nat → Tree → List (List Char) → Tree
  | 0, t, _ => t
  | _ + 1, t, [] => t
  | fuel + 1, t, curr :: queue =>
    let parent := t.parentOf curr
    let t := t.removeFromNode curr tenant
    removeLoop tenant fuel t (queue ++ t.newLeafOf parent tenant)

def removeTenant (t : Tree) (tenant : String) : Tree :=
  let queue := t.paths.filter (fun path => tenant ∈ t.tenantsAt path ∧ ¬ t.hasChildWithTenant path tenant)
  let t := removeLoop tenant (t.nodes.length + 1) t queue
  { t with tenantCharCount := t.tenantCharCount.erase tenant }

/-! ### `evict_tenant_by_size` -/

structure EvictionEntry where
  timestamp : Nat
  tenant : String
  node : List Char
deriving DecidableEq

/-- The heap gives an entry with the smallest timestamp, any of them. -/
structure HeapOrder where
  pop : List EvictionEntry → Option (EvictionEntry × List EvictionEntry)
  none_iff : ∀ entries, pop entries = none ↔ entries = []
  perm : ∀ entries entry rest, pop entries = some (entry, rest) → entries.Perm (entry :: rest)
  least : ∀ entries entry rest, pop entries = some (entry, rest) → ∀ other ∈ rest, entry.timestamp ≤ other.timestamp

def entryOf (t : Tree) (tenant : String) (path : List Char) : Option EvictionEntry :=
  ((t.tenantsAt path).lookup tenant).map (fun timestamp => ⟨timestamp, tenant, path⟩)

def leafOf (t : Tree) (path : List Char) : List String := (t.tenantsAt path).keys.filter (fun tenant => ¬ t.hasChildWithTenant path tenant)

def evictLoop (order : HeapOrder) (maxSize : Nat) : Nat → Tree → List EvictionEntry → Tree × List EvictionEntry
  | 0, t, pq => (t, pq)
  | fuel + 1, t, pq =>
    match order.pop pq with
    | none => (t, pq)
    | some (⟨_, tenant, node⟩, pq) =>
      if ∃ usedSize ∈ t.tenantCharCount.lookup tenant, usedSize ≤ maxSize then evictLoop order maxSize fuel t pq
      else if ¬ (tenant ∈ t.tenantsAt node ∧ ¬ t.hasChildWithTenant node tenant) then evictLoop order maxSize fuel t pq
      else
        let nodeLen := ((t.nodes.find? (fun n => n.path = node)).map (·.text.charCount)).getD 0
        let counts := match t.tenantCharCount.lookup tenant with
          | some count => t.tenantCharCount.insert tenant (count - nodeLen)
          | none => t.tenantCharCount
        let parent := t.parentOf node
        let t := { t with tenantCharCount := counts }.removeFromNode node tenant
        evictLoop order maxSize fuel t (pq ++ (t.newLeafOf parent tenant).filterMap (t.entryOf tenant))

def memberships (t : Tree) : Nat := t.root.tenantLastAccessTime.keys.length + (t.nodes.map (·.tenantLastAccessTime.keys.length)).sum

def evictTenantBySize (t : Tree) (maxSize : Nat) (order : HeapOrder) : Tree :=
  let pq := t.paths.flatMap (fun path => (t.leafOf path).filterMap (fun tenant => t.entryOf tenant path))
  (evictLoop order maxSize (pq.length + t.memberships) t pq).1

end Tree

end TriaxialKV.Gateway
