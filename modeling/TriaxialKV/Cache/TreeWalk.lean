import TriaxialKV.Cache.TreePaths

/-! # What a walk finds -/

namespace TriaxialKV
open List

variable {inv : RadixTree → Prop} {pageSize len : Nat} {slots' tokens : List Nat}

theorem Matched.longest {key0 key1 : List Nat} (matched : Matched pageSize key0 key1 len)
    (left : tokens <+: key0) (right : tokens <+: key1) (whole : pageSize ∣ tokens.length) (less : len < key0.length) :
    tokens.length ≤ len := by
  by_contra more
  -- the page behind the match would agree as well
  have room : len + pageSize ≤ tokens.length := by
    obtain ⟨q, rfl⟩ := matched.whole
    obtain ⟨r, same⟩ := whole
    rw [same] at more ⊢
    have : q < r := Nat.lt_of_mul_lt_mul_left (show pageSize * q < pageSize * r by omega)
    calc pageSize * q + pageSize = pageSize * (q + 1) := (Nat.mul_succ _ _).symm
      _ ≤ pageSize * r := Nat.mul_le_mul_left _ this
  have page {key : List Nat} (begins : tokens <+: key) : (key.drop len).take pageSize = (tokens.drop len).take pageSize := by
    obtain ⟨_, rfl⟩ := begins
    rw [drop_append_of_le_length (by omega), take_append_of_le_length (by rw [length_drop]; omega)]
  exact matched.differ less ((page left).trans (page right).symm)

namespace RadixCache

/-- `slots` belong to the longest run of pages under `id` that `key` starts with. -/
structure Found (c : RadixCache) (extraKey : Option String) (id : Nat) (key slots : List Nat) : Prop where
  le : slots.length ≤ key.length
  stored : Below c extraKey id (key.take slots.length) slots
  longest : ∀ tokens slots', tokens <+: key → Below c extraKey id tokens slots' → tokens.length ≤ slots.length

namespace Found
variable {c c' : RadixCache} {extraKey : Option String} {id : Nat} {key slots : List Nat}

theorem congr (same : ∀ tokens slots, Below c' extraKey id tokens slots ↔ Below c extraKey id tokens slots)
    (found : Found c extraKey id key slots) : Found c' extraKey id key slots :=
  ⟨found.le, (same _ _).mpr found.stored, fun tokens slots' begins below => found.longest tokens slots' begins ((same _ _).mp below)⟩

theorem of_empty : Found c extraKey id [] [] := ⟨le_refl _, .here, fun _ _ begins _ => begins.length_le⟩

theorem first_page (aligned : c.Aligned) (begins : tokens <+: key) (some : tokens ≠ [])
    (below : Below c extraKey id tokens slots') : tokens.take c.pageSize = key.take c.pageSize := by
  obtain ⟨_, rfl⟩ := begins
  rw [take_append_of_le_length (Nat.le_of_dvd (length_pos_iff.mpr some) (below.whole aligned))]

theorem of_no_child (wf : c.Wf) (aligned : c.Aligned) (absent : c.child? id ⟨key, extraKey⟩ = none) : Found c extraKey id key [] := by
  refine ⟨Nat.zero_le _, .here, fun tokens slots' begins below => ?_⟩
  by_contra more
  have some : tokens ≠ [] := by
    rintro rfl
    exact more (le_refl _)
  obtain ⟨n, mem, parent, space, page, _⟩ := below.through wf aligned some
  exact child?_none absent mem parent (Prod.ext space (page.trans (first_page aligned begins some below)))

section
variable {child : TreeNode} {len : Nat}

theorem through_child (wf : c.Wf) (aligned : c.Aligned) (here : c.child? id ⟨key, extraKey⟩ = some child)
    (begins : tokens <+: key) (below : Below c extraKey id tokens slots') :
    tokens <+: child.key.tokenIds ∨ ∃ tokens' slots', Below c extraKey child.id tokens' slots' ∧ tokens = child.key.tokenIds ++ tokens' := by
  by_cases none : tokens = []
  · exact .inl (by rw [none]; exact nil_prefix)
  · obtain ⟨mem, parent, space, page⟩ := child?_some here
    obtain ⟨n, mem', parent', space', page', stored⟩ := below.through wf aligned none
    obtain rfl := child_unique wf mem' mem (parent'.trans parent.symm) (space'.trans space.symm)
      ((page'.trans (first_page aligned begins none below)).trans page.symm)
    rcases stored with ⟨_, _, same, _⟩ | ⟨tokens', slots', deeper, same, _⟩
    · exact .inl (by rw [same]; exact take_prefix _ _)
    · exact .inr ⟨tokens', slots', deeper, same⟩

section
variable (wf : c.Wf) (aligned : c.Aligned) (whole : c.pageSize ∣ key.length) (here : c.child? id ⟨key, extraKey⟩ = some child)
  (matched : Matched c.pageSize child.key.tokenIds key len)
include wf aligned whole here matched

theorem of_part (less : len < child.key.tokenIds.length) : Found c extraKey id key (child.value.take len) := by
  obtain ⟨mem, parent, space, _⟩ := child?_some here
  have size : (child.value.take len).length = len := by
    rw [length_take, (wf.keys child mem).1]
    omega
  refine ⟨?_, ?_, fun tokens slots' begins below => ?_⟩
  · rw [size]
    exact (matched.le_length (aligned child mem) whole).2
  · rw [size, ← matched.same, ← parent]
    exact .part mem space matched.whole (by omega)
  · rw [size]
    rcases through_child wf aligned here begins below with lt | ⟨_, _, _, rfl⟩
    · exact matched.longest lt begins (below.whole aligned) less
    · have := matched.longest (prefix_refl _) ((prefix_append _ _).trans begins) (aligned child mem) less
      omega

theorem of_full (covers : child.key.tokenIds.length ≤ len)
    (rest : Found c extraKey child.id (key.drop len) slots) : Found c extraKey id key (child.value ++ slots) := by
  obtain ⟨mem, parent, space, _⟩ := child?_some here
  have full := matched.full covers
  have bound := matched.le_length (aligned child mem) whole
  have exact : len = child.key.tokenIds.length := by omega
  have size : (child.value ++ slots).length = len + slots.length := by rw [length_append, (wf.keys child mem).1, exact]
  refine ⟨?_, ?_, fun tokens slots' begins below => ?_⟩
  · have := rest.le
    rw [length_drop] at this
    omega
  · rw [size, take_add, ← matched.same, take_of_length_le covers, ← parent]
    exact .full mem space rest.stored
  · rw [size]
    rcases through_child wf aligned here begins below with lt | ⟨tokens', slots'', deeper, rfl⟩
    · have := lt.length_le
      omega
    · rw [full] at begins
      have := rest.longest tokens' slots'' ((prefix_append_right_inj _).mp begins) deeper
      rw [length_append]
      omega

end

end

end Found

end RadixCache

open RadixCache

namespace RadixTree
variable {slots : List Nat} {child : TreeNode} {node : Nat}

section
variable {t : RadixTree} {node : Nat} {key : RadixKey} {child : TreeNode} (accessTime : Int)

theorem touch_retouch (t : RadixTree) (id : Nat) (accessTime : Int) : Retouch t.toRadixCache (t.touch id accessTime).toRadixCache :=
  .modifyNode _ _ (fun _ => rfl)

theorem visit_retouch (t : RadixTree) (id : Nat) (priority : Int) (chunked : Bool) :
    Retouch t.toRadixCache (t.modifyNode id (visit priority chunked)).toRadixCache :=
  .modifyNode _ _ (fun _ => rfl)

theorem touched_splits (wf : t.Wf) (pos : 0 < t.pageSize) (here : t.child? node key = some child)
    (matched : Matched t.pageSize child.key.tokenIds key.tokenIds len) (less : len < child.key.tokenIds.length) :
    (t.touch child.id accessTime).Splits { child with lastAccessTime := accessTime } len := by
  obtain ⟨mem, _, _, page⟩ := child?_some here
  have first := matched.page_le (wf.keys child mem).2 page
  refine ⟨?_, first, matched.whole, by omega, less⟩
  exact mem_map.mpr ⟨child, mem, if_pos rfl⟩

theorem split_steps (clock : Nat → Int) (wf : t.Wf) (pos : 0 < t.pageSize) (here : t.child? node key = some child)
    (matched : Matched t.pageSize child.key.tokenIds key.tokenIds len) (less : len < child.key.tokenIds.length) :
    Steps t.toRadixCache ((t.touch child.id accessTime).splitNode clock child len).toRadixCache := by
  have steps := Steps.split clock (.retouch .refl (t.touch_retouch child.id accessTime)) (touched_splits accessTime wf pos here matched less)
  exact steps

theorem upper_mem (clock : Nat → Int) (wf : t.Wf) (here : t.child? node key = some child) (len : Nat) :
    ∃ n ∈ ((t.touch child.id accessTime).splitNode clock child len).nodes, n.id = (t.touch child.id accessTime).freshId := by
  have touched : { child with lastAccessTime := accessTime } ∈ (t.touch child.id accessTime).nodes :=
    mem_map.mpr ⟨child, (child?_some here).1, if_pos rfl⟩
  exact ⟨_, (mem_splitNode clock len ((t.touch_retouch _ accessTime).wf wf).ids touched _).mpr (.inl rfl), rfl⟩

theorem touched_mem (here : t.child? node key = some child) : ∃ n ∈ (t.touch child.id accessTime).nodes, n.id = child.id :=
  ⟨_, mem_map.mpr ⟨child, (child?_some here).1, if_pos rfl⟩, rfl⟩

theorem touched_path (here : t.child? node key = some child) (path : Path t.toRadixCache key.extraKey node tokens slots) :
    Path (t.touch child.id accessTime).toRadixCache key.extraKey child.id (tokens ++ child.key.tokenIds) (slots ++ child.value) := by
  obtain ⟨mem, parent, space, _⟩ := child?_some here
  rw [← parent] at path
  exact (Path.node mem space path).mono (t.touch_retouch _ accessTime).embeds

theorem upper_path (clock : Nat → Int) (wf : t.Wf) (here : t.child? node key = some child) (len : Nat)
    (path : Path t.toRadixCache key.extraKey node tokens slots) :
    Path ((t.touch child.id accessTime).splitNode clock child len).toRadixCache key.extraKey (t.touch child.id accessTime).freshId
      (tokens ++ child.key.tokenIds.take len) (slots ++ child.value.take len) := by
  obtain ⟨mem, parent, space, _⟩ := child?_some here
  rw [← parent] at path
  have touched : { child with lastAccessTime := accessTime } ∈ (t.touch child.id accessTime).nodes := mem_map.mpr ⟨child, mem, if_pos rfl⟩
  have upper : Path ((t.touch child.id accessTime).toRadixCache.splitNode clock _ len) _ _ _ _ :=
    Path.upper clock ((t.touch_retouch _ accessTime).wf wf) touched space (path.mono (t.touch_retouch _ accessTime).embeds)
  exact upper

end

structure WalkRule (clock : Nat → Int) (inv : RadixTree → Prop) : Prop where
  retouch : ∀ {t : RadixTree} (id : Nat) {f : TreeNode → TreeNode}, (∀ n, core (f n) = core n) → inv t → inv (t.modifyNode id f)
  split : ∀ {t : RadixTree} {child : TreeNode} {splitLen : Nat}, t.Wf → t.Splits child splitLen → inv t → inv (t.splitNode clock child splitLen)

theorem WalkRule.split_touched {clock : Nat → Int} (rule : WalkRule clock inv) {t : RadixTree} {key : RadixKey}
    (accessTime : Int) (wf : t.Wf) (pos : 0 < t.pageSize) (here : t.child? node key = some child)
    (matched : Matched t.pageSize child.key.tokenIds key.tokenIds len) (less : len < child.key.tokenIds.length) (initial : inv t) :
    inv ((t.touch child.id accessTime).splitNode clock child len) := by
  have touched : inv (t.touch child.id accessTime) := rule.retouch _ (fun _ => rfl) initial
  have split := rule.split ((t.touch_retouch _ accessTime).wf wf) (touched_splits accessTime wf pos here matched less) touched
  exact split

section
variable {clock : Nat → Int} {extraKey : Option String} {fuel node : Nat} {key value : List Nat} {t : RadixTree}

theorem matchLoop_stop (stops : key = [] ∨ t.child? node ⟨key, extraKey⟩ = none) :
    matchLoop clock extraKey fuel t node key value = (value, node, t) := by
  cases fuel with
  | zero => rfl
  | succ fuel =>
    rw [matchLoop]
    split
    · rfl
    · next nonempty => rw [stops.resolve_left nonempty]

theorem matchLoop_child (nonempty : key ≠ []) (here : t.child? node ⟨key, extraKey⟩ = some child) :
    matchLoop clock extraKey (fuel + 1) t node key value = if keyMatch t.pageSize child.key.tokenIds key < child.key.tokenIds.length then
        (value ++ child.value.take (keyMatch t.pageSize child.key.tokenIds key), (t.touch child.id (clock 0)).freshId,
          (t.touch child.id (clock 0)).splitNode clock child (keyMatch t.pageSize child.key.tokenIds key))
      else matchLoop clock extraKey fuel (t.touch child.id (clock 0)) child.id (key.drop (keyMatch t.pageSize child.key.tokenIds key))
        (value ++ child.value) := by
  rw [matchLoop, if_neg nonempty, here]
  rfl

theorem matchLoop_steps (wf : t.Wf) (pos : 0 < t.pageSize) (known : node = 0 ∨ ∃ n ∈ t.nodes, n.id = node) :
    Steps t.toRadixCache (matchLoop clock extraKey fuel t node key value).2.2.toRadixCache ∧
      ((matchLoop clock extraKey fuel t node key value).2.1 = 0 ∨
        ∃ n ∈ (matchLoop clock extraKey fuel t node key value).2.2.nodes, n.id = (matchLoop clock extraKey fuel t node key value).2.1) := by
  induction fuel generalizing t node key value with
  | zero => exact ⟨.refl, known⟩
  | succ fuel ih =>
    by_cases nonempty : key = []
    · rw [matchLoop_stop (.inl nonempty)]
      exact ⟨.refl, known⟩
    · cases here : t.child? node ⟨key, extraKey⟩ with
      | none =>
        rw [matchLoop_stop (.inr here)]
        exact ⟨.refl, known⟩
      | some child =>
        rw [matchLoop_child nonempty here]
        split
        · next less =>
          exact ⟨split_steps _ clock wf pos here (keyMatch_matched pos _ _) less, .inr (upper_mem _ clock wf here _)⟩
        · have touched := t.touch_retouch child.id (clock 0)
          obtain ⟨steps, last⟩ := ih (touched.wf wf) pos (.inr (touched_mem (clock 0) here))
          exact ⟨(Steps.retouch .refl touched).trans steps, last⟩

theorem WalkRule.matchLoop (rule : WalkRule clock inv) (wf : t.Wf) (pos : 0 < t.pageSize) (initial : inv t) :
    inv (matchLoop clock extraKey fuel t node key value).2.2 := by
  induction fuel generalizing t node key value with
  | zero => exact initial
  | succ fuel ih =>
    by_cases nonempty : key = []
    · rwa [matchLoop_stop (.inl nonempty)]
    · cases here : t.child? node ⟨key, extraKey⟩ with
      | none => rwa [matchLoop_stop (.inr here)]
      | some child =>
        rw [matchLoop_child nonempty here]
        split
        · next less => exact rule.split_touched (clock 0) wf pos here (keyMatch_matched pos _ _) less initial
        · exact ih ((t.touch_retouch child.id (clock 0)).wf wf) pos (rule.retouch _ (fun _ => rfl) initial)

/-- The slots that the walk from `node` found follow those of the path to it. -/
def WalkFinds (t : RadixTree) (extraKey : Option String) (node : Nat) (key value tokens slots : List Nat)
    (result : List Nat × Nat × RadixTree) : Prop :=
  ∃ found, result.1 = value ++ found ∧ Found t.toRadixCache extraKey node key found ∧
    Path result.2.2.toRadixCache extraKey result.2.1 (tokens ++ key.take found.length) (slots ++ found)

theorem matchLoop_found (clock : Nat → Int) (value : List Nat) (wf : t.Wf) (pos : 0 < t.pageSize) (aligned : t.Aligned)
    (whole : t.pageSize ∣ key.length)
    (enough : key.length ≤ fuel) (path : Path t.toRadixCache extraKey node tokens slots) :
    WalkFinds t extraKey node key value tokens slots (matchLoop clock extraKey fuel t node key value) := by
  have stop {t : RadixTree} {node fuel : Nat} {key value tokens slots : List Nat} (stops : key = [] ∨ t.child? node ⟨key, extraKey⟩ = none)
      (empty : Found t.toRadixCache extraKey node key []) (path : Path t.toRadixCache extraKey node tokens slots) :
      WalkFinds t extraKey node key value tokens slots (matchLoop clock extraKey fuel t node key value) := by
    rw [matchLoop_stop stops]
    exact ⟨[], (append_nil _).symm, empty, by simpa using path⟩
  induction fuel generalizing t node key value tokens slots with
  | zero =>
    obtain rfl := length_eq_zero_iff.mp (Nat.le_zero.mp enough)
    exact stop (.inl rfl) .of_empty path
  | succ fuel ih =>
    by_cases nonempty : key = []
    · subst nonempty
      exact stop (.inl rfl) .of_empty path
    · cases here : t.child? node ⟨key, extraKey⟩ with
      | none => exact stop (.inr here) (.of_no_child wf aligned here) path
      | some child =>
        obtain ⟨mem, _, _, page⟩ := child?_some here
        rw [matchLoop_child nonempty here]
        have matched := keyMatch_matched pos child.key.tokenIds key
        generalize keyMatch t.pageSize child.key.tokenIds key = len at matched ⊢
        have first := matched.page_le (wf.keys child mem).2 page
        have bound := matched.le_length (aligned child mem) whole
        split
        · next less =>
          refine ⟨_, rfl, .of_part wf aligned whole here matched less, ?_⟩
          rw [length_take, (wf.keys child mem).1, min_eq_left less.le, ← matched.same]
          exact upper_path (clock 0) clock wf here len path
        · next covers =>
          have touched := t.touch_retouch child.id (clock 0)
          obtain ⟨found, result, rest, last⟩ := ih (value ++ child.value) (touched.wf wf) pos ((Steps.retouch .refl touched).aligned wf aligned)
            (by rw [length_drop]; exact Nat.dvd_sub whole matched.whole) (by rw [length_drop]; omega)
            (touched_path (clock 0) here path)
          refine ⟨child.value ++ found, by rw [← append_assoc]; exact result, ?_, ?_⟩
          · exact .of_full wf aligned whole here matched (Nat.le_of_not_lt covers)
              (rest.congr (fun _ _ => ⟨fun below => below.mono touched.embeds, fun below => below.mono touched.symm.embeds⟩))
          · have exact : len = child.key.tokenIds.length := by omega
            rw [append_assoc, append_assoc] at last
            rw [length_append, (wf.keys child mem).1, ← exact, take_add, ← matched.same, take_of_length_le (Nat.le_of_not_lt covers)]
            exact last

theorem pageAlignKeys_whole (key : List Nat) : pageSize ∣ (pageAlignKeys key pageSize).length := by
  unfold pageAlignKeys
  split
  · next one => exact one ▸ Nat.one_dvd _
  · rw [length_take, min_eq_left (Nat.div_mul_le_self _ _)]
    exact Nat.dvd_mul_left _ _

theorem pageAlignKeys_begins (key : List Nat) (pageSize : Nat) : pageAlignKeys key pageSize <+: key := by
  unfold pageAlignKeys
  split
  · exact prefix_refl _
  · exact take_prefix _ _

theorem begins_pageAlignKeys {key : List Nat} (whole : pageSize ∣ tokens.length) (begins : tokens <+: key) :
    tokens <+: pageAlignKeys key pageSize := by
  unfold pageAlignKeys
  split
  · exact begins
  · refine List.prefix_take_iff.mpr ⟨begins, ?_⟩
    obtain ⟨_, size⟩ := whole
    rw [size, mul_comm]
    rcases Nat.eq_zero_or_pos pageSize with rfl | pos
    · simp
    · refine Nat.mul_le_mul_right _ ((Nat.le_div_iff_mul_le pos).mpr ?_)
      rw [mul_comm, ← size]
      exact begins.length_le

theorem match_steps (clock : Nat → Int) (key : RadixKey) (wf : t.Wf) (pos : 0 < t.pageSize) :
    Steps t.toRadixCache (t.matchPrefix clock key).2.toRadixCache ∧ ((t.matchPrefix clock key).1.lastDeviceNode = 0 ∨
      ∃ n ∈ (t.matchPrefix clock key).2.nodes, n.id = (t.matchPrefix clock key).1.lastDeviceNode) := by
  unfold matchPrefix
  split
  · exact ⟨.refl, .inl rfl⟩
  · dsimp only
    split
    · exact ⟨.refl, .inl rfl⟩
    · exact matchLoop_steps wf pos (.inl rfl)

theorem WalkRule.matchPrefix (rule : WalkRule clock inv) (key : RadixKey) (wf : t.Wf) (pos : 0 < t.pageSize)
    (initial : inv t) : inv (t.matchPrefix clock key).2 := by
  unfold RadixTree.matchPrefix
  split
  · exact initial
  · dsimp only
    split
    · exact initial
    · exact rule.matchLoop wf pos initial

theorem matchPrefix_found (clock : Nat → Int) (key : RadixKey) (enabled : t.disable = false) (wf : t.Wf) (pos : 0 < t.pageSize)
    (aligned : t.Aligned) :
    Found t.toRadixCache key.extraKey 0 (pageAlignKeys key.tokenIds t.pageSize) (t.matchPrefix clock key).1.deviceIndices ∧
      Path (t.matchPrefix clock key).2.toRadixCache key.extraKey (t.matchPrefix clock key).1.lastDeviceNode
        ((pageAlignKeys key.tokenIds t.pageSize).take (t.matchPrefix clock key).1.deviceIndices.length)
        (t.matchPrefix clock key).1.deviceIndices := by
  unfold matchPrefix
  split
  · next none =>
    have empty : pageAlignKeys key.tokenIds t.pageSize = [] := by
      have begins := pageAlignKeys_begins key.tokenIds t.pageSize
      rw [none.resolve_left (by simp [enabled])] at begins
      rw [none.resolve_left (by simp [enabled])]
      exact List.prefix_nil.mp begins
    rw [empty]
    exact ⟨.of_empty, .root⟩
  · dsimp only
    split
    · next empty =>
      rw [empty]
      exact ⟨.of_empty, .root⟩
    · obtain ⟨_, result, longest, path⟩ := matchLoop_found clock [] wf pos aligned
        (pageAlignKeys_whole key.tokenIds) (le_refl _) (Path.root : Path t.toRadixCache key.extraKey 0 [] [])
      rw [nil_append] at result path
      rw [nil_append] at path
      rw [result]
      exact ⟨longest, path⟩

end

section
variable {clock : Nat → Int} {extraKey : Option String} {priority : Int} {chunked : Bool} {fuel : Nat} {s : InsertState} {c : RadixCache}

theorem insertLoop_stop (stops : s.key = [] ∨ s.tree.child? s.node ⟨s.key, extraKey⟩ = none) :
    insertLoop clock extraKey priority chunked fuel s = s := by
  cases fuel with
  | zero => rfl
  | succ fuel =>
    rw [insertLoop]
    split
    · rfl
    · next nonempty => rw [stops.resolve_left nonempty]

def insertRound (clock : Nat → Int) (priority : Int) (chunked : Bool) (t : RadixTree) (child : TreeNode) (len : Nat) : RadixTree × Nat :=
  let touched := t.touch child.id (clock 0)
  if len < child.key.tokenIds.length then
    ((touched.splitNode clock child len).modifyNode touched.freshId (visit priority chunked), touched.freshId)
  else (touched.modifyNode child.id (visit priority chunked), child.id)

def InsertState.next (s : InsertState) (clock : Nat → Int) (priority : Int) (chunked : Bool) (child : TreeNode) (len : Nat) : InsertState :=
  let round := insertRound clock priority chunked s.tree child len
  ⟨round.1, round.2, s.key.drop len, s.value.drop len, s.totalPrefixLength + len⟩

theorem insertLoop_child (nonempty : s.key ≠ []) (here : s.tree.child? s.node ⟨s.key, extraKey⟩ = some child) :
    insertLoop clock extraKey priority chunked (fuel + 1) s = insertLoop clock extraKey priority chunked fuel
        (s.next clock priority chunked child (keyMatch s.tree.pageSize child.key.tokenIds s.key)) := by
  rw [insertLoop, if_neg nonempty, here]
  unfold InsertState.next insertRound
  dsimp only
  split
  · next less => rw [if_pos (show keyMatch s.tree.pageSize _ _ < _ from less)]; rfl
  · next covers => rw [if_neg (show ¬ keyMatch s.tree.pageSize _ _ < _ from covers)]; rfl

section
variable {t : RadixTree} {node : Nat} {key : RadixKey} {child : TreeNode} {len : Nat}

theorem insertRound_steps (clock : Nat → Int) (priority : Int) (chunked : Bool) (wf : t.Wf) (pos : 0 < t.pageSize)
    (here : t.child? node key = some child)
    (matched : Matched t.pageSize child.key.tokenIds key.tokenIds len) :
    Steps t.toRadixCache (insertRound clock priority chunked t child len).1.toRadixCache ∧
      ∃ n ∈ (insertRound clock priority chunked t child len).1.nodes, n.id = (insertRound clock priority chunked t child len).2 := by
  have touched := t.touch_retouch child.id (clock 0)
  unfold insertRound
  split
  · next less =>
    have visited := ((t.touch child.id (clock 0)).splitNode clock child len).visit_retouch (t.touch child.id (clock 0)).freshId priority chunked
    obtain ⟨n, mem, same⟩ := upper_mem (clock 0) clock wf here len
    obtain ⟨m, lt, eq⟩ := visited.symm.mem mem
    exact ⟨.retouch (split_steps (clock 0) clock wf pos here matched less) visited, m, lt, eq.id.trans same⟩
  · have visited := (t.touch child.id (clock 0)).visit_retouch child.id priority chunked
    obtain ⟨n, mem, same⟩ := touched_mem (clock 0) here
    obtain ⟨m, lt, eq⟩ := visited.symm.mem mem
    exact ⟨.retouch (.retouch .refl touched) visited, m, lt, eq.id.trans same⟩

theorem insertRound_path (clock : Nat → Int) (priority : Int) (chunked : Bool) (len : Nat) (wf : t.Wf) (here : t.child? node key = some child)
    (path : Path t.toRadixCache key.extraKey node tokens slots) :
    Path (insertRound clock priority chunked t child len).1.toRadixCache key.extraKey (insertRound clock priority chunked t child len).2
      (tokens ++ child.key.tokenIds.take len) (slots ++ child.value.take len) := by
  unfold insertRound
  split
  · exact (upper_path (clock 0) clock wf here len path).mono (visit_retouch _ _ priority chunked).embeds
  · next covers =>
    have size := (wf.keys child (child?_some here).1).1
    rw [take_of_length_le (Nat.le_of_not_lt covers), take_of_length_le (by omega)]
    exact (touched_path (clock 0) here path).mono (visit_retouch _ _ priority chunked).embeds

theorem insertRound_below (wf : t.Wf) (pos : 0 < t.pageSize) (here : t.child? node key = some child)
    (matched : Matched t.pageSize child.key.tokenIds key.tokenIds len) (less : len < child.key.tokenIds.length)
    (below : Below (insertRound clock priority chunked t child len).1.toRadixCache key.extraKey (insertRound clock priority chunked t child len).2
      tokens slots) :
    Below t.toRadixCache key.extraKey node (child.key.tokenIds.take len ++ tokens) (child.value.take len ++ slots) := by
  obtain ⟨_, parent, space, _⟩ := child?_some here
  have touched := t.touch_retouch child.id (clock 0)
  have splits := touched_splits (clock 0) wf pos here matched less
  unfold insertRound at below
  rw [if_pos less] at below
  have lt := below.mono (visit_retouch _ _ priority chunked).symm.embeds
  have back : Below (t.touch child.id (clock 0)).toRadixCache key.extraKey child.parent _ _ :=
    (Below.unsplit clock (touched.wf wf) splits lt).2 rfl space
  rw [parent] at back
  exact back.mono touched.symm.embeds

theorem insertRound_found (wf : t.Wf) (pos : 0 < t.pageSize) (aligned : t.Aligned) (whole : t.pageSize ∣ key.tokenIds.length)
    (here : t.child? node key = some child) (matched : Matched t.pageSize child.key.tokenIds key.tokenIds len) {found : List Nat}
    (rest : Found (insertRound clock priority chunked t child len).1.toRadixCache key.extraKey (insertRound clock priority chunked t child len).2
      (key.tokenIds.drop len) found) :
    Found t.toRadixCache key.extraKey node key.tokenIds (child.value.take len ++ found) := by
  obtain ⟨mem, _, _, _⟩ := child?_some here
  by_cases less : len < child.key.tokenIds.length
  · -- the split ended the walk
    have part : Found t.toRadixCache key.extraKey node key.tokenIds (child.value.take len) := .of_part wf aligned whole here matched less
    have stored := insertRound_below wf pos here matched less rest.stored
    rw [matched.same, ← take_add] at stored
    have short := part.longest _ _ (List.take_prefix _ _) stored
    have room := rest.le
    rw [length_drop] at room
    rw [length_take, length_take, (wf.keys child mem).1] at short
    obtain rfl : found = [] := length_eq_zero_iff.mp (by omega)
    rw [append_nil]
    exact part
  · have size := (wf.keys child mem).1
    have steps := (insertRound_steps clock priority chunked wf pos here matched).1
    have node : (insertRound clock priority chunked t child len).2 = child.id := by
      unfold insertRound
      rw [if_neg less]
    rw [node] at rest
    rw [take_of_length_le (by omega)]
    exact .of_full wf aligned whole here matched (Nat.le_of_not_lt less)
      (rest.congr (fun _ _ => (steps.below_iff wf (.inr ⟨child, mem, rfl⟩)).symm))

end

theorem insertLoop_steps (clock : Nat → Int) (extraKey : Option String) (priority : Int) (chunked : Bool) (wf : s.tree.Wf)
    (pos : 0 < s.tree.pageSize) (known : s.node = 0 ∨ ∃ n ∈ s.tree.nodes, n.id = s.node)
    (sized : s.value.length = s.key.length) (enough : s.key.length ≤ fuel) :
    let s' := insertLoop clock extraKey priority chunked fuel s
    Steps s.tree.toRadixCache s'.tree.toRadixCache ∧ (s'.node = 0 ∨ ∃ n ∈ s'.tree.nodes, n.id = s'.node) ∧
      s'.value.length = s'.key.length ∧ (s'.key ≠ [] → s'.tree.child? s'.node ⟨s'.key, extraKey⟩ = none) := by
  induction fuel generalizing s with
  | zero =>
    have none := length_eq_zero_iff.mp (Nat.le_zero.mp enough)
    rw [insertLoop_stop (.inl none)]
    exact ⟨.refl, known, sized, fun nonempty => absurd none nonempty⟩
  | succ fuel ih =>
    by_cases nonempty : s.key = []
    · rw [insertLoop_stop (.inl nonempty)]
      exact ⟨.refl, known, sized, fun some => absurd nonempty some⟩
    · cases here : s.tree.child? s.node ⟨s.key, extraKey⟩ with
      | none =>
        rw [insertLoop_stop (.inr here)]
        exact ⟨.refl, known, sized, fun _ => here⟩
      | some child =>
        rw [insertLoop_child nonempty here]
        obtain ⟨mem, _, _, page⟩ := child?_some here
        have matched := keyMatch_matched pos child.key.tokenIds s.key
        generalize keyMatch s.tree.pageSize child.key.tokenIds s.key = len at matched ⊢
        have first := matched.page_le (wf.keys child mem).2 page
        obtain ⟨steps, last⟩ := insertRound_steps clock priority chunked wf pos here matched
        have shorter : (s.next clock priority chunked child len).key.length = s.key.length - len := length_drop
        obtain ⟨rest, last', sized', stops⟩ := ih (s := s.next clock priority chunked child len) (steps.wf wf)
          (by rw [← steps.pageSize] at pos; exact pos) (.inr last)
          (by rw [shorter, ← sized]; exact length_drop) (by omega)
        exact ⟨steps.trans rest, last', sized', stops⟩

theorem WalkRule.insertRound (rule : WalkRule clock inv) {t : RadixTree} {key : RadixKey}
    (wf : t.Wf) (pos : 0 < t.pageSize) (here : t.child? node key = some child)
    (matched : Matched t.pageSize child.key.tokenIds key.tokenIds len) (initial : inv t) :
      inv (insertRound clock priority chunked t child len).1 := by
  unfold RadixTree.insertRound
  split
  · next less => exact rule.retouch _ (fun _ => rfl) (rule.split_touched (clock 0) wf pos here matched less initial)
  · exact rule.retouch _ (fun _ => rfl) (rule.retouch _ (fun _ => rfl) initial)

theorem WalkRule.insertLoop (rule : WalkRule clock inv) (wf : s.tree.Wf) (pos : 0 < s.tree.pageSize)
    (initial : inv s.tree) : inv (insertLoop clock extraKey priority chunked fuel s).tree := by
  induction fuel generalizing s with
  | zero => exact initial
  | succ fuel ih =>
    by_cases nonempty : s.key = []
    · rwa [insertLoop_stop (.inl nonempty)]
    · cases here : s.tree.child? s.node ⟨s.key, extraKey⟩ with
      | none => rwa [insertLoop_stop (.inr here)]
      | some child =>
        rw [insertLoop_child nonempty here]
        have matched := keyMatch_matched pos child.key.tokenIds s.key
        have steps := (insertRound_steps clock priority chunked wf pos here matched).1
        exact ih (s := s.next clock priority chunked child _) (steps.wf wf) (by rw [← steps.pageSize] at pos; exact pos)
          (rule.insertRound wf pos here matched initial)

def InsertFinds (s : InsertState) (extraKey : Option String) (tokens slots : List Nat) (s' : InsertState) : Prop :=
  ∃ found, Found s.tree.toRadixCache extraKey s.node s.key found ∧ s'.totalPrefixLength = s.totalPrefixLength + found.length ∧
    s'.key = s.key.drop found.length ∧ s'.value = s.value.drop found.length ∧
    Path s'.tree.toRadixCache extraKey s'.node (tokens ++ s.key.take found.length) (slots ++ found)

theorem insertLoop_found (clock : Nat → Int) (priority : Int) (chunked : Bool) (wf : s.tree.Wf) (pos : 0 < s.tree.pageSize)
    (aligned : s.tree.Aligned) (whole : s.tree.pageSize ∣ s.key.length)
    (enough : s.key.length ≤ fuel) (path : Path s.tree.toRadixCache extraKey s.node tokens slots) :
    InsertFinds s extraKey tokens slots (insertLoop clock extraKey priority chunked fuel s) := by
  have stop {s : InsertState} {fuel : Nat} {tokens slots : List Nat} (stops : s.key = [] ∨ s.tree.child? s.node ⟨s.key, extraKey⟩ = none)
      (empty : Found s.tree.toRadixCache extraKey s.node s.key []) (path : Path s.tree.toRadixCache extraKey s.node tokens slots) :
      InsertFinds s extraKey tokens slots (insertLoop clock extraKey priority chunked fuel s) := by
    rw [insertLoop_stop stops]
    exact ⟨[], empty, rfl, rfl, rfl, by simpa using path⟩
  induction fuel generalizing s tokens slots with
  | zero =>
    have none := length_eq_zero_iff.mp (Nat.le_zero.mp enough)
    exact stop (.inl none) (by rw [none]; exact .of_empty) path
  | succ fuel ih =>
    by_cases nonempty : s.key = []
    · exact stop (.inl nonempty) (by rw [nonempty]; exact .of_empty) path
    · cases here : s.tree.child? s.node ⟨s.key, extraKey⟩ with
      | none => exact stop (.inr here) (.of_no_child wf aligned here) path
      | some child =>
        rw [insertLoop_child nonempty here]
        obtain ⟨mem, _, _, page⟩ := child?_some here
        have matched := keyMatch_matched pos child.key.tokenIds s.key
        generalize keyMatch s.tree.pageSize child.key.tokenIds s.key = len at matched ⊢
        have first := matched.page_le (wf.keys child mem).2 page
        have bound := matched.le_length (aligned child mem) whole
        have size : (child.value.take len).length = len := by
          rw [length_take, (wf.keys child mem).1]
          omega
        obtain ⟨steps, _⟩ := insertRound_steps clock priority chunked wf pos here matched
        have shorter : (s.next clock priority chunked child len).key.length = s.key.length - len := length_drop
        obtain ⟨found, rest, total, key, value, path'⟩ := ih (s := s.next clock priority chunked child len) (steps.wf wf)
          (by rw [← steps.pageSize] at pos; exact pos) (steps.aligned wf aligned)
          (by
            rw [shorter, show (s.next clock priority chunked child len).tree.pageSize = s.tree.pageSize from steps.pageSize]
            exact Nat.dvd_sub whole matched.whole)
          (by omega) (insertRound_path clock priority chunked len wf here path)
        rw [append_assoc, append_assoc, matched.same] at path'
        refine ⟨child.value.take len ++ found, insertRound_found wf pos aligned whole here matched rest, ?_, ?_, ?_, ?_⟩
        · rw [total, length_append, size]
          exact add_assoc _ _ _
        · rw [key, length_append, size]
          exact drop_drop
        · rw [value, length_append, size]
          exact drop_drop
        · rw [length_append, size, take_add]
          exact path'

@[simp] theorem ensureHash_cache (t : RadixTree) (n : TreeNode) : (t.ensureHashValue n).toRadixCache = t.toRadixCache := by
  unfold ensureHashValue
  split <;> rfl

@[simp] theorem storeEvent_cache (t : RadixTree) (n : TreeNode) : (t.recordStoreEvent n).toRadixCache = t.toRadixCache := by
  unfold recordStoreEvent
  split
  · exact t.ensureHash_cache n
  · rfl

@[simp] theorem removeEvent_cache (t : RadixTree) (n : TreeNode) : (t.recordRemoveEvent n).toRadixCache = t.toRadixCache := by
  unfold recordRemoveEvent
  split
  · exact t.ensureHash_cache n
  · rfl

@[simp] theorem addLeaf_cache (t : RadixTree) (leaf : TreeNode) : (t.addLeaf leaf).toRadixCache = t.toRadixCache.addLeaf leaf := by
  unfold addLeaf
  exact storeEvent_cache _ leaf

inductive Grows (c : RadixCache) : RadixCache → Prop where
  | steps {c₁ : RadixCache} : Steps c c₁ → Grows c c₁
  | leaf {c₁ : RadixCache} {leaf : TreeNode} : Steps c c₁ → c₁.Fits leaf → Grows c (c₁.addLeaf leaf)

theorem Grows.wf {c' : RadixCache} (grows : Grows c c') (wf : c.Wf) : c'.Wf := by
  cases grows with
  | steps steps => exact steps.wf wf
  | leaf steps fits => exact addLeaf_wf (steps.wf wf) fits

section
variable {t : RadixTree} {key : RadixKey} {value : Option (List Nat)} {extraKey : Option String}

theorem newLeaf_fits {rest : RadixKey} (clock : Nat → Int) (priority : Int) (chunked : Bool)
    (known : node = 0 ∨ ∃ n ∈ c.nodes, n.id = node) (nonempty : rest.tokenIds ≠ []) (sized : slots.length = rest.tokenIds.length)
    (absent : c.child? node rest = none) : c.Fits (c.newLeaf clock node rest slots priority chunked) :=
  ⟨rfl, known, sized, nonempty, rfl, fun _ mem parent => child?_none absent mem parent⟩

theorem insert_grows (clock : Nat → Int) (priority : Option Int) (chunked : Bool) (wf : t.Wf) (pos : 0 < t.pageSize)
    (sized : (value.getD key.tokenIds).length = key.tokenIds.length) :
    Grows t.toRadixCache (t.insert clock key value priority chunked).2.toRadixCache := by
  unfold insert
  split
  · exact .steps .refl
  · unfold insertHelper
    dsimp only
    split
    · exact .steps .refl
    · obtain ⟨steps, known, sized', stops⟩ := insertLoop_steps clock key.extraKey (priority.getD 0) chunked
        (s := ⟨t, 0, key.tokenIds, value.getD key.tokenIds, 0⟩) wf pos (.inl rfl) sized (le_refl _)
      split
      · exact .steps steps
      · next nonempty =>
        rw [addLeaf_cache]
        exact .leaf steps (newLeaf_fits clock _ chunked known nonempty sized' (stops nonempty))

theorem Found.whole (aligned : c.Aligned) {id : Nat} (found : Found c extraKey id tokens slots) : c.pageSize ∣ slots.length := by
  have whole := found.stored.whole aligned
  rwa [length_take, min_eq_left found.le] at whole

theorem below_addLeaf {leaf : TreeNode} {front back : List Nat} (wf : c.Wf) (fits : c.Fits leaf)
    (whole : c.pageSize ∣ leaf.key.tokenIds.length) (path : Path c leaf.key.extraKey leaf.parent front back) :
    Below (c.addLeaf leaf) extraKey 0 tokens slots ↔ Below c extraKey 0 tokens slots ∨ extraKey = leaf.key.extraKey ∧ ∃ len, c.pageSize ∣ len ∧
      len ≤ leaf.key.tokenIds.length ∧ tokens = front ++ leaf.key.tokenIds.take len ∧ slots = back ++ leaf.value.take len := by
  constructor
  · intro below
    rcases Below.addLeaf_cases wf fits whole .root below with old | ⟨rfl, _, _, len, path', pages, le, rest, rest'⟩
    · exact .inl old
    · obtain ⟨rfl, rfl⟩ := path.unique wf path'
      exact .inr ⟨rfl, len, pages, le, rest, rest'⟩
  · rintro (old | ⟨rfl, len, pages, le, rfl, rfl⟩)
    · exact old.mono (embeds_addLeaf c leaf)
    · have part : Below (c.addLeaf leaf) leaf.key.extraKey leaf.parent (leaf.key.tokenIds.take len) (leaf.value.take len) :=
        .part (by rw [addLeaf_nodes]; exact mem_append_right _ mem_cons_self) rfl (by rwa [addLeaf_pageSize]) le
      exact (path.mono (embeds_addLeaf c leaf)).stored part

/-- The runs that an insertion of `key` leaves behind the `found` slots it met. -/
def Added (pageSize : Nat) (key value found tokens slots : List Nat) : Prop :=
  ∃ len, pageSize ∣ len ∧ found.length ≤ len ∧ len ≤ key.length ∧ tokens = key.take len ∧ slots = (found ++ value.drop found.length).take len

/-- An insertion walks along the longest stored run of its key and hangs a leaf with the rest behind it. -/
theorem insert_spec (rule : WalkRule clock inv) (priority : Option Int) (chunked : Bool) (enabled : t.disable = false)
    (wf : t.Wf) (pos : 0 < t.pageSize) (aligned : t.Aligned) (whole : t.pageSize ∣ key.tokenIds.length)
    (sized : (value.getD key.tokenIds).length = key.tokenIds.length) (initial : inv t) :
    ∃ t₁ found, Steps t.toRadixCache t₁.toRadixCache ∧ inv t₁ ∧ Found t.toRadixCache key.extraKey 0 key.tokenIds found ∧
      (t.insert clock key value priority chunked).1 = found.length ∧
      (found.length = key.tokenIds.length ∧ (t.insert clock key value priority chunked).2 = t₁ ∨
        ∃ leaf, t₁.Fits leaf ∧ leaf.key = ⟨key.tokenIds.drop found.length, key.extraKey⟩ ∧ leaf.value = (value.getD key.tokenIds).drop found.length ∧
          Path t₁.toRadixCache key.extraKey leaf.parent (key.tokenIds.take found.length) found ∧
          (t.insert clock key value priority chunked).2 = t₁.addLeaf leaf) := by
  unfold insert
  rw [if_neg (by simp [enabled])]
  generalize value.getD key.tokenIds = value at sized
  unfold insertHelper
  dsimp only
  split
  · next none => exact ⟨t, [], .refl, initial, by rw [none]; exact .of_empty, rfl, .inl ⟨by rw [none], rfl⟩⟩
  · obtain ⟨steps, known, sized', stops⟩ := insertLoop_steps clock key.extraKey (priority.getD 0) chunked
      (s := ⟨t, 0, key.tokenIds, value, 0⟩) wf pos (.inl rfl) sized (le_refl _)
    obtain ⟨found, longest, total, rest, rest', path⟩ := insertLoop_found clock (priority.getD 0) chunked
      (s := ⟨t, 0, key.tokenIds, value, 0⟩) wf pos aligned whole (le_refl _) (Path.root : Path t.toRadixCache key.extraKey 0 [] [])
    have kept : inv (insertLoop clock key.extraKey (priority.getD 0) chunked key.tokenIds.length ⟨t, 0, key.tokenIds, value, 0⟩).tree :=
      rule.insertLoop wf pos initial
    rw [zero_add] at total
    rw [nil_append, nil_append] at path
    generalize insertLoop clock key.extraKey (priority.getD 0) chunked key.tokenIds.length ⟨t, 0, key.tokenIds, value, 0⟩ = s' at *
    refine ⟨s'.tree, found, steps, kept, longest, ?_⟩
    split
    · next none =>
      rw [rest, drop_eq_nil_iff] at none
      exact ⟨total, .inl ⟨le_antisymm longest.le none, rfl⟩⟩
    · next nonempty =>
      exact ⟨total,
        .inr ⟨_, newLeaf_fits clock (priority.getD 0) chunked known nonempty sized' (stops nonempty), by rw [← rest]; rfl, rest', path, rfl⟩⟩

theorem insert_found (clock : Nat → Int) (priority : Option Int) (chunked : Bool) (enabled : t.disable = false) (wf : t.Wf)
    (pos : 0 < t.pageSize) (aligned : t.Aligned) (whole : t.pageSize ∣ key.tokenIds.length)
    (sized : (value.getD key.tokenIds).length = key.tokenIds.length) :
    ∃ found, Found t.toRadixCache key.extraKey 0 key.tokenIds found ∧
      (t.insert clock key value priority chunked).1 = found.length ∧ (t.insert clock key value priority chunked).2.Aligned ∧
      ∀ extraKey tokens slots, Below (t.insert clock key value priority chunked).2.toRadixCache extraKey 0 tokens slots ↔
        Below t.toRadixCache extraKey 0 tokens slots ∨
          extraKey = key.extraKey ∧ Added t.pageSize key.tokenIds (value.getD key.tokenIds) found tokens slots := by
  have rule : WalkRule clock (fun _ => True) := ⟨fun _ _ _ kept => kept, fun _ _ kept => kept⟩
  obtain ⟨t₁, found, steps, _, longest, result, stored⟩ := insert_spec rule priority chunked enabled wf pos aligned whole sized trivial
  have le := longest.le
  have pages := Found.whole aligned longest
  have same {extraKey : Option String} {tokens slots : List Nat} :
      Below t₁.toRadixCache extraKey 0 tokens slots ↔ Below t.toRadixCache extraKey 0 tokens slots :=
    steps.below_iff wf (.inl rfl)
  refine ⟨found, longest, result, ?_⟩
  rcases stored with ⟨_, same'⟩ | ⟨leaf, fits, leafKey, leafValue, path, same'⟩
  · rw [same']
    refine ⟨steps.aligned wf aligned, fun extraKey tokens slots => ?_⟩
    rw [same]
    refine ⟨.inl, fun stored => stored.elim id ?_⟩
    rintro ⟨rfl, len, _, from_, le', rfl, rfl⟩
    obtain rfl : len = found.length := by omega
    rw [take_append_of_le_length (le_refl _), take_length]
    exact longest.stored
  · have size : t₁.pageSize = t.pageSize := steps.pageSize
    have tail : t₁.pageSize ∣ leaf.key.tokenIds.length := by
      rw [size, leafKey, length_drop]
      exact Nat.dvd_sub whole pages
    rw [same']
    refine ⟨fun n mem => ?_, fun extraKey tokens slots => ?_⟩
    · rw [addLeaf_cache, addLeaf_nodes] at mem
      rw [addLeaf_cache, addLeaf_pageSize]
      rcases mem_append.mp mem with before | new
      · exact steps.aligned wf aligned n before
      · rw [mem_singleton.mp new]
        exact tail
    · rw [addLeaf_cache, below_addLeaf (steps.wf wf) fits tail (by rw [leafKey]; exact path), same, size, leafKey, leafValue, length_drop]
      refine or_congr_right (and_congr_right (fun _ => ?_))
      constructor
      · rintro ⟨len, whole', le', rfl, rfl⟩
        refine ⟨found.length + len, Nat.dvd_add pages whole', by omega, by omega, take_add.symm, ?_⟩
        rw [take_length_add_append]
      · rintro ⟨len, whole', from_, le', rfl, rfl⟩
        refine ⟨len - found.length, Nat.dvd_sub whole' pages, by omega, ?_, ?_⟩
        · rw [← take_add]
          congr 1
          omega
        · rw [take_append, take_of_length_le from_]

end

end

end RadixTree

end TriaxialKV
