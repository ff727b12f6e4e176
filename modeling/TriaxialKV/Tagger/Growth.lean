import TriaxialKV.Tagger.Tagger

/-! # Growing conversations -/

namespace TriaxialKV
open Tensor
open List hiding after

variable {i st : Nat} {m : Message}

def Message.shift (k : Nat) (m : Message) : Message := ⟨m.start + k, m.stop + k, m.role⟩

namespace TriaxialTagger
variable {sp : SpecialTokens} {ids p q : List Int}

def messageSpans (sp : SpecialTokens) (ids : List Int) : List (Nat × Option Nat) := spansOf (· == sp.imStart) (· == sp.imEnd) ids

def toMessage (sp : SpecialTokens) (ids : List Int) (s : Nat × Option Nat) : Message :=
  ⟨s.1, match s.2 with | some e => e + 1 | none => ids.length, sp.roleOf (if s.1 + 1 < ids.length then ids[s.1 + 1]! else -1)⟩

theorem msgs_eq (sp : SpecialTokens) (ids : List Int) : msgs sp ids = (messageSpans sp ids).map (toMessage sp ids) := by
  have starts := filter_nonzero (p := sp.isSpecial) (q := (· == sp.imStart))
    (fun x found => by rw [eq_of_beq found]; simp [SpecialTokens.isSpecial]) ids
  have stops := filter_nonzero (p := sp.isSpecial) (q := (· == sp.imEnd))
    (fun x found => by rw [eq_of_beq found]; simp [SpecialTokens.isSpecial]) ids
  unfold msgs messageSpans spansOf spans
  dsimp only
  rw [starts, map_map]
  refine map_congr_left (fun st _ => ?_)
  simp only [toMessage, Function.comp]
  rewrite [← stops, filter_filter]
  rfl

theorem toMessage_append_left {s : Nat × Option Nat} {e : Nat} (stop : s.2 = some e) (lt : s.1 + 1 < p.length) :
    toMessage sp (p ++ q) s = toMessage sp p s := by
  unfold toMessage
  rw [stop, if_pos (by rw [length_append]; omega), if_pos lt, getElem!_append_left q lt]

theorem toMessage_append_right (s : Nat × Option Nat) : toMessage sp (p ++ q) (shiftSpan p.length s) = Message.shift p.length (toMessage sp q s) := by
  obtain ⟨o, c⟩ := s
  have role : (if o + p.length + 1 < (p ++ q).length then (p ++ q)[o + p.length + 1]! else -1) = if o + 1 < q.length then q[o + 1]! else -1 := by
    rw [Nat.add_right_comm, getElem!_append_right, length_append]
    exact if_congr (by omega) rfl rfl
  unfold toMessage shiftSpan Message.shift
  rw [role]
  cases c with
  | none => rw [Option.map_none, length_append, Nat.add_comm p.length]
  | some c => rw [Option.map_some, Nat.add_right_comm c]

theorem msgs_append (closed : Closed (· == sp.imStart) (· == sp.imEnd) p) (q : List Int) :
    msgs sp (p ++ q) = msgs sp p ++ (msgs sp q).map (Message.shift p.length) := by
  rw [msgs_eq, msgs_eq, msgs_eq, messageSpans, spansOf_append closed, map_append, map_map, map_map]
  congr 1
  · refine map_congr_left (fun s mem => ?_)
    obtain ⟨e, stop⟩ := Option.ne_none_iff_exists'.mp (closed s mem)
    obtain ⟨_, found⟩ := spansOf_stop mem stop
    have lt := nonzero_inside found
    rw [length_map] at lt
    exact toMessage_append_left stop (by omega)
  · exact map_congr_left (fun s _ => toMessage_append_right s)

theorem msgs_bounds (mem : m ∈ msgs sp ids) : m.start < m.stop ∧ m.stop ≤ ids.length ∧ (m.start + 2 ≤ m.stop ∨ m.stop = ids.length) := by
  rw [msgs_eq] at mem
  obtain ⟨s, span, rfl⟩ := mem_map.mp mem
  have start := spansOf_start span
  unfold toMessage
  cases stop : s.2 with
  | none => exact ⟨start, Nat.le_refl _, .inr rfl⟩
  | some e =>
    obtain ⟨_, found⟩ := spansOf_stop span stop
    have lt := nonzero_inside found
    rw [length_map] at lt
    dsimp only
    omega

theorem msgs_closed (closed : Closed (· == sp.imStart) (· == sp.imEnd) ids) (mem : m ∈ msgs sp ids) : m.start + 2 ≤ m.stop := by
  rw [msgs_eq] at mem
  obtain ⟨s, span, rfl⟩ := mem_map.mp mem
  obtain ⟨e, stop⟩ := Option.ne_none_iff_exists'.mp (closed s span)
  have later := (spansOf_stop span stop).1
  unfold toMessage
  rw [stop]
  dsimp only
  omega

def IsScaffold (sp : SpecialTokens) (ids : List Int) (m : Message) (i : Nat) : Prop :=
  i = m.start ∨ (i = m.start + 1 ∧ i < ids.length) ∨ (i = m.start + 2 ∧ i < ids.length ∧ ids[i]! = sp.newline) ∨
    ((m.stop - 1 < ids.length ∧ ids[m.stop - 1]! = sp.imEnd) ∧ (i = m.stop - 1 ∨ (i = m.stop ∧ i < ids.length ∧ ids[i]! = sp.newline)))

instance (sp : SpecialTokens) (ids : List Int) (m : Message) (i : Nat) : Decidable (IsScaffold sp ids m i) := inferInstanceAs (Decidable (_ ∨ _))

theorem ite_setAt (c : Prop) [Decidable c] (arr : Nat → Semantic) (j : Nat) (v : Semantic) (i : Nat) :
    (if c then setAt arr j v else arr) i = if i = j ∧ c then v else arr i := by
  by_cases holds : c <;> simp [setAt, holds]

theorem scaffold_apply (sp : SpecialTokens) (ids : List Int) (semantic : Nat → Semantic) (m : Message) (i : Nat) :
    markScaffold sp ids semantic m i = if IsScaffold sp ids m i then .delim else semantic i := by
  unfold markScaffold IsScaffold
  by_cases ended : m.stop - 1 < ids.length ∧ ids[m.stop - 1]! = sp.imEnd
  · rw [if_pos ended, ite_setAt]
    simp only [setAt, ite_setAt, ended, true_and]
    grind
  · rw [if_neg ended, ite_setAt, ite_setAt]
    simp only [setAt, ended, false_and, or_false]
    grind

theorem bracket_pointwise (st len : Nat) (label : Semantic) (span : Nat × Option Nat) :
    Pointwise (fun semantic => markBracket st len label semantic span) := by
  intro arr arr' i same
  obtain ⟨o, c⟩ := span
  have slice := setSlice_pointwise (o + st) (c.getD len + 1 + st) label arr arr' i same
  cases c with
  | none => exact setAt_pointwise (o + st) .delim _ _ i slice
  | some c => exact setAt_pointwise (c + st) .delim _ _ i (setAt_pointwise (o + st) .delim _ _ i slice)

theorem markSpan_at (ids : List Int) (st en : Nat) (openId closeId : Int) (label : Semantic) :
    Pointwise (fun semantic => markSpan ids semantic st en openId closeId label) :=
  foldl_pointwise (bracket_pointwise st (en - st) label) _

theorem scaffold_pointwise (sp : SpecialTokens) (ids : List Int) (m : Message) : Pointwise (fun semantic => markScaffold sp ids semantic m) := by
  intro _ _ i same
  dsimp only
  rw [scaffold_apply, scaffold_apply, same]

theorem message_pointwise (sp : SpecialTokens) (ids : List Int) (m : Message) : Pointwise (fun semantic => markMessage sp ids semantic m) := by
  intro _ _ i same
  obtain ⟨st, en, role⟩ := m
  have scaffold := scaffold_pointwise sp ids ⟨st, en, role⟩ _ _ i (setSlice_pointwise st en role _ _ i same)
  cases role with
  | user => exact markSpan_at _ _ _ _ _ _ _ _ i (setMask_pointwise _ _ _ _ _ _ i scaffold)
  | assistant => exact markSpan_at _ _ _ _ _ _ _ _ i (markSpan_at _ _ _ _ _ _ _ _ i scaffold)
  | inst | reasoning | toolCall | obs | delim => exact scaffold

theorem bracket_within {seg : List Int} {openId closeId : Int} {span : Nat × Option Nat}
    (mem : span ∈ spansOf (· == openId) (· == closeId) seg) (st : Nat) (label : Semantic) :
    Within st (st + seg.length) (fun semantic => markBracket st seg.length label semantic span) := by
  intro semantic i _
  have start := spansOf_start mem
  obtain ⟨o, c⟩ := span
  unfold markBracket setAt setSlice
  cases c with
  | none =>
    dsimp only at start ⊢
    rw [if_neg (by omega), if_neg (by simp only [Option.getD_none]; omega)]
  | some c =>
    obtain ⟨_, found⟩ := spansOf_stop mem rfl
    have stop := nonzero_inside found
    rw [length_map] at stop
    dsimp only at start ⊢
    rw [if_neg (by omega), if_neg (by omega), if_neg (by simp only [Option.getD_some]; omega)]

theorem markSpan_within {en : Nat} (openId closeId : Int) (label : Semantic) (bound : st ≤ en) (inside : en ≤ ids.length) :
    Within st en (fun semantic => markSpan ids semantic st en openId closeId label) := by
  have length : ((ids.take en).drop st).length = en - st := by
    rw [length_drop, length_take]
    omega
  refine foldl_within (fun span mem => ?_)
  have bracket := bracket_within mem st label
  rwa [length, Nat.add_sub_cancel' bound] at bracket

theorem message_within (bound : m.start < m.stop) (inside : m.stop ≤ ids.length) (header : m.start + 2 ≤ m.stop ∨ m.stop = ids.length) :
    Within m.start m.stop (fun semantic => markMessage sp ids semantic m) := by
  intro semantic i outside
  obtain ⟨st, en, role⟩ := m
  dsimp only at bound inside header outside
  have scaffold : markScaffold sp ids (setSlice semantic st en role) ⟨st, en, role⟩ i = semantic i := by
    rw [scaffold_apply, if_neg, setSlice, if_neg (by omega)]
    unfold IsScaffold
    dsimp only
    omega
  have span : ∀ openId closeId label, Within st en (fun semantic => markSpan ids semantic st en openId closeId label) :=
    fun openId closeId label => markSpan_within openId closeId label bound.le inside
  cases role with
  | user =>
    refine (span _ _ _ _ i outside).trans ?_
    rw [setMask, if_neg (fun both => outside ⟨both.1.1, both.1.2.le⟩)]
    exact scaffold
  | assistant => exact (span _ _ _ _ i outside).trans ((span _ _ _ _ i outside).trans scaffold)
  | inst | reasoning | toolCall | obs | delim => exact scaffold

theorem message_left (header : m.start + 2 ≤ m.stop) (inside : m.stop ≤ p.length) (semantic : Nat → Semantic)
    (here : i < p.length) : markMessage sp (p ++ q) semantic m i = markMessage sp p semantic m i := by
  obtain ⟨st, en, role⟩ := m
  dsimp only at header inside
  have scaffold : ∀ semantic, markScaffold sp (p ++ q) semantic ⟨st, en, role⟩ i = markScaffold sp p semantic ⟨st, en, role⟩ i := by
    intro semantic
    rw [scaffold_apply, scaffold_apply]
    refine if_congr ?_ rfl rfl
    unfold IsScaffold
    dsimp only
    rw [getElem!_append_left q here, getElem!_append_left q (show en - 1 < p.length by omega), length_append]
    omega
  have span : ∀ openId closeId label semantic, markSpan (p ++ q) semantic st en openId closeId label =
      markSpan p semantic st en openId closeId label := by
    intro openId closeId label semantic
    unfold markSpan
    rw [take_append_of_le_length inside]
  unfold markMessage
  cases role with
  | user =>
    rw [span]
    refine markSpan_at _ _ _ _ _ _ _ _ i ?_
    simp only [setMask, scaffold, getElem!_append_left q here]
  | assistant =>
    dsimp only
    rw [span, span]
    exact markSpan_at _ _ _ _ _ _ _ _ i (markSpan_at _ _ _ _ _ _ _ _ i (scaffold _))
  | inst | reasoning | toolCall | obs | delim => exact scaffold _

theorem after_markBracket (k st len : Nat) (label : Semantic) (semantic : Nat → Semantic) (span : Nat × Option Nat) :
    after k (markBracket (st + k) len label semantic span) = markBracket st len label (after k semantic) span := by
  obtain ⟨o, c⟩ := span
  unfold markBracket
  cases c with
  | none => simp only [← Nat.add_assoc, after_setAt, after_setSlice]
  | some c => simp only [← Nat.add_assoc, after_setAt, after_setSlice]

theorem after_markSpan (st en : Nat) (openId closeId : Int) (label : Semantic) (semantic : Nat → Semantic) :
    after p.length (markSpan (p ++ q) semantic (st + p.length) (en + p.length) openId closeId label) =
      markSpan q (after p.length semantic) st en openId closeId label := by
  have seg : ((p ++ q).take (en + p.length)).drop (st + p.length) = (q.take en).drop st := by
    rw [Nat.add_comm en, take_length_add_append, Nat.add_comm st, drop_length_add_append]
  unfold markSpan
  rw [seg, Nat.add_sub_add_right]
  exact after_foldl (fun semantic span _ => after_markBracket p.length st (en - st) label semantic span) semantic

theorem after_markScaffold (bound : m.start < m.stop) (semantic : Nat → Semantic) :
    after p.length (markScaffold sp (p ++ q) semantic (m.shift p.length)) = markScaffold sp q (after p.length semantic) m := by
  funext i
  have last : m.stop + p.length - 1 = m.stop - 1 + p.length := by omega
  unfold after
  rw [scaffold_apply, scaffold_apply]
  refine if_congr ?_ rfl rfl
  unfold IsScaffold Message.shift
  dsimp only
  rw [last, getElem!_append_right, getElem!_append_right, length_append]
  omega

theorem after_markMessage (bound : m.start < m.stop) (semantic : Nat → Semantic) :
    after p.length (markMessage sp (p ++ q) semantic (m.shift p.length)) = markMessage sp q (after p.length semantic) m := by
  have scaffold : ∀ semantic, after p.length (markScaffold sp (p ++ q) semantic (m.shift p.length)) =
      markScaffold sp q (after p.length semantic) m := after_markScaffold bound
  have image : after p.length (fun i => sp.isImage (p ++ q)[i]!) = fun i => sp.isImage q[i]! := by
    funext i
    rw [after, getElem!_append_right]
  obtain ⟨_, _, role⟩ := m
  unfold markMessage
  cases role with
  | user =>
    simp only [Message.shift] at scaffold ⊢
    rw [after_markSpan, after_setMask, scaffold, after_setSlice, image]
  | assistant =>
    simp only [Message.shift] at scaffold ⊢
    rw [after_markSpan, after_markSpan, scaffold, after_setSlice]
  | inst | reasoning | toolCall | obs | delim =>
    simp only [Message.shift] at scaffold ⊢
    rw [scaffold, after_setSlice]

def marked (sp : SpecialTokens) (ids : List Int) : Nat → Semantic := (msgs sp ids).foldl (markMessage sp ids) (fun _ => .user)

theorem semantic_at (sp : SpecialTokens) (ids : List Int) (lt : i < ids.length) :
    semantic sp ids i = if sp.isVision ids[i]! then .delim else marked sp ids i := by
  simp only [semantic, setMask, marked, Nat.zero_le, lt, true_and]

theorem marked_append (closed : Closed (· == sp.imStart) (· == sp.imEnd) p) (q : List Int) :
    marked sp (p ++ q) = (msgs sp q).foldl (fun semantic m => markMessage sp (p ++ q) semantic (m.shift p.length))
      ((msgs sp p).foldl (markMessage sp (p ++ q)) (fun _ => .user)) := by
  rw [marked, msgs_append closed, foldl_append, foldl_map]

theorem foldl_markMessage_append {ms : List Message} (inside : ∀ m ∈ ms, m.start + 2 ≤ m.stop ∧ m.stop ≤ p.length)
    (semantic : Nat → Semantic) (here : i < p.length) :
    ms.foldl (markMessage sp (p ++ q)) semantic i = ms.foldl (markMessage sp p) semantic i := by
  induction ms generalizing semantic with
  | nil => rfl
  | cons m ms ih =>
    obtain ⟨header, stop⟩ := inside m mem_cons_self
    rw [foldl_cons, foldl_cons, ih (fun m mem => inside m (mem_cons_of_mem _ mem))]
    exact foldl_pointwise (message_pointwise sp p) ms _ _ i (message_left header stop semantic here)

theorem marked_append_left (closed : Closed (· == sp.imStart) (· == sp.imEnd) p) (q : List Int) (here : i < p.length) :
    marked sp (p ++ q) i = marked sp p i := by
  have later : Within p.length (p.length + q.length) (fun semantic =>
      (msgs sp q).foldl (fun semantic m => markMessage sp (p ++ q) semantic (m.shift p.length)) semantic) := by
    refine foldl_within (fun m mem => ?_)
    obtain ⟨_, _, _⟩ := msgs_bounds mem
    intro semantic i _
    refine message_within ?_ ?_ ?_ semantic i ?_ <;> simp only [Message.shift, length_append] <;> omega
  rw [marked_append closed]
  refine (later _ i (by omega)).trans (foldl_markMessage_append (fun m mem => ?_) _ here)
  exact ⟨msgs_closed closed mem, (msgs_bounds mem).2.1⟩

theorem semantic_append (closed : Closed (· == sp.imStart) (· == sp.imEnd) p) (q : List Int) (here : i < p.length) :
    semantic sp (p ++ q) i = semantic sp p i := by
  rw [semantic_at sp (p ++ q) (by rw [length_append]; omega), semantic_at sp p here, getElem!_append_left q here,
    marked_append_left closed q here]

section
variable (ended : ∀ m ∈ msgs sp p, m.stop < p.length)
include ended

theorem closed_of_ended : Closed (· == sp.imStart) (· == sp.imEnd) p := by
  intro s mem none
  have stop := ended (toMessage sp p s) (by rw [msgs_eq]; exact mem_map_of_mem mem)
  rw [toMessage, none] at stop
  exact Nat.lt_irrefl _ stop

theorem marked_suffix (q : List Int) : after p.length (marked sp (p ++ q)) = marked sp q := by
  have closed := closed_of_ended ended
  have untouched : after p.length ((msgs sp p).foldl (markMessage sp (p ++ q)) (fun _ => .user)) = fun _ => .user := by
    funext i
    have within : Within 0 (p.length - 1) (fun semantic => (msgs sp p).foldl (markMessage sp (p ++ q)) semantic) := by
      refine foldl_within (fun m mem semantic i outside => ?_)
      obtain ⟨bound, _, _⟩ := msgs_bounds mem
      have before := ended m mem
      exact message_within bound (by rw [length_append]; omega) (.inl (msgs_closed closed mem)) semantic i (by omega)
    by_cases empty : p = []
    · rw [empty]
      rfl
    · have := length_pos_iff.mpr empty
      exact within _ _ (by omega)
  rw [marked_append closed, after_foldl (fun semantic m mem => after_markMessage (msgs_bounds mem).1 semantic), untouched]
  rfl

theorem semantic_suffix (q : List Int) (here : i < q.length) : semantic sp (p ++ q) (i + p.length) = semantic sp q i := by
  rw [semantic_at sp (p ++ q) (by rw [length_append]; omega), semantic_at sp q here, getElem!_append_right, ← marked_suffix ended q]
  rfl

end

theorem msgs_starts (sp : SpecialTokens) (ids : List Int) : (msgs sp ids).map (·.start) = nonzero (ids.map (· == sp.imStart)) := by
  rw [msgs_eq, messageSpans, spansOf, spans, map_map, map_map]
  exact map_id _

theorem msgs_ascending (sp : SpecialTokens) (ids : List Int) : ((msgs sp ids).map (·.start)).Pairwise (· < ·) := by
  rw [msgs_starts]
  exact nonzero_ascending _

theorem userStarts_ascending (sp : SpecialTokens) (ids : List Int) : (userStarts sp ids).Pairwise (· < ·) :=
  (msgs_ascending sp ids).sublist (filter_sublist.map _)

theorem userStarts_append (closed : Closed (· == sp.imStart) (· == sp.imEnd) p) (q : List Int) :
    userStarts sp (p ++ q) = userStarts sp p ++ (userStarts sp q).map (· + p.length) := by
  unfold userStarts
  rw [msgs_append closed, filter_append, map_append, filter_map, map_map, map_map]
  rfl

theorem userStarts_inside (mem : st ∈ userStarts sp ids) : st < ids.length := by
  obtain ⟨m, filtered, rfl⟩ := mem_map.mp mem
  obtain ⟨_, _, _⟩ := msgs_bounds (mem_filter.mp filtered).1
  omega

def turnLabel (total seen : Nat) : Temporal :=
  if total = 0 then .current else if seen = 0 then .older else temporalOfDist (total - seen)

theorem temporal_apply (sp : SpecialTokens) (ids : List Int) (lt : i < ids.length) :
    temporal sp ids i = turnLabel (userStarts sp ids).length ((userStarts sp ids).countP (· ≤ i)) := by
  have ascending := userStarts_ascending sp ids
  unfold temporal turnLabel
  generalize userStarts sp ids = starts at *
  split
  · simp [setSlice, lt]
  · next _ =>
    have first := getElem!_le_iff_lt_countP ascending (k := 0) (by omega) i
    have bound : (starts ++ [ids.length])[0]! = starts[0]! := getElem!_append_left _ (by omega)
    rw [setSlice, foldl_setSlice_starts ascending _ _ lt, bound]
    by_cases none : starts.countP (· ≤ i) = 0
    · rw [if_pos (by omega), if_pos none]
    · rw [if_neg (by omega), if_neg none, if_neg none]
      congr 1
      omega

theorem countP_starts_append (closed : Closed (· == sp.imStart) (· == sp.imEnd) p) (q : List Int)
    (here : i < p.length) : (userStarts sp (p ++ q)).countP (· ≤ i) = (userStarts sp p).countP (· ≤ i) := by
  have later : ((userStarts sp q).map (· + p.length)).countP (· ≤ i) = 0 := by
    refine countP_eq_zero.mpr (fun st mem => ?_)
    obtain ⟨_, _, rfl⟩ := mem_map.mp mem
    simp only [decide_eq_true_eq]
    omega
  rw [userStarts_append closed, countP_append, later, Nat.add_zero]

theorem temporal_code (d : Nat) : (temporalOfDist d).code = 3 - d := by
  match d with
  | 0 | 1 | 2 => rfl
  | d + 3 => exact (Nat.sub_eq_zero_of_le (Nat.le_add_left 3 d)).symm

theorem turnLabel_antitone {total total' : Nat} (seen : Nat) (le : total ≤ total') : (turnLabel total' seen).code ≤ (turnLabel total seen).code := by
  have near := temporal_code (total - seen)
  have far := temporal_code (total' - seen)
  unfold turnLabel
  split
  · rw [if_pos (by omega)]
  · split
    · exact Nat.zero_le _
    · split
      · change (temporalOfDist (total' - seen)).code ≤ 3
        omega
      · omega

theorem tag_apply (sp : SpecialTokens) (ids : List Int) (lt : i < ids.length) :
    (tag sp ids)[i]! = tagId (temporal sp ids i) (modal sp ids[i]!) (semantic sp ids i) := by
  unfold tag
  rw [getElem!_pos _ i (by simpa using lt), getElem_map, getElem_range]

theorem closed_of_ends (ends : ∀ i < p.length, p[i]! = sp.imStart → ∃ j < p.length, i < j ∧ p[j]! = sp.imEnd) :
    Closed (· == sp.imStart) (· == sp.imEnd) p := by
  intro s mem
  obtain ⟨o, opens, rfl⟩ := mem_map.mp mem
  obtain ⟨lt, start⟩ := mem_nonzero_map.mp opens
  obtain ⟨j, below, later, stop⟩ := ends o lt (eq_of_beq start)
  have found : j ∈ (nonzero (p.map (· == sp.imEnd))).filter (fun c => c > o) :=
    mem_filter.mpr ⟨mem_nonzero_map.mpr ⟨below, by simp [stop]⟩, by simpa using later⟩
  simpa using ne_nil_of_mem found

/-- A continuation leaves the semantic and modal labels before it alone and makes the temporal ones at most older; the default policy asks for no
more bits. -/
theorem tag_growth (sp : SpecialTokens) (p q₁ q₂ : List Int) (ends : ∀ i < p.length, p[i]! = sp.imStart → ∃ j < p.length, i < j ∧ p[j]! = sp.imEnd)
    (more : (userStarts sp q₁).length ≤ (userStarts sp q₂).length) :
    ∀ i < p.length, (tagAxes (tag sp (p ++ q₂))[i]!).2 = (tagAxes (tag sp (p ++ q₁))[i]!).2 ∧
      (tagAxes (tag sp (p ++ q₂))[i]!).1 ≤ (tagAxes (tag sp (p ++ q₁))[i]!).1 ∧
      (bits sp .default (p ++ q₂))[i]! ≤ (bits sp .default (p ++ q₁))[i]! := by
  intro i here
  have closed := closed_of_ends ends
  have inside : ∀ q, i < (p ++ q).length := fun q => by rw [length_append]; omega
  have code : ∀ q, (tag sp (p ++ q))[i]! = tagId (turnLabel ((userStarts sp p).length + (userStarts sp q).length)
      ((userStarts sp p).countP (· ≤ i))) (modal sp p[i]!) (semantic sp p i) := fun q => by
    rw [tag_apply sp (p ++ q) (inside q), temporal_apply sp (p ++ q) (inside q), countP_starts_append closed q here,
      semantic_append closed q here, getElem!_append_left q here, userStarts_append closed, length_append, length_map]
  have older := turnLabel_antitone ((userStarts sp p).countP (· ≤ i)) (Nat.add_le_add_left more (userStarts sp p).length)
  have stored : ∀ q, (bits sp .default (p ++ q))[i]! = TriaxialPolicy.default.lut[(tag sp (p ++ q))[i]!]! := fun q =>
    gather_getElem! _ (by simpa [tag] using inside q)
  rw [stored, stored, code, code, tagAxes_tagId, tagAxes_tagId]
  exact ⟨rfl, older, TriaxialPolicy.default_mono older _ _⟩

namespace GrowthExample

def qwen : SpecialTokens := ⟨1, 2, 3, 4, 5, 6, 7, 8, 9, 10, 11, 12, 13, 14, 15, 16, 17⟩

def turn (word : Int) : List Int := [1, 15, 13, word, 2, 13]

end GrowthExample

open GrowthExample in
theorem tag_growth_turn : (bits qwen .default (turn 40 ++ []))[3]! = 4 ∧ (bits qwen .default (turn 40 ++ turn 41))[3]! = 2 ∧
      (bits qwen .default (turn 40 ++ turn 41))[3]! ≤ (bits qwen .default (turn 40 ++ []))[3]! :=
  ⟨by decide +kernel, by decide +kernel, (tag_growth qwen (turn 40) [] (turn 41) (by decide) (by decide +kernel) 3 (by decide)).2.2⟩

end TriaxialTagger

end TriaxialKV
