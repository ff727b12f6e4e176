import TriaxialKV.Lib.Json
import TriaxialKV.Lib.Rounds
import TriaxialKV.Lib.Text

/-!
# Tool calls of Qwen3-Coder

Between calls the text before the cursor is dropped, so the cursor itself is always at the beginning.
-/

namespace TriaxialKV.Parser
open List Text Rounds

structure ToolCallItem where
  toolIndex : Int
  name : Option (List Char)
  parameters : List Char
deriving DecidableEq

structure StreamingParseResult where
  normalText : List Char
  calls : List ToolCallItem
deriving DecidableEq

namespace StreamingParseResult

/-- Results one behind the other. -/
instance : Monoid StreamingParseResult where
  one := ⟨[], []⟩
  mul a b := ⟨a.normalText ++ b.normalText, a.calls ++ b.calls⟩
  mul_assoc a b c := by simp [HMul.hMul]
  one_mul a := by simp [HMul.hMul, OfNat.ofNat]
  mul_one a := by simp [HMul.hMul, OfNat.ofNat]

theorem mul_def (a b : StreamingParseResult) : a * b = ⟨a.normalText ++ b.normalText, a.calls ++ b.calls⟩ := rfl

end StreamingParseResult

namespace Qwen3CoderDetector

def toolCallStartToken : List Char := "<tool_call>".toList

def toolCallEndToken : List Char := "</tool_call>".toList

def toolCallPrefix : List Char := "<function=".toList

def functionEndToken : List Char := "</function>".toList

def parameterPrefix : List Char := "<parameter=".toList

def parameterEndToken : List Char := "</parameter>".toList

structure Cursor where
  currentToolId : Int
  currentToolNameSent : Bool
  currentToolParamCount : Nat
  jsonStarted : Bool
  isInsideToolCall : Bool
  currentFuncName : Option (List Char)
deriving DecidableEq

/-- The value of a parameter, by the name of the function, the name of the parameter and its text. -/
abbrev Convert := Option (List Char) → List Char → List Char → Json

/-- One line break at either end does not belong to the value. -/
def cleanValue (value : List Char) : List Char :=
  let value := if ['\n'] <+: value then value.drop 1 else value
  if ['\n'] <:+ value then value.dropLast else value

/-- How a parameter can end, with the length of what is taken then. -/
def parameterEnds : List (List Char × Nat) := [(parameterEndToken, parameterEndToken.length), (parameterPrefix, 0), (functionEndToken, 0)]

def possibleTags : List (List Char) := [toolCallStartToken, toolCallEndToken, toolCallPrefix, functionEndToken, parameterPrefix, parameterEndToken]

section
variable (convert : Convert)

def functionRound (s : Cursor) (slice : List Char) : Option (Cursor × StreamingParseResult × List Char) :=
  (find ['>'] slice).map (fun endAngle =>
    let funcName := (slice.take endAngle).drop toolCallPrefix.length
    let s := { s with
      currentToolId := s.currentToolId + 1
      currentToolNameSent := true
      currentToolParamCount := 0
      jsonStarted := false
      currentFuncName := some funcName }
    (s, ⟨[], [⟨s.currentToolId, some funcName, []⟩]⟩, slice.drop (endAngle + 1)))

def openObject (s : Cursor) : List ToolCallItem := if s.jsonStarted then [] else [⟨s.currentToolId, none, ['{']⟩]

def parameterRound (s : Cursor) (slice : List Char) : Option (Cursor × StreamingParseResult × List Char) :=
  (find ['>'] slice).bind (fun nameEnd =>
    let restOfSlice := slice.drop (nameEnd + 1)
    (earliest parameterEnds restOfSlice).map (fun (endPos, endTokenLen) =>
      let paramName := (slice.take nameEnd).drop parameterPrefix.length
      let rawValue := cleanValue (restOfSlice.take endPos)
      let convertedVal := convert s.currentFuncName paramName rawValue
      let jsonKeyVal := Json.dumpsString true paramName ++ ':' :: ' ' :: Json.dumps false convertedVal
      let fragment := if s.currentToolParamCount > 0 then ',' :: ' ' :: jsonKeyVal else jsonKeyVal
      ({ s with jsonStarted := true, currentToolParamCount := s.currentToolParamCount + 1 },
        ⟨[], openObject s ++ [⟨s.currentToolId, none, fragment⟩]⟩, slice.drop (nameEnd + 1 + endPos + endTokenLen))))

def plainText (s : Cursor) (text : List Char) : StreamingParseResult := ⟨if s.isInsideToolCall then [] else text, []⟩

def textRound (s : Cursor) (slice : List Char) : Option (Cursor × StreamingParseResult × List Char) :=
  match find ['<'] slice with
  | none => some (s, plainText s slice, [])
  | some 0 =>
    if possibleTags.any (fun tag => slice.isPrefixOf tag) then none
    else some (s, plainText s ['<'], slice.drop 1)
  | some nextOpenAngle => some (s, plainText s (slice.take nextOpenAngle), slice.drop nextOpenAngle)

/-- One round of the loop; `none` is `break`. -/
def round (s : Cursor) (slice : List Char) : Option (Cursor × StreamingParseResult × List Char) :=
  if slice = [] then none
  else if toolCallStartToken <+: slice then some ({ s with isInsideToolCall := true }, 1, slice.drop toolCallStartToken.length)
  else if toolCallPrefix <+: slice then functionRound s slice
  else if parameterPrefix <+: slice then parameterRound convert s slice
  else if functionEndToken <+: slice then
    some ({ s with jsonStarted := true, currentFuncName := none },
      ⟨[], openObject s ++ [⟨s.currentToolId, none, ['}']⟩]⟩, slice.drop functionEndToken.length)
  else if toolCallEndToken <+: slice then some ({ s with isInsideToolCall := false }, 1, slice.drop toolCallEndToken.length)
  else textRound s slice

end

end Qwen3CoderDetector

structure Qwen3CoderDetector extends Qwen3CoderDetector.Cursor where
  buffer : List Char
deriving DecidableEq

namespace Qwen3CoderDetector

def init : Qwen3CoderDetector where
  currentToolId := -1
  currentToolNameSent := false
  currentToolParamCount := 0
  jsonStarted := false
  isInsideToolCall := false
  currentFuncName := none
  buffer := []

def parseStreamingIncrement (convert : Convert) (d : Qwen3CoderDetector) (newText : List Char) : StreamingParseResult × Qwen3CoderDetector :=
  let buffer := d.buffer ++ newText
  if buffer = [] then (1, d)
  else
    let (s, result, rest) := Rounds.drain (round convert) d.toCursor buffer
    (result, ⟨s, rest⟩)

def stream (convert : Convert) (chunks : List (List Char)) : StreamingParseResult × Qwen3CoderDetector :=
  chunks.foldl (fun (result, d) chunk =>
    let (more, d) := parseStreamingIncrement convert d chunk
    (result * more, d)) (1, init)

theorem tags_free : ∀ tag ∈ possibleTags, ∀ other ∈ possibleTags, tag <+: other → tag = other := by
  decide +kernel

theorem tags_headed : ∀ tag ∈ possibleTags, ∃ rest, tag = '<' :: rest ∧ '<' ∉ rest := by
  have heads : ∀ tag ∈ possibleTags, tag.head? = some '<' ∧ '<' ∉ tag.tail := by decide +kernel
  intro tag mem
  obtain ⟨head, once⟩ := heads tag mem
  exact ⟨tag.tail, (cons_head?_tail head).symm, once⟩

def Settled (slice : List Char) : Prop := ∀ tag ∈ possibleTags, slice <+: tag → tag <+: slice

section
variable {slice tag : List Char}

theorem settled_of_tag (mem : tag ∈ possibleTags) (here : tag <+: slice) : Settled slice := by
  intro other mem' begins
  rw [← tags_free tag mem other mem' (here.trans begins)]
  exact here

theorem Settled.tag_iff (settled : Settled slice) (mem : tag ∈ possibleTags) (more : List Char) : tag <+: slice ++ more ↔ tag <+: slice := by
  constructor
  · intro begins
    rcases List.prefix_or_prefix_of_prefix begins (prefix_append slice more) with here | short
    · exact here
    · exact settled tag mem short
  · exact fun here => here.trans (prefix_append slice more)

theorem settled_of_head {c : Char} {rest : List Char} (other : c ≠ '<') : Settled (c :: rest) := by
  intro tag mem begins
  obtain ⟨_, rfl, _⟩ := tags_headed tag mem
  exact absurd (List.cons_prefix_cons.mp begins).1 other

end

section
variable {convert : Convert} {s s' : Cursor} {slice rest : List Char} {out : StreamingParseResult}

theorem plainText_append (s : Cursor) (left right : List Char) : plainText s (left ++ right) = plainText s left * plainText s right := by
  rw [StreamingParseResult.mul_def]
  unfold plainText
  cases s.isInsideToolCall <;> rfl

theorem length_drop_lt (some : slice ≠ []) {k : Nat} (pos : 0 < k) : (slice.drop k).length < slice.length := by
  have := length_pos_of_ne_nil some
  rw [length_drop]
  omega

theorem round_consumes (convert : Convert) : Rounds.Consumes (round convert) := by
  intro s _ _ _ _ taken
  unfold round at taken
  split at taken
  · cases taken
  next some =>
  split at taken
  · cases taken
    exact length_drop_lt some (by decide)
  split at taken
  · obtain ⟨_, _, same⟩ := Option.map_eq_some_iff.mp taken
    cases same
    exact length_drop_lt some (Nat.succ_pos _)
  split at taken
  · obtain ⟨_, _, ended⟩ := Option.bind_eq_some_iff.mp taken
    obtain ⟨⟨_, _⟩, _, same⟩ := Option.map_eq_some_iff.mp ended
    cases same
    exact length_drop_lt some (by omega)
  split at taken
  · cases taken
    exact length_drop_lt some (by decide)
  split at taken
  · cases taken
    exact length_drop_lt some (by decide)
  unfold textRound at taken
  split at taken
  · cases taken
    exact length_pos_of_ne_nil some
  · split at taken
    · cases taken
    · cases taken
      exact length_drop_lt some Nat.one_pos
  · next _ _ =>
    cases taken
    refine length_drop_lt some (Nat.pos_of_ne_zero ?_)
    assumption

theorem find_length {c : Char} {p : Nat} (found : find [c] slice = some p) : p + 1 ≤ slice.length := by
  obtain ⟨_, here, _⟩ := find_eq_some_iff.mp found
  have length := here.length_le
  rw [length_singleton, length_drop] at length
  omega

theorem ends_free : PrefixFree parameterEnds := by
  have free : ∀ word ∈ parameterEnds, ∀ other ∈ parameterEnds, word.1 <+: other.1 → word = other := by decide +kernel
  exact free

theorem ends_headed : ∀ word ∈ parameterEnds, ∃ rest, word.1 = '<' :: rest ∧ '<' ∉ rest := by
  have tags : ∀ word ∈ parameterEnds, word.1 ∈ possibleTags := by decide +kernel
  exact fun word mem => tags_headed word.1 (tags word mem)

theorem earliest_length {p len : Nat} (found : earliest parameterEnds slice = some (p, len)) : p + len ≤ slice.length := by
  obtain ⟨_, ⟨word, mem, here⟩, _⟩ := (earliest_eq_some_iff ends_free).mp found
  have short : ∀ word ∈ parameterEnds, word.2 ≤ word.1.length := by decide +kernel
  have taken := short _ mem
  have length := here.length_le
  rw [length_drop] at length
  dsimp only at taken
  omega

theorem functionRound_append (more : List Char) (taken : functionRound s slice = some (s', out, rest)) :
    functionRound s (slice ++ more) = some (s', out, rest ++ more) := by
  unfold functionRound at taken ⊢
  obtain ⟨_, found, same⟩ := Option.map_eq_some_iff.mp taken
  have lt := find_length found
  rw [find_append found more, Option.map_some, take_append_of_le_length (by omega), drop_append_of_le_length lt]
  cases same
  rfl

theorem parameterRound_append (more : List Char) (taken : parameterRound convert s slice = some (s', out, rest)) :
    parameterRound convert s (slice ++ more) = some (s', out, rest ++ more) := by
  unfold parameterRound at taken ⊢
  obtain ⟨_, found, ended⟩ := Option.bind_eq_some_iff.mp taken
  obtain ⟨⟨_, _⟩, first, same⟩ := Option.map_eq_some_iff.mp ended
  have lt := find_length found
  have within := earliest_length first
  rw [find_append found more, Option.bind_some, drop_append_of_le_length lt]
  dsimp only
  rw [earliest_append ends_free ends_headed first more, Option.map_some, take_append_of_le_length (by omega),
    take_append_of_le_length (by omega)]
  rw [length_drop] at within
  rw [drop_append_of_le_length (by omega)]
  cases same
  rfl

theorem drop_tag {tag : List Char} (here : tag <+: slice) (more : List Char) :
    (slice ++ more).drop tag.length = slice.drop tag.length ++ more := drop_append_of_le_length here.length_le

theorem textRound_append (angle : '<' ∈ slice) (more : List Char) (taken : textRound s slice = some (s', out, rest)) :
    Settled slice ∧ textRound s (slice ++ more) = some (s', out, rest ++ more) := by
  unfold textRound at taken
  split at taken
  · next none => exact absurd angle (find_letter_none.mp none)
  · next found =>
    split at taken
    · cases taken
    · next unlike =>
      have none : ∀ tag ∈ possibleTags, ¬ slice <+: tag := by
        intro tag mem begins
        exact unlike (any_eq_true.mpr ⟨tag, mem, List.isPrefixOf_iff_prefix.mpr begins⟩)
      have unlike' : ¬ possibleTags.any (fun tag => (slice ++ more).isPrefixOf tag) = true := by
        intro like
        obtain ⟨tag, mem, begins⟩ := any_eq_true.mp like
        exact none tag mem ((prefix_append slice more).trans (List.isPrefixOf_iff_prefix.mp begins))
      refine ⟨fun tag mem begins => absurd begins (none tag mem), ?_⟩
      unfold textRound
      rw [find_append found more, if_neg unlike', drop_append_of_le_length (find_length found)]
      cases taken
      rfl
  · next _ nonzero found =>
    obtain ⟨before, _⟩ := find_letter_split found
    obtain ⟨n, rfl⟩ := Nat.exists_eq_succ_of_ne_zero nonzero
    have settled : Settled slice := by
      obtain ⟨c, _, rfl⟩ := exists_cons_of_ne_nil (ne_nil_of_mem angle)
      refine settled_of_head (fun same => before ?_)
      rw [same]
      exact mem_cons_self
    refine ⟨settled, ?_⟩
    have lt := find_length found
    unfold textRound
    rw [find_append found more]
    change some (s, plainText s ((slice ++ more).take (n + 1)), (slice ++ more).drop (n + 1)) = _
    rw [take_append_of_le_length (by omega), drop_append_of_le_length (by omega)]
    cases taken
    rfl

theorem tags_listed : toolCallStartToken ∈ possibleTags ∧ toolCallPrefix ∈ possibleTags ∧ parameterPrefix ∈ possibleTags ∧
    functionEndToken ∈ possibleTags ∧ toolCallEndToken ∈ possibleTags := by
  decide +kernel

theorem round_settled (angle : '<' ∈ slice) (taken : round convert s slice = some (s', out, rest)) : Settled slice := by
  obtain ⟨start, name, parameter, ends, stop⟩ := tags_listed
  by_contra open_
  have none {tag : List Char} (mem : tag ∈ possibleTags) : ¬ tag <+: slice := fun here => open_ (settled_of_tag mem here)
  unfold round at taken
  rw [if_neg (ne_nil_of_mem angle), if_neg (none start), if_neg (none name), if_neg (none parameter), if_neg (none ends), if_neg (none stop)] at taken
  exact open_ (textRound_append angle [] taken).1

theorem round_append (angle : '<' ∈ slice) (more : List Char) (taken : round convert s slice = some (s', out, rest)) :
    round convert s (slice ++ more) = some (s', out, rest ++ more) := by
  have settled := round_settled angle taken
  obtain ⟨start, name, parameter, ends, stop⟩ := tags_listed
  unfold round at taken ⊢
  rw [if_neg (ne_nil_of_mem angle)] at taken
  rw [if_neg (fun none => ne_nil_of_mem angle (append_eq_nil_iff.mp none).1)]
  simp only [settled.tag_iff start, settled.tag_iff name, settled.tag_iff parameter, settled.tag_iff ends, settled.tag_iff stop]
  by_cases here : toolCallStartToken <+: slice
  · rw [if_pos here] at taken ⊢
    rw [drop_tag here]
    cases taken
    rfl
  rw [if_neg here] at taken ⊢
  by_cases here : toolCallPrefix <+: slice
  · rw [if_pos here] at taken ⊢
    exact functionRound_append more taken
  rw [if_neg here] at taken ⊢
  by_cases here : parameterPrefix <+: slice
  · rw [if_pos here] at taken ⊢
    exact parameterRound_append more taken
  rw [if_neg here] at taken ⊢
  by_cases here : functionEndToken <+: slice
  · rw [if_pos here] at taken ⊢
    rw [drop_tag here]
    cases taken
    rfl
  rw [if_neg here] at taken ⊢
  by_cases here : toolCallEndToken <+: slice
  · rw [if_pos here] at taken ⊢
    rw [drop_tag here]
    cases taken
    rfl
  rw [if_neg here] at taken ⊢
  exact (textRound_append angle more taken).2

theorem round_plain (some : slice ≠ []) (plain : '<' ∉ slice) : round convert s slice = .some (s, plainText s slice, []) := by
  have none {tag : List Char} (mem : tag ∈ possibleTags) : ¬ tag <+: slice := by
    intro here
    obtain ⟨_, rfl, _⟩ := tags_headed tag mem
    exact plain (here.subset mem_cons_self)
  obtain ⟨start, name, parameter, ends, stop⟩ := tags_listed
  unfold round
  rw [if_neg some, if_neg (none start), if_neg (none name), if_neg (none parameter), if_neg (none ends), if_neg (none stop)]
  unfold textRound
  rw [find_letter_none.mpr plain]

theorem drain_front (convert : Convert) (s : Cursor) {front : List Char} (plain : '<' ∉ front) (rest : List Char) :
    Rounds.drain (round convert) s (front ++ '<' :: rest) = Rounds.emit (plainText s front) (Rounds.drain (round convert) s ('<' :: rest)) := by
  cases front with
  | nil =>
    have nothing : plainText s [] = 1 := by
      unfold plainText
      rw [ite_self]
      rfl
    rw [nil_append, nothing, emit_one]
  | cons c front =>
    have other : c ≠ '<' := fun same => plain (by rw [same]; exact mem_cons_self)
    have none {tag : List Char} (mem : tag ∈ possibleTags) : ¬ tag <+: c :: front ++ '<' :: rest := by
      intro here
      obtain ⟨_, rfl, _⟩ := tags_headed tag mem
      exact other (List.cons_prefix_cons.mp here).1.symm
    obtain ⟨start, name, parameter, ends, stop⟩ := tags_listed
    refine drain_some (round_consumes convert) ?_
    unfold round
    rw [if_neg (by rw [cons_append]; exact cons_ne_nil _ _), if_neg (none start), if_neg (none name), if_neg (none parameter),
      if_neg (none ends), if_neg (none stop)]
    unfold textRound
    rw [find_letter_at plain]
    change some (s, plainText s ((c :: front ++ '<' :: rest).take (c :: front).length), (c :: front ++ '<' :: rest).drop (c :: front).length) = _
    rw [take_left, drop_left]

theorem drain_plain (convert : Convert) (s : Cursor) {text : List Char} (plain : '<' ∉ text) (more : List Char) :
    Rounds.drain (round convert) s (text ++ more) = Rounds.emit (plainText s text) (Rounds.drain (round convert) s more) := by
  have consumes := round_consumes convert
  have alone {text : List Char} (plain : '<' ∉ text) : Rounds.drain (round convert) s text = (s, plainText s text, []) := by
    cases text with
    | nil =>
      rw [drain_nil consumes]
      unfold plainText
      rw [ite_self]
      rfl
    | cons c text =>
      rw [drain_some consumes (round_plain (cons_ne_nil c text) plain), drain_nil consumes]
      unfold Rounds.emit
      rw [mul_one]
  by_cases angle : '<' ∈ more
  · obtain ⟨_, _, rfl, before⟩ := eq_append_cons_of_mem angle
    rw [← append_assoc, drain_front convert s (by rw [mem_append]; exact fun mem => mem.elim plain before), plainText_append,
      drain_front convert s before, emit_emit]
  · rw [alone (by rw [mem_append]; exact fun mem => mem.elim plain angle), alone angle, plainText_append]
    rfl

theorem round_stable (convert : Convert) : Rounds.Stable (round convert) := by
  intro s slice _ _ _ taken more
  by_cases angle : '<' ∈ slice
  · exact drain_some (round_consumes convert) (round_append angle more taken)
  · have some : slice ≠ [] := by
      rintro rfl
      rw [round_nil (round_consumes convert)] at taken
      cases taken
    rw [round_plain some angle] at taken
    cases taken
    rw [nil_append]
    exact drain_plain convert s angle more

end

theorem stream_eq (convert : Convert) (chunks : List (List Char)) : stream convert chunks =
      let result := Rounds.drain (round convert) init.toCursor chunks.flatten
      (result.2.1, ⟨result.1, result.2.2⟩) := by
  have steps (result : StreamingParseResult) (d : Qwen3CoderDetector) : chunks.foldl (fun (result, d) chunk =>
        let (more, d) := parseStreamingIncrement convert d chunk
        (result * more, d)) (result, d) =
      let later := chunks.foldl (Rounds.feed (round convert)) (d.toCursor, result, d.buffer)
      (later.2.1, ⟨later.1, later.2.2⟩) := by
    induction chunks generalizing result d with
    | nil => rfl
    | cons chunk chunks ih =>
      rw [foldl_cons, foldl_cons, ih]
      have step : (parseStreamingIncrement convert d chunk).2.toCursor = (Rounds.drain (round convert) d.toCursor (d.buffer ++ chunk)).1 ∧
          (parseStreamingIncrement convert d chunk).1 = (Rounds.drain (round convert) d.toCursor (d.buffer ++ chunk)).2.1 ∧
          (parseStreamingIncrement convert d chunk).2.buffer = (Rounds.drain (round convert) d.toCursor (d.buffer ++ chunk)).2.2 := by
        unfold parseStreamingIncrement
        dsimp only
        split
        · next none =>
          rw [none, drain_nil (round_consumes convert)]
          exact ⟨rfl, rfl, (append_eq_nil_iff.mp none).1⟩
        · exact ⟨rfl, rfl, rfl⟩
      obtain ⟨cursor, out, rest⟩ := step
      rw [cursor, out, rest]
      rfl
  unfold stream
  rw [steps, ← foldl_feed (round_consumes convert) (round_stable convert)]
  rfl

/-- However a text is cut, its stream gives the same text, the same call items and the same detector. -/
theorem stream_chunks (convert : Convert) {chunks chunks' : List (List Char)} (same : chunks.flatten = chunks'.flatten) :
    stream convert chunks = stream convert chunks' := by
  rw [stream_eq, stream_eq, same]

theorem stream_chunks_halves : let text := "a<b<tool_call><function=f><parameter=x>1</parameter></function></tool_".toList
    (stream (fun _ _ value => .string value) [text]).2.buffer = "</tool_".toList ∧
      stream (fun _ _ value => .string value) [text.take 7, text.drop 7] = stream (fun _ _ value => .string value) [text] :=
  ⟨by decide +kernel, stream_chunks _ (by simp)⟩

end Qwen3CoderDetector

end TriaxialKV.Parser
