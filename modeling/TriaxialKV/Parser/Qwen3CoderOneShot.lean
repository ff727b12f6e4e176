import TriaxialKV.Lib.Regex
import TriaxialKV.Parser.Qwen3Coder

/-! # Tool calls of Qwen3-Coder in one piece -/

namespace TriaxialKV.Parser.Qwen3CoderDetector
open List Text Regex

variable {gap opening other stop : List Char}

/-! ### `detect_and_parse` -/

def toolCallRegex (text : List Char) : List (List Char) := Regex.findall toolCallStartToken (Regex.lazily (Regex.lit toolCallEndToken)) text

/-- `<function=(.*?)</function>|<function=(.*)$` -/
def functionGroup (text : List Char) : Option (List Char × List Char) := Regex.lazily (Regex.lit functionEndToken) text <|> some (text, [])

def toolCallFunctionRegex (text : List Char) : List (List Char) := Regex.findall toolCallPrefix functionGroup text

/-- `</parameter>|(?=<parameter=)|(?=</function>)|$` -/
def parameterStop : Regex.Pattern :=
  Regex.either (Regex.lit parameterEndToken) (Regex.either (Regex.look parameterPrefix) (Regex.either (Regex.look functionEndToken) atEnd))

def toolCallParameterRegex (text : List Char) : List (List Char) := Regex.findall parameterPrefix (Regex.lazily parameterStop) text

/-- `d[key] = value`; a dict keeps the order of its keys. -/
def setItem (d : List (List Char × Json)) (key : List Char) (value : Json) : List (List Char × Json) :=
  if key ∈ d.map Prod.fst then d.map (fun member => if member.1 = key then (key, value) else member)
  else d ++ [(key, value)]

section
variable (convert : Convert)

def parseParameter (funcName : List Char) (parsedParams : List (List Char × Json)) (pMatch : List Char) : List (List Char × Json) :=
  match find ['>'] pMatch with
  | none => parsedParams
  | some pIdx =>
    let pName := pMatch.take pIdx
    setItem parsedParams pName (convert (some funcName) pName (cleanValue (pMatch.drop (pIdx + 1))))

def parseFunction (found : Int × List ToolCallItem) (funcBody : List Char) : Int × List ToolCallItem :=
  match find ['>'] funcBody with
  | none => found
  | some nameEnd =>
    let (toolIdx, calls) := found
    let funcName := funcBody.take nameEnd
    let paramsStr := funcBody.drop (nameEnd + 1)
    let parsedParams := (toolCallParameterRegex paramsStr).foldl (parseParameter convert funcName) []
    (toolIdx + 1, calls ++ [⟨toolIdx, some funcName, Json.dumps false (.object parsedParams)⟩])

def detectAndParse (text : List Char) : StreamingParseResult :=
  if ¬ toolCallStartToken <:+: text then ⟨text, []⟩
  else
    let rawToolCalls := toolCallRegex text
    let rawToolCalls := if rawToolCalls = [] ∧ toolCallPrefix <:+: text then [text] else rawToolCalls
    let (_, calls) := (rawToolCalls.flatMap toolCallFunctionRegex).foldl (parseFunction convert) (0, [])
    let normalText := match find toolCallStartToken text <|> find toolCallPrefix text with
      | some startIdx => text.take startIdx
      | none => []
    ⟨normalText, calls⟩

end

/-! ### Well-formed texts -/

def Free (text : List Char) : Prop := ∀ tag ∈ possibleTags, ¬ tag <:+: text

instance (text : List Char) : Decidable (Free text) := inferInstanceAs (Decidable (∀ tag ∈ possibleTags, _))

def spell (pieces : List (List Char × List Char)) : List Char := pieces.flatMap (fun piece => piece.1 ++ piece.2)

structure ParameterElement where
  name : List Char
  value : List Char
  gap : List Char
  name_angle : '>' ∉ name
  name_free : Free (name ++ ['>'])
  value_free : Free value
  gap_free : Free gap

def ParameterElement.pieces (p : ParameterElement) : List (List Char × List Char) :=
  [(parameterPrefix, p.name ++ '>' :: p.value), (parameterEndToken, p.gap)]

structure FunctionElement where
  name : List Char
  opening : List Char
  parameters : List ParameterElement
  gap : List Char
  name_angle : '>' ∉ name
  name_free : Free (name ++ ['>'])
  opening_free : Free opening
  gap_free : Free gap
  distinct : (parameters.map ParameterElement.name).Nodup

def FunctionElement.pieces (f : FunctionElement) : List (List Char × List Char) :=
  (toolCallPrefix, f.name ++ '>' :: f.opening) :: (f.parameters.flatMap ParameterElement.pieces ++ [(functionEndToken, f.gap)])

structure ToolCallBlock where
  opening : List Char
  functions : List FunctionElement
  gap : List Char
  opening_free : Free opening
  gap_free : Free gap

def ToolCallBlock.pieces (b : ToolCallBlock) : List (List Char × List Char) :=
  (toolCallStartToken, b.opening) :: (b.functions.flatMap FunctionElement.pieces ++ [(toolCallEndToken, b.gap)])

structure Document where
  leading : List Char
  blocks : List ToolCallBlock
  leading_free : Free leading

def Document.text (d : Document) : List Char := d.leading ++ spell (d.blocks.flatMap ToolCallBlock.pieces)

def Document.functions (d : Document) : List FunctionElement := d.blocks.flatMap ToolCallBlock.functions

/-! ### Where the tags are -/

def Boundary (rest : List Char) : Prop := ∀ d ∈ rest.head?, d = '<'

theorem boundary_nil : Boundary [] := nofun

theorem tags_closed : ∀ tag ∈ possibleTags, '>' ∉ tag.dropLast := by decide +kernel

theorem end_listed : parameterEndToken ∈ possibleTags := by decide +kernel

def Proper (pieces : List (List Char × List Char)) : Prop := ∀ piece ∈ pieces, piece.1 ∈ possibleTags ∧ Free piece.2

section
variable {tag front rest name text : List Char} {pieces : List (List Char × List Char)}

theorem boundary_tag (listed : tag ∈ possibleTags) (rest : List Char) : Boundary (tag ++ rest) := by
  obtain ⟨_, rfl, _⟩ := tags_headed tag listed
  rintro d ⟨⟩
  rfl

theorem boundary_spell (proper : Proper pieces) (boundary : Boundary rest) : Boundary (spell pieces ++ rest) := by
  cases pieces with
  | nil => exact boundary
  | cons piece pieces =>
    unfold spell
    rw [flatMap_cons, append_assoc, append_assoc]
    exact boundary_tag (proper piece mem_cons_self).1 _

theorem quiet_of_absent (listed : tag ∈ possibleTags) (absent : ¬ tag <:+: front) (boundary : Boundary rest) :
    ∀ tail, tail ≠ [] → tail <:+ front → ¬ tag <+: tail ++ rest := by
  intro tail nonempty lt here
  exact absent ((prefix_of_headed (tags_headed tag listed) nonempty boundary here).isInfix.trans lt.isInfix)

theorem absent_append (listed : tag ∈ possibleTags) (absent : ¬ tag <:+: front) (absent' : ¬ tag <:+: rest) (boundary : Boundary rest) :
    ¬ tag <:+: front ++ rest := by
  intro occurs
  exact (infix_of_headed (tags_headed tag listed) boundary occurs).elim absent absent'

theorem free_named (name_free : Free (name ++ ['>'])) (free : Free text) : Free (name ++ '>' :: text) := by
  intro tag listed occurs
  obtain ⟨left, right, same⟩ := occurs
  rw [append_cons name, append_assoc left] at same
  rcases append_cases same.symm with ⟨more, _, split⟩ | ⟨more, split, _⟩ | ⟨head, _, some, some', rfl, split, _⟩
  · exact free tag listed ⟨more, right, by rw [split, append_assoc]⟩
  · exact name_free tag listed ⟨left, more, split.symm⟩
  · refine tags_closed _ listed ?_
    have last : '>' ∈ head := by
      refine mem_of_getLast? ?_
      rw [← getLast?_append_of_ne_nil left some, ← split, getLast?_append_of_ne_nil name (cons_ne_nil _ _)]
      rfl
    rw [dropLast_append_of_ne_nil some']
    exact mem_append_left _ last

theorem absent_piece (listed : tag ∈ possibleTags) (listed' : other ∈ possibleTags) (differ : tag ≠ other) (free : Free text) :
    ¬ tag <:+: other ++ text := by
  intro occurs
  obtain ⟨_, same, once⟩ := tags_headed other listed'
  rw [same, cons_append, infix_cons_iff, ← cons_append, ← same] at occurs
  rcases occurs with here | ⟨_, right, later⟩
  · rcases prefix_or_prefix_of_prefix here (prefix_append other text) with short | long
    · exact differ (tags_free tag listed other listed' short)
    · exact differ (tags_free other listed' tag listed long).symm
  · obtain ⟨_, rfl, _⟩ := tags_headed tag listed
    rw [append_assoc] at later
    rcases append_cases later.symm with ⟨more, _, split⟩ | ⟨more, rfl, _⟩ | ⟨head, _, some, _, word, rfl, _⟩
    · exact free _ listed ⟨more, right, by rw [split, append_assoc]⟩
    · exact once (by simp)
    · obtain ⟨c, head, rfl⟩ := exists_cons_of_ne_nil some
      obtain ⟨rfl, _⟩ := List.cons.inj word
      exact once (by simp)

theorem absent_spell (listed : tag ∈ possibleTags) (proper : Proper pieces) (absent : tag ∉ pieces.map Prod.fst) : ¬ tag <:+: spell pieces := by
  induction pieces with
  | nil =>
    obtain ⟨_, rfl, _⟩ := tags_headed tag listed
    exact fun occurs => cons_ne_nil _ _ (List.infix_nil.mp occurs)
  | cons piece pieces ih =>
    rw [map_cons, mem_cons, not_or] at absent
    obtain ⟨listed', free⟩ := proper piece mem_cons_self
    have later : Proper pieces := fun piece mem => proper piece (mem_cons_of_mem _ mem)
    unfold spell
    rw [flatMap_cons]
    refine absent_append listed (absent_piece listed listed' absent.1 free) (ih later absent.2) ?_
    rw [← append_nil (List.flatMap _ _)]
    exact boundary_spell later boundary_nil

end

/-! ### The expressions on well-formed texts -/

section

theorem findall_elements {ε : Type} {start : List Char} {group : List Char → Option (List Char × List Char)}
    (listed : start ∈ possibleTags) (shrinks : Regex.Shrinks group) {opening gap : ε → List Char}
    {inside : ε → List (List Char × List Char)}
    (ends : ∀ e rest, group (opening e ++ (spell (inside e) ++ (stop ++ rest))) = some (opening e ++ spell (inside e), rest))
    (free : ∀ e, Free (gap e)) {front : List Char} (front_free : Free front) (elements : List ε) :
    Regex.findall start group (front ++ spell (elements.flatMap (fun e => (start, opening e) :: (inside e ++ [(stop, gap e)])))) =
      elements.map (fun e => opening e ++ spell (inside e)) := by
  have nonempty : start ≠ [] := by
    obtain ⟨_, rfl, _⟩ := tags_headed start listed
    exact cons_ne_nil _ _
  induction elements generalizing front with
  | nil => exact findall_skip (quiet_of_absent listed (front_free start listed) boundary_nil)
  | cons e elements ih =>
    have spelt : spell ((e :: elements).flatMap (fun e => (start, opening e) :: (inside e ++ [(stop, gap e)]))) =
        start ++ (opening e ++ (spell (inside e) ++
          (stop ++ (gap e ++ spell (elements.flatMap (fun e => (start, opening e) :: (inside e ++ [(stop, gap e)]))))))) := by
      unfold spell
      simp
    rw [spelt, findall_skip (quiet_of_absent listed (front_free start listed) (boundary_tag listed _)),
      findall_here nonempty shrinks (ends e _), ih (free e), map_cons]

theorem lazily_lit {rest : List Char} {inside : List (List Char × List Char)} (listed : stop ∈ possibleTags) (free : Free opening)
    (proper : Proper inside) (absent : stop ∉ inside.map Prod.fst) :
    Regex.lazily (Regex.lit stop) (opening ++ (spell inside ++ (stop ++ rest))) = some (opening ++ spell inside, rest) := by
  rw [← append_assoc]
  have boundary := boundary_spell proper boundary_nil
  rw [append_nil] at boundary
  refine lazily_skip (fun tail nonempty within => ?_) (lit_append stop rest)
  refine if_neg (quiet_of_absent listed ?_ (boundary_tag listed rest) tail nonempty within)
  exact absent_append listed (free stop listed) (absent_spell listed proper absent) boundary

theorem ParameterElement.proper (p : ParameterElement) : Proper p.pieces := by
  obtain ⟨_, _, parameter, _, _⟩ := tags_listed
  unfold pieces Proper
  simp only [forall_mem_cons]
  exact ⟨⟨parameter, free_named p.name_free p.value_free⟩, ⟨end_listed, p.gap_free⟩, nofun⟩

variable (parameters : List ParameterElement)

theorem parameters_proper : Proper (parameters.flatMap ParameterElement.pieces) := by
  intro piece mem
  obtain ⟨p, _, here⟩ := mem_flatMap.mp mem
  exact p.proper piece here

theorem FunctionElement.proper (f : FunctionElement) : Proper f.pieces := by
  obtain ⟨_, name, _, ends, _⟩ := tags_listed
  unfold pieces Proper
  rw [forall_mem_cons, forall_mem_append, forall_mem_singleton]
  exact ⟨⟨name, free_named f.name_free f.opening_free⟩, parameters_proper f.parameters, ends, f.gap_free⟩

theorem functions_proper (functions : List FunctionElement) : Proper (functions.flatMap FunctionElement.pieces) := by
  intro piece mem
  obtain ⟨f, _, here⟩ := mem_flatMap.mp mem
  exact f.proper piece here

theorem ToolCallBlock.proper (b : ToolCallBlock) : Proper b.pieces := by
  obtain ⟨start, _, _, _, stop⟩ := tags_listed
  unfold pieces Proper
  rw [forall_mem_cons, forall_mem_append, forall_mem_singleton]
  exact ⟨⟨start, b.opening_free⟩, functions_proper b.functions, stop, b.gap_free⟩

theorem parameters_tags : ∀ tag ∈ (parameters.flatMap ParameterElement.pieces).map Prod.fst, tag = parameterPrefix ∨ tag = parameterEndToken := by
  intro tag mem
  obtain ⟨_, here, rfl⟩ := mem_map.mp mem
  obtain ⟨p, _, lt⟩ := mem_flatMap.mp here
  unfold ParameterElement.pieces at lt
  rcases mem_pair.mp lt with rfl | rfl
  · exact .inl rfl
  · exact .inr rfl

theorem functions_tags (functions : List FunctionElement) : ∀ tag ∈ (functions.flatMap FunctionElement.pieces).map Prod.fst,
      tag = toolCallPrefix ∨ tag = functionEndToken ∨ tag = parameterPrefix ∨ tag = parameterEndToken := by
  intro tag mem
  obtain ⟨_, here, rfl⟩ := mem_map.mp mem
  obtain ⟨f, _, lt⟩ := mem_flatMap.mp here
  unfold FunctionElement.pieces at lt
  rcases mem_cons.mp lt with rfl | lt
  · exact .inl rfl
  · rcases mem_append.mp lt with lt | last
    · exact .inr (.inr (parameters_tags f.parameters _ (mem_map_of_mem lt)))
    · rw [mem_singleton.mp last]
      exact .inr (.inl rfl)

theorem callRegex_document (d : Document) :
    toolCallRegex d.text = d.blocks.map (fun b => b.opening ++ spell (b.functions.flatMap FunctionElement.pieces)) := by
  obtain ⟨start, _, _, _, stop⟩ := tags_listed
  refine findall_elements start (within_lit _).lazily (fun b rest => ?_)
    (·.gap_free) d.leading_free d.blocks
  refine lazily_lit stop b.opening_free (functions_proper b.functions) (fun mem => ?_)
  have other : toolCallEndToken ∉ [toolCallPrefix, functionEndToken, parameterPrefix, parameterEndToken] := by decide +kernel
  exact other (by simpa using functions_tags b.functions _ mem)

theorem functionRegex_functions (free : Free opening) (functions : List FunctionElement) :
    toolCallFunctionRegex (opening ++ spell (functions.flatMap FunctionElement.pieces)) =
      functions.map (fun f => f.name ++ '>' :: f.opening ++ spell (f.parameters.flatMap ParameterElement.pieces)) := by
  obtain ⟨_, name, _, ends, _⟩ := tags_listed
  refine findall_elements name (fun text found rest matched => ?_) (fun f rest => ?_) (·.gap_free) free functions
  · unfold functionGroup at matched
    cases closed : Regex.lazily (Regex.lit functionEndToken) text with
    | none =>
      rw [closed] at matched
      cases matched
      exact Nat.zero_le _
    | some parts =>
      rw [closed] at matched
      cases matched
      exact (within_lit _).lazily _ _ _ closed
  · unfold functionGroup
    rw [lazily_lit ends (free_named f.name_free f.opening_free) (parameters_proper f.parameters) (fun mem => ?_)]
    · rfl
    · have other : functionEndToken ∉ [parameterPrefix, parameterEndToken] := by decide +kernel
      exact other (by simpa using parameters_tags f.parameters _ mem)

theorem within_parameterStop : Regex.Within parameterStop := (within_lit _).either ((within_look _).either ((within_look _).either within_atEnd))

theorem lazily_parameterStop {text : List Char} (free : Free text) (rest : List Char) :
    Regex.lazily parameterStop (text ++ (spell [] ++ (parameterEndToken ++ rest))) = some (text ++ spell [], rest) := by
  obtain ⟨_, _, parameter, ends, _⟩ := tags_listed
  have nothing : spell [] = [] := rfl
  rw [nothing, append_nil, nil_append]
  refine lazily_skip (fun tail nonempty within => ?_) ?_
  · have boundary := boundary_tag end_listed rest
    have quiet {tag : List Char} (listed : tag ∈ possibleTags) := quiet_of_absent listed (free tag listed) boundary tail nonempty within
    have more : ¬ (tail ++ (parameterEndToken ++ rest) = [] ∨ tail ++ (parameterEndToken ++ rest) = ['\n']) := by
      obtain ⟨_, same, _⟩ := tags_headed parameterEndToken end_listed
      obtain ⟨c, tail, rfl⟩ := exists_cons_of_ne_nil nonempty
      rw [same]
      simp
    unfold parameterStop Regex.either Regex.lit Regex.look atEnd
    rw [if_neg (quiet end_listed), if_neg (quiet parameter), if_neg (quiet ends), if_neg more]
    rfl
  · unfold parameterStop Regex.either
    rw [lit_append]
    rfl

theorem parameterRegex_parameters (free : Free opening) (parameters : List ParameterElement) :
    toolCallParameterRegex (opening ++ spell (parameters.flatMap ParameterElement.pieces)) = parameters.map (fun p => p.name ++ '>' :: p.value) := by
  obtain ⟨_, _, parameter, _, _⟩ := tags_listed
  have elements : Regex.findall parameterPrefix (Regex.lazily parameterStop)
      (opening ++ spell (parameters.flatMap (fun p => (parameterPrefix, p.name ++ '>' :: p.value) :: ([] ++ [(parameterEndToken, p.gap)])))) =
      parameters.map (fun p => p.name ++ '>' :: p.value ++ spell []) :=
    findall_elements parameter within_parameterStop.lazily (fun p rest => lazily_parameterStop (free_named p.name_free p.value_free) rest)
      (·.gap_free) free parameters
  have nothing : spell [] = [] := rfl
  simp only [nothing, append_nil] at elements
  exact elements

end

/-! ### The calls of a document -/

section
variable (convert : Convert)

def FunctionElement.members (f : FunctionElement) : List (List Char × Json) :=
  f.parameters.map (fun p => (p.name, convert (some f.name) p.name (cleanValue p.value)))

def parsedFrom (toolIdx : Int) : List FunctionElement → List ToolCallItem
  | [] => []
  | f :: functions => ⟨toolIdx, some f.name, Json.dumps false (.object (f.members convert))⟩ :: parsedFrom (toolIdx + 1) functions

theorem foldl_parseParameter (funcName : List Char) (parameters : List ParameterElement) {d : List (List Char × Json)}
    (nodup : (d.map Prod.fst ++ parameters.map ParameterElement.name).Nodup) :
    (parameters.map (fun p => p.name ++ '>' :: p.value)).foldl (parseParameter convert funcName) d =
      d ++ parameters.map (fun p => (p.name, convert (some funcName) p.name (cleanValue p.value))) := by
  induction parameters generalizing d with
  | nil => exact (append_nil d).symm
  | cons p parameters ih =>
    have fresh : p.name ∉ d.map Prod.fst := by
      intro mem
      exact (nodup_append.mp nodup).2.2 p.name mem p.name mem_cons_self rfl
    have step : parseParameter convert funcName d (p.name ++ '>' :: p.value) =
        d ++ [(p.name, convert (some funcName) p.name (cleanValue p.value))] := by
      unfold parseParameter setItem
      rw [find_letter_at p.name_angle]
      dsimp only
      rw [take_left, if_neg fresh, drop_past _ _ 0]
      rfl
    rw [map_cons, foldl_cons, step, ih, append_assoc]
    · rfl
    · rw [map_append, append_assoc]
      exact nodup

theorem foldl_parseFunction (functions : List FunctionElement) (toolIdx : Int) (calls : List ToolCallItem) :
    ((functions.map (fun f => f.name ++ '>' :: f.opening ++ spell (f.parameters.flatMap ParameterElement.pieces))).foldl
      (parseFunction convert) (toolIdx, calls)).2 = calls ++ parsedFrom convert toolIdx functions := by
  induction functions generalizing toolIdx calls with
  | nil => exact (append_nil calls).symm
  | cons f functions ih =>
    have step : parseFunction convert (toolIdx, calls) (f.name ++ '>' :: f.opening ++ spell (f.parameters.flatMap ParameterElement.pieces)) =
        (toolIdx + 1, calls ++ [⟨toolIdx, some f.name, Json.dumps false (.object (f.members convert))⟩]) := by
      unfold parseFunction
      rw [append_assoc, cons_append, find_letter_at f.name_angle]
      dsimp only
      rw [take_left, drop_past _ _ 0]
      change (_, calls ++ [⟨_, _, Json.dumps false (.object ((toolCallParameterRegex (f.opening ++ _)).foldl _ []))⟩]) = _
      rw [parameterRegex_parameters f.opening_free, foldl_parseParameter convert f.name f.parameters (d := []) f.distinct]
      rfl
    rw [map_cons, foldl_cons, step, ih, append_assoc]
    rfl

theorem Document.start_iff (d : Document) : toolCallStartToken <:+: d.text ↔ d.blocks ≠ [] := by
  unfold text
  constructor
  · intro occurs none
    rw [none, flatMap_nil] at occurs
    refine d.leading_free _ tags_listed.1 ?_
    rw [← append_nil d.leading]
    exact occurs
  · intro some
    obtain ⟨b, _, same⟩ := exists_cons_of_ne_nil some
    rw [same]
    unfold spell ToolCallBlock.pieces
    rw [flatMap_cons, cons_append, flatMap_cons, append_assoc]
    exact ⟨d.leading, _, append_assoc ..⟩

theorem detectAndParse_calls (d : Document) : (detectAndParse convert d.text).calls = parsedFrom convert 0 d.functions := by
  unfold detectAndParse Document.functions
  by_cases none : d.blocks = []
  · rw [if_pos (fun occurs => d.start_iff.mp occurs none), none]
    rfl
  · have bodies : (toolCallRegex d.text).flatMap toolCallFunctionRegex = (d.blocks.flatMap ToolCallBlock.functions).map
        (fun f => f.name ++ '>' :: f.opening ++ spell (f.parameters.flatMap ParameterElement.pieces)) := by
      rw [callRegex_document, flatMap_map, map_flatMap]
      exact flatMap_congr (fun b _ => functionRegex_functions b.opening_free b.functions)
    have found : ¬ (toolCallRegex d.text = [] ∧ toolCallPrefix <:+: d.text) := by
      rw [callRegex_document, map_eq_nil_iff]
      exact fun both => none both.1
    rw [if_neg (fun absent => absent (d.start_iff.mpr none))]
    dsimp only
    rw [if_neg found, bodies]
    exact foldl_parseFunction convert _ 0 []

end

/-! ### The stream of a document -/

section
variable (convert : Convert)

def callsOf (s : Cursor) (text : List Char) : List ToolCallItem := (Rounds.drain (round convert) s text).2.1.calls

variable {convert} {s s' : Cursor} {text rest : List Char}

theorem callsOf_some {out : StreamingParseResult} (taken : round convert s text = some (s', out, rest)) :
    callsOf convert s text = out.calls ++ callsOf convert s' rest := by
  unfold callsOf
  rw [Rounds.drain_some (round_consumes convert) taken]
  rfl

theorem callsOf_plain (plain : '<' ∉ text) (rest : List Char) : callsOf convert s (text ++ rest) = callsOf convert s rest := by
  unfold callsOf
  rw [drain_plain convert s plain rest]
  rfl

theorem callsOf_none (waits : round convert s text = none) : callsOf convert s text = [] := by
  unfold callsOf
  rw [Rounds.drain_none (round_consumes convert) waits]
  rfl

variable (convert s) in
theorem callsOf_angle (free : Free ('<' :: gap)) (boundary : Boundary rest) :
    callsOf convert s ('<' :: gap ++ rest) = callsOf convert s (gap ++ rest) ∨ rest = [] ∧ callsOf convert s ('<' :: gap ++ rest) = [] := by
  have none {tag : List Char} (listed : tag ∈ possibleTags) : ¬ tag <+: '<' :: gap ++ rest :=
    quiet_of_absent listed (free tag listed) boundary _ (cons_ne_nil _ _) suffix_rfl
  have first : find ['<'] ('<' :: gap ++ rest) = some 0 := find_letter_at (not_mem_nil) (gap ++ rest)
  obtain ⟨start, name, parameter, ends, stop⟩ := tags_listed
  have taken : round convert s ('<' :: gap ++ rest) =
      if possibleTags.any (fun tag => ('<' :: gap ++ rest).isPrefixOf tag) then Option.none else some (s, plainText s ['<'], gap ++ rest) := by
    unfold round
    rw [if_neg (by rw [cons_append]; exact cons_ne_nil _ _), if_neg (none start), if_neg (none name), if_neg (none parameter),
      if_neg (none ends), if_neg (none stop)]
    unfold textRound
    rw [first]
    rfl
  split at taken
  · next like =>
    refine .inr ⟨?_, callsOf_none taken⟩
    obtain ⟨tag, listed, begins⟩ := any_eq_true.mp like
    obtain ⟨lt, rfl, once⟩ := tags_headed tag listed
    have letters := (List.cons_prefix_cons.mp (List.isPrefixOf_iff_prefix.mp begins)).2
    cases rest with
    | nil => rfl
    | cons d rest =>
      refine absurd (letters.subset (mem_append_right gap ?_)) once
      rw [boundary d rfl]
      exact mem_cons_self
  · exact .inl (callsOf_some taken)

theorem callsOf_gap (free : Free gap) (boundary : Boundary rest) : callsOf convert s (gap ++ rest) = callsOf convert s rest := by
  induction length : gap.length using Nat.strongRecOn generalizing gap with
  | ind n ih =>
    by_cases angle : '<' ∈ gap
    · obtain ⟨front, back, rfl, before⟩ := eq_append_cons_of_mem angle
      have behind {text : List Char} (lt : text <:+ front ++ '<' :: back) : Free text :=
        fun tag listed occurs => free tag listed (occurs.trans lt.isInfix)
      rw [append_assoc, callsOf_plain before]
      rcases callsOf_angle convert s (behind (suffix_append _ _)) boundary with same | ⟨rfl, none⟩
      · rw [same]
        refine ih back.length ?_ (behind ((suffix_cons _ _).trans (suffix_append _ _))) rfl
        rw [← length, length_append, length_cons]
        omega
      · rw [none]
        exact (callsOf_none (Rounds.round_nil (round_consumes convert) s)).symm
    · exact callsOf_plain angle rest

theorem unlike_tag {tag : List Char} (listed : tag ∈ possibleTags) (listed' : other ∈ possibleTags) (differ : tag ≠ other) (rest : List Char) :
    ¬ tag <+: other ++ rest := by
  intro here
  rcases prefix_or_prefix_of_prefix here (prefix_append other rest) with short | long
  · exact differ (tags_free tag listed other listed' short)
  · exact differ (tags_free other listed' tag listed long).symm

theorem tag_append_ne_nil {tag : List Char} (listed : tag ∈ possibleTags) (rest : List Char) : tag ++ rest ≠ [] := by
  obtain ⟨_, rfl, _⟩ := tags_headed tag listed
  exact cons_ne_nil _ _

variable (convert s)

theorem callsOf_start (rest : List Char) :
    callsOf convert s (toolCallStartToken ++ rest) = callsOf convert { s with isInsideToolCall := true } rest := by
  have taken : round convert s (toolCallStartToken ++ rest) = some ({ s with isInsideToolCall := true }, 1, rest) := by
    unfold round
    rw [if_neg (tag_append_ne_nil tags_listed.1 rest), if_pos (prefix_append _ _), drop_left]
  exact callsOf_some taken

theorem callsOf_function {name : List Char} (angle : '>' ∉ name) (rest : List Char) :
    callsOf convert s (toolCallPrefix ++ (name ++ '>' :: rest)) = ⟨s.currentToolId + 1, some name, []⟩ ::
        callsOf convert { s with
          currentToolId := s.currentToolId + 1
          currentToolNameSent := true
          currentToolParamCount := 0
          jsonStarted := false
          currentFuncName := some name } rest := by
  obtain ⟨start, function, _, _, _⟩ := tags_listed
  have open_ : '>' ∉ toolCallPrefix := by decide +kernel
  have angle' : '>' ∉ toolCallPrefix ++ name := by
    rw [mem_append]
    exact fun mem => mem.elim open_ angle
  have taken : round convert s (toolCallPrefix ++ (name ++ '>' :: rest)) = some ({ s with
        currentToolId := s.currentToolId + 1
        currentToolNameSent := true
        currentToolParamCount := 0
        jsonStarted := false
        currentFuncName := some name }, ⟨[], [⟨s.currentToolId + 1, some name, []⟩]⟩, rest) := by
    unfold round
    rw [if_neg (tag_append_ne_nil function _), if_neg (unlike_tag start function (by decide +kernel) _), if_pos (prefix_append _ _)]
    unfold functionRound
    rw [← append_assoc, find_letter_at angle', Option.map_some, take_left, drop_left, drop_past _ _ 0]
    rfl
  exact callsOf_some taken

def fragment (convert : Convert) (funcName : Option (List Char)) (later : Bool) (p : ParameterElement) : List Char :=
  (if later then [',', ' '] else []) ++
    (Json.dumpsString true p.name ++ ':' :: ' ' :: Json.dumps false (convert funcName p.name (cleanValue p.value)))

theorem earliest_value {value : List Char} (free : Free value) (rest : List Char) :
    earliest parameterEnds (value ++ (parameterEndToken ++ rest)) = some (value.length, parameterEndToken.length) := by
  have listed : ∀ word ∈ parameterEnds, word.1 ∈ possibleTags := by decide +kernel
  refine (earliest_eq_some_iff ends_free).mpr ⟨by rw [length_append]; omega, ⟨parameterEndToken, mem_cons_self, ?_⟩, ?_⟩
  · rw [drop_left]
    exact prefix_append _ _
  · intro q _ other mem
    rw [drop_append_of_le_length (by omega)]
    refine quiet_of_absent (listed other mem) (free _ (listed other mem)) (boundary_tag end_listed rest) _ ?_ (drop_suffix q value)
    rw [ne_eq, drop_eq_nil_iff]
    omega

theorem callsOf_parameter (p : ParameterElement) (boundary : Boundary rest) : callsOf convert s (spell p.pieces ++ rest) =
      openObject s ++ ⟨s.currentToolId, none, fragment convert s.currentFuncName (decide (s.currentToolParamCount > 0)) p⟩ ::
        callsOf convert { s with jsonStarted := true, currentToolParamCount := s.currentToolParamCount + 1 } rest := by
  obtain ⟨start, function, parameter, _, _⟩ := tags_listed
  have open_ : '>' ∉ parameterPrefix := by decide +kernel
  have angle : '>' ∉ parameterPrefix ++ p.name := by
    rw [mem_append]
    exact fun mem => mem.elim open_ p.name_angle
  have spelt : spell p.pieces ++ rest = parameterPrefix ++ (p.name ++ '>' :: (p.value ++ (parameterEndToken ++ (p.gap ++ rest)))) := by
    unfold spell ParameterElement.pieces
    simp
  have taken : round convert s (parameterPrefix ++ (p.name ++ '>' :: (p.value ++ (parameterEndToken ++ (p.gap ++ rest))))) =
      some ({ s with jsonStarted := true, currentToolParamCount := s.currentToolParamCount + 1 },
        ⟨[], openObject s ++ [⟨s.currentToolId, none, fragment convert s.currentFuncName (decide (s.currentToolParamCount > 0)) p⟩]⟩,
          p.gap ++ rest) := by
    unfold round
    rw [if_neg (tag_append_ne_nil parameter _), if_neg (unlike_tag start parameter (by decide +kernel) _),
      if_neg (unlike_tag function parameter (by decide +kernel) _), if_pos (prefix_append _ _)]
    unfold parameterRound
    rw [← append_assoc, find_letter_at angle, Option.bind_some, take_left, drop_left, drop_past _ _ 0, drop_zero]
    dsimp only
    have behind : (parameterPrefix ++ p.name ++ '>' :: (p.value ++ (parameterEndToken ++ (p.gap ++ rest)))).drop
        ((parameterPrefix ++ p.name).length + 1 + p.value.length + parameterEndToken.length) = p.gap ++ rest := by
      rw [Nat.add_assoc _ p.value.length, drop_past, ← append_assoc p.value, ← length_append, drop_left]
    have text : (if s.currentToolParamCount > 0 then
        ',' :: ' ' :: (Json.dumpsString true p.name ++ ':' :: ' ' :: Json.dumps false (convert s.currentFuncName p.name (cleanValue p.value)))
        else Json.dumpsString true p.name ++ ':' :: ' ' :: Json.dumps false (convert s.currentFuncName p.name (cleanValue p.value))) =
        fragment convert s.currentFuncName (decide (s.currentToolParamCount > 0)) p := by
      unfold fragment
      split
      · next later => rw [decide_eq_true later]; rfl
      · next first => rw [decide_eq_false first]; rfl
    rw [earliest_value p.value_free, Option.map_some]
    rw [take_left, behind, text]
  rw [spelt, callsOf_some taken, callsOf_gap p.gap_free boundary]
  exact append_assoc ..

theorem callsOf_functionEnd (rest : List Char) : callsOf convert s (functionEndToken ++ rest) =
      openObject s ++ ⟨s.currentToolId, none, ['}']⟩ :: callsOf convert { s with jsonStarted := true, currentFuncName := none } rest := by
  obtain ⟨start, function, parameter, ends, _⟩ := tags_listed
  have taken : round convert s (functionEndToken ++ rest) =
      some ({ s with jsonStarted := true, currentFuncName := none }, ⟨[], openObject s ++ [⟨s.currentToolId, none, ['}']⟩]⟩, rest) := by
    unfold round
    rw [if_neg (tag_append_ne_nil ends _), if_neg (unlike_tag start ends (by decide +kernel) _),
      if_neg (unlike_tag function ends (by decide +kernel) _),
      if_neg (unlike_tag parameter ends (by decide +kernel) _), if_pos (prefix_append _ _), drop_left]
  rw [callsOf_some taken]
  exact append_assoc ..

theorem callsOf_end (rest : List Char) :
    callsOf convert s (toolCallEndToken ++ rest) = callsOf convert { s with isInsideToolCall := false } rest := by
  obtain ⟨start, function, parameter, ends, stop⟩ := tags_listed
  have taken : round convert s (toolCallEndToken ++ rest) = some ({ s with isInsideToolCall := false }, 1, rest) := by
    unfold round
    rw [if_neg (tag_append_ne_nil stop _), if_neg (unlike_tag start stop (by decide +kernel) _),
      if_neg (unlike_tag function stop (by decide +kernel) _),
      if_neg (unlike_tag parameter stop (by decide +kernel) _), if_neg (unlike_tag ends stop (by decide +kernel) _), if_pos (prefix_append _ _),
      drop_left]
  exact callsOf_some taken

def itemsOf (id : Int) (f : FunctionElement) : List ToolCallItem :=
  ⟨id, some f.name, []⟩ :: ⟨id, none, ['{']⟩ ::
    ((f.parameters.zipIdx.map (fun (p, i) => ⟨id, none, fragment convert (some f.name) (decide (i > 0)) p⟩)) ++ [⟨id, none, ['}']⟩])

def itemsFrom (id : Int) : List FunctionElement → List ToolCallItem
  | [] => []
  | f :: functions => itemsOf convert id f ++ itemsFrom (id + 1) functions

theorem callsOf_parameters (started : s.jsonStarted = true) (parameters : List ParameterElement) (boundary : Boundary rest) :
    callsOf convert s (spell (parameters.flatMap ParameterElement.pieces) ++ rest) = (parameters.zipIdx s.currentToolParamCount).map
          (fun (p, i) => ⟨s.currentToolId, none, fragment convert s.currentFuncName (decide (i > 0)) p⟩) ++
        callsOf convert { s with currentToolParamCount := s.currentToolParamCount + parameters.length } rest := by
  induction parameters generalizing s with
  | nil => rfl
  | cons p parameters ih =>
    have later := boundary_spell (parameters_proper parameters) boundary
    have spelt : spell ((p :: parameters).flatMap ParameterElement.pieces) ++ rest =
        spell p.pieces ++ (spell (parameters.flatMap ParameterElement.pieces) ++ rest) := by
      unfold spell
      simp
    rw [spelt, callsOf_parameter convert s p later, ih _ rfl]
    unfold openObject
    rw [if_pos started, length_cons, Nat.add_comm parameters.length 1, ← Nat.add_assoc]
    obtain ⟨_, _, _, _, _, _⟩ := s
    cases started
    rfl

theorem callsOf_element (f : FunctionElement) : ∃ s', s'.currentToolId = s.currentToolId + 1 ∧ ∀ rest, Boundary rest →
      callsOf convert s (spell f.pieces ++ rest) = itemsOf convert (s.currentToolId + 1) f ++ callsOf convert s' rest := by
  obtain ⟨_, _, _, ends, _⟩ := tags_listed
  refine ⟨{ s with
    currentToolId := s.currentToolId + 1
    currentToolNameSent := true
    currentToolParamCount := f.parameters.length
    jsonStarted := true
    currentFuncName := none }, rfl, fun rest boundary => ?_⟩
  have spelt : spell f.pieces ++ rest = toolCallPrefix ++ (f.name ++ '>' :: (f.opening ++
      (spell (f.parameters.flatMap ParameterElement.pieces) ++ (functionEndToken ++ (f.gap ++ rest))))) := by
    unfold spell FunctionElement.pieces
    simp
  have later := boundary_spell (parameters_proper f.parameters) (boundary_tag ends (f.gap ++ rest))
  rw [spelt, callsOf_function convert s f.name_angle, callsOf_gap f.opening_free later]
  unfold itemsOf
  cases f.parameters with
  | nil =>
    rw [flatMap_nil]
    change _ :: callsOf convert _ (functionEndToken ++ _) = _
    rw [callsOf_functionEnd, callsOf_gap f.gap_free boundary]
    rfl
  | cons p parameters =>
    have spelt' : spell ((p :: parameters).flatMap ParameterElement.pieces) ++ (functionEndToken ++ (f.gap ++ rest)) =
        spell p.pieces ++ (spell (parameters.flatMap ParameterElement.pieces) ++ (functionEndToken ++ (f.gap ++ rest))) := by
      unfold spell
      simp
    have boundary' := boundary_tag ends (f.gap ++ rest)
    rw [spelt', callsOf_parameter convert _ p (boundary_spell (parameters_proper parameters) boundary'),
      callsOf_parameters convert _ rfl parameters boundary', callsOf_functionEnd, callsOf_gap f.gap_free boundary]
    unfold openObject
    rw [zipIdx_cons, map_cons, length_cons]
    rw [if_pos rfl, if_neg Bool.false_ne_true, Nat.zero_add, Nat.add_comm 1]
    simp only [nil_append, cons_append, append_assoc]

theorem callsOf_functions (functions : List FunctionElement) (boundary : Boundary rest) :
    ∃ s', s'.currentToolId = s.currentToolId + functions.length ∧ callsOf convert s (spell (functions.flatMap FunctionElement.pieces) ++ rest) =
        itemsFrom convert (s.currentToolId + 1) functions ++ callsOf convert s' rest := by
  induction functions generalizing s with
  | nil => exact ⟨s, (Int.add_zero _).symm, rfl⟩
  | cons f functions ih =>
    obtain ⟨middle, id, first⟩ := callsOf_element convert s f
    obtain ⟨s', id', later⟩ := ih middle
    have spelt : spell ((f :: functions).flatMap FunctionElement.pieces) ++ rest =
        spell f.pieces ++ (spell (functions.flatMap FunctionElement.pieces) ++ rest) := by
      unfold spell
      simp
    refine ⟨s', by rw [id', id, length_cons]; omega, ?_⟩
    rw [spelt, first _ (boundary_spell (functions_proper functions) boundary), later, id, ← append_assoc]
    rfl

theorem itemsFrom_append (id : Int) (left right : List FunctionElement) :
    itemsFrom convert id (left ++ right) = itemsFrom convert id left ++ itemsFrom convert (id + left.length) right := by
  induction left generalizing id with
  | nil =>
    rw [length_nil]
    exact congrArg (itemsFrom convert · right) (Int.add_zero id).symm
  | cons f left ih =>
    rw [cons_append, itemsFrom, itemsFrom, ih, append_assoc, length_cons]
    rw [show id + 1 + (left.length : Int) = id + ((left.length + 1 : Nat) : Int) by omega]

theorem callsOf_blocks (blocks : List ToolCallBlock) :
    callsOf convert s (spell (blocks.flatMap ToolCallBlock.pieces)) =
      itemsFrom convert (s.currentToolId + 1) (blocks.flatMap ToolCallBlock.functions) := by
  obtain ⟨_, _, _, _, stop⟩ := tags_listed
  induction blocks generalizing s with
  | nil => exact callsOf_none (Rounds.round_nil (round_consumes convert) s)
  | cons b blocks ih =>
    have proper : Proper (blocks.flatMap ToolCallBlock.pieces) := by
      intro piece mem
      obtain ⟨b, _, here⟩ := mem_flatMap.mp mem
      exact b.proper piece here
    have spelt : spell ((b :: blocks).flatMap ToolCallBlock.pieces) = toolCallStartToken ++ (b.opening ++
        (spell (b.functions.flatMap FunctionElement.pieces) ++ (toolCallEndToken ++ (b.gap ++ spell (blocks.flatMap ToolCallBlock.pieces))))) := by
      unfold spell ToolCallBlock.pieces
      simp
    have boundary := boundary_tag stop (b.gap ++ spell (blocks.flatMap ToolCallBlock.pieces))
    have last := boundary_spell proper boundary_nil
    rw [append_nil] at last
    obtain ⟨_, id, lt⟩ := callsOf_functions convert { s with isInsideToolCall := true } b.functions boundary
    rw [spelt, callsOf_start, callsOf_gap b.opening_free (boundary_spell (functions_proper b.functions) boundary), lt, callsOf_end,
      callsOf_gap b.gap_free last, ih, flatMap_cons, itemsFrom_append]
    rw [id, Int.add_right_comm]

theorem stream_calls (d : Document) {chunks : List (List Char)} (same : chunks.flatten = d.text) :
    (stream convert chunks).1.calls = itemsFrom convert 0 d.functions := by
  have proper : Proper (d.blocks.flatMap ToolCallBlock.pieces) := by
    intro piece mem
    obtain ⟨b, _, here⟩ := mem_flatMap.mp mem
    exact b.proper piece here
  have boundary := boundary_spell proper boundary_nil
  rw [append_nil] at boundary
  rw [stream_eq, same]
  change callsOf convert init.toCursor d.text = _
  unfold Document.text
  rw [callsOf_gap d.leading_free boundary, callsOf_blocks]
  rfl

end

/-! ### The two parsers agree -/

def namedCalls (calls : List ToolCallItem) : List (Int × Option (List Char)) :=
  (calls.filter (·.name.isSome)).map (fun call => (call.toolIndex, call.name))

def parametersOf (calls : List ToolCallItem) (toolIndex : Int) : List Char :=
  (calls.filter (fun call => call.toolIndex = toolIndex)).flatMap ToolCallItem.parameters

section
variable (convert : Convert) (funcName : Option (List Char))

theorem namedCalls_append (left right : List ToolCallItem) : namedCalls (left ++ right) = namedCalls left ++ namedCalls right := by
  unfold namedCalls
  rw [filter_append, map_append]

theorem parametersOf_append (left right : List ToolCallItem) (id : Int) :
    parametersOf (left ++ right) id = parametersOf left id ++ parametersOf right id := by
  unfold parametersOf
  rw [filter_append, flatMap_append]

theorem itemsOf_index (id : Int) (f : FunctionElement) : ∀ call ∈ itemsOf convert id f, call.toolIndex = id := by
  unfold itemsOf
  simp only [forall_mem_cons, forall_mem_append]
  refine ⟨trivial, trivial, fun call mem => ?_, trivial, nofun⟩
  obtain ⟨p, _, rfl⟩ := mem_map.mp mem
  rfl

theorem parametersOf_other {calls : List ToolCallItem} {id : Int} (other : ∀ call ∈ calls, call.toolIndex ≠ id) : parametersOf calls id = [] := by
  unfold parametersOf
  rw [filter_eq_nil_iff.mpr (fun call mem => by rw [decide_eq_true_iff]; exact other call mem)]
  rfl

section
variable (id : Int) (functions : List FunctionElement)
include id functions

theorem itemsFrom_index : ∀ call ∈ itemsFrom convert id functions, id ≤ call.toolIndex := by
  induction functions generalizing id with
  | nil => nofun
  | cons f functions ih =>
    intro call mem
    rcases mem_append.mp mem with here | later
    · exact Int.le_of_eq (itemsOf_index convert id f call here).symm
    · have := ih (id + 1) call later
      omega

theorem parsedFrom_index : ∀ call ∈ parsedFrom convert id functions, id ≤ call.toolIndex := by
  induction functions generalizing id with
  | nil => nofun
  | cons f functions ih =>
    intro call mem
    rcases mem_cons.mp mem with rfl | later
    · exact Int.le_refl id
    · have := ih (id + 1) call later
      omega

theorem namedCalls_itemsFrom :
    namedCalls (itemsFrom convert id functions) = (parsedFrom convert id functions).map (fun call => (call.toolIndex, call.name)) := by
  induction functions generalizing id with
  | nil => rfl
  | cons f functions ih =>
    have one : namedCalls (itemsOf convert id f) = [(id, some f.name)] := by
      unfold itemsOf namedCalls
      have rest : (f.parameters.zipIdx.map (fun (p, i) =>
          (⟨id, none, fragment convert (some f.name) (decide (i > 0)) p⟩ : ToolCallItem))).filter (·.name.isSome) = [] := by
        rw [filter_map]
        simp
      simp [filter_append, rest]
    rw [itemsFrom, namedCalls_append, one, ih]
    rfl

end

theorem flatMap_fragment (parameters : List ParameterElement) {k : Nat} (pos : k > 0) :
    (parameters.zipIdx k).flatMap (fun (p, i) => fragment convert funcName (decide (i > 0)) p) =
      parameters.flatMap (fragment convert funcName true) := by
  induction parameters generalizing k with
  | nil => rfl
  | cons p parameters ih =>
    rw [zipIdx_cons, flatMap_cons, flatMap_cons, ih (Nat.succ_pos k)]
    dsimp only
    rw [decide_eq_true pos]

theorem members_fragments (p : ParameterElement) (parameters : List ParameterElement) {left : List Char} (blank : Json.Blank left) :
    Json.Members (left ++ (fragment convert funcName false p ++ parameters.flatMap (fragment convert funcName true)))
      ((p :: parameters).map (fun p => (p.name, convert funcName p.name (cleanValue p.value)))) := by
  have item (p : ParameterElement) := Json.denotes_dumps false (convert funcName p.name (cleanValue p.value))
  induction parameters generalizing p left with
  | nil =>
    have one := Json.Members.cons true p.name blank (item p) (.inl ⟨rfl, rfl⟩)
    rw [flatMap_nil, append_nil]
    rw [append_nil] at one
    exact one
  | cons q parameters ih =>
    have later := ih q Json.blank_space
    have several := Json.Members.cons true p.name blank (item p) (.inr ⟨_, rfl, cons_ne_nil _ _, later⟩)
    rw [map_cons]
    refine Eq.mp (congrArg (Json.Members · _) ?_) several
    unfold fragment
    simp

theorem denotes_fragments (f : FunctionElement) (id : Int) : Json.Denotes (parametersOf (itemsOf convert id f) id) (.object (f.members convert)) := by
  have all : parametersOf (itemsOf convert id f) id =
      '{' :: f.parameters.zipIdx.flatMap (fun (p, i) => fragment convert (some f.name) (decide (i > 0)) p) ++ ['}'] := by
    unfold parametersOf
    rw [filter_eq_self.mpr (fun call mem => decide_eq_true (itemsOf_index convert id f call mem))]
    unfold itemsOf
    simp [flatMap_map]
  rw [all]
  refine .object ?_
  unfold FunctionElement.members
  cases f.parameters with
  | nil => exact .none Json.blank_nil
  | cons p parameters =>
    rw [zipIdx_cons, flatMap_cons, flatMap_fragment convert (some f.name) parameters (Nat.succ_pos 0)]
    exact members_fragments convert (some f.name) p parameters Json.blank_nil

theorem denotes_parameters (id : Int) (functions : List FunctionElement) : ∀ call ∈ parsedFrom convert id functions,
    ∃ members, (members.map Prod.fst).Nodup ∧ Json.Denotes call.parameters (.object members) ∧
      Json.Denotes (parametersOf (itemsFrom convert id functions) call.toolIndex) (.object members) := by
  induction functions generalizing id with
  | nil => nofun
  | cons f functions ih =>
    intro call mem
    rw [itemsFrom, parametersOf_append]
    rcases mem_cons.mp mem with rfl | later
    · refine ⟨f.members convert, ?_, Json.denotes_dumps false _, ?_⟩
      · unfold FunctionElement.members
        rw [map_map]
        exact f.distinct
      · have others : parametersOf (itemsFrom convert (id + 1) functions) id = [] := by
          refine parametersOf_other (fun call mem => ?_)
          have := itemsFrom_index convert (id + 1) functions call mem
          omega
        rw [others, append_nil]
        exact denotes_fragments convert f id
    · have others : parametersOf (itemsOf convert id f) call.toolIndex = [] := by
        refine parametersOf_other (fun item lt => ?_)
        have := parsedFrom_index convert (id + 1) functions call later
        rw [itemsOf_index convert id f item lt]
        omega
      rw [others]
      exact ih (id + 1) call later

/-- However a text of well-formed blocks is cut, the stream gives the calls of the one-shot parser. -/
theorem stream_detectAndParse (d : Document) {chunks : List (List Char)} (same : chunks.flatten = d.text) :
    let streamed := (stream convert chunks).1.calls
    let parsed := (detectAndParse convert d.text).calls
    namedCalls streamed = parsed.map (fun call => (call.toolIndex, call.name)) ∧
      ∀ call ∈ parsed, ∃ members, (members.map Prod.fst).Nodup ∧ Json.Denotes call.parameters (.object members) ∧
        Json.Denotes (parametersOf streamed call.toolIndex) (.object members) := by
  rw [stream_calls convert d same, detectAndParse_calls]
  exact ⟨namedCalls_itemsFrom convert 0 d.functions, denotes_parameters convert 0 d.functions⟩

def sampleDocument : Document where
  leading := "a < b".toList
  blocks := [{
    opening := ['\n']
    functions := [{
      name := "get".toList
      opening := ['\n']
      parameters := [⟨"key".toList, "\n1\n".toList, ['\n'], by decide +kernel, by decide +kernel, by decide +kernel, by decide +kernel⟩]
      gap := ['\n']
      name_angle := by decide +kernel
      name_free := by decide +kernel
      opening_free := by decide +kernel
      gap_free := by decide +kernel
      distinct := by decide +kernel }, {
      name := "stop".toList
      opening := []
      parameters := []
      gap := []
      name_angle := by decide +kernel
      name_free := by decide +kernel
      opening_free := by decide +kernel
      gap_free := by decide +kernel
      distinct := by decide +kernel }]
    gap := []
    opening_free := by decide +kernel
    gap_free := by decide +kernel }]
  leading_free := by decide +kernel

theorem stream_detectAndParse_sample : let chunks := ["a < b<tool_".toList, "call>\n<function=get>\n<parameter=key>\n1\n</para".toList,
      "meter>\n</function>\n<function=stop></function></tool_call>".toList]
    let streamed := (stream (fun _ _ value => .string value) chunks).1.calls
    let parsed := (detectAndParse (fun _ _ value => .string value) sampleDocument.text).calls
    parsed.length = 2 ∧ namedCalls streamed = parsed.map (fun call => (call.toolIndex, call.name)) ∧
      ∀ call ∈ parsed, ∃ members, (members.map Prod.fst).Nodup ∧ Json.Denotes call.parameters (.object members) ∧
        Json.Denotes (parametersOf streamed call.toolIndex) (.object members) :=
  ⟨by decide +kernel, stream_detectAndParse (fun _ _ value => .string value) sampleDocument (by decide +kernel)⟩

theorem name_ends_tag : let name := "a</function".toList
    let text := "<tool_call><function=a</function></function></tool_call>".toList
    '>' ∉ name ∧ Free name ∧ text = toolCallStartToken ++ toolCallPrefix ++ name ++ ['>'] ++ functionEndToken ++ toolCallEndToken ∧
      namedCalls (stream (fun _ _ value => .string value) [text]).1.calls = [(0, some name)] ∧
      (detectAndParse (fun _ _ value => .string value) text).calls = [] := by
  decide +kernel

end

end TriaxialKV.Parser.Qwen3CoderDetector
