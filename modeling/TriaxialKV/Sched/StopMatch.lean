import Mathlib.Algebra.Order.BigOperators.Group.List
import Mathlib.Algebra.Order.Ring.Nat
import TriaxialKV.Lib.Utf8Reader
import TriaxialKV.Sched.Finish

/-!
# Stop strings and stop patterns

The check decodes only the last tokens of the output, as many as were fixed when the request came in.
-/

namespace TriaxialKV.Finish
open List

/-- One token of a pattern as `sre_parse` gives it; a repeat without bound has no `most`. -/
inductive Pattern where
  | literal (c : Char)
  | in_ (allowed : Char → Bool)
  | any
  | subpattern (inner : List Pattern)
  | branch (branches : List (List Pattern))
  | maxRepeat (least : Nat) (most : Option Nat) (inner : List Pattern)
  | minRepeat (least : Nat) (most : Option Nat) (inner : List Pattern)
  | at_
  | other

def MAX_LEN : Nat := 2 ^ 30

mutual

def maxLengthFromToken : Pattern → Nat
  | .literal _ | .in_ _ | .any => 1
  | .subpattern inner => maxLengthFromSubpattern inner
  | .branch branches => maxLengthFromBranches branches
  | .maxRepeat _ most inner | .minRepeat _ most inner =>
    match most with
    | none => MAX_LEN
    | some most => most * maxLengthFromSubpattern inner
  | .at_ => 0
  | .other => MAX_LEN

def maxLengthFromSubpattern : List Pattern → Nat
  | [] => 0
  | token :: subpattern => maxLengthFromToken token + maxLengthFromSubpattern subpattern

def maxLengthFromBranches : List (List Pattern) → Nat
  | [] => 0
  | branch :: branches => max (maxLengthFromSubpattern branch) (maxLengthFromBranches branches)

end

/-- `encode` is the tokenizer's, if there is one, and `parse` is `sre_parse.parse`. -/
def SamplingParams.normalize (params : SamplingParams) (encode : Option (String → List Int)) (parse : String → List Pattern) : SamplingParams :=
  let stopLen (stop : String) : Nat := match encode with
    | some encode => (encode stop).length
    | none => stop.length
  { params with
    stopStrMaxLen := params.stopStrs.foldl (fun longest stop => max longest (stopLen stop)) 0
    stopRegexMaxLen := params.stopRegexStrs.foldl (fun longest regex => max longest (maxLengthFromSubpattern (parse regex))) 0 }

def SamplingParams.window (params : SamplingParams) : Nat := max (params.stopStrMaxLen + 1) (params.stopRegexMaxLen + 1)

/-- The tokenizer joins the bytes of the tokens and reads them as UTF-8. -/
def ByteLevel (tokenizer : Tokenizer) (spell : Int → List UInt8) : Prop := ∀ ids, (tokenizer.decode ids).toList = Utf8.lossy (ids.flatMap spell)

def StartsInLast (spell : Int → List UInt8) (n : Nat) (ids : List Int) (text : List Char) : Prop :=
  ∃ before here after, Utf8.units (ids.flatMap spell) = before ++ here ++ after ∧ here.map Prod.fst = text ∧
    ((ids.take (ids.length - n)).flatMap spell).length ≤ Utf8.size before

/-- The text begins with bytes of a character that starts before the last `n` tokens; read without its lead byte each of them is a U+FFFD. -/
def StartsCut (spell : Int → List UInt8) (n : Nat) (ids : List Int) (text : List Char) : Prop :=
  let skip := ((ids.take (ids.length - n)).flatMap spell).length
  ∃ before cut here after m, Utf8.units (ids.flatMap spell) = before ++ [cut] ++ here ++ after ∧
    text = replicate m Utf8.replacement ++ here.map Prod.fst ∧
    Utf8.size before < skip ∧ skip + m ≤ Utf8.size (before ++ [cut])

def Shown (spell : Int → List UInt8) (n : Nat) (ids : List Int) (text : List Char) : Prop :=
  StartsInLast spell n ids text ∨ StartsCut spell n ids text

/-- Whether the pattern matches in a text is a matter of the pieces of the text alone. -/
def AnchorFree (search : String → String → Bool) (regex : String) (language : List Char → Prop) : Prop :=
  ∀ text, search regex text = true ↔ ∃ piece, piece <:+: text.toList ∧ language piece

section
variable {spell : Int → List UInt8} {n : Nat} {ids : List Int} {text : List Char}

theorem window_bytes (spell : Int → List UInt8) (n : Nat) (ids : List Int) :
    (ids.flatMap spell).drop ((ids.take (ids.length - n)).flatMap spell).length = (ids.drop (ids.length - n)).flatMap spell ∧
      ((ids.take (ids.length - n)).flatMap spell).length ≤ (ids.flatMap spell).length := by
  have parts : ids.flatMap spell = (ids.take (ids.length - n)).flatMap spell ++ (ids.drop (ids.length - n)).flatMap spell := by
    rw [← flatMap_append, take_append_drop]
  rw [parts, drop_left, length_append]
  exact ⟨rfl, Nat.le_add_right _ _⟩

theorem StartsInLast.infix (starts : StartsInLast spell n ids text) : text <:+: Utf8.lossy ((ids.drop (ids.length - n)).flatMap spell) := by
  obtain ⟨before, here, after, whole, rfl, le⟩ := starts
  obtain ⟨last, fits⟩ := window_bytes spell n ids
  obtain ⟨_, _, m, whole', tail, _, least⟩ := Utf8.units_drop _ _ fits
  rw [append_assoc] at whole
  obtain ⟨skipped, rfl⟩ := least before (here ++ after) whole le
  rw [whole', append_assoc, append_cancel_left_eq] at whole
  unfold Utf8.lossy
  rw [← last, tail, whole]
  refine ⟨(replicate m (Utf8.replacement, 1) ++ skipped).map Prod.fst, after.map Prod.fst, ?_⟩
  simp only [map_append, append_assoc]

theorem StartsCut.infix (starts : StartsCut spell n ids text) : text <:+: Utf8.lossy ((ids.drop (ids.length - n)).flatMap spell) := by
  obtain ⟨before, cut, here, after, k, whole, rfl, short, reach⟩ := starts
  obtain ⟨last, fits⟩ := window_bytes spell n ids
  obtain ⟨before', after', m, whole', tail, size, least⟩ := Utf8.units_drop _ _ fits
  rw [append_assoc] at whole
  -- the shortest beginning that reaches the window ends with the character that is cut
  have same : before' = before ++ [cut] := by
    refine (prefix_concat_iff.mp (least _ _ whole (by omega))).resolve_right (fun inside => ?_)
    obtain ⟨_, rfl⟩ := inside
    rw [Utf8.size_append] at short
    omega
  subst same
  rw [whole', append_cancel_left_eq] at whole
  obtain ⟨more, rfl⟩ := Nat.exists_eq_add_of_le (show k ≤ m by omega)
  unfold Utf8.lossy
  rw [← last, tail, whole, Nat.add_comm, replicate_add]
  refine ⟨(replicate more (Utf8.replacement, 1)).map Prod.fst, after.map Prod.fst, ?_⟩
  simp only [map_append, map_replicate, append_assoc]

theorem infix_replicate {a : Char} {m : Nat} {rest : List Char} (occurs : text <:+: replicate m a ++ rest) :
    text <:+: rest ∨ ∃ k piece, 0 < k ∧ k ≤ m ∧ text = replicate k a ++ piece ∧ piece <+: rest := by
  induction m with
  | zero => exact .inl occurs
  | succ m ih =>
    rw [replicate_succ, cons_append] at occurs
    rcases List.infix_cons_iff.mp occurs with here | later
    · rw [← cons_append, ← replicate_succ] at here
      rcases prefix_or_prefix_of_prefix here (prefix_append (replicate (m + 1) a) rest) with inside | ⟨piece, rfl⟩
      · obtain ⟨le, same⟩ := prefix_replicate_iff.mp inside
        cases text with
        | nil => exact .inl nil_infix
        | cons c text => exact .inr ⟨_, [], Nat.succ_pos _, le, by rw [append_nil]; exact same, nil_prefix⟩
      · exact .inr ⟨m + 1, piece, Nat.succ_pos m, le_rfl, rfl, (prefix_append_right_inj _).mp here⟩
    · exact (ih later).imp_right (fun ⟨k, piece, pos, le, rest⟩ => ⟨k, piece, pos, Nat.le_succ_of_le le, rest⟩)

theorem shown_iff : Shown spell n ids text ↔ text <:+: Utf8.lossy ((ids.drop (ids.length - n)).flatMap spell) := by
  refine ⟨fun shown => shown.elim StartsInLast.infix StartsCut.infix, fun occurs => ?_⟩
  obtain ⟨last, fits⟩ := window_bytes spell n ids
  obtain ⟨before, after, m, whole, tail, size, least⟩ := Utf8.units_drop _ _ fits
  unfold Utf8.lossy at occurs
  rw [← last, tail, map_append, map_replicate] at occurs
  rcases infix_replicate occurs with ⟨_, behind, same⟩ | ⟨k, piece, pos, le, rfl, behind, same⟩
  · obtain ⟨_, behind, rfl, same', rfl⟩ := map_eq_append_iff.mp same.symm
    obtain ⟨skipped, here, rfl, rfl, rfl⟩ := map_eq_append_iff.mp same'
    refine .inl ⟨before ++ skipped, here, behind, ?_, rfl, ?_⟩
    · rw [whole, append_assoc, append_assoc, append_assoc]
    · rw [Utf8.size_append]
      omega
  · obtain ⟨here, behind, rfl, rfl, rfl⟩ := map_eq_append_iff.mp same.symm
    rcases eq_nil_or_concat' before with rfl | ⟨front, cut, rfl⟩
    · exact absurd (show m = 0 by have : Utf8.size [] = 0 := rfl; omega) (by omega)
    · refine .inr ⟨front, cut, here, behind, k, by rw [whole, append_assoc _ here], rfl, ?_, by omega⟩
      by_contra reach
      have := (least front ([cut] ++ (here ++ behind)) (by rw [whole, append_assoc]) (by omega)).length_le
      rw [length_append] at this
      exact absurd this (by simp)

end

namespace Req

/-- Nothing but a stop string or a stop pattern can finish the request with these tokens. -/
structure Undecided (r : Req) (tokens : List Int) : Prop where
  unfinished : r.finishedReason = none
  notPending : r.toFinish = none
  short : r.outputIds.length + tokens.length < r.samplingParams.maxNewTokens
  grammar : r.grammar ≠ some true
  noStop : (r.extend tokens).checkTokenBasedFinish tokens = none
  inside : r.InVocab tokens

def MatchedStop (r : Req) : Prop :=
  (∃ stop ∈ r.samplingParams.stopStrs, r.finishedReason = some (.matchedStr stop)) ∨
    ∃ regex ∈ r.samplingParams.stopRegexStrs, r.finishedReason = some (.matchedRegex regex)

section
variable {search : String → String → Bool} {r : Req} {tokenizer : Tokenizer} {spell : Int → List UInt8} {tokens : List Int}

theorem Undecided.acceptAll_eq (undecided : r.Undecided tokens) :
    r.acceptAll search tokens = ((r.extend tokens).checkStrBasedFinish search).getD (r.extend tokens) := by
  have length : (r.extend tokens).outputIds.length = r.outputIds.length + tokens.length := length_append
  have added : (r.extend tokens).outputIds.drop (r.outputIds.length + tokens.length - tokens.length) = tokens := by
    rw [Nat.add_sub_cancel]
    exact drop_left
  have inside : (r.extend tokens).checkVocabBoundaryFinish tokens = none := vocabFinish_eq undecided.inside
  have unfinished : (r.extend tokens).finishedReason = none := undecided.unfinished
  have notPending : (r.extend tokens).toFinish = none := undecided.notPending
  have short : ¬ r.outputIds.length + tokens.length ≥ (r.extend tokens).samplingParams.maxNewTokens := Nat.not_le.mpr undecided.short
  have grammar : (r.extend tokens).grammar ≠ some true := undecided.grammar
  unfold acceptAll checkFinished finished
  rw [unfinished, notPending]
  dsimp only [Option.isSome]
  rw [if_neg Bool.false_ne_true, length, if_neg short, if_neg grammar, added, undecided.noStop, inside]
  rfl

theorem tailStr_eq (bytes : ByteLevel tokenizer spell) (known : r.tokenizer = some tokenizer)
    (stops : ¬ (r.samplingParams.stopStrs = [] ∧ r.samplingParams.stopRegexStrs = [])) :
    r.tailStr.toList = Utf8.lossy ((r.outputIds.drop (r.outputIds.length - r.samplingParams.window)).flatMap spell) := by
  have same : r.outputIds.length - min r.samplingParams.window r.outputIds.length = r.outputIds.length - r.samplingParams.window := by omega
  unfold tailStr
  rw [if_neg stops, known]
  rw [bytes, show max (r.samplingParams.stopStrMaxLen + 1) (r.samplingParams.stopRegexMaxLen + 1) = r.samplingParams.window from rfl, same]

theorem occursIn_iff {part whole : String} : occursIn part whole = true ↔ part.toList <:+: whole.toList := decide_eq_true_iff

theorem strFinish_cases (search : String → String → Bool) (r : Req) :
    (r.checkStrBasedFinish search = none ∧
        (∀ stop ∈ r.samplingParams.stopStrs, ¬ (stop.toList <:+: r.tailStr.toList ∨ stop.toList <:+: r.decodedText.toList)) ∧
        ∀ regex ∈ r.samplingParams.stopRegexStrs, search regex r.tailStr = false) ∨
      (∃ stop ∈ r.samplingParams.stopStrs, (stop.toList <:+: r.tailStr.toList ∨ stop.toList <:+: r.decodedText.toList) ∧
        r.checkStrBasedFinish search = some { r with finishedReason := some (.matchedStr stop) }) ∨
      ∃ regex ∈ r.samplingParams.stopRegexStrs, search regex r.tailStr = true ∧
        r.checkStrBasedFinish search = some { r with finishedReason := some (.matchedRegex regex) } := by
  unfold checkStrBasedFinish
  dsimp only
  split
  · next stop found =>
    have occurs := find?_some found
    rw [Bool.or_eq_true, occursIn_iff, occursIn_iff] at occurs
    exact .inr (.inl ⟨stop, mem_of_find?_eq_some found, occurs, rfl⟩)
  · next none =>
    have absent (stop : String) (mem : stop ∈ r.samplingParams.stopStrs) :
        ¬ (stop.toList <:+: r.tailStr.toList ∨ stop.toList <:+: r.decodedText.toList) := by
      rw [← occursIn_iff, ← occursIn_iff, ← Bool.or_eq_true]
      exact find?_eq_none.mp none stop mem
    split
    · next regex found =>
      have hit := find?_some found
      exact .inr (.inr ⟨regex, mem_of_find?_eq_some found, hit, rfl⟩)
    · next noRegex => exact .inl ⟨rfl, absent, fun regex mem => Bool.eq_false_iff.mpr (find?_eq_none.mp noRegex regex mem)⟩

/-- The call finishes exactly when a stop string is in the text decoded before, or it or a match of a pattern shows in the tokens of the window. -/
theorem stop_found {language : String → List Char → Prop} (bytes : ByteLevel tokenizer spell) (known : r.tokenizer = some tokenizer)
    (anchorFree : ∀ regex ∈ r.samplingParams.stopRegexStrs, AnchorFree search regex (language regex)) (undecided : r.Undecided tokens) :
    (r.acceptAll search tokens).MatchedStop ↔
      (∃ stop ∈ r.samplingParams.stopStrs, stop.toList <:+: r.decodedText.toList ∨
        Shown spell r.samplingParams.window (r.outputIds ++ tokens) stop.toList) ∨
      ∃ regex ∈ r.samplingParams.stopRegexStrs, ∃ piece, language regex piece ∧
        Shown spell r.samplingParams.window (r.outputIds ++ tokens) piece := by
  have tail (stops : ¬ (r.samplingParams.stopStrs = [] ∧ r.samplingParams.stopRegexStrs = [])) (text : List Char) :
      text <:+: (r.extend tokens).tailStr.toList ↔ Shown spell r.samplingParams.window (r.outputIds ++ tokens) text := by
    have same : (r.extend tokens).tailStr.toList = _ := tailStr_eq bytes known stops
    rw [shown_iff, same]
    rfl
  have search_iff {regex : String} (member : regex ∈ r.samplingParams.stopRegexStrs) : search regex (r.extend tokens).tailStr = true ↔
      ∃ piece, language regex piece ∧ Shown spell r.samplingParams.window (r.outputIds ++ tokens) piece := by
    rw [anchorFree regex member]
    exact exists_congr (fun piece => by rw [tail (fun none => ne_nil_of_mem member none.2) piece, and_comm])
  rw [undecided.acceptAll_eq]
  rcases strFinish_cases search (r.extend tokens) with ⟨none, noStop, noRegex⟩ | ⟨stop, member, occurs, found⟩ | ⟨regex, member, hit, found⟩
  · rw [none]
    have unfinished : (r.extend tokens).finishedReason = Option.none := undecided.unfinished
    constructor
    · rintro (⟨_, _, reason⟩ | ⟨_, _, reason⟩)
      · cases unfinished.symm.trans reason
      · cases unfinished.symm.trans reason
    · rintro (⟨stop, member, shown⟩ | ⟨regex, member, shown⟩)
      · rw [← tail (fun none => ne_nil_of_mem member none.1), or_comm] at shown
        exact absurd shown (noStop stop member)
      · rw [← search_iff member, noRegex regex member] at shown
        cases shown
  · rw [found]
    rw [tail (fun none => ne_nil_of_mem member none.1), or_comm] at occurs
    exact ⟨fun _ => .inl ⟨stop, member, occurs⟩, fun _ => .inl ⟨stop, member, rfl⟩⟩
  · rw [found]
    exact ⟨fun _ => .inr ⟨regex, member, (search_iff member).mp hit⟩, fun _ => .inr ⟨regex, member, rfl⟩⟩

end

end Req

def letters (token : Int) : List UInt8 :=
  if token = 0 then [97, 98, 99] else if token = 1 then [97] else if token = 2 then [98] else if token = 3 then [99] else []

def lettersTokenizer : Tokenizer := ⟨none, [], fun ids => String.ofList (Utf8.lossy (ids.flatMap letters))⟩

def stopAtAbc (stop : List Int) : Req where
  samplingParams := SamplingParams.normalize ⟨100, [], false, ["abc"], [], 0, 0⟩ (some (fun _ => stop)) (fun _ => [])
  eosTokenIds := []
  tokenizer := some lettersTokenizer
  vocabSize := 3
  grammar := none
  outputIds := [1, 2]
  decodedText := ""
  toFinish := none
  finishedReason := none
  finishedLen := none

theorem letters_byteLevel : ByteLevel lettersTokenizer letters := fun _ => String.toList_ofList

theorem stopAtAbc_undecided (stop : List Int) : (stopAtAbc stop).Undecided [3] := by
  refine ⟨rfl, rfl, ?_, ?_, rfl, fun token mem => ?_⟩
  · change 2 + 1 < 100
    decide
  · change none ≠ some true
    decide
  · rw [mem_singleton.mp mem]
    change 0 ≤ (3 : Int) ∧ (3 : Int) ≤ (3 : Nat)
    decide

theorem stop_found_spelled : ((stopAtAbc [1, 2, 3]).acceptAll (fun _ _ => false) [3]).MatchedStop := by
  have anchorFree : ∀ regex ∈ (stopAtAbc [1, 2, 3]).samplingParams.stopRegexStrs, AnchorFree (fun _ _ => false) regex (fun _ => False) := by
    exact nofun
  refine (Req.stop_found letters_byteLevel rfl anchorFree (stopAtAbc_undecided [1, 2, 3])).mpr (.inl ⟨"abc", mem_singleton_self _, .inr (.inl ?_)⟩)
  exact ⟨[], [('a', 1), ('b', 1), ('c', 1)], [], by decide, rfl, Nat.zero_le _⟩

/-- The stop string is one token for the tokenizer and three in the output. -/
theorem stop_missed : let r := stopAtAbc [0]
    ByteLevel lettersTokenizer letters ∧ lettersTokenizer.decode [0] = "abc" ∧ r.Undecided [3] ∧
      Req.occursIn "abc" (lettersTokenizer.decode r.outputIds) = false ∧
      Req.occursIn "abc" (lettersTokenizer.decode (r.outputIds ++ [3])) = true ∧
      (r.acceptAll (fun _ _ => false) [3]).finishedReason = none := by
  refine ⟨letters_byteLevel, ?_, stopAtAbc_undecided [0], ?_, ?_, ?_⟩
  all_goals decide +kernel

/-! ### What a pattern matches -/

/-- How one character and the tokens without a length of their own are matched, by the flags and the text around. -/
structure Engine where
  same : Char → Char → Prop
  same_self : ∀ c, same c c
  dot : Char → Prop
  dot_letter : dot 'a'
  other : List Char → Prop

def Repeats (least : Nat) (most : Option Nat) (language : List Char → Prop) (text : List Char) : Prop :=
  ∃ pieces : List (List Char), text = pieces.flatten ∧ least ≤ pieces.length ∧ (∀ m, most = some m → pieces.length ≤ m) ∧
    ∀ piece ∈ pieces, language piece

mutual

/-- An anchor can match no more than the empty text. -/
def Matches (e : Engine) : Pattern → List Char → Prop
  | .literal c, text => ∃ d, e.same c d ∧ text = [d]
  | .in_ allowed, text => ∃ d, allowed d = true ∧ text = [d]
  | .any, text => ∃ d, e.dot d ∧ text = [d]
  | .subpattern inner, text => MatchesAll e inner text
  | .branch branches, text => MatchesSome e branches text
  | .maxRepeat least most inner, text | .minRepeat least most inner, text => Repeats least most (MatchesAll e inner) text
  | .at_, text => text = []
  | .other, text => e.other text

def MatchesAll (e : Engine) : List Pattern → List Char → Prop
  | [], text => text = []
  | token :: subpattern, text => ∃ first rest, text = first ++ rest ∧ Matches e token first ∧ MatchesAll e subpattern rest

def MatchesSome (e : Engine) : List (List Pattern) → List Char → Prop
  | [], _ => False
  | branch :: branches, text => MatchesAll e branch text ∨ MatchesSome e branches text

end

mutual

/-- Sets that match some character, branches and bounded repeats as the parser gives them, and no anchors or other tokens. -/
def Plain : Pattern → Prop
  | .literal _ | .any => True
  | .in_ allowed => ∃ c, allowed c = true
  | .subpattern inner => PlainAll inner
  | .branch branches => branches ≠ [] ∧ PlainEach branches
  | .maxRepeat least most inner | .minRepeat least most inner => (∃ m, most = some m ∧ least ≤ m) ∧ PlainAll inner
  | .at_ | .other => False

def PlainAll : List Pattern → Prop
  | [] => True
  | token :: subpattern => Plain token ∧ PlainAll subpattern

def PlainEach : List (List Pattern) → Prop
  | [] => True
  | branch :: branches => PlainAll branch ∧ PlainEach branches

end

section
variable {least n : Nat} {most : Option Nat} {language : List Char → Prop}

def repeatLength : Option Nat → Nat → Nat
  | none, _ => MAX_LEN
  | some most, n => most * n

theorem Repeats.length_le {text : List Char} (repeats : Repeats least most language text) (short : text.length ≤ MAX_LEN)
    (bound : ∀ piece, language piece → piece.length ≤ MAX_LEN → piece.length ≤ n) : text.length ≤ repeatLength most n := by
  obtain ⟨pieces, rfl, _, few, each⟩ := repeats
  cases most with
  | none => rwa [repeatLength]
  | some m =>
    have inner : ∀ k ∈ pieces.map length, k ≤ n := by
      intro k mem
      obtain ⟨piece, here, rfl⟩ := mem_map.mp mem
      exact bound piece (each piece here) ((sublist_flatten_of_mem here).length_le.trans short)
    have total : _ ≤ _ * n := sum_le_card_nsmul _ n inner
    rw [length_map, ← length_flatten] at total
    rw [repeatLength]
    exact total.trans (Nat.mul_le_mul_right n (few m rfl))

theorem exists_repeats (bounded : ∃ m, most = some m ∧ least ≤ m) (inner : ∃ text, language text ∧ text.length = n) :
    ∃ text, Repeats least most language text ∧ text.length = repeatLength most n := by
  obtain ⟨m, rfl, _⟩ := bounded
  obtain ⟨text, matched, rfl⟩ := inner
  refine ⟨(replicate m text).flatten, ⟨replicate m text, rfl, by rwa [length_replicate], ?_, fun piece mem => ?_⟩, ?_⟩
  · rintro _ ⟨⟩
    exact length_replicate.le
  · rw [eq_of_mem_replicate mem]
    exact matched
  · simp [repeatLength]

end

variable (e : Engine)

mutual

theorem length_le_token : ∀ (token : Pattern) (text : List Char), Matches e token text → text.length ≤ MAX_LEN →
    text.length ≤ maxLengthFromToken token
  | .literal _, _, ⟨_, _, single⟩, _ | .in_ _, _, ⟨_, _, single⟩, _ | .any, _, ⟨_, _, single⟩, _ => by
    rw [single]
    exact Nat.le_refl 1
  | .subpattern inner, text, matched, short => le_subpattern inner text matched short
  | .branch branches, text, matched, short => length_le_branches branches text matched short
  | .maxRepeat _ most inner, _, repeats, short | .minRepeat _ most inner, _, repeats, short => by
    have bound := Repeats.length_le repeats short (le_subpattern inner)
    cases most <;> simpa only [maxLengthFromToken, repeatLength] using bound
  | .at_, _, empty, _ => by
    rw [empty]
    exact Nat.le_refl 0
  | .other, _, _, short => by rwa [maxLengthFromToken]

theorem le_subpattern : ∀ (pattern : List Pattern) (text : List Char), MatchesAll e pattern text → text.length ≤ MAX_LEN →
    text.length ≤ maxLengthFromSubpattern pattern
  | [], _, empty, _ => by
    rw [empty]
    exact Nat.le_refl 0
  | token :: pattern, _, ⟨first, rest, whole, here, later⟩, short => by
    rw [whole, length_append] at short ⊢
    exact Nat.add_le_add (length_le_token token first here (by omega)) (le_subpattern pattern rest later (by omega))

theorem length_le_branches : ∀ (branches : List (List Pattern)) (text : List Char), MatchesSome e branches text → text.length ≤ MAX_LEN →
    text.length ≤ maxLengthFromBranches branches
  | branch :: _, text, .inl here, short => (le_subpattern branch text here short).trans (Nat.le_max_left _ _)
  | _ :: branches, text, .inr later, short => (length_le_branches branches text later short).trans (Nat.le_max_right _ _)

end

mutual

theorem exists_token : ∀ token, Plain token → ∃ text, Matches e token text ∧ text.length = maxLengthFromToken token
  | .literal c, _ => ⟨[c], ⟨c, e.same_self c, rfl⟩, rfl⟩
  | .in_ _, ⟨c, allowed⟩ => ⟨[c], ⟨c, allowed, rfl⟩, rfl⟩
  | .any, _ => ⟨['a'], ⟨'a', e.dot_letter, rfl⟩, rfl⟩
  | .subpattern inner, plain => exists_subpattern inner plain
  | .branch branches, plain => exists_branch branches plain.1 plain.2
  | .maxRepeat _ most inner, plain | .minRepeat _ most inner, plain => by
    have found := exists_repeats plain.1 (exists_subpattern inner plain.2)
    cases most <;> simpa only [Matches, maxLengthFromToken, repeatLength] using found

theorem exists_subpattern : ∀ pattern, PlainAll pattern → ∃ text, MatchesAll e pattern text ∧ text.length = maxLengthFromSubpattern pattern
  | [], _ => ⟨[], rfl, rfl⟩
  | token :: pattern, plain => by
    obtain ⟨first, here, exact⟩ := exists_token token plain.1
    obtain ⟨rest, later, exact'⟩ := exists_subpattern pattern plain.2
    exact ⟨first ++ rest, ⟨first, rest, rfl, here, later⟩, by rw [length_append, exact, exact']; rfl⟩

theorem exists_branch : ∀ branches, branches ≠ [] → PlainEach branches → ∃ text, MatchesSome e branches text ∧
    text.length = maxLengthFromBranches branches
  | [branch], _, plain => by
    obtain ⟨text, here, exact⟩ := exists_subpattern branch plain.1
    exact ⟨text, .inl here, exact.trans (Nat.max_eq_left (Nat.zero_le _)).symm⟩
  | branch :: next :: branches, _, plain => by
    obtain ⟨text, here, exact⟩ := exists_subpattern branch plain.1
    obtain ⟨text', later, exact'⟩ := exists_branch (next :: branches) (cons_ne_nil _ _) plain.2
    rcases Nat.le_total (maxLengthFromBranches (next :: branches)) (maxLengthFromSubpattern branch) with le | le
    · exact ⟨text, .inl here, exact.trans (Nat.max_eq_left le).symm⟩
    · exact ⟨text', .inr later, exact'.trans (Nat.max_eq_right le).symm⟩

end

theorem maxLength_tight (pattern : List Pattern) :
    (∀ text, MatchesAll e pattern text → text.length ≤ 2 ^ 30 → text.length ≤ maxLengthFromSubpattern pattern) ∧
      (PlainAll pattern → ∃ text, MatchesAll e pattern text ∧ text.length = maxLengthFromSubpattern pattern) :=
  ⟨le_subpattern e pattern, exists_subpattern e pattern⟩

end TriaxialKV.Finish
