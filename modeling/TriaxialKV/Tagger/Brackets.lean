import TriaxialKV.Tagger.Growth

/-!
# What the brackets of a message leave

A bracket that is not closed runs on to the token after the message.
-/

namespace TriaxialKV
open List Tensor

variable {c : Int} {j : Nat} {m : Message}

namespace TriaxialTagger
variable {sp : SpecialTokens} {ids xs ys xs : List Int} {openId closeId : Int}

def Unclosed (openId closeId : Int) : List Int → Prop
  | [] => False
  | x :: xs => Unclosed openId closeId xs ∨ (x = openId ∧ closeId ∉ xs)

instance Unclosed.decidable (openId closeId : Int) : (xs : List Int) → Decidable (Unclosed openId closeId xs)
  | [] => inferInstanceAs (Decidable False)
  | _ :: xs =>
    have := Unclosed.decidable openId closeId xs
    inferInstanceAs (Decidable (_ ∨ _))

theorem head_nonzero_none (none : (nonzero (xs.map (· == c))).head? = none) : c ∉ xs := by
  intro mem
  obtain ⟨i, lt, rfl⟩ := getElem_of_mem mem
  have found : i ∈ nonzero (xs.map (· == xs[i])) := by simp [mem_nonzero, lt]
  rw [head?_eq_none_iff.mp none] at found
  cases found

theorem head_nonzero_some {k : Nat} (first : (nonzero (xs.map (· == c))).head? = some k) : xs[k]? = some c ∧ c ∉ xs.take k := by
  induction xs generalizing k with
  | nil => cases first
  | cons x xs ih =>
    by_cases here : x = c
    · obtain rfl : k = 0 := by simpa [here, nonzero] using first.symm
      simp [here]
    · rw [map_cons, beq_false_of_ne here, nonzero, head?_map, Option.map_eq_some_iff] at first
      obtain ⟨k, first, rfl⟩ := first
      obtain ⟨found, absent⟩ := ih first
      exact ⟨found, by simpa [Ne.symm here] using absent⟩

theorem spansOf_cons {α : Type} (isOpen isClose : α → Bool) (x : α) (xs : List α) : spansOf isOpen isClose (x :: xs) =
      (if isOpen x then [(0, (nonzero (xs.map isClose)).head?.map (· + 1))] else []) ++ (spansOf isOpen isClose xs).map (shiftSpan 1) := by
  have closes (o : Nat) : (nonzero ((x :: xs).map isClose)).filter (fun c => c > o) =
      ((nonzero (xs.map isClose)).map (· + 1)).filter (fun c => c > o) := by
    cases here : isClose x <;> simp [nonzero, here]
  have tail : ((nonzero (xs.map isOpen)).map (· + 1)).map
      (fun o => (o, ((nonzero ((x :: xs).map isClose)).filter (fun c => c > o)).head?)) =
      (spansOf isOpen isClose xs).map (shiftSpan 1) := by
    rw [spansOf, spans, map_map, map_map]
    refine map_congr_left (fun o _ => ?_)
    simp only [Function.comp, shiftSpan, closes, filter_map, head?_map, Function.comp_def, gt_iff_lt, Nat.add_lt_add_iff_right]
  have head : (((nonzero (xs.map isClose)).map (· + 1)).filter (fun c => c > 0)).head? = (nonzero (xs.map isClose)).head?.map (· + 1) := by
    rw [filter_eq_self.mpr (by simp), head?_map]
  have opens : nonzero ((x :: xs).map isOpen) = (if isOpen x then [0] else []) ++ (nonzero (xs.map isOpen)).map (· + 1) := by
    cases here : isOpen x <;> simp [nonzero, here]
  rw [spansOf, spans, opens, map_append, tail]
  cases isOpen x with
  | true => rw [if_pos rfl, if_pos rfl, map_singleton, closes, head]
  | false => rfl

theorem bracket_shift (st len : Nat) (label : Semantic) (semantic : Nat → Semantic) (span : Nat × Option Nat) :
    markBracket st (len + 1) label semantic (shiftSpan 1 span) = markBracket (st + 1) len label semantic span := by
  obtain ⟨o, c⟩ := span
  cases c with
  | none => simp only [markBracket, shiftSpan, Option.map_none, Option.getD_none, add_assoc, add_comm 1]
  | some c => simp only [markBracket, shiftSpan, Option.map_some, Option.getD_some, add_assoc, add_comm 1]

theorem foldl_markBracket (openId closeId : Int) (label : Semantic) (st : Nat) (semantic : Nat → Semantic) (upto : j ≤ xs.length) :
    (spansOf (· == openId) (· == closeId) xs).foldl (markBracket st xs.length label) semantic (j + st) = if xs[j]? = some openId then .delim
      else if Unclosed openId closeId (xs.take j) then if xs[j]? = some closeId then .delim else label
      else semantic (j + st) := by
  induction xs generalizing st semantic j with
  | nil => simp [spansOf, spans, nonzero, Unclosed]
  | cons x xs ih =>
    have rest (semantic : Nat → Semantic) :
        ((spansOf (· == openId) (· == closeId) xs).map (shiftSpan 1)).foldl (markBracket st (xs.length + 1) label) semantic =
          (spansOf (· == openId) (· == closeId) xs).foldl (markBracket (st + 1) xs.length label) semantic := by
      simp only [foldl_map, bracket_shift]
    have untouched (semantic : Nat → Semantic) :
        (spansOf (· == openId) (· == closeId) xs).foldl (markBracket (st + 1) xs.length label) semantic st = semantic st :=
      foldl_within (fun span mem => bracket_within mem (st + 1) label) semantic st (by omega)
    rw [spansOf_cons, foldl_append, length_cons, rest]
    by_cases here : x = openId
    · rw [if_pos (beq_iff_eq.mpr here), foldl_cons, foldl_nil]
      cases j with
      | zero =>
        rw [zero_add, untouched, getElem?_cons_zero, if_pos (by rw [here])]
        cases (nonzero (xs.map (· == closeId))).head? <;> simp [markBracket, setAt]
      | succ j =>
        rw [Nat.succ_add_eq_add_succ, ih _ _ (Nat.le_of_succ_le_succ upto), getElem?_cons_succ, take_succ_cons]
        simp only [Unclosed, here, true_and]
        by_cases again : xs[j]? = some openId
        · rw [if_pos again, if_pos again]
        rw [if_neg again, if_neg again]
        by_cases inner : Unclosed openId closeId (xs.take j)
        · have outer : Unclosed openId closeId (xs.take j) ∨ closeId ∉ xs.take j := .inl inner
          rw [if_pos inner, if_pos outer]
        rw [if_neg inner]
        have reach := Nat.le_of_succ_le_succ upto
        cases first : (nonzero (xs.map (· == closeId))).head? with
        | none =>
          have absent := head_nonzero_none first
          rw [if_pos (.inr fun mem => absent (mem_of_mem_take mem)), if_neg fun close => absent (mem_of_getElem? close)]
          simp only [markBracket, setAt, setSlice, Option.map_none, Option.getD_none]
          rw [if_neg (by omega), if_pos (by omega)]
        | some c =>
          obtain ⟨close, before⟩ := head_nonzero_some first
          simp only [markBracket, setAt, setSlice, Option.map_some, Option.getD_some]
          rcases Nat.lt_trichotomy j c with less | rfl | more
          · have absent : closeId ∉ xs.take j := fun mem =>
              before ((take_sublist_take_left less.le).subset mem)
            have other : xs[j]? ≠ some closeId := fun found =>
              before (mem_of_getElem? (by rw [getElem?_take_of_lt less, found]))
            rw [if_neg (by omega), if_neg (by omega), if_pos (by omega), if_pos (.inr absent), if_neg other]
          · rw [if_pos (by omega), if_pos (.inr before), if_pos close]
          · have present : closeId ∈ xs.take j := mem_of_getElem? (by rw [getElem?_take_of_lt more, close])
            rw [if_neg (by omega), if_neg (by omega), if_neg (by omega), if_neg (by simp [inner, present])]
    · rw [if_neg (by simpa using here), foldl_nil]
      cases j with
      | zero => simp [untouched, here, Unclosed]
      | succ j =>
        rw [Nat.succ_add_eq_add_succ, ih _ _ (Nat.le_of_succ_le_succ upto), getElem?_cons_succ, take_succ_cons]
        simp only [Unclosed, here, false_and, or_false]

/-- What `_mark_span` writes at token `j` of a message with the tokens `xs`. -/
def spanLabel (openId closeId : Int) (label : Semantic) (xs : List Int) (j : Nat) : Option Semantic :=
  if xs[j]? = some openId then some .delim
  else if Unclosed openId closeId (xs.take j) then some (if xs[j]? = some closeId then .delim else label)
  else none

def segment (ids : List Int) (m : Message) : List Int := (ids.take m.stop).drop m.start

theorem length_segment (bound : m.stop ≤ ids.length) : (segment ids m).length = m.stop - m.start := by
  rw [segment, length_drop, length_take]
  omega

theorem segment_getElem (lt : j + m.start < m.stop) (bound : m.stop ≤ ids.length) : (segment ids m)[j]? = some ids[j + m.start]! := by
  rw [segment, getElem?_drop, getElem?_take_of_lt (by omega), add_comm, getElem!_pos ids _ (by omega), getElem?_eq_getElem (by omega)]

theorem markSpan_apply (openId closeId : Int) (label : Semantic) (semantic : Nat → Semantic)
    (bound : m.stop ≤ ids.length) (upto : j + m.start ≤ m.stop) :
    markSpan ids semantic m.start m.stop openId closeId label (j + m.start) =
      (spanLabel openId closeId label (segment ids m) j).getD (semantic (j + m.start)) := by
  have length := length_segment (m := m) bound
  have inside : j ≤ (segment ids m).length := by omega
  have marks := foldl_markBracket openId closeId label m.start semantic inside
  rw [length] at marks
  refine marks.trans ?_
  unfold spanLabel
  split
  · rfl
  · split <;> rfl

theorem unclosed_append : Unclosed openId closeId (xs ++ ys) ↔ Unclosed openId closeId ys ∨ (Unclosed openId closeId xs ∧ closeId ∉ ys) := by
  induction xs with
  | nil => simp [Unclosed]
  | cons x xs ih =>
    simp only [cons_append, Unclosed, ih, mem_append]
    tauto

theorem not_unclosed (absent : openId ∉ xs) : ¬ Unclosed openId closeId xs := by
  induction xs with
  | nil => exact id
  | cons x xs ih =>
    rw [mem_cons, not_or] at absent
    simp [Unclosed, ih absent.2, Ne.symm absent.1]

theorem spanLabel_left (label : Semantic) (ys : List Int) (lt : j < xs.length) :
    spanLabel openId closeId label (xs ++ ys) j = spanLabel openId closeId label xs j := by
  simp [spanLabel, getElem?_append_left lt, take_append_of_le_length lt.le]

theorem spanLabel_right (closed : ¬ Unclosed openId closeId xs) (label : Semantic) (ys : List Int) (j : Nat) :
    spanLabel openId closeId label (xs ++ ys) (j + xs.length) = spanLabel openId closeId label ys j := by
  have token : (xs ++ ys)[j + xs.length]? = ys[j]? := by
    rw [getElem?_append_right (by omega), Nat.add_sub_cancel]
  have before : (xs ++ ys).take (j + xs.length) = xs ++ ys.take j := by
    rw [add_comm, take_length_add_append]
  simp [spanLabel, token, before, unclosed_append, closed]

theorem spanLabel_of_no_open (absent : openId ∉ xs) (label : Semantic) (j : Nat) : spanLabel openId closeId label xs j = none := by
  have other : xs[j]? ≠ some openId := fun found => absent (mem_of_getElem? found)
  rw [spanLabel, if_neg other, if_neg (not_unclosed (fun mem => absent (mem_of_mem_take mem)))]

theorem spanLabel_bracket {body : List Int} (differ : openId ≠ closeId) (opens : openId ∉ body) (closes : closeId ∉ body)
    (label : Semantic) (lt : j < body.length + 2) :
    spanLabel openId closeId label (openId :: body ++ [closeId]) j = some (if j = 0 ∨ j = body.length + 1 then .delim else label) := by
  cases j with
  | zero => simp [spanLabel]
  | succ j =>
    have stays : Unclosed openId closeId ((openId :: body ++ [closeId]).take (j + 1)) := by
      rw [cons_append, take_succ_cons, take_append_of_le_length (by omega)]
      exact .inr ⟨rfl, fun mem => closes (mem_of_mem_take mem)⟩
    rw [spanLabel, cons_append, getElem?_cons_succ, ← cons_append, if_pos stays]
    by_cases last : j = body.length
    · simp [last, Ne.symm differ]
    · have token : (body ++ [closeId])[j]? = some (body.get ⟨j, by omega⟩) := by
        rw [getElem?_append_left (by omega)]
        exact getElem?_eq_getElem _
      have mem : body.get ⟨j, by omega⟩ ∈ body := List.get_mem _ _
      have inner {x : Int} (absent : x ∉ body) : body.get ⟨j, by omega⟩ ≠ x := fun same => absent (same ▸ mem)
      rw [token, if_neg (fun same => inner opens (Option.some.inj same)), if_neg (fun same => inner closes (Option.some.inj same)), if_neg (by omega)]

def roleLabel (sp : SpecialTokens) (role : Semantic) (xs : List Int) (j : Nat) : Option Semantic :=
  match role with
  | .user => spanLabel sp.toolRespStart sp.toolRespEnd .obs xs j
  | .assistant =>
    (spanLabel sp.toolCallStart sp.toolCallEnd .toolCall xs j).or (spanLabel sp.thinkStart sp.thinkEnd .reasoning xs j)
  | _ => none

theorem message_at (sp : SpecialTokens) (bound : m.stop ≤ ids.length) (upto : j + m.start ≤ m.stop) (semantic : Nat → Semantic) :
    markMessage sp ids semantic m (j + m.start) = (roleLabel sp m.role (segment ids m) j).getD
      (if m.role = .user ∧ j + m.start < m.stop ∧ sp.isImage ids[j + m.start]! = true then .obs
      else if IsScaffold sp ids m (j + m.start) then .delim
      else if j + m.start < m.stop then m.role else semantic (j + m.start)) := by
  have span (openId closeId : Int) (label : Semantic) (semantic : Nat → Semantic) := markSpan_apply openId closeId label semantic bound upto
  have scaffold (role : Semantic) : markScaffold sp ids (setSlice semantic m.start m.stop role) m (j + m.start) =
      if IsScaffold sp ids m (j + m.start) then .delim else if j + m.start < m.stop then role else semantic (j + m.start) := by
    rw [scaffold_apply, setSlice]
    simp only [Nat.le_add_left, true_and]
  unfold markMessage roleLabel
  cases m.role with
  | user =>
    dsimp only
    rw [span, setMask, scaffold]
    simp only [Nat.le_add_left, true_and]
  | assistant =>
    dsimp only
    rw [if_neg (fun both => by cases both.1), span, span, scaffold]
    cases spanLabel sp.toolCallStart sp.toolCallEnd .toolCall (segment ids m) j <;> rfl
  | inst | reasoning | toolCall | obs | delim =>
    rw [if_neg (fun both => by cases both.1)]
    exact scaffold _

end TriaxialTagger

end TriaxialKV
