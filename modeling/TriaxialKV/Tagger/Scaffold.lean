import Mathlib.Data.Nat.Count
import TriaxialKV.Tagger.Template

/-! # Scaffolding and the reach of a message -/

namespace TriaxialKV
open List Tensor

variable {e i j : Nat} {m' : Message} {openId x : Int}

namespace TriaxialTagger
variable {sp : SpecialTokens} {ids ids' : List Int}

theorem exists_msgs_iff : (∃ m ∈ msgs sp ids, m.start = e) ↔ e < ids.length ∧ ids[e]! = sp.imStart := by
  rw [← mem_map, msgs_starts, mem_nonzero_map, beq_iff_eq]

theorem msgs_start {m : Message} (member : m ∈ msgs sp ids) : ids[m.start]! = sp.imStart := (exists_msgs_iff.mp ⟨m, member, rfl⟩).2

theorem msgs_stop {m : Message} (member : m ∈ msgs sp ids) (lt : e < ids.length) (close : ids[e]! = sp.imEnd)
    (later : m.start < e) : m.start + 1 < m.stop ∧ m.stop ≤ e + 1 ∧ ids[m.stop - 1]! = sp.imEnd := by
  rw [msgs_eq] at member
  obtain ⟨s, span, rfl⟩ := mem_map.mp member
  obtain ⟨o, _, rfl⟩ := mem_map.mp span
  have beyond : o < e := later
  have listed : e ∈ (nonzero (ids.map (· == sp.imEnd))).filter (fun c => c > o) :=
    mem_filter.mpr ⟨mem_nonzero_map.mpr ⟨lt, beq_iff_eq.mpr close⟩, by simpa using beyond⟩
  have ascending := (nonzero_ascending (ids.map (· == sp.imEnd))).filter (fun c => c > o)
  cases first : (nonzero (ids.map (· == sp.imEnd))).filter (fun c => c > o) with
  | nil =>
    rw [first] at listed
    cases listed
  | cons c rest =>
    have found : c ∈ (nonzero (ids.map (· == sp.imEnd))).filter (fun c => c > o) := first ▸ mem_cons_self
    obtain ⟨closing, beyond⟩ := mem_filter.mp found
    have beyond : o < c := by simpa using beyond
    have least : c ≤ e := by
      rw [first] at listed ascending
      rcases mem_cons.mp listed with rfl | rest
      · exact le_refl _
      · exact ((pairwise_cons.mp ascending).1 e rest).le
    simp only [toMessage, head?_cons, Nat.add_sub_cancel]
    exact ⟨by omega, by omega, eq_of_beq (mem_nonzero_map.mp closing).2⟩

theorem lt_stop (template : sp.HasTemplate) {m : Message} (member : m ∈ msgs sp ids) (close : ids[e]! = sp.imEnd)
    (upto : m.start ≤ e) : m.start < e := by
  refine Nat.lt_of_le_of_ne upto (fun same => ?_)
  have start := msgs_start member
  rw [same, close] at start
  exact ne_of_present template (a := .imEnd) (b := .imStart) template.stop (by simp) start

theorem stop_eq (template : sp.HasTemplate) {m : Message} (member : m ∈ msgs sp ids) (mem' : m' ∈ msgs sp ids)
    (close : ids[m.stop - 1]! = sp.imEnd) (after : m.start < m'.start) (before : m'.start < m.stop) : m'.stop = m.stop := by
  obtain ⟨_, _, _⟩ := msgs_bounds member
  obtain ⟨_, _, _⟩ := msgs_bounds mem'
  obtain ⟨_, _, close'⟩ := msgs_stop mem' (by omega) close (lt_stop template mem' close (by omega))
  obtain ⟨_, _, _⟩ := msgs_stop member (e := m'.stop - 1) (by omega) close' (by omega)
  omega

/-- The label that the open brackets of a message leave at its `<|im_end|>` and right after it. -/
def spill (sp : SpecialTokens) (ids : List Int) (m : Message) : Option Semantic := roleLabel sp m.role (segment ids m) (m.stop - m.start)

theorem spill_none {m : Message} (bound : m.stop ≤ ids.length) : (spill sp ids m).getD .delim = .delim ↔ spill sp ids m = none := by
  have past : (segment ids m)[m.stop - m.start]? = none := getElem?_eq_none (length_segment bound).le
  unfold spill roleLabel spanLabel
  rw [past]
  cases m.role with
  | user =>
    simp only [reduceCtorEq, if_false]
    split <;> simp only [Option.getD_some, Option.getD_none, reduceCtorEq]
  | assistant =>
    simp only [reduceCtorEq, if_false]
    split
    · simp only [Option.some_or, Option.getD_some, reduceCtorEq]
    · split <;> simp only [Option.none_or, Option.getD_some, Option.getD_none, reduceCtorEq]
  | inst | reasoning | toolCall | obs | delim => simp only [Option.getD_none]

theorem spanLabel_last {closeId : Int} (opens : x ≠ openId) (closes : x ≠ closeId) (label : Semantic) (xs : List Int) :
    spanLabel openId closeId label (xs ++ [x]) xs.length = spanLabel openId closeId label (xs ++ [x]) (xs.length + 1) := by
  have whole : (xs ++ [x]).take (xs.length + 1) = xs ++ [x] := take_of_length_le (by simp)
  simp [spanLabel, whole, unclosed_append, Unclosed, opens, closes, Ne.symm closes]

theorem spanLabel_header (opens : x ≠ openId) (closeId : Int) (label : Semantic) (xs : List Int) (header : j ≤ 1) :
    spanLabel openId closeId label (x :: xs) j = if (x :: xs)[j]? = some openId then some .delim else none := by
  rcases Nat.le_one_iff_eq_zero_or_eq_one.mp header with rfl | rfl <;> simp [spanLabel, Unclosed, opens]

section
variable (template : sp.HasTemplate) {m : Message} (member : m ∈ msgs sp ids)
include template member

theorem message_imEnd (close : ids[m.stop - 1]! = sp.imEnd) (semantic : Nat → Semantic) :
    markMessage sp ids semantic m (m.stop - 1) = (spill sp ids m).getD .delim := by
  have apart (b : SpecialToken) (differ : SpecialToken.imEnd ≠ b) : sp.imEnd ≠ sp.id b := ne_of_present template (a := .imEnd) template.stop differ
  have text : sp.isImage sp.imEnd = false := not_image template (a := .imEnd) template.stop (by simp) (by simp)
  obtain ⟨_, upto, _⟩ := msgs_bounds member
  have length := length_segment (m := m) upto
  obtain ⟨xs, split⟩ : ∃ xs, segment ids m = xs ++ [sp.imEnd] := by
    have found : (segment ids m)[m.stop - 1 - m.start]? = some sp.imEnd := by
      rw [segment_getElem (by omega) upto, Nat.sub_add_cancel (by omega), close]
    have last : (segment ids m).getLast? = some sp.imEnd := by
      rw [getLast?_eq_getElem?, length, ← found]
      congr 1
      omega
    exact getLast?_eq_some_iff.mp last
  have before : xs.length = m.stop - 1 - m.start := by
    rw [split, length_append, length_singleton] at length
    omega
  have same : roleLabel sp m.role (segment ids m) (m.stop - 1 - m.start) = spill sp ids m := by
    have next : m.stop - m.start = xs.length + 1 := by omega
    rw [spill, next, ← before, split]
    unfold roleLabel
    cases m.role with
    | user => exact spanLabel_last (apart .toolRespStart (by simp)) (apart .toolRespEnd (by simp)) _ xs
    | assistant =>
      exact congrArg₂ Option.or (spanLabel_last (apart .toolCallStart (by simp)) (apart .toolCallEnd (by simp)) _ xs)
        (spanLabel_last (apart .thinkStart (by simp)) (apart .thinkEnd (by simp)) _ xs)
    | inst | reasoning | toolCall | obs | delim => rfl
  have value := message_at sp (m := m) (j := m.stop - 1 - m.start) upto (by omega) semantic
  rw [Nat.sub_add_cancel (by omega), close, text, if_neg (by simp), if_pos, same] at value
  · exact value
  · exact .inr (.inr (.inr ⟨⟨by omega, close⟩, .inl rfl⟩))

theorem message_header (semantic : Nat → Semantic) (header : j ≤ 1) (lt : j + m.start < ids.length) (present : 0 ≤ ids[j + m.start]!) :
    markMessage sp ids semantic m (j + m.start) = if m.role = .user ∧ sp.isImage ids[j + m.start]! = true then .obs else .delim := by
  have apart (b : SpecialToken) (differ : SpecialToken.imStart ≠ b) : sp.imStart ≠ sp.id b :=
    ne_of_present template (a := .imStart) template.start differ
  obtain ⟨_, upto, _⟩ := msgs_bounds member
  have scaffold : IsScaffold sp ids m (j + m.start) := by
    rcases Nat.le_one_iff_eq_zero_or_eq_one.mp header with rfl | rfl
    · exact .inl (zero_add _)
    · exact .inr (.inl ⟨add_comm _ _, lt⟩)
  obtain ⟨xs, split⟩ : ∃ xs, segment ids m = sp.imStart :: xs := by
    have first : (segment ids m)[0]? = some sp.imStart := by
      rw [segment_getElem (by omega) upto, zero_add, msgs_start member]
    exact head?_eq_some_iff.mp (head?_eq_getElem? .. ▸ first)
  have token : (sp.imStart :: xs)[j]? = some ids[j + m.start]! := split ▸ segment_getElem (by omega) upto
  have response := spanLabel_header (apart .toolRespStart (by simp)) sp.toolRespEnd .obs xs header
  have call := spanLabel_header (apart .toolCallStart (by simp)) sp.toolCallEnd .toolCall xs header
  have think := spanLabel_header (apart .thinkStart (by simp)) sp.thinkEnd .reasoning xs header
  rw [token] at response call think
  rw [message_at sp upto (by omega), split, if_pos scaffold]
  unfold roleLabel
  cases m.role with
  | user =>
    refine (congrArg (Option.getD · _) response).trans ?_
    by_cases image : sp.isImage ids[j + m.start]! = true
    · have other : ids[j + m.start]! ≠ sp.id .toolRespStart := by
        intro same
        rw [same] at present image
        exact absurd image (by simp [not_image template present])
      rw [if_neg (fun same => other (Option.some.inj same))]
      exact (if_pos ⟨rfl, by omega, image⟩).trans (if_pos ⟨rfl, image⟩).symm
    · simp only [image, Bool.false_eq_true, and_false, if_false]
      split <;> rfl
  | assistant =>
    rw [if_neg (fun both => by cases both.1), if_neg (fun both => by cases both.1)]
    refine (congrArg (Option.getD · _) (congrArg₂ Option.or call think)).trans ?_
    split
    · rfl
    · split <;> rfl
  | inst | reasoning | toolCall | obs | delim =>
    rw [if_neg (fun both => by cases both.1), if_neg (fun both => by cases both.1)]
    rfl

end

theorem foldl_untouched {ms : List Message} (each : ∀ m ∈ ms, ∀ semantic, markMessage sp ids semantic m i = semantic i)
    (semantic : Nat → Semantic) : ms.foldl (markMessage sp ids) semantic i = semantic i := by
  induction ms generalizing semantic with
  | nil => rfl
  | cons m ms ih =>
    rw [foldl_cons, ih (fun m' member => each m' (mem_cons_of_mem _ member)), each m mem_cons_self]

theorem message_untouched {m : Message} (member : m ∈ msgs sp ids) (outside : ¬(m.start ≤ i ∧ i ≤ m.stop))
    (semantic : Nat → Semantic) : markMessage sp ids semantic m i = semantic i := by
  obtain ⟨bound, upto, header⟩ := msgs_bounds member
  exact message_within bound upto header semantic i outside

theorem marked_last {m : Message} (member : m ∈ msgs sp ids) (later : ∀ m' ∈ msgs sp ids, m.start < m'.start → ¬(m'.start ≤ i ∧ i ≤ m'.stop)) :
    ∃ semantic, marked sp ids i = markMessage sp ids semantic m i := by
  obtain ⟨front, _, split⟩ := append_of_mem member
  have ascending := msgs_ascending sp ids
  refine ⟨front.foldl (markMessage sp ids) (fun _ => .user), ?_⟩
  rw [marked, split, foldl_append, foldl_cons]
  apply foldl_untouched
  intro m' lt
  have listed : m' ∈ msgs sp ids := split ▸ mem_append_right _ (mem_cons_of_mem _ lt)
  rw [split, map_append, map_cons] at ascending
  have order := (pairwise_cons.mp (pairwise_append.mp ascending).2.1).1 m'.start (mem_map_of_mem lt)
  exact message_untouched listed (later m' listed order)

theorem marked_start (template : sp.HasTemplate) {m : Message} (member : m ∈ msgs sp ids) : marked sp ids m.start = .delim := by
  obtain ⟨_, _, _⟩ := msgs_bounds member
  have text : sp.isImage sp.imStart = false := not_image template (a := .imStart) template.start (by simp) (by simp)
  obtain ⟨semantic, left⟩ := marked_last member (i := m.start) (fun m' _ later reach => by omega)
  have header := message_header template member semantic (Nat.zero_le 1) (by omega)
  rw [zero_add, msgs_start member, text] at header
  rw [left, header template.start, if_neg (by simp)]

theorem marked_role (template : sp.HasTemplate) {m : Message} (member : m ∈ msgs sp ids) (lt : m.start + 1 < ids.length)
    (present : 0 ≤ ids[m.start + 1]!) :
    marked sp ids (m.start + 1) = if m.role = .user ∧ sp.isImage ids[m.start + 1]! = true then .obs else .delim := by
  by_cases nested : ∃ m' ∈ msgs sp ids, m'.start = m.start + 1
  · obtain ⟨m', mem', next⟩ := nested
    have text : sp.isImage sp.imStart = false := not_image template (a := .imStart) template.start (by simp) (by simp)
    rw [← next, marked_start template mem', msgs_start mem', text, if_neg (by simp)]
  · obtain ⟨semantic, left⟩ := marked_last member (i := m.start + 1)
      (fun m' mem' later reach => nested ⟨m', mem', by omega⟩)
    have header := message_header template member semantic (le_refl 1) (by omega)
    rw [add_comm 1] at header
    rw [left, header present]

def Innermost (sp : SpecialTokens) (ids : List Int) (m : Message) : Prop := ∀ m' ∈ msgs sp ids, m'.stop = m.stop → m'.start ≤ m.start

theorem exists_innermost {m : Message} (member : m ∈ msgs sp ids) : ∃ last ∈ msgs sp ids, last.stop = m.stop ∧ Innermost sp ids last := by
  by_cases innermost : Innermost sp ids m
  · exact ⟨m, member, rfl, innermost⟩
  · simp only [Innermost, not_forall, not_le] at innermost
    obtain ⟨_, mem', same, _⟩ := innermost
    have lt := (msgs_bounds mem').1.trans_le (msgs_bounds mem').2.1
    obtain ⟨last, listed, stop, innermost⟩ := exists_innermost mem'
    exact ⟨last, listed, stop.trans same, innermost⟩
termination_by ids.length - m.start

theorem marked_imEnd (template : sp.HasTemplate) {m : Message} (member : m ∈ msgs sp ids) (close : ids[m.stop - 1]! = sp.imEnd)
    (innermost : Innermost sp ids m) : marked sp ids (m.stop - 1) = (spill sp ids m).getD .delim := by
  obtain ⟨_, _, _⟩ := msgs_bounds member
  obtain ⟨_, left⟩ := marked_last member (i := m.stop - 1) (fun m' mem' later reach => by
    have same := stop_eq template member mem' close later (by omega)
    have := innermost m' mem' same
    omega)
  rw [left, message_imEnd template member close]

/-- The start, the role and the end of every message are labelled as scaffolding. -/
def Scaffolded (sp : SpecialTokens) (ids : List Int) : Prop :=
  ∀ m ∈ msgs sp ids, semantic sp ids m.start = .delim ∧ (m.start + 1 < ids.length → semantic sp ids (m.start + 1) = .delim) ∧
    (ids[m.stop - 1]! = sp.imEnd → semantic sp ids (m.stop - 1) = .delim)

theorem bits_delim (lt : i < ids.length) (label : semantic sp ids i = .delim) : (bits sp .default ids)[i]! = 4 := by
  have stored : (bits sp .default ids)[i]! = TriaxialPolicy.default.lut[(tag sp ids)[i]!]! := gather_getElem! _ (by simpa [tag] using lt)
  rw [stored, tag_apply sp ids lt, label]
  cases temporal sp ids i <;> cases modal sp ids[i]! <;> decide

/-- Scaffolding gets another label exactly where a user message has an image for a role or the last message to stop leaves a bracket open. -/
theorem scaffolded_iff (template : sp.HasTemplate) (tokens : ∀ x ∈ ids, 0 ≤ x) : (Scaffolded sp ids ↔
      (∀ m ∈ msgs sp ids, m.role = .user → m.start + 1 < ids.length → sp.isImage ids[m.start + 1]! = false) ∧
      ∀ m ∈ msgs sp ids, ids[m.stop - 1]! = sp.imEnd → Innermost sp ids m → spill sp ids m = none) ∧
    ∀ i < ids.length, semantic sp ids i = .delim → (bits sp .default ids)[i]! = 4 := by
  have stopped {m : Message} (member : m ∈ msgs sp ids) (close : ids[m.stop - 1]! = sp.imEnd) (innermost : Innermost sp ids m) :
      semantic sp ids (m.stop - 1) = (spill sp ids m).getD .delim := by
    obtain ⟨bound, upto, _⟩ := msgs_bounds member
    have mark : sp.isVision sp.imEnd = false := by
      have first : sp.imEnd ≠ sp.visionStart := ne_of_present template (a := .imEnd) (b := .visionStart) template.stop (by simp)
      have second : sp.imEnd ≠ sp.visionEnd := ne_of_present template (a := .imEnd) (b := .visionEnd) template.stop (by simp)
      simp [SpecialTokens.isVision, first, second]
    rw [semantic_at sp ids (by omega), close, mark, if_neg (by simp), marked_imEnd template member close innermost]
  have present {i : Nat} (inside : i < ids.length) : 0 ≤ ids[i]! := by
    rw [getElem!_pos ids _ inside]
    exact tokens _ (getElem_mem inside)
  refine ⟨⟨fun all => ⟨fun m member user inside => ?_, fun m member close innermost => ?_⟩, fun ⟨roles, ends⟩ m member => ?_⟩,
    fun i inside => bits_delim inside⟩
  · have label := (all m member).2.1 inside
    have role := marked_role template member inside (present inside)
    have known := present inside
    by_contra image
    rw [Bool.not_eq_false] at image
    have mark : sp.isVision ids[m.start + 1]! = false := by
      by_contra vision
      rw [Bool.not_eq_false, SpecialTokens.isVision, Bool.or_eq_true, beq_iff_eq, beq_iff_eq] at vision
      rcases vision with same | same
      · rw [same] at known image
        have text : sp.isImage sp.visionStart = false := not_image template (a := .visionStart) known (by simp) (by simp)
        exact absurd image (by simp [text])
      · rw [same] at known image
        have text : sp.isImage sp.visionEnd = false := not_image template (a := .visionEnd) known (by simp) (by simp)
        exact absurd image (by simp [text])
    rw [semantic_at sp ids inside, mark, if_neg (by simp), role, if_pos ⟨user, image⟩] at label
    cases label
  · have label := (all m member).2.2 close
    rw [stopped member close innermost] at label
    exact (spill_none (msgs_bounds member).2.1).mp label
  · obtain ⟨bound, upto, _⟩ := msgs_bounds member
    refine ⟨?_, fun inside => ?_, fun close => ?_⟩
    · rw [semantic_at sp ids (by omega), marked_start template member, ite_self]
    · have role := marked_role template member inside (present inside)
      rw [if_neg (fun both => by rw [roles m member both.1 inside] at both; cases both.2)] at role
      rw [semantic_at sp ids inside, role, ite_self]
    · obtain ⟨last, listed, same, innermost⟩ := exists_innermost member
      rw [← same] at close ⊢
      rw [stopped listed close innermost, ends last listed close innermost]
      rfl

open GrowthExample TemplateExample in
/-- The second message closes its `<think>`. -/
theorem scaffolded_closed_think : let ids := turn 40 ++ [1, 16, 13, 7, 40, 8, 41, 2, 13]
    (msgs qwen ids).length = 2 ∧ semantic qwen ids ((turn 40).length + 4) = .reasoning ∧ Scaffolded qwen ids := by
  intro ids
  refine ⟨by decide +kernel, by decide +kernel, (scaffolded_iff qwen_template (by decide)).1.mpr ⟨by decide +kernel, fun m member _ _ => ?_⟩⟩
  exact (by decide +kernel : ∀ m ∈ msgs qwen ids, spill qwen ids m = none) m member

open GrowthExample in
/-- An open `<think>` turns the `<|im_end|>` of its message into reasoning. -/
theorem open_think_over_end : ⟨0, 6, .assistant⟩ ∈ msgs qwen ([1, 16, 13, 7, 40, 2, 13] ++ turn 41) ∧
      ([1, 16, 13, 7, 40, 2, 13] ++ turn 41)[5]! = qwen.imEnd ∧
      semantic qwen ([1, 16, 13, 7, 40, 2, 13] ++ turn 41) 5 = .reasoning ∧
      (bits qwen .default ([1, 16, 13, 7, 40, 2, 13] ++ turn 41))[5]! = 2 ∧
      semantic qwen [1, 1000000, 2] 1 = .obs := by
  decide +kernel

structure DiffersIn (sp : SpecialTokens) (m : Message) (ids ids' : List Int) : Prop where
  length : ids'.length = ids.length
  content : ∀ i < ids.length, ids[i]! ≠ ids'[i]! → (m.start + 1 < i ∧ i < m.stop) ∧
    (ids[i]! ≠ sp.imStart ∧ ids[i]! ≠ sp.imEnd) ∧ (ids'[i]! ≠ sp.imStart ∧ ids'[i]! ≠ sp.imEnd)

inductive Bracket where
  | toolResponse
  | toolCall
  | think
deriving DecidableEq

def Bracket.label : Bracket → Semantic
  | .toolResponse => .obs
  | .toolCall => .toolCall
  | .think => .reasoning

/-- The bracket that a message leaves open, of those that its role has. -/
def leftOpen (sp : SpecialTokens) (ids : List Int) (m : Message) : Option Bracket :=
  match m.role with
  | .user => if Unclosed sp.toolRespStart sp.toolRespEnd (segment ids m) then some .toolResponse else none
  | .assistant =>
    if Unclosed sp.toolCallStart sp.toolCallEnd (segment ids m) then some .toolCall
    else if Unclosed sp.thinkStart sp.thinkEnd (segment ids m) then some .think else none
  | _ => none

/-- The bracket left open before `e`. A newline there belongs to the innermost message that stops, another token to the innermost with a bracket. -/
def openAt (sp : SpecialTokens) (ids : List Int) (e : Nat) : Option Bracket :=
  let stopping := ((msgs sp ids).filter (fun m => m.stop = e)).reverse
  if ids[e]! = sp.newline then stopping.head?.bind (leftOpen sp ids) else stopping.findSome? (leftOpen sp ids)

theorem spill_eq {m : Message} (bound : m.stop ≤ ids.length) : spill sp ids m = (leftOpen sp ids m).map Bracket.label := by
  have past : (segment ids m)[m.stop - m.start]? = none := getElem?_eq_none (length_segment bound).le
  have whole : (segment ids m).take (m.stop - m.start) = segment ids m := take_of_length_le (length_segment bound).le
  unfold spill leftOpen roleLabel spanLabel
  rw [past, whole]
  cases m.role with
  | user => by_cases left : Unclosed sp.toolRespStart sp.toolRespEnd (segment ids m) <;> simp [left, Bracket.label]
  | assistant =>
    by_cases left : Unclosed sp.toolCallStart sp.toolCallEnd (segment ids m)
    · simp [left, Bracket.label]
    · by_cases thinks : Unclosed sp.thinkStart sp.thinkEnd (segment ids m) <;> simp [left, thinks, Bracket.label]
  | inst | reasoning | toolCall | obs | delim => rfl

/-- The label right after the messages that stop at `e`, each marked in its turn. -/
def spilled (sp : SpecialTokens) (ids : List Int) (e : Nat) : Semantic :=
  ((msgs sp ids).filter (fun m => m.stop = e)).foldl
    (fun left m => (spill sp ids m).getD (if ids[e]! = sp.newline then .delim else left)) .user

theorem spilled_eq (sp : SpecialTokens) (ids : List Int) (stops : ∃ m ∈ msgs sp ids, m.stop = e) :
    spilled sp ids e = ((openAt sp ids e).map Bracket.label).getD (if ids[e]! = sp.newline then .delim else .user) := by
  have bound : ∀ m ∈ (msgs sp ids).filter (fun m => m.stop = e), spill sp ids m = (leftOpen sp ids m).map Bracket.label :=
    fun m mem => spill_eq (msgs_bounds (mem_filter.mp mem).1).2.1
  have some : (msgs sp ids).filter (fun m => m.stop = e) ≠ [] := by
    obtain ⟨m, member, stop⟩ := stops
    exact ne_nil_of_mem (mem_filter.mpr ⟨member, decide_eq_true stop⟩)
  unfold spilled openAt
  generalize (msgs sp ids).filter (fun m => m.stop = e) = ms at bound some
  -- from the innermost message outwards
  induction ms using reverseRecOn with
  | nil => exact absurd rfl some
  | append_singleton ms m ih =>
    rw [foldl_append, foldl_cons, foldl_nil, reverse_append, bound m (by simp)]
    by_cases newline : ids[e]! = sp.newline
    · simp [newline]
    · cases left : leftOpen sp ids m with
      | some bracket => simp [left]
      | none =>
        rcases eq_or_ne ms [] with rfl | more
        · simp [left]
        · have outer := ih (fun m' mem => bound m' (by simp [mem])) more
          simp only [newline, if_false] at outer ⊢
          simp [left, outer]

theorem spilled_eq_iff {ids' : List Int} (stops : ∃ m ∈ msgs sp ids, m.stop = e) (stops' : ∃ m ∈ msgs sp ids', m.stop = e)
    (token : ids[e]! = ids'[e]!) :
    spilled sp ids e = spilled sp ids' e ↔ openAt sp ids e = openAt sp ids' e := by
  rw [spilled_eq sp ids stops, spilled_eq sp ids' stops', ← token]
  have apart (b : Bracket) : b.label ≠ if ids[e]! = sp.newline then .delim else .user := by
    split <;> cases b <;> simp [Bracket.label]
  rcases openAt sp ids e with _ | b <;> rcases openAt sp ids' e with _ | b'
  · simp
  · simpa using (apart b').symm
  · simpa using apart b
  · cases b <;> cases b' <;> simp [Bracket.label]

/-! ### Turns -/

/-- A user message starts here. -/
def OpensUser (sp : SpecialTokens) (ids : List Int) (i : Nat) : Prop :=
  i < ids.length ∧ ids[i]! = sp.imStart ∧ sp.roleOf (if i + 1 < ids.length then ids[i + 1]! else -1) = .user

instance : DecidablePred (OpensUser sp ids) := fun _ => inferInstanceAs (Decidable (_ ∧ _))

/-- The number of user messages that start before `n`. -/
def users (sp : SpecialTokens) (ids : List Int) (n : Nat) : Nat := Nat.count (OpensUser sp ids) n

theorem msgs_role {m : Message} (member : m ∈ msgs sp ids) : m.role = sp.roleOf (if m.start + 1 < ids.length then ids[m.start + 1]! else -1) := by
  rw [msgs_eq] at member
  obtain ⟨s, _, rfl⟩ := mem_map.mp member
  rfl

theorem mem_userStarts : i ∈ userStarts sp ids ↔ OpensUser sp ids i := by
  unfold userStarts OpensUser
  rw [mem_map]
  constructor
  · rintro ⟨m, mem, rfl⟩
    obtain ⟨member, role⟩ := mem_filter.mp mem
    obtain ⟨lt, start⟩ := exists_msgs_iff.mp ⟨m, member, rfl⟩
    exact ⟨lt, start, msgs_role member ▸ of_decide_eq_true role⟩
  · rintro ⟨lt, start, role⟩
    obtain ⟨m, member, rfl⟩ := exists_msgs_iff.mpr ⟨lt, start⟩
    exact ⟨m, mem_filter.mpr ⟨member, decide_eq_true ((msgs_role member).trans role)⟩, rfl⟩

theorem countP_userStarts (sp : SpecialTokens) (ids : List Int) (n : Nat) : (userStarts sp ids).countP (· < n) = users sp ids n := by
  have nodup : (userStarts sp ids).Nodup := (userStarts_ascending sp ids).imp Nat.ne_of_lt
  have same : ((userStarts sp ids).filter (· < n)).Perm ((range n).filter (OpensUser sp ids)) := by
    refine (perm_ext_iff_of_nodup (nodup.filter _) (nodup_range.filter _)).mpr (fun i => ?_)
    rw [mem_filter, mem_filter, mem_userStarts, mem_range, decide_eq_true_eq, decide_eq_true_eq, and_comm]
  rw [countP_eq_length_filter, same.length_eq, users, Nat.count, countP_eq_length_filter]

theorem temporal_eq (lt : i < ids.length) : temporal sp ids i = turnLabel (users sp ids ids.length) (users sp ids (i + 1)) := by
  have all : (userStarts sp ids).countP (· < ids.length) = (userStarts sp ids).length :=
    countP_eq_length.mpr (fun i mem => decide_eq_true (mem_userStarts.mp mem).1)
  have upto : (userStarts sp ids).countP (· ≤ i) = (userStarts sp ids).countP (· < i + 1) :=
    countP_congr (fun k _ => by rw [decide_eq_true_eq, decide_eq_true_eq, Nat.lt_succ_iff])
  rw [temporal_apply sp ids lt, ← countP_userStarts, ← countP_userStarts, all, upto]

/-- The user messages nested in `m` move no turn outside: those before it keep their distance up to 3, and what comes after it has a turn before it in
both lists or in neither, unless the turns behind make no difference. -/
structure SameTurns (sp : SpecialTokens) (m : Message) (ids ids' : List Int) : Prop where
  distance : 0 < users sp ids m.start →
    min 3 (users sp ids ids.length - users sp ids m.start) = min 3 (users sp ids' ids.length - users sp ids' m.start)
  none : 0 < m.start → users sp ids m.start = 0 → (users sp ids ids.length = 0 ↔ users sp ids' ids.length = 0)
  behind : m.stop < ids.length → ¬OpensUser sp ids m.stop → (users sp ids m.stop = 0 ↔ users sp ids' m.stop = 0) ∨
    users sp ids ids.length = users sp ids m.stop ∨ users sp ids m.stop + 3 ≤ users sp ids ids.length

section
variable {total total' seen seen' : Nat}

theorem turnLabel_zero : turnLabel total 0 = turnLabel total' 0 ↔ (total = 0 ↔ total' = 0) := by
  unfold turnLabel
  by_cases first : total = 0 <;> by_cases second : total' = 0 <;> simp [first, second]

theorem turnLabel_seen (some : 0 < seen) (le : seen ≤ total) : turnLabel total seen = temporalOfDist (total - seen) := by
  rw [turnLabel, if_neg (by omega), if_neg (by omega)]

theorem temporalOfDist_eq_iff (a b : Nat) : temporalOfDist a = temporalOfDist b ↔ min 3 a = min 3 b := by
  rcases a with _ | _ | _ | a <;> rcases b with _ | _ | _ | b <;> simp [temporalOfDist]

theorem turnLabel_unseen (le : 0 < seen) (c : Nat) : turnLabel c 0 = turnLabel (seen + c) seen ↔ c = 0 ∨ 3 ≤ c := by
  rw [turnLabel_seen le (Nat.le_add_right _ _), Nat.add_sub_cancel_left]
  rcases c with _ | _ | _ | c <;> simp [turnLabel, temporalOfDist]

end

theorem count_agree {p q : Nat → Prop} [DecidablePred p] [DecidablePred q] {n : Nat} (agree : ∀ k < n, p k ↔ q k) :
    Nat.count p n = Nat.count q n := by
  induction n with
  | zero => rfl
  | succ n ih => rw [Nat.count_succ, Nat.count_succ, ih (fun k lt => agree k (by omega)), if_congr (agree n (by omega)) rfl rfl]

theorem close_of_lt {m : Message} (member : m ∈ msgs sp ids) (lt : m.stop < ids.length) : ids[m.stop - 1]! = sp.imEnd := by
  rw [msgs_eq] at member
  obtain ⟨s, span, rfl⟩ := mem_map.mp member
  cases stop : s.2 with
  | none =>
    rw [toMessage, stop] at lt
    exact absurd lt (lt_irrefl _)
  | some e =>
    rw [toMessage, stop]
    exact eq_of_beq (mem_nonzero_map.mp (spansOf_stop span stop).2).2

theorem markMessage_stop {m : Message} (member : m ∈ msgs sp ids) (lt : m.stop < ids.length)
    (semantic : Nat → Semantic) : markMessage sp ids semantic m m.stop =
      (spill sp ids m).getD (if ids[m.stop]! = sp.newline then .delim else semantic m.stop) := by
  obtain ⟨bound, upto, _⟩ := msgs_bounds member
  have scaffold : IsScaffold sp ids m m.stop ↔ ids[m.stop]! = sp.newline := by
    have close := close_of_lt member lt
    unfold IsScaffold
    constructor
    · rintro (_ | ⟨_, _⟩ | ⟨_, _, newline⟩ | ⟨_, _ | ⟨_, _, newline⟩⟩)
      · omega
      · omega
      · exact newline
      · omega
      · exact newline
    · intro newline
      exact .inr (.inr (.inr ⟨⟨by omega, close⟩, .inr ⟨rfl, lt, newline⟩⟩))
  have value := message_at sp (m := m) (j := m.stop - m.start) upto (by omega) semantic
  rw [Nat.sub_add_cancel bound.le, if_neg (by simp), if_neg (lt_irrefl m.stop)] at value
  simp only [value, scaffold]
  rfl

theorem marked_stop (template : sp.HasTemplate) {m : Message} (member : m ∈ msgs sp ids) (lt : m.stop < ids.length)
    (start : ids[m.stop]! ≠ sp.imStart) : marked sp ids m.stop = spilled sp ids m.stop := by
  have each : ∀ ms : List Message, (∀ m' ∈ ms, m' ∈ msgs sp ids) → ∀ semantic : Nat → Semantic,
      ms.foldl (markMessage sp ids) semantic m.stop = (ms.filter (fun m' => m'.stop = m.stop)).foldl
        (fun left m' => (spill sp ids m').getD (if ids[m.stop]! = sp.newline then .delim else left)) (semantic m.stop) := by
    intro ms listed
    induction ms with
    | nil => exact fun _ => rfl
    | cons m' ms ih =>
      intro semantic
      have mem' := listed m' mem_cons_self
      rw [foldl_cons, ih (fun m'' later => listed m'' (mem_cons_of_mem _ later))]
      by_cases same : m'.stop = m.stop
      · have here := markMessage_stop mem' (by omega) semantic
        rw [same] at here
        rw [filter_cons_of_pos (by simpa using same), foldl_cons, here]
      · rw [filter_cons_of_neg (by simpa using same), message_untouched mem']
        rintro ⟨_, _⟩
        have apart : m'.start ≠ m.stop := fun eq => start (eq ▸ msgs_start mem')
        have close := close_of_lt member lt
        have := (msgs_stop mem' (by omega) close (lt_stop template mem' close (by omega))).2.1
        omega
  exact each (msgs sp ids) (fun _ => id) _

section
variable {m : Message} (differs : DiffersIn sp m ids ids')
include differs

theorem DiffersIn.outside (lt : i < ids.length) (outside : ¬(m.start + 1 < i ∧ i < m.stop)) : ids[i]! = ids'[i]! := by
  by_contra other
  exact outside (differs.content i lt other).1

theorem DiffersIn.scaffold (lt : i < ids.length) : (ids[i]! = sp.imStart ↔ ids'[i]! = sp.imStart) ∧ (ids[i]! = sp.imEnd ↔ ids'[i]! = sp.imEnd) := by
  by_cases same : ids[i]! = ids'[i]!
  · rw [same]
    exact ⟨.rfl, .rfl⟩
  · obtain ⟨_, first, second⟩ := differs.content i lt same
    exact ⟨iff_of_false first.1 second.1, iff_of_false first.2 second.2⟩

theorem DiffersIn.spans_eq : messageSpans sp ids' = messageSpans sp ids := by
  have marks (x : Int) (agree : ∀ i < ids.length, ids[i]! = x ↔ ids'[i]! = x) : ids'.map (· == x) = ids.map (· == x) := by
    apply ext_getElem (by simp [differs.length])
    intro i first second
    rw [length_map] at first second
    rw [getElem_map, getElem_map, ← getElem!_pos ids i second, ← getElem!_pos ids' i first]
    exact Bool.eq_iff_iff.mpr (by simpa using (agree i second).symm)
  rw [messageSpans, messageSpans, spansOf, spansOf, marks _ (fun i lt => (differs.scaffold lt).1), marks _ (fun i lt => (differs.scaffold lt).2)]

/-- Only the role of a message nested in `m` can differ. -/
theorem DiffersIn.toMessage_eq (s : Nat × Option Nat) (outer : ¬(m.start < s.1 ∧ s.1 < m.stop)) : toMessage sp ids' s = toMessage sp ids s := by
  have role : (if s.1 + 1 < ids.length then ids'[s.1 + 1]! else -1) = if s.1 + 1 < ids.length then ids[s.1 + 1]! else -1 := by
    split
    · rename_i lt
      exact (differs.outside lt (by omega)).symm
    · rfl
  simp only [toMessage, differs.length, role]

theorem DiffersIn.member (member : m ∈ msgs sp ids) : m ∈ msgs sp ids' := by
  rw [msgs_eq] at member ⊢
  obtain ⟨s, span, same⟩ := mem_map.mp member
  rw [differs.spans_eq]
  refine mem_map.mpr ⟨s, span, ?_⟩
  rw [differs.toMessage_eq s (by rw [← same]; exact fun inner => lt_irrefl _ inner.1), same]

theorem DiffersIn.opensUser (outer : ¬(m.start < i ∧ i < m.stop)) : OpensUser sp ids i ↔ OpensUser sp ids' i := by
  have role := congrArg Message.role (differs.toMessage_eq (i, none) outer)
  simp only [toMessage, differs.length] at role
  unfold OpensUser
  rw [differs.length, role]
  exact and_congr_right (fun lt => and_congr_left' (differs.scaffold lt).1)

theorem DiffersIn.label (lt : i < ids.length) : temporal sp ids i = temporal sp ids' i ↔
    turnLabel (users sp ids ids.length) (users sp ids (i + 1)) = turnLabel (users sp ids' ids.length) (users sp ids' (i + 1)) := by
  rw [temporal_eq lt, temporal_eq (differs.length ▸ lt), differs.length]

theorem DiffersIn.before {k : Nat} (le : k ≤ m.start + 1) : users sp ids' k = users sp ids k :=
  count_agree (fun i lt => (differs.opensUser (by omega)).symm)

theorem DiffersIn.behind {k : Nat} (le : m.stop ≤ k) :
    ∃ c, users sp ids k = users sp ids m.stop + c ∧ users sp ids' k = users sp ids' m.stop + c := by
  obtain ⟨d, rfl⟩ := Nat.exists_eq_add_of_le le
  refine ⟨_, Nat.count_add _ _ d, (Nat.count_add _ _ d).trans ?_⟩
  rw [count_agree (fun k _ => differs.opensUser (i := m.stop + k) (by omega))]
  rfl

omit differs in
theorem users_mono (sp : SpecialTokens) (ids : List Int) {k n : Nat} (le : k ≤ n) : users sp ids k ≤ users sp ids n := Nat.count_monotone _ le

omit differs in
theorem not_opensUser {n : Nat} (none : users sp ids n = 0) (lt : i < n) : ¬OpensUser sp ids i := by
  intro opens
  have := users_mono sp ids (Nat.succ_le_of_lt lt)
  rw [users, Nat.count_succ, if_pos opens] at this
  omega

section
variable (proper : m.start < m.stop) (inside : m.stop ≤ ids.length)
include proper inside

theorem DiffersIn.sameTurns (same : ∀ i < ids.length, ¬(m.start ≤ i ∧ i < m.stop) → temporal sp ids i = temporal sp ids' i) :
    SameTurns sp m ids ids' := by
  have start := differs.before (k := m.start) (by omega)
  obtain ⟨later, whole, whole'⟩ := differs.behind inside
  refine ⟨fun some => ?_, fun pos none => ?_, fun lt other => ?_⟩
  · have pos : 0 < m.start := Nat.pos_of_ne_zero (fun zero => by rw [zero] at some; exact absurd some (lt_irrefl _))
    have here := (differs.label (by omega)).mp (same (m.start - 1) (by omega) (by omega))
    have := users_mono sp ids (k := m.start) (n := ids.length) (by omega)
    have := users_mono sp ids' (k := m.start) (n := ids.length) (by omega)
    rw [Nat.sub_add_cancel pos, turnLabel_seen some (by omega), turnLabel_seen (by omega) (by omega), temporalOfDist_eq_iff] at here
    exact here
  · have here := (differs.label (by omega)).mp (same (m.start - 1) (by omega) (by omega))
    rw [Nat.sub_add_cancel pos, start, none, turnLabel_zero] at here
    exact here
  · have here := (differs.label lt).mp (same m.stop lt (by omega))
    have other' : ¬OpensUser sp ids' m.stop := fun opens => other ((differs.opensUser (by omega)).mpr opens)
    have next : users sp ids (m.stop + 1) = users sp ids m.stop := by rw [users, Nat.count_succ, if_neg other]; rfl
    have next' : users sp ids' (m.stop + 1) = users sp ids' m.stop := by rw [users, Nat.count_succ, if_neg other']; rfl
    rw [next, next', whole, whole'] at here
    rcases Nat.eq_zero_or_pos (users sp ids m.stop) with zero | pos <;> rcases Nat.eq_zero_or_pos (users sp ids' m.stop) with zero' | pos'
    · exact .inl (iff_of_true zero zero')
    · rw [zero, zero_add, turnLabel_unseen pos'] at here
      omega
    · rw [zero', zero_add, eq_comm, turnLabel_unseen pos] at here
      omega
    · exact .inl (iff_of_false pos.ne' pos'.ne')

theorem SameTurns.temporal (turns : SameTurns sp m ids ids') (lt : i < ids.length) (outside : ¬(m.start ≤ i ∧ i < m.stop)) :
    temporal sp ids i = temporal sp ids' i := by
  obtain ⟨distance, none, rest⟩ := turns
  have start := differs.before (k := m.start) (by omega)
  obtain ⟨later, whole, whole'⟩ := differs.behind inside
  refine (differs.label lt).mpr ?_
  rcases Nat.lt_or_ge i m.start with first | last
  · have same := differs.before (k := i + 1) (by omega)
    have := users_mono sp ids (k := i + 1) (n := m.start) first
    have := users_mono sp ids (k := m.start) (n := ids.length) (by omega)
    have := users_mono sp ids' (k := m.start) (n := ids.length) (by omega)
    rcases Nat.eq_zero_or_pos (users sp ids (i + 1)) with zero | pos
    · rw [same, zero, turnLabel_zero]
      rcases Nat.eq_zero_or_pos (users sp ids m.start) with empty | some
      · exact none (by omega) empty
      · omega
    · have := distance (by omega)
      rw [turnLabel_seen pos (by omega), turnLabel_seen (by omega) (by omega), temporalOfDist_eq_iff]
      omega
  · have reach : m.stop ≤ i := by omega
    obtain ⟨c, seen, seen'⟩ := differs.behind (k := i + 1) (by omega)
    have := users_mono sp ids (k := i + 1) (n := ids.length) lt
    rcases Nat.eq_zero_or_pos (users sp ids (i + 1)) with zero | pos <;> rcases Nat.eq_zero_or_pos (users sp ids' (i + 1)) with zero' | pos'
    · rw [zero, zero', turnLabel_zero]
      omega
    · have := rest (by omega) (not_opensUser zero (by omega))
      rw [zero, whole, whole', show users sp ids m.stop = 0 by omega, zero_add, show users sp ids' (i + 1) = users sp ids' m.stop by omega,
        turnLabel_unseen (by omega)]
      omega
    · have := rest (by omega) (fun opens => not_opensUser zero' (by omega) ((differs.opensUser (by omega)).mp opens))
      rw [zero', whole, whole', show users sp ids' m.stop = 0 by omega, zero_add, show users sp ids (i + 1) = users sp ids m.stop by omega, eq_comm,
        turnLabel_unseen (by omega)]
      omega
    · rw [turnLabel_seen pos (by omega), turnLabel_seen pos' (by omega)]
      congr 1
      omega

/-- The turns are the same outside exactly if the nested user messages move none. -/
theorem DiffersIn.turns_iff :
    (∀ i < ids.length, ¬(m.start ≤ i ∧ i < m.stop) → temporal sp ids i = temporal sp ids' i) ↔ SameTurns sp m ids ids' :=
  ⟨differs.sameTurns proper inside, fun turns _ => turns.temporal differs proper inside⟩

end

theorem segment_same (bound : m'.stop ≤ ids.length) {k : Nat} (agree : ∀ k, m'.start ≤ k → k ≤ i → ids[k]! = ids'[k]!)
    (upto : k + m'.start ≤ i) : (segment ids m')[k]? = (segment ids' m')[k]? := by
  have bound' : m'.stop ≤ ids'.length := differs.length ▸ bound
  by_cases lt : k + m'.start < m'.stop
  · rw [segment_getElem lt bound, segment_getElem lt bound', agree _ (by omega) upto]
  · rw [getElem?_eq_none (by rw [length_segment bound]; omega), getElem?_eq_none (by rw [length_segment bound']; omega)]

theorem markMessage_same (member : m' ∈ msgs sp ids) (low : m'.start ≤ i) (high : i ≤ m'.stop)
    (agree : ∀ k, m'.start ≤ k → k ≤ i → ids[k]! = ids'[k]!) (semantic : Nat → Semantic) :
    markMessage sp ids semantic m' i = markMessage sp ids' semantic m' i := by
  obtain ⟨_, upto, _⟩ := msgs_bounds member
  obtain ⟨j, rfl⟩ : ∃ j, i = j + m'.start := ⟨i - m'.start, by omega⟩
  have here := agree (j + m'.start) low (le_refl _)
  have scaffold : IsScaffold sp ids m' (j + m'.start) ↔ IsScaffold sp ids' m' (j + m'.start) := by
    unfold IsScaffold
    rw [here, differs.length, (differs.scaffold (show m'.stop - 1 < ids.length by omega)).2]
  have token := segment_same differs upto agree (le_refl _)
  have before : (segment ids m').take j = (segment ids' m').take j := by
    apply ext_getElem?
    intro k
    rw [getElem?_take, getElem?_take]
    split
    · exact segment_same differs upto agree (by omega)
    · rfl
  have label : roleLabel sp m'.role (segment ids m') j = roleLabel sp m'.role (segment ids' m') j := by
    unfold roleLabel spanLabel
    rw [token, before]
  rw [message_at sp upto high, message_at sp (differs.length ▸ upto) high, label, here]
  simp only [scaffold]

end

theorem DiffersIn.marked_away (template : sp.HasTemplate) {m : Message} (member : m ∈ msgs sp ids) (differs : DiffersIn sp m ids ids')
    (lt : i < ids.length) (outside : i < m.start ∨ m.stop < i) : marked sp ids i = marked sp ids' i := by
  have close (after : m.stop < i) : ids[m.stop - 1]! = sp.imEnd := close_of_lt member (by omega)
  obtain ⟨_, _, _⟩ := msgs_bounds member
  have member' := differs.member member
  -- a message that starts in `m` stops with it
  have nested {xs : List Int} {m' : Message} (listed : m ∈ msgs sp xs) (listed' : m' ∈ msgs sp xs) (close : xs[m.stop - 1]! = sp.imEnd)
      (inner : m'.start < m.stop) : m'.stop ≤ m.stop := by
    obtain ⟨_, _, _⟩ := msgs_bounds listed
    have := (msgs_stop listed' (by omega) close (lt_stop template listed' close (by omega))).2.1
    omega
  have each : ∀ s ∈ messageSpans sp ids, ∀ semantic : Nat → Semantic,
      markMessage sp ids semantic (toMessage sp ids s) i = markMessage sp ids' semantic (toMessage sp ids' s) i := by
    intro s span semantic
    have listed : toMessage sp ids s ∈ msgs sp ids := by rw [msgs_eq]; exact mem_map_of_mem span
    have listed' : toMessage sp ids' s ∈ msgs sp ids' := by rw [msgs_eq, differs.spans_eq]; exact mem_map_of_mem span
    by_cases inner : m.start < s.1 ∧ s.1 < m.stop
    · rw [message_untouched listed, message_untouched listed']
      · rintro ⟨low, high⟩
        rcases outside with first | after
        · exact absurd low (by change ¬ s.1 ≤ i; omega)
        · have := nested member' listed' ((differs.scaffold (by omega)).2.mp (close after)) inner.2
          omega
      · rintro ⟨low, high⟩
        rcases outside with first | after
        · exact absurd low (by change ¬ s.1 ≤ i; omega)
        · have := nested member listed (close after) inner.2
          omega
    · rw [differs.toMessage_eq s inner] at listed' ⊢
      by_cases reach : (toMessage sp ids s).start ≤ i ∧ i ≤ (toMessage sp ids s).stop
      · refine markMessage_same differs listed reach.1 reach.2 (fun k low high => differs.outside (by omega) (fun within => ?_)) semantic
        rcases outside with first | after
        · omega
        · have := nested member listed (close after) (by omega)
          omega
      · rw [message_untouched listed reach, message_untouched listed' reach]
  rw [marked, marked, msgs_eq, msgs_eq, differs.spans_eq]
  generalize messageSpans sp ids = spans at each
  generalize (fun _ => Semantic.user : Nat → Semantic) = start
  induction spans generalizing start with
  | nil => rfl
  | cons s spans ih =>
    rw [map_cons, map_cons, foldl_cons, foldl_cons, ih (fun s' later => each s' (mem_cons_of_mem _ later))]
    exact foldl_pointwise (message_pointwise sp ids') _ _ _ i (each s mem_cons_self start)

/-- A change of its contents shows outside a message exactly if nested user messages move a turn, or another bracket is left open before the token
after it. -/
theorem outside_same_iff (template : sp.HasTemplate) {m : Message} (member : m ∈ msgs sp ids) (differs : DiffersIn sp m ids ids') :
    (∀ i < ids.length, ¬(m.start ≤ i ∧ i < m.stop) → semantic sp ids i = semantic sp ids' i ∧
      modal sp ids[i]! = modal sp ids'[i]! ∧ temporal sp ids i = temporal sp ids' i) ↔
    SameTurns sp m ids ids' ∧
      (m.stop < ids.length → sp.isVision ids[m.stop]! = true ∨ ids[m.stop]! = sp.imStart ∨ openAt sp ids m.stop = openAt sp ids' m.stop) := by
  obtain ⟨proper, upto, _⟩ := msgs_bounds member
  have member' := differs.member member
  have token {i : Nat} (inside : i < ids.length) (outside : ¬(m.start ≤ i ∧ i < m.stop)) : ids[i]! = ids'[i]! := differs.outside inside (by omega)
  have label {i : Nat} (inside : i < ids.length) (outside : ¬(m.start ≤ i ∧ i < m.stop)) :
      semantic sp ids i = semantic sp ids' i ↔ sp.isVision ids[i]! = true ∨ marked sp ids i = marked sp ids' i := by
    rw [semantic_at sp ids inside, semantic_at sp ids' (differs.length ▸ inside), ← token inside outside]
    split
    · rename_i vision
      exact iff_of_true rfl (.inl vision)
    · rename_i plain
      exact (or_iff_right plain).symm
  have atStop (inside : m.stop < ids.length) : marked sp ids m.stop = marked sp ids' m.stop ↔
      ids[m.stop]! = sp.imStart ∨ openAt sp ids m.stop = openAt sp ids' m.stop := by
    have inside' : m.stop < ids'.length := differs.length ▸ inside
    have same := token inside (by omega)
    by_cases start : ids[m.stop]! = sp.imStart
    · obtain ⟨next, listed, at_⟩ := exists_msgs_iff.mpr ⟨inside, start⟩
      obtain ⟨next', listed', at'⟩ := exists_msgs_iff.mpr ⟨inside', same ▸ start⟩
      have first := marked_start template listed
      have second := marked_start template listed'
      rw [at_] at first
      rw [at'] at second
      simp [first, second, start]
    · rw [marked_stop template member inside start, marked_stop template member' inside' (same ▸ start),
        spilled_eq_iff ⟨m, member, rfl⟩ ⟨m, member', rfl⟩ same]
      exact (or_iff_right start).symm
  rw [← differs.turns_iff proper upto]
  constructor
  · intro same
    refine ⟨fun i inside outside => (same i inside outside).2.2, fun inside => ?_⟩
    have here := (label inside (by omega)).mp (same m.stop inside (by omega)).1
    rw [atStop inside] at here
    exact here
  · rintro ⟨turns, condition⟩ i inside outside
    refine ⟨(label inside outside).mpr ?_, by rw [token inside outside], turns i inside outside⟩
    by_cases here : i = m.stop
    · subst here
      rw [atStop inside]
      exact condition inside
    · exact .inr (differs.marked_away template member inside (by omega))

open GrowthExample TemplateExample in
/-- The role of a message nested in the first one changes from user to assistant. -/
theorem outside_same_nested : let ids := [1, 15, 13, 1, 15, 41, 2, 13]
    let ids' := [1, 15, 13, 1, 16, 41, 2, 13]
    semantic qwen ids 7 = semantic qwen ids' 7 ∧ modal qwen ids[7]! = modal qwen ids'[7]! ∧ temporal qwen ids 7 = temporal qwen ids' 7 := by
  intro ids ids'
  have differs : DiffersIn qwen ⟨0, 7, .user⟩ ids ids' := ⟨rfl, by decide⟩
  have turns : SameTurns qwen ⟨0, 7, .user⟩ ids ids' := ⟨by decide, by decide, fun _ _ => .inl (by decide)⟩
  exact (outside_same_iff qwen_template (by decide +kernel) differs).mpr ⟨turns, fun _ => .inr (.inr (by decide +kernel))⟩ 7 (by decide) (by decide)

open GrowthExample in
theorem open_think_over_newline : semantic qwen [1, 16, 13, 7, 2, 13] 5 = .reasoning ∧ semantic qwen [1, 16, 13, 40, 2, 13] 5 = .delim ∧
      DiffersIn qwen ⟨0, 5, .assistant⟩ [1, 16, 13, 7, 2, 13] [1, 16, 13, 40, 2, 13] ∧
      ⟨0, 5, .assistant⟩ ∈ msgs qwen [1, 16, 13, 7, 2, 13] :=
  ⟨by decide +kernel, by decide +kernel, ⟨rfl, by decide⟩, by decide +kernel⟩

end TriaxialTagger

end TriaxialKV
