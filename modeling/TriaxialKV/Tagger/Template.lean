import TriaxialKV.Tagger.Brackets

/-!
# Tags of a chat template

The labels of the tokens are said over the messages; `tag` finds them from the tokens alone.
-/

namespace TriaxialKV
open List Tensor

variable {addGenerationPrompt : Bool} {body : List Int} {i j : Nat}

inductive SpecialToken where
  | imStart | imEnd | visionStart | visionEnd | imagePad | videoPad | thinkStart | thinkEnd | toolCallStart | toolCallEnd
  | toolRespStart | toolRespEnd | newline | roleSystem | roleUser | roleAssistant | roleTool

inductive Role where
  | system | user | assistant | tool
  deriving DecidableEq

inductive Bracket where
  | think | toolCall | toolResponse
  deriving DecidableEq

inductive Segment where
  | token (x : Int)
  | bracket (kind : Bracket) (body : List Int)

structure ChatMessage where
  role : Role
  content : List Segment

def Role.label : Role → Semantic
  | .system => .inst
  | .user => .user
  | .assistant => .assistant
  | .tool => .obs

def Role.token : Role → SpecialToken
  | .system => .roleSystem
  | .user => .roleUser
  | .assistant => .roleAssistant
  | .tool => .roleTool

def Bracket.openToken : Bracket → SpecialToken
  | .think => .thinkStart
  | .toolCall => .toolCallStart
  | .toolResponse => .toolRespStart

def Bracket.closeToken : Bracket → SpecialToken
  | .think => .thinkEnd
  | .toolCall => .toolCallEnd
  | .toolResponse => .toolRespEnd

/-- Only these brackets are looked for in a message of the role. -/
def Role.spanLabel : Role → Bracket → Option Semantic
  | .user, .toolResponse => some .obs
  | .assistant, .think => some .reasoning
  | .assistant, .toolCall => some .toolCall
  | _, _ => none

namespace SpecialTokens
variable (sp : SpecialTokens)

def id : SpecialToken → Int
  | .imStart => sp.imStart | .imEnd => sp.imEnd
  | .visionStart => sp.visionStart | .visionEnd => sp.visionEnd
  | .imagePad => sp.imagePad | .videoPad => sp.videoPad
  | .thinkStart => sp.thinkStart | .thinkEnd => sp.thinkEnd
  | .toolCallStart => sp.toolCallStart | .toolCallEnd => sp.toolCallEnd
  | .toolRespStart => sp.toolRespStart | .toolRespEnd => sp.toolRespEnd
  | .newline => sp.newline
  | .roleSystem => sp.roleSystem | .roleUser => sp.roleUser
  | .roleAssistant => sp.roleAssistant | .roleTool => sp.roleTool

def roleToken (role : Role) : Int := sp.id role.token

def openOf (kind : Bracket) : Int := sp.id kind.openToken

def closeOf (kind : Bracket) : Int := sp.id kind.closeToken

/-- The tokenizer has the scaffolding. The ids that it has are different, and below the pad values. -/
structure HasTemplate : Prop where
  start : 0 ≤ sp.imStart
  stop : 0 ≤ sp.imEnd
  newline : 0 ≤ sp.newline
  inj : ∀ a b, 0 ≤ sp.id a → sp.id a = sp.id b → a = b
  small : ∀ a, sp.id a < mmPadShiftValue

structure Plain (x : Int) : Prop where
  present : 0 ≤ x
  start : x ≠ sp.imStart
  stop : x ≠ sp.imEnd
  opens : ∀ kind, x ≠ sp.openOf kind
  closes : ∀ kind, x ≠ sp.closeOf kind

def tokenLabel (role : Role) (x : Int) : Semantic :=
  if sp.isVision x then .delim else if role = .user ∧ sp.isImage x then .obs else role.label

end SpecialTokens

namespace Segment
variable (sp : SpecialTokens)

def tokens : Segment → List Int
  | .token x => [x]
  | .bracket kind body => sp.openOf kind :: body ++ [sp.closeOf kind]

def labels (role : Role) : Segment → List Semantic
  | .token x => [sp.tokenLabel role x]
  | .bracket kind body =>
    match role.spanLabel kind with
    | some label => .delim :: body.map (fun x => if sp.isVision x then .delim else label) ++ [.delim]
    | none => (sp.openOf kind :: body ++ [sp.closeOf kind]).map (sp.tokenLabel role)

def Clean : Segment → Prop
  | .token x => sp.Plain x
  | .bracket kind body => 0 ≤ sp.openOf kind ∧ 0 ≤ sp.closeOf kind ∧ ∀ x ∈ body, sp.Plain x

end Segment

namespace ChatMessage
variable (sp : SpecialTokens)

def contents (m : ChatMessage) : List Int := m.content.flatMap (Segment.tokens sp)

def tokens (m : ChatMessage) : List Int := [sp.imStart, sp.roleToken m.role, sp.newline] ++ m.contents sp ++ [sp.imEnd, sp.newline]

def labels (m : ChatMessage) : List Semantic := [.delim, .delim, .delim] ++ m.content.flatMap (Segment.labels sp m.role) ++ [.delim, .delim]

structure Clean (m : ChatMessage) : Prop where
  role : 0 ≤ sp.roleToken m.role
  content : ∀ seg ∈ m.content, seg.Clean sp

def codes (t : Temporal) (m : ChatMessage) : List Nat := zipWith (fun x s => tagId t (TriaxialTagger.modal sp x) s) (m.tokens sp) (m.labels sp)

end ChatMessage

/-- The prompt, with the header of the answer if one is to be generated. -/
def render (sp : SpecialTokens) (ms : List ChatMessage) (addGenerationPrompt : Bool) : List Int :=
  ms.flatMap (ChatMessage.tokens sp) ++ if addGenerationPrompt then [sp.imStart, sp.roleAssistant, sp.newline] else []

/-- By the user messages up to the token and after its turn. -/
def templateTemporal (seen : Bool) (later : Nat) : Temporal :=
  if seen then TriaxialTagger.temporalOfDist later else if later = 0 then .current else .older

def templateTags (sp : SpecialTokens) (addGenerationPrompt : Bool) : Bool → List ChatMessage → List Nat
  | seen, [] =>
    if addGenerationPrompt then replicate 3 (tagId (templateTemporal seen 0) .text .delim) else []
  | seen, m :: ms =>
    let seen := seen || m.role = .user
    m.codes sp (templateTemporal seen (ms.countP (fun m => m.role = .user))) ++ templateTags sp addGenerationPrompt seen ms

namespace TriaxialTagger
variable {sp : SpecialTokens} {kind : Bracket} {xs ys : List Int} {m : ChatMessage} {content : List Segment}

section
variable (template : sp.HasTemplate)
include template

theorem ne_of_present {a b : SpecialToken} (present : 0 ≤ sp.id a) (differ : a ≠ b) : sp.id a ≠ sp.id b :=
  fun same => differ (template.inj a b present same)

theorem bracket_other {other : Bracket}
    (clean : (Segment.bracket kind body).Clean sp) (differ : kind ≠ other) : sp.openOf other ∉ (Segment.bracket kind body).tokens sp := by
  obtain ⟨opens, closes, inner⟩ := clean
  intro mem
  simp only [Segment.tokens, cons_append, mem_cons, mem_append, not_mem_nil, or_false] at mem
  obtain same | mem | same := mem
  · exact ne_of_present template opens (by revert differ; cases kind <;> cases other <;> simp [Bracket.openToken]) same.symm
  · exact (inner _ mem).opens other rfl
  · exact ne_of_present template closes (by cases kind <;> cases other <;> simp [Bracket.openToken, Bracket.closeToken]) same.symm

theorem spanLabel_segment (clean : (Segment.bracket kind body).Clean sp) (label : Semantic) (lt : j < body.length + 2) :
    spanLabel (sp.openOf kind) (sp.closeOf kind) label ((Segment.bracket kind body).tokens sp) j =
      some (if j = 0 ∨ j = body.length + 1 then .delim else label) := by
  obtain ⟨opens, _, inner⟩ := clean
  have differ : sp.openOf kind ≠ sp.closeOf kind := ne_of_present template opens (by cases kind <;> simp [Bracket.openToken, Bracket.closeToken])
  exact spanLabel_bracket differ (fun mem => (inner _ mem).opens kind rfl) (fun mem => (inner _ mem).closes kind rfl) label lt

theorem segment_closed {seg : Segment} (clean : seg.Clean sp) (other : Bracket) :
    ¬ Unclosed (sp.openOf other) (sp.closeOf other) (seg.tokens sp) := by
  cases seg with
  | token x => exact not_unclosed (fun mem => clean.opens other (mem_singleton.mp mem).symm)
  | bracket kind body =>
    by_cases same : kind = other
    · subst same
      obtain ⟨_, closes, _⟩ := clean
      have differ : sp.closeOf kind ≠ sp.openOf kind := ne_of_present template closes (by cases kind <;> simp [Bracket.openToken, Bracket.closeToken])
      rw [Segment.tokens, unclosed_append]
      simp [Unclosed, differ]
    · exact not_unclosed (bracket_other template clean same)

theorem content_closed (clean : ∀ seg ∈ content, seg.Clean sp)
    (kind : Bracket) : ¬ Unclosed (sp.openOf kind) (sp.closeOf kind) (content.flatMap (Segment.tokens sp)) := by
  induction content with
  | nil => exact id
  | cons seg content ih =>
    rw [flatMap_cons, unclosed_append]
    have here := segment_closed template (clean seg mem_cons_self) kind
    have rest := ih (fun seg mem => clean seg (mem_cons_of_mem _ mem))
    exact fun either => either.elim rest (fun both => here both.1)

end

theorem roleLabel_left (sp : SpecialTokens) (role : Role) (ys : List Int) (lt : j < xs.length) :
    roleLabel sp role.label (xs ++ ys) j = roleLabel sp role.label xs j := by
  cases role <;> simp only [roleLabel, Role.label, spanLabel_left _ _ lt]

theorem roleLabel_right (closed : ∀ kind, ¬ Unclosed (sp.openOf kind) (sp.closeOf kind) xs) (role : Role) (ys : List Int) (j : Nat) :
    roleLabel sp role.label (xs ++ ys) (j + xs.length) = roleLabel sp role.label ys j := by
  cases role with
  | system | tool => rfl
  | user => exact spanLabel_right (closed .toolResponse) _ ys j
  | assistant =>
    exact congrArg₂ Option.or (spanLabel_right (closed .toolCall) _ ys j) (spanLabel_right (closed .think) _ ys j)

theorem roleLabel_of_no_open (absent : ∀ kind, sp.openOf kind ∉ xs) (role : Role) (j : Nat) : roleLabel sp role.label xs j = none := by
  cases role with
  | system | tool => rfl
  | user => exact spanLabel_of_no_open (absent .toolResponse) _ j
  | assistant => exact congrArg₂ Option.or (spanLabel_of_no_open (absent .toolCall) _ j) (spanLabel_of_no_open (absent .think) _ j)

def plainLabel (sp : SpecialTokens) (role : Role) (x : Int) : Semantic :=
  if role = .user ∧ sp.isImage x then .obs else role.label

theorem roleLabel_bracket (template : sp.HasTemplate) (clean : (Segment.bracket kind body).Clean sp) (role : Role) (lt : j < body.length + 2) :
    roleLabel sp role.label ((Segment.bracket kind body).tokens sp) j =
      (role.spanLabel kind).map (fun label => if j = 0 ∨ j = body.length + 1 then .delim else label) := by
  have found := fun label => spanLabel_segment template clean label lt
  have skip (other : Bracket) (label : Semantic) (differ : kind ≠ other) :
      spanLabel (sp.openOf other) (sp.closeOf other) label ((Segment.bracket kind body).tokens sp) j = none :=
    spanLabel_of_no_open (bracket_other template clean differ) label j
  cases role with
  | system | tool => rfl
  | user =>
    cases kind with
    | toolResponse => exact found .obs
    | think | toolCall => exact skip .toolResponse .obs (by decide)
  | assistant =>
    cases kind with
    | think => exact congrArg₂ Option.or (skip .toolCall .toolCall (by decide)) (found .reasoning)
    | toolCall => exact congrArg (Option.or · _) (found .toolCall)
    | toolResponse => exact congrArg₂ Option.or (skip .toolCall .toolCall (by decide)) (skip .think .reasoning (by decide))

theorem length_segment_labels (sp : SpecialTokens) (role : Role) (seg : Segment) : (seg.labels sp role).length = (seg.tokens sp).length := by
  unfold Segment.labels Segment.tokens
  cases seg with
  | token x => rfl
  | bracket kind body =>
    dsimp only
    split <;> simp

theorem bracket_tokens_body (sp : SpecialTokens) (kind : Bracket) (lt : j < body.length) :
    ((Segment.bracket kind body).tokens sp)[j + 1]! = body[j]! := by
  rw [Segment.tokens, cons_append, getElem!_cons_succ, getElem!_append_left _ lt]

section
variable (template : sp.HasTemplate)
include template

theorem segment_labels {seg : Segment} (clean : seg.Clean sp) (role : Role) (lt : j < (seg.tokens sp).length) :
    (if sp.isVision (seg.tokens sp)[j]! then .delim
      else (roleLabel sp role.label (seg.tokens sp) j).getD (plainLabel sp role (seg.tokens sp)[j]!)) = (seg.labels sp role)[j]! := by
  cases seg with
  | token x =>
    obtain rfl : j = 0 := by simpa [Segment.tokens] using lt
    have absent : ∀ kind, sp.openOf kind ∉ (Segment.token x).tokens sp :=
      fun kind mem => clean.opens kind (mem_singleton.mp mem).symm
    rw [roleLabel_of_no_open absent]
    rfl
  | bracket kind body =>
    have length : ((Segment.bracket kind body).tokens sp).length = body.length + 2 := by simp [Segment.tokens]
    have bound : j < body.length + 2 := length ▸ lt
    rw [roleLabel_bracket template clean role bound]
    unfold Segment.labels
    dsimp only
    cases role.spanLabel kind with
    | some label =>
      rw [Option.map_some, Option.getD_some]
      dsimp only
      cases j with
      | zero => simp
      | succ j =>
        rw [cons_append, getElem!_cons_succ]
        by_cases last : j = body.length
        · have final : (body.map (fun x => if sp.isVision x then Semantic.delim else label) ++ [.delim])[j]! = .delim := by
            simp [last]
          rw [final, if_pos (by omega : j + 1 = 0 ∨ j + 1 = body.length + 1), ite_self]
        · rw [bracket_tokens_body sp kind (by omega), if_neg (by omega : ¬(j + 1 = 0 ∨ j + 1 = body.length + 1)),
            getElem!_append_left _ (by rw [length_map]; omega), getElem!_map _ (by omega)]
    | none => exact (getElem!_map (sp.tokenLabel role) lt).symm

theorem content_labels (clean : ∀ seg ∈ content, seg.Clean sp) (role : Role) (lt : j < (content.flatMap (Segment.tokens sp)).length) :
    (if sp.isVision (content.flatMap (Segment.tokens sp))[j]! then .delim
      else (roleLabel sp role.label (content.flatMap (Segment.tokens sp)) j).getD
        (plainLabel sp role (content.flatMap (Segment.tokens sp))[j]!)) = (content.flatMap (Segment.labels sp role))[j]! := by
  induction content generalizing j with
  | nil => cases lt
  | cons seg content ih =>
    have here := clean seg mem_cons_self
    rw [flatMap_cons] at lt ⊢
    rw [flatMap_cons]
    by_cases first : j < (seg.tokens sp).length
    · rw [getElem!_append_left _ first, getElem!_append_left _ (by rw [length_segment_labels]; exact first), roleLabel_left sp role _ first]
      exact segment_labels template here role first
    · obtain ⟨k, rfl⟩ : ∃ k, j = k + (seg.tokens sp).length := ⟨j - (seg.tokens sp).length, by omega⟩
      rw [getElem!_append_right, roleLabel_right (segment_closed template here), ← length_segment_labels sp role, getElem!_append_right]
      rw [length_append, Nat.add_comm, Nat.add_lt_add_iff_left] at lt
      exact ih (fun seg mem => clean seg (mem_cons_of_mem _ mem)) lt

theorem not_image {a : SpecialToken} (present : 0 ≤ sp.id a) (image : a ≠ .imagePad)
    (video : a ≠ .videoPad) : sp.isImage (sp.id a) = false := by
  have small := template.small a
  have notImage : sp.id a ≠ sp.imagePad := ne_of_present template present image
  have notVideo : sp.id a ≠ sp.videoPad := ne_of_present template present video
  simp [SpecialTokens.isImage, small, notImage, notVideo]

theorem roleOf_roleToken (role : Role) (present : 0 ≤ sp.roleToken role) : sp.roleOf (sp.roleToken role) = role.label := by
  have differ : ∀ other : Role, role ≠ other → sp.roleToken role ≠ sp.roleToken other := fun other nodup =>
    ne_of_present template present (by revert nodup; cases role <;> cases other <;> simp [Role.token])
  have system := differ .system
  have assistant := differ .assistant
  have tool := differ .tool
  unfold SpecialTokens.roleOf
  cases role with
  | system => exact if_pos rfl
  | assistant => exact (if_neg (system (by decide))).trans (if_pos rfl)
  | tool => exact (if_neg (system (by decide))).trans ((if_neg (assistant (by decide))).trans (if_pos rfl))
  | user =>
    exact (if_neg (system (by decide))).trans ((if_neg (assistant (by decide))).trans (if_neg (tool (by decide))))

theorem content_no_scaffold (clean : ∀ seg ∈ content, seg.Clean sp) : ∀ x ∈ content.flatMap (Segment.tokens sp), x ≠ sp.imStart ∧ x ≠ sp.imEnd := by
  intro x mem
  obtain ⟨seg, inner, token⟩ := mem_flatMap.mp mem
  have here := clean seg inner
  cases seg with
  | token y =>
    rw [mem_singleton.mp token]
    exact ⟨here.start, here.stop⟩
  | bracket kind body =>
    obtain ⟨opens, closes, plain⟩ := here
    simp only [Segment.tokens, cons_append, mem_cons, mem_append, not_mem_nil, or_false] at token
    obtain rfl | token | rfl := token
    · exact ⟨ne_of_present template (b := .imStart) opens (by cases kind <;> simp [Bracket.openToken]),
        ne_of_present template (b := .imEnd) opens (by cases kind <;> simp [Bracket.openToken])⟩
    · exact ⟨(plain x token).start, (plain x token).stop⟩
    · exact ⟨ne_of_present template (b := .imStart) closes (by cases kind <;> simp [Bracket.closeToken]),
        ne_of_present template (b := .imEnd) closes (by cases kind <;> simp [Bracket.closeToken])⟩

end

section
variable {m : ChatMessage}

theorem tokens_content (lt : j < (m.contents sp).length) : (m.tokens sp)[j + 3]! = (m.contents sp)[j]! := by
  unfold ChatMessage.tokens
  rw [getElem!_append_left _ (by simp; omega)]
  exact getElem!_append_right [sp.imStart, sp.roleToken m.role, sp.newline] (m.contents sp) j

theorem tokens_end (sp : SpecialTokens) (m : ChatMessage) (j : Nat) :
    (m.tokens sp)[j + ((m.contents sp).length + 3)]! = [sp.imEnd, sp.newline][j]! := by
  have length : ([sp.imStart, sp.roleToken m.role, sp.newline] ++ m.contents sp).length = (m.contents sp).length + 3 :=
    length_append.trans (Nat.add_comm 3 _)
  rw [ChatMessage.tokens, ← length, getElem!_append_right]

theorem length_tokens (sp : SpecialTokens) (m : ChatMessage) : (m.tokens sp).length = (m.contents sp).length + 5 := by
  simp [ChatMessage.tokens]

theorem imStart_ne_imEnd (template : sp.HasTemplate) : sp.imStart ≠ sp.imEnd :=
  ne_of_present template (a := .imStart) (b := .imEnd) template.start (by simp)

theorem header_no_scaffold (template : sp.HasTemplate) {role : Role} (present : 0 ≤ sp.roleToken role) :
    ∀ x ∈ [sp.roleToken role, sp.newline], x ≠ sp.imStart ∧ x ≠ sp.imEnd := by
  intro x mem
  simp only [mem_cons, not_mem_nil, or_false] at mem
  obtain rfl | rfl := mem
  · exact ⟨ne_of_present template (b := .imStart) present (by cases role <;> simp [Role.token]),
      ne_of_present template (b := .imEnd) present (by cases role <;> simp [Role.token])⟩
  · exact ⟨ne_of_present template (a := .newline) (b := .imStart) template.newline (by simp),
      ne_of_present template (a := .newline) (b := .imEnd) template.newline (by simp)⟩

theorem message_msgs (template : sp.HasTemplate) (clean : m.Clean sp) : msgs sp (m.tokens sp) = [⟨0, (m.contents sp).length + 4, m.role.label⟩] := by
  have startStop := imStart_ne_imEnd template
  have header := header_no_scaffold template clean.role
  have split : m.tokens sp = (sp.imStart :: (sp.roleToken m.role :: sp.newline :: m.contents sp) ++ [sp.imEnd]) ++ [sp.newline] := by
    simp [ChatMessage.tokens]
  have block : messageSpans sp (sp.imStart :: (sp.roleToken m.role :: sp.newline :: m.contents sp) ++ [sp.imEnd]) =
      [(0, some ((m.contents sp).length + 2 + 1))] := by
    refine spansOf_bracket (by simp) (by simpa using startStop) (by simpa using startStop.symm) (by simp) (fun x mem => ?_)
    have plain : x ≠ sp.imStart ∧ x ≠ sp.imEnd := (mem_append.mp (show x ∈ [_, _] ++ m.contents sp from mem)).elim
      (header x) (content_no_scaffold template clean.content x)
    exact ⟨by simpa using plain.1, by simpa using plain.2⟩
  have closed : Closed (· == sp.imStart) (· == sp.imEnd)
      (sp.imStart :: (sp.roleToken m.role :: sp.newline :: m.contents sp) ++ [sp.imEnd]) := by
    intro s mem
    have found : s ∈ messageSpans sp (sp.imStart :: (sp.roleToken m.role :: sp.newline :: m.contents sp) ++ [sp.imEnd]) := mem
    rw [block, mem_singleton] at found
    rw [found]
    exact Option.some_ne_none _
  have tail : messageSpans sp [sp.newline] = [] := spansOf_eq_nil (fun x mem => by simpa using (header x (mem_cons_of_mem _ mem)).1)
  have spansAll : messageSpans sp (m.tokens sp) = [(0, some ((m.contents sp).length + 2 + 1))] := by
    rw [split]
    exact (spansOf_append closed).trans (by rw [← messageSpans, ← messageSpans, block, tail]; rfl)
  have role : sp.roleOf (m.tokens sp)[0 + 1]! = m.role.label := roleOf_roleToken template m.role clean.role
  rw [msgs_eq, spansAll, map_singleton, toMessage]
  rw [if_pos (by rw [length_tokens]; omega), role]

def Outside (sp : SpecialTokens) (m : ChatMessage) (i : Nat) : Prop :=
  i = 0 ∨ i = 1 ∨ i = 2 ∨ i = (m.contents sp).length + 3 ∨ i = (m.contents sp).length + 4

theorem tokens_imEnd (sp : SpecialTokens) (m : ChatMessage) : (m.tokens sp)[(m.contents sp).length + 3]! = sp.imEnd := by
  have found := tokens_end sp m 0
  rwa [Nat.zero_add] at found

theorem tokens_newline (sp : SpecialTokens) (m : ChatMessage) : (m.tokens sp)[(m.contents sp).length + 4]! = sp.newline := by
  have found := tokens_end sp m 1
  rwa [Nat.add_comm 1] at found

theorem outside_scaffold (outside : Outside sp m i) : IsScaffold sp (m.tokens sp) ⟨0, (m.contents sp).length + 4, m.role.label⟩ i := by
  have length := length_tokens sp m
  have ended : (m.contents sp).length + 4 - 1 < (m.tokens sp).length ∧ (m.tokens sp)[(m.contents sp).length + 4 - 1]! = sp.imEnd :=
    ⟨by omega, tokens_imEnd sp m⟩
  obtain rfl | rfl | rfl | rfl | rfl := outside
  · exact .inl rfl
  · exact .inr (.inl ⟨rfl, by omega⟩)
  · exact .inr (.inr (.inl ⟨rfl, by omega, rfl⟩))
  · exact .inr (.inr (.inr ⟨ended, .inl rfl⟩))
  · exact .inr (.inr (.inr ⟨ended, .inr ⟨rfl, by omega, tokens_newline sp m⟩⟩))

theorem outside_not_image (template : sp.HasTemplate) (clean : m.Clean sp) (outside : Outside sp m i) : sp.isImage (m.tokens sp)[i]! = false := by
  obtain rfl | rfl | rfl | rfl | rfl := outside
  · exact not_image template (a := .imStart) template.start (by simp) (by simp)
  · exact not_image template clean.role (by cases m.role <;> simp [Role.token]) (by cases m.role <;> simp [Role.token])
  · exact not_image template (a := .newline) template.newline (by simp) (by simp)
  · rw [tokens_imEnd]
    exact not_image template (a := .imEnd) template.stop (by simp) (by simp)
  · rw [tokens_newline]
    exact not_image template (a := .newline) template.newline (by simp) (by simp)

theorem length_labels (sp : SpecialTokens) (m : ChatMessage) : (m.labels sp).length = (m.contents sp).length + 5 := by
  have content : (m.content.flatMap (Segment.labels sp m.role)).length = (m.contents sp).length := by
    rw [ChatMessage.contents, length_flatMap, length_flatMap]
    simp only [length_segment_labels]
  simp [ChatMessage.labels, content]

theorem labels_outside (outside : Outside sp m i) : (m.labels sp)[i]! = .delim := by
  have content : ([Semantic.delim, .delim, .delim] ++ m.content.flatMap (Segment.labels sp m.role)).length = (m.contents sp).length + 3 := by
    have total := length_labels sp m
    rw [ChatMessage.labels, length_append] at total
    exact Nat.add_right_cancel total
  have tail : ∀ j, (m.labels sp)[j + ((m.contents sp).length + 3)]! = [Semantic.delim, .delim][j]! := fun j => by
    rw [ChatMessage.labels, ← content, getElem!_append_right]
  have first := tail 0
  have second := tail 1
  rw [Nat.zero_add] at first
  rw [Nat.add_comm 1] at second
  obtain rfl | rfl | rfl | rfl | rfl := outside
  · rfl
  · rfl
  · rfl
  · exact first
  · exact second

theorem labels_content (lt : j < (m.contents sp).length) : (m.labels sp)[j + 3]! = (m.content.flatMap (Segment.labels sp m.role))[j]! := by
  have total := length_labels sp m
  rw [ChatMessage.labels, length_append] at total
  have bound : j + 3 < ([Semantic.delim, .delim, .delim] ++ m.content.flatMap (Segment.labels sp m.role)).length := by
    have two : [Semantic.delim, .delim].length = 2 := rfl
    omega
  unfold ChatMessage.labels
  rw [getElem!_append_left _ bound]
  exact getElem!_append_right [Semantic.delim, .delim, .delim] (m.content.flatMap (Segment.labels sp m.role)) j

theorem header_no_open (template : sp.HasTemplate) {role : Role} (present : 0 ≤ sp.roleToken role) (kind : Bracket) :
    sp.openOf kind ∉ [sp.imStart, sp.roleToken role, sp.newline] := by
  intro mem
  simp only [mem_cons, not_mem_nil, or_false] at mem
  obtain same | same | same := mem
  · exact ne_of_present template (a := .imStart) template.start (by cases kind <;> simp [Bracket.openToken]) same.symm
  · exact ne_of_present template present (by cases role <;> cases kind <;> simp [Role.token, Bracket.openToken]) same.symm
  · exact ne_of_present template (a := .newline) template.newline (by cases kind <;> simp [Bracket.openToken]) same.symm

theorem message_segment (sp : SpecialTokens) (m : ChatMessage) : segment (m.tokens sp) ⟨0, (m.contents sp).length + 4, m.role.label⟩ =
      [sp.imStart, sp.roleToken m.role, sp.newline] ++ (m.contents sp ++ [sp.imEnd]) := by
  have split : m.tokens sp = ([sp.imStart, sp.roleToken m.role, sp.newline] ++ (m.contents sp ++ [sp.imEnd])) ++ [sp.newline] := by
    simp [ChatMessage.tokens]
  rw [segment, split, drop_zero, take_left']
  simp

theorem message_semantic (template : sp.HasTemplate) (clean : m.Clean sp) (lt : i < (m.tokens sp).length) :
    semantic sp (m.tokens sp) i = (m.labels sp)[i]! := by
  have length := length_tokens sp m
  have header := header_no_open template clean.role
  have tail (kind : Bracket) : sp.openOf kind ∉ [sp.imEnd] := by
    intro mem
    exact ne_of_present template (a := .imEnd) template.stop (by cases kind <;> simp [Bracket.openToken])
      (mem_singleton.mp mem).symm
  have bound : (m.contents sp).length + 4 ≤ (m.tokens sp).length := by omega
  have value := message_at sp (m := ⟨0, (m.contents sp).length + 4, m.role.label⟩) (j := i) bound (by dsimp only; omega)
    (fun _ => .user)
  have user : m.role.label = .user ↔ m.role = .user := by cases m.role <;> simp [Role.label]
  dsimp only [Nat.add_zero] at value
  rw [message_segment] at value
  simp only [user] at value
  rw [semantic_at sp _ lt, marked, message_msgs template clean, foldl_cons, foldl_nil, value]
  by_cases scaffold : Outside sp m i
  · have none : roleLabel sp m.role.label ([sp.imStart, sp.roleToken m.role, sp.newline] ++ (m.contents sp ++ [sp.imEnd])) i = none := by
      by_cases first : i < 3
      · rw [roleLabel_left sp m.role _ first, roleLabel_of_no_open header]
      · obtain ⟨k, rfl⟩ : ∃ k, i = k + (m.contents sp).length + 3 := ⟨i - 3 - (m.contents sp).length, by unfold Outside at scaffold; omega⟩
        exact (roleLabel_right (fun kind => not_unclosed (header kind)) m.role _ _).trans
          ((roleLabel_right (content_closed template clean.content) m.role _ k).trans (roleLabel_of_no_open tail m.role k))
    simp only [none, Option.getD_none, outside_not_image template clean scaffold, outside_scaffold scaffold, labels_outside scaffold,
      Bool.false_eq_true, and_false, if_false, if_true, ite_self]
  · obtain ⟨j, rfl, bound⟩ : ∃ j, i = j + 3 ∧ j < (m.contents sp).length := by
      unfold Outside at scaffold
      exact ⟨i - 3, by omega, by omega⟩
    have marks : roleLabel sp m.role.label ([sp.imStart, sp.roleToken m.role, sp.newline] ++ (m.contents sp ++ [sp.imEnd])) (j + 3) =
        roleLabel sp m.role.label (m.contents sp) j :=
      (roleLabel_right (fun kind => not_unclosed (header kind)) m.role _ j).trans (roleLabel_left sp m.role _ bound)
    have plain : ¬ IsScaffold sp (m.tokens sp) ⟨0, (m.contents sp).length + 4, m.role.label⟩ (j + 3) := by
      unfold IsScaffold
      dsimp only
      omega
    have short : j + 3 < (m.contents sp).length + 4 := by omega
    simp only [marks, plain, short, if_false, if_true, true_and, tokens_content bound, labels_content bound]
    exact content_labels template clean.content m.role bound

end

def tagFrom (sp : SpecialTokens) (total before : Nat) (ids : List Int) : List Nat :=
  (List.range ids.length).map (fun i =>
    tagId (turnLabel total (before + (userStarts sp ids).countP (· ≤ i))) (modal sp ids[i]!) (semantic sp ids i))

theorem tag_eq_tagFrom (sp : SpecialTokens) (ids : List Int) : tag sp ids = tagFrom sp (userStarts sp ids).length 0 ids := by
  refine map_congr_left (fun i mem => ?_)
  rw [temporal_apply sp ids (mem_range.mp mem), Nat.zero_add]

theorem tagFrom_append {p : List Int} (ended : ∀ m ∈ msgs sp p, m.stop < p.length) (total before : Nat) (q : List Int) :
    tagFrom sp total before (p ++ q) = tagFrom sp total before p ++ tagFrom sp total (before + (userStarts sp p).length) q := by
  have closed := closed_of_ended ended
  unfold tagFrom
  rw [length_append, range_add, map_append, map_map]
  congr 1
  · refine map_congr_left (fun i mem => ?_)
    have here := mem_range.mp mem
    rw [countP_starts_append closed q here, getElem!_append_left q here, semantic_append closed q here]
  · refine map_congr_left (fun i mem => ?_)
    have here := mem_range.mp mem
    have all : (userStarts sp p).countP (· ≤ i + p.length) = (userStarts sp p).length := by
      refine countP_eq_length.mpr (fun st start => ?_)
      have := userStarts_inside start
      simp only [decide_eq_true_eq]
      omega
    have rest : ((userStarts sp q).map (· + p.length)).countP (· ≤ i + p.length) = (userStarts sp q).countP (· ≤ i) := by
      rw [countP_map]
      exact countP_congr (fun st _ => by simp)
    rw [Function.comp, Nat.add_comm p.length i, userStarts_append closed, countP_append, all, rest, getElem!_append_right,
      semantic_suffix ended q here, Nat.add_assoc]

theorem message_userStarts (template : sp.HasTemplate) (clean : m.Clean sp) : userStarts sp (m.tokens sp) = if m.role = .user then [0] else [] := by
  rw [userStarts, message_msgs template clean]
  cases m.role <;> rfl

theorem tagFrom_message (template : sp.HasTemplate) (clean : m.Clean sp) (total before : Nat) :
    tagFrom sp total before (m.tokens sp) = m.codes sp (turnLabel total (before + if m.role = .user then 1 else 0)) := by
  have same := (length_tokens sp m).trans (length_labels sp m).symm
  have turn : ∀ i, (userStarts sp (m.tokens sp)).countP (· ≤ i) = if m.role = .user then 1 else 0 := fun i => by
    rw [message_userStarts template clean]
    split <;> simp
  unfold tagFrom ChatMessage.codes
  refine ext_getElem (by simp [same]) (fun i left right => ?_)
  have lt : i < (m.tokens sp).length := by simpa using left
  rw [getElem_map, getElem_range, turn, message_semantic template clean lt, getElem_zipWith,
    getElem!_pos (m.tokens sp) i lt, getElem!_pos (m.labels sp) i (same ▸ lt)]

section
variable (template : sp.HasTemplate) (present : 0 ≤ sp.roleAssistant)
include template present

theorem header_msgs : msgs sp [sp.imStart, sp.roleAssistant, sp.newline] = [⟨0, 3, .assistant⟩] := by
  have role : sp.roleOf sp.roleAssistant = .assistant := roleOf_roleToken template .assistant present
  have spansAll : messageSpans sp [sp.imStart, sp.roleAssistant, sp.newline] = [(0, none)] := by
    refine spansOf_open (by simp) (by simpa using imStart_ne_imEnd template) (fun x mem => ?_)
    have plain := header_no_scaffold template (show 0 ≤ sp.roleToken .assistant from present) x mem
    exact ⟨by simpa using plain.1, by simpa using plain.2⟩
  rw [msgs_eq, spansAll, map_singleton, toMessage]
  exact congrArg (fun label => [Message.mk 0 3 label]) role

theorem header_semantic (lt : i < 3) : semantic sp [sp.imStart, sp.roleAssistant, sp.newline] i = .delim := by
  have scaffold : IsScaffold sp [sp.imStart, sp.roleAssistant, sp.newline] ⟨0, 3, .assistant⟩ i := by
    obtain rfl | rfl | rfl : i = 0 ∨ i = 1 ∨ i = 2 := by omega
    · exact .inl rfl
    · exact .inr (.inl ⟨rfl, by simp⟩)
    · exact .inr (.inr (.inl ⟨rfl, by simp, rfl⟩))
  have none : roleLabel sp Semantic.assistant [sp.imStart, sp.roleAssistant, sp.newline] i = none :=
    roleLabel_of_no_open (header_no_open template (show 0 ≤ sp.roleToken .assistant from present)) .assistant i
  have value := message_at sp (m := ⟨0, 3, .assistant⟩) (j := i)
    (show 3 ≤ [sp.imStart, sp.roleAssistant, sp.newline].length from Nat.le_refl 3) lt.le (fun _ => .user)
  rw [semantic_at sp _ lt, marked, header_msgs template present, foldl_cons, foldl_nil]
  refine (congrArg _ value).trans ?_
  simp only [segment, List.take, List.drop, none, Option.getD_none, Nat.add_zero, scaffold, reduceCtorEq, false_and, if_false, if_true, ite_self]

theorem tagFrom_header (total before : Nat) :
    tagFrom sp total before [sp.imStart, sp.roleAssistant, sp.newline] = replicate 3 (tagId (turnLabel total before) .text .delim) := by
  have starts : userStarts sp [sp.imStart, sp.roleAssistant, sp.newline] = [] := by
    rw [userStarts, header_msgs template present]
    rfl
  have first := not_image template (a := .imStart) template.start (by simp) (by simp)
  have second := not_image template (a := .roleAssistant) present (by simp) (by simp)
  have third := not_image template (a := .newline) template.newline (by simp) (by simp)
  refine eq_replicate_iff.mpr ⟨by simp [tagFrom], fun code mem => ?_⟩
  obtain ⟨i, range, rfl⟩ := mem_map.mp mem
  have lt : i < 3 := mem_range.mp range
  have text : sp.isImage [sp.imStart, sp.roleAssistant, sp.newline][i]! = false := by
    obtain rfl | rfl | rfl : i = 0 ∨ i = 1 ∨ i = 2 := by omega
    · exact first
    · exact second
    · exact third
  rw [starts, header_semantic template present lt, modal, text]
  rfl

end

theorem turnLabel_eq (before later : Nat) : turnLabel (before + later) before = templateTemporal (decide (0 < before)) later := by
  unfold turnLabel templateTemporal
  cases before with
  | zero => simp
  | succ before => simp

theorem message_ended (template : sp.HasTemplate) (clean : m.Clean sp) : ∀ block ∈ msgs sp (m.tokens sp), block.stop < (m.tokens sp).length := by
  intro block mem
  rw [message_msgs template clean, mem_singleton] at mem
  rw [mem, length_tokens]
  exact Nat.lt_succ_self _

theorem render_cons (sp : SpecialTokens) (m : ChatMessage) (ms : List ChatMessage) (addGenerationPrompt : Bool) :
    render sp (m :: ms) addGenerationPrompt = m.tokens sp ++ render sp ms addGenerationPrompt := by
  rw [render, render, flatMap_cons, append_assoc]

theorem length_message_starts (template : sp.HasTemplate) (clean : m.Clean sp) :
    (userStarts sp (m.tokens sp)).length = if m.role = .user then 1 else 0 := by
  rw [message_userStarts template clean]
  split <;> rfl

theorem countP_user_cons (m : ChatMessage) (ms : List ChatMessage) :
    (m :: ms).countP (fun m => m.role = .user) = (if m.role = .user then 1 else 0) + ms.countP (fun m => m.role = .user) := by
  rw [countP_cons, Nat.add_comm]
  simp only [decide_eq_true_eq]

section
variable (template : sp.HasTemplate) {ms : List ChatMessage} (clean : ∀ m ∈ ms, m.Clean sp)
  (answer : addGenerationPrompt = true → 0 ≤ sp.roleAssistant)
include template clean answer

theorem length_render_starts : (userStarts sp (render sp ms addGenerationPrompt)).length = ms.countP (fun m => m.role = .user) := by
  induction ms with
  | nil =>
    cases addGenerationPrompt with
    | true =>
      rw [userStarts, render]
      exact congrArg (fun ms => ((ms.filter (fun m => m.role = .user)).map (·.start)).length)
        (header_msgs template (answer rfl))
    | false => rfl
  | cons m ms ih =>
    have here := clean m mem_cons_self
    rw [render_cons, userStarts_append (closed_of_ended (message_ended template here)), length_append, length_map,
      length_message_starts template here, ih (fun m mem => clean m (mem_cons_of_mem _ mem)), countP_user_cons]

theorem tagFrom_render (before : Nat) : tagFrom sp (before + ms.countP (fun m => m.role = .user)) before (render sp ms addGenerationPrompt) =
      templateTags sp addGenerationPrompt (decide (0 < before)) ms := by
  induction ms generalizing before with
  | nil =>
    unfold render templateTags
    cases addGenerationPrompt with
    | true =>
      rw [← turnLabel_eq before 0]
      exact tagFrom_header template (answer rfl) before before
    | false => rfl
  | cons m ms ih =>
    have here := clean m mem_cons_self
    have rest : ∀ m ∈ ms, m.Clean sp := fun m mem => clean m (mem_cons_of_mem _ mem)
    have seen : (decide (0 < before) || decide (m.role = .user)) = decide (0 < before + if m.role = .user then 1 else 0) := by
      by_cases user : m.role = .user <;> simp [user]
    rw [render_cons, tagFrom_append (message_ended template here), tagFrom_message template here,
      length_message_starts template here, countP_user_cons, ← Nat.add_assoc, turnLabel_eq, ih rest, templateTags, seen]

end

/-- The tags of a rendered prompt are those of the template. Brackets count only in messages of the roles
that use them. -/
theorem tag_render (sp : SpecialTokens) (template : sp.HasTemplate) (ms : List ChatMessage) (clean : ∀ m ∈ ms, m.Clean sp)
    (addGenerationPrompt : Bool) (answer : addGenerationPrompt = true → 0 ≤ sp.roleAssistant) :
    tag sp (render sp ms addGenerationPrompt) = templateTags sp addGenerationPrompt false ms := by
  have tags := tagFrom_render template clean answer 0
  rw [Nat.zero_add] at tags
  rw [tag_eq_tagFrom, length_render_starts template clean answer, tags]
  rfl

namespace TemplateExample
open GrowthExample

theorem qwen_template : qwen.HasTemplate where
  start := by decide
  stop := by decide
  newline := by decide
  inj a b _ same := by cases a <;> cases b <;> first | rfl | exact absurd same (by decide)
  small a := by cases a <;> decide

theorem plain_of_large {x : Int} (large : 17 < x) : qwen.Plain x where
  present := by omega
  start := by simp only [qwen]; omega
  stop := by simp only [qwen]; omega
  opens kind := by cases kind <;> simp only [SpecialTokens.openOf, SpecialTokens.id, Bracket.openToken, qwen] <;> omega
  closes kind := by cases kind <;> simp only [SpecialTokens.closeOf, SpecialTokens.id, Bracket.closeToken, qwen] <;> omega

theorem bracket_clean (kind : Bracket) (large : ∀ x ∈ body, 17 < x) : (Segment.bracket kind body).Clean qwen :=
  ⟨by cases kind <;> decide, by cases kind <;> decide, fun x mem => plain_of_large (large x mem)⟩

def chat : List ChatMessage := [⟨.user, [.token 40, .token 1000000]⟩, ⟨.assistant, [.bracket .think [41, 42], .token 43]⟩]

theorem chat_clean : ∀ m ∈ chat, m.Clean qwen := by
  intro m mem
  simp only [chat, mem_cons, not_mem_nil, or_false] at mem
  obtain rfl | rfl := mem
  · refine ⟨by decide, fun seg inner => ?_⟩
    simp only [mem_cons, not_mem_nil, or_false] at inner
    obtain rfl | rfl := inner
    · exact plain_of_large (by decide)
    · exact plain_of_large (by decide)
  · refine ⟨by decide, fun seg inner => ?_⟩
    simp only [mem_cons, not_mem_nil, or_false] at inner
    obtain rfl | rfl := inner
    · exact bracket_clean .think (by decide)
    · exact plain_of_large (by decide)

end TemplateExample

open GrowthExample TemplateExample in
theorem tag_render_chat : tag qwen (render qwen chat true) = templateTags qwen true false chat ∧ (templateTags qwen true false chat).length = 20 :=
  ⟨tag_render qwen qwen_template chat chat_clean true (fun _ => by decide), by decide⟩

open GrowthExample TemplateExample in
/-- A user may quote a `<think>` block. -/
theorem user_think_not_delim : (ChatMessage.mk .user [.bracket .think [40]]).Clean qwen ∧
    (tagAxes (tag qwen (render qwen [⟨.user, [.bracket .think [40]]⟩] false))[3]!).2.2 = Semantic.user.code ∧
    Semantic.user.code ≠ Semantic.delim.code := by
  refine ⟨⟨by decide, fun seg inner => ?_⟩, by decide +kernel, by decide⟩
  rw [mem_singleton.mp inner]
  exact bracket_clean .think (by decide)

end TriaxialTagger

end TriaxialKV
