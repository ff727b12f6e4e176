import TriaxialKV.Lib.Spans

/-!
# The tagger

Token ids are integers; the id of a token that the tokenizer lacks is -1.
-/

namespace TriaxialKV
open Tensor

inductive Temporal where
  | older | m2 | m1 | current
  deriving DecidableEq

inductive Modal where
  | text | image
  deriving DecidableEq

inductive Semantic where
  | inst | user | assistant | reasoning | toolCall | obs | delim
  deriving DecidableEq, Inhabited

def Temporal.code : Temporal → Nat
  | .older => 0 | .m2 => 1 | .m1 => 2 | .current => 3

def Modal.code : Modal → Nat
  | .text => 0 | .image => 1

def Semantic.code : Semantic → Nat
  | .inst => 0 | .user => 1 | .assistant => 2 | .reasoning => 3 | .toolCall => 4 | .obs => 5 | .delim => 6

def mmPadShiftValue : Int := 1000000

def tagId (t : Temporal) (m : Modal) (s : Semantic) : Nat := (t.code * 2 + m.code) * 7 + s.code

/-- A code taken apart as in `tag_name`: temporal, modal, semantic. -/
def tagAxes (code : Nat) : Nat × Nat × Nat := (code / 14, code / 7 % 2, code % 7)

theorem tagAxes_tagId (t : Temporal) (m : Modal) (s : Semantic) : tagAxes (tagId t m s) = (t.code, m.code, s.code) := by
  cases t <;> cases m <;> cases s <;> rfl

/-! ### Policy -/

/-- A missing axis matches everything. -/
structure PolicyRule where
  temporal : Option (List Temporal)
  modal : Option (List Modal)
  semantic : Option (List Semantic)
  bits : Nat

structure TriaxialPolicy where
  lut : List Nat

namespace TriaxialPolicy

def applyRule (lut : List Nat) (rule : PolicyRule) : List Nat :=
  let ts := rule.temporal.getD [.older, .m2, .m1, .current]
  let ms := rule.modal.getD [.text, .image]
  let ss := rule.semantic.getD [.inst, .user, .assistant, .reasoning, .toolCall, .obs, .delim]
  ts.foldl (fun lut t => ms.foldl (fun lut m => ss.foldl (fun lut s => lut.set (tagId t m s) rule.bits) lut) lut) lut

/-- The rules are applied from the last one on, so that the first one has the final say. -/
def ofRules (defaultBits : Nat) (rules : List PolicyRule) : TriaxialPolicy := ⟨rules.reverse.foldl applyRule (List.replicate (4 * 2 * 7) defaultBits)⟩

def default : TriaxialPolicy := ofRules 2 [⟨none, none, some [.inst, .delim, .toolCall], 4⟩, ⟨some [.current], some [.text], none, 4⟩]

theorem default_mono {t t' : Temporal} (older : t'.code ≤ t.code) (m : Modal) (s : Semantic) :
    default.lut[tagId t' m s]! ≤ default.lut[tagId t m s]! := by
  revert older
  cases t <;> cases t' <;> cases m <;> cases s <;> decide

end TriaxialPolicy

/-! ### Segmentation -/

structure SpecialTokens where
  imStart : Int
  imEnd : Int
  visionStart : Int
  visionEnd : Int
  imagePad : Int
  videoPad : Int
  thinkStart : Int
  thinkEnd : Int
  toolCallStart : Int
  toolCallEnd : Int
  toolRespStart : Int
  toolRespEnd : Int
  newline : Int
  roleSystem : Int
  roleUser : Int
  roleAssistant : Int
  roleTool : Int

namespace SpecialTokens

variable (sp : SpecialTokens)

def isImage (x : Int) : Bool := x ≥ mmPadShiftValue || x == sp.imagePad || x == sp.videoPad

def isVision (x : Int) : Bool := x == sp.visionStart || x == sp.visionEnd

def isSpecial (x : Int) : Bool :=
  [sp.imStart, sp.imEnd, sp.visionStart, sp.visionEnd, sp.thinkStart, sp.thinkEnd, sp.toolCallStart, sp.toolCallEnd,
    sp.toolRespStart, sp.toolRespEnd].contains x

def roleOf (roleTok : Int) : Semantic :=
  if roleTok = sp.roleSystem then .inst
  else if roleTok = sp.roleAssistant then .assistant
  else if roleTok = sp.roleTool then .obs
  else .user

end SpecialTokens

/-- A message covers `start` to `stop`, the end excluded. -/
structure Message where
  start : Nat
  stop : Nat
  role : Semantic
  deriving DecidableEq

namespace TriaxialTagger
variable (sp : SpecialTokens)

def msgs (ids : List Int) : List Message :=
  let n := ids.length
  let pos := nonzero (ids.map sp.isSpecial)
  let starts := pos.filter (fun j => ids[j]! == sp.imStart)
  starts.map (fun st =>
    let roleTok := if st + 1 < n then ids[st + 1]! else -1
    let ends := pos.filter (fun j => j > st && ids[j]! == sp.imEnd)
    ⟨st, match ends.head? with | some e => e + 1 | none => n, sp.roleOf roleTok⟩)

/-! ### Semantic labels -/

/-- One bracket of `_mark_span`. An open bracket runs one place past the message. -/
def markBracket (st len : Nat) (label : Semantic) (semantic : Nat → Semantic) (span : Nat × Option Nat) : Nat → Semantic :=
  let semantic := setSlice semantic (span.1 + st) (span.2.getD len + 1 + st) label
  let semantic := setAt semantic (span.1 + st) .delim
  match span.2 with
  | some c => setAt semantic (c + st) .delim
  | none => semantic

def markSpan (ids : List Int) (semantic : Nat → Semantic) (st en : Nat) (openId closeId : Int) (label : Semantic) : Nat → Semantic :=
  let seg := (ids.take en).drop st
  let opens := nonzero (seg.map (· == openId))
  let closes := nonzero (seg.map (· == closeId))
  (spans opens closes).foldl (markBracket st (en - st) label) semantic

def markScaffold (ids : List Int) (semantic : Nat → Semantic) (m : Message) : Nat → Semantic :=
  let n := ids.length
  let semantic := setAt semantic m.start .delim
  let semantic := if m.start + 1 < n then setAt semantic (m.start + 1) .delim else semantic
  let semantic := if m.start + 2 < n ∧ ids[m.start + 2]! = sp.newline then setAt semantic (m.start + 2) .delim else semantic
  if m.stop - 1 < n ∧ ids[m.stop - 1]! = sp.imEnd then
    let semantic := setAt semantic (m.stop - 1) .delim
    if m.stop < n ∧ ids[m.stop]! = sp.newline then setAt semantic m.stop .delim else semantic
  else semantic

def markMessage (ids : List Int) (semantic : Nat → Semantic) (m : Message) : Nat → Semantic :=
  let semantic := markScaffold sp ids (setSlice semantic m.start m.stop m.role) m
  match m.role with
  | .user =>
    let semantic := setMask semantic m.start m.stop (fun i => sp.isImage ids[i]!) .obs
    markSpan ids semantic m.start m.stop sp.toolRespStart sp.toolRespEnd .obs
  | .assistant =>
    let semantic := markSpan ids semantic m.start m.stop sp.thinkStart sp.thinkEnd .reasoning
    markSpan ids semantic m.start m.stop sp.toolCallStart sp.toolCallEnd .toolCall
  | _ => semantic

def semantic (ids : List Int) : Nat → Semantic :=
  let marked := (msgs sp ids).foldl (markMessage sp ids) (fun _ => .user)
  setMask marked 0 ids.length (fun i => sp.isVision ids[i]!) .delim

/-! ### Modal and temporal labels -/

def modal (x : Int) : Modal := if sp.isImage x then .image else .text

def userStarts (ids : List Int) : List Nat := ((msgs sp ids).filter (fun m => m.role = .user)).map (·.start)

def temporalOfDist : Nat → Temporal
  | 0 => .current
  | 1 => .m1
  | 2 => .m2
  | _ => .older

def temporal (ids : List Int) : Nat → Temporal :=
  let n := ids.length
  let starts := userStarts sp ids
  let nTurns := starts.length
  if nTurns = 0 then setSlice (fun _ => .older) 0 n .current
  else
    let bounds := starts ++ [n]
    let filled := (List.range nTurns).foldl
      (fun temporal k => setSlice temporal bounds[k]! bounds[k + 1]! (temporalOfDist (nTurns - 1 - k))) (fun _ => .older)
    setSlice filled 0 bounds[0]! .older

def tag (ids : List Int) : List Nat := (List.range ids.length).map (fun i => tagId (temporal sp ids i) (modal sp ids[i]!) (semantic sp ids i))

def bits (policy : TriaxialPolicy) (ids : List Int) : List Nat := gather policy.lut (tag sp ids)

end TriaxialTagger

end TriaxialKV
