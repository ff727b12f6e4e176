import TriaxialKV.Lib.Increments
import TriaxialKV.Lib.Text
import TriaxialKV.Lib.Utf8Reader
import TriaxialKV.Sched.Finish

/-! # From tokens to the text of the client -/

namespace TriaxialKV.Finish
open List Text Increments

/-! ### The detokenizer -/

def isChineseChar (c : Char) : Bool :=
  [(0x4E00, 0x9FFF), (0x3400, 0x4DBF), (0x20000, 0x2A6DF), (0x2A700, 0x2B73F), (0x2B740, 0x2B81F), (0x2B820, 0x2CEAF), (0xF900, 0xFAFF),
    (0x2F800, 0x2FA1F)].any (fun range => decide (range.1 ≤ c.toNat ∧ c.toNat ≤ range.2))

def findPrintableText (text : List Char) : List Char :=
  if text.getLast? = some '\n' then text
  else if text.getLast?.any isChineseChar = true then text
  else if text.length > 1 ∧ (text[text.length - 2]?).any isChineseChar = true then text.dropLast
  else text.rdropWhile (fun c => c ≠ ' ')

/-- The decoding of the tokenizer with the settings of the request, and whether the tool calls are those of gpt-oss. -/
structure Detokenizer where
  decode : List Int → List Char
  isToolCallParserGptOss : Bool

structure DecodeStatus where
  decodedText : List Char
  decodeIds : List Int
  surrOffset : Nat
  readOffset : Nat
  sentOffset : Nat

structure TokenIdOutput where
  decodedText : List Char
  decodeIds : List Int
  readOffset : Nat
  finishedReason : Option FinishReason
  noStopTrim : Bool

/-- `trim_matched_stop` on tokens; the token 0 counts as no match. -/
def trimIds (isToolCallParserGptOss noStopTrim : Bool) (finishedReason : Option FinishReason) (output : List Int) : List Int :=
  if noStopTrim then output
  else match finishedReason with
    | some (.matchedToken matched) =>
      if matched = 0 then output
      else if output.getLast? = some 200012 ∧ isToolCallParserGptOss = true then output
      else output.dropLast
    | _ => output

def cutAt (matched output : List Char) : List Char :=
  if matched = [] then output
  else match find matched output with
    | some pos => output.take pos
    | none => output

def trimText (noStopTrim : Bool) (finishedReason : Option FinishReason) (output : List Char) : List Char :=
  if noStopTrim then output
  else match finishedReason with
    | some (.matchedStr matched) => cutAt matched.toList output
    | some (.matchedRegex matched) => cutAt matched.toList output
    | _ => output

namespace Detokenizer

def receive (status : Option DecodeStatus) (recv : TokenIdOutput) : DecodeStatus :=
  match status with
  | none => ⟨recv.decodedText, recv.decodeIds, 0, recv.readOffset, 0⟩
  | some s => { s with decodeIds := s.decodeIds ++ recv.decodeIds }

def advance (d : Detokenizer) (s : DecodeStatus) (finishedReason : Option FinishReason) (noStopTrim : Bool) :
    Option DecodeStatus × List Char × List Char :=
  let readIds := trimIds d.isToolCallParserGptOss noStopTrim finishedReason (s.decodeIds.drop s.surrOffset)
  let surrIds := (s.decodeIds.take s.readOffset).drop s.surrOffset
  let newText := (d.decode readIds).drop (d.decode surrIds).length
  match finishedReason with
  | none =>
    let (s, newText) :=
      if newText ≠ [] ∧ newText.getLast? ≠ some Utf8.replacement then
        ({ s with decodedText := s.decodedText ++ newText, surrOffset := s.readOffset, readOffset := s.decodeIds.length }, [])
      else (s, findPrintableText newText)
    let outputStr := s.decodedText ++ newText
    (some { s with sentOffset := outputStr.length }, outputStr, outputStr.drop s.sentOffset)
  | some reason =>
    let outputStr := trimText noStopTrim (some reason) (s.decodedText ++ newText)
    (none, outputStr, outputStr.drop s.sentOffset)

/-- What `_decode_batch_token_id_output` does for one request. -/
def decodeTokenIdOutput (d : Detokenizer) (status : Option DecodeStatus) (recv : TokenIdOutput) : Option DecodeStatus × List Char × List Char :=
  d.advance (receive status recv) recv.finishedReason recv.noStopTrim

end Detokenizer

/-! ### The scheduler -/

namespace Req

def checkMatchStopStrPrefix (r : Req) : Bool :=
  if r.samplingParams.stopStrs = [] then false
  else
    let tail := r.tailStr.toList
    if tail = [] then false
    else r.samplingParams.stopStrs.any (fun stop =>
      let stop := stop.toList
      decide (stop ≠ []) && (decide (stop <:+: tail) ||
          (range' 1 (min tail.length stop.length)).any (fun i => decide (tail.drop (tail.length - i) = stop.take i))))

end Req

def INIT_INCREMENTAL_DETOKENIZATION_OFFSET : Nat := 5

def DEFAULT_FORCE_STREAM_INTERVAL : Nat := 50

structure StreamReq where
  req : Req
  originInputIdsUnpadded : List Int
  stream : Bool
  streamInterval : Nat
  noStopTrim : Bool
  finishedOutput : Bool := false
  surrAndDecodeIds : Option (List Int) := none
  curDecodeIdsLen : Nat := 0
  sendDecodeIdOffset : Nat := 0

namespace StreamReq

def promptTail (r : StreamReq) : List Int := r.originInputIdsUnpadded.drop (r.originInputIdsUnpadded.length - INIT_INCREMENTAL_DETOKENIZATION_OFFSET)

def initIncrementalDetokenize (r : StreamReq) : StreamReq × List Int × Nat :=
  let outputIds := r.req.outputIdsThroughStop
  let ids := match r.surrAndDecodeIds with
    | none => r.promptTail ++ outputIds
    | some ids => ids ++ outputIds.drop r.curDecodeIdsLen
  ({ r with surrAndDecodeIds := some ids, curDecodeIdsLen := outputIds.length }, ids, r.promptTail.length)

def shouldOutput (r : StreamReq) : Bool :=
  let n := r.req.outputIds.length
  if r.stream then
    decide (if r.streamInterval > 1 then n % r.streamInterval = 1 else n % r.streamInterval = 0) && !r.req.checkMatchStopStrPrefix
  else decide (n % DEFAULT_FORCE_STREAM_INTERVAL = 0)

def send (r : StreamReq) : StreamReq × TokenIdOutput :=
  let (r, decodeIds, readOffset) := r.initIncrementalDetokenize
  ({ r with sendDecodeIdOffset := decodeIds.length },
    ⟨r.req.decodedText.toList, decodeIds.drop r.sendDecodeIdOffset, readOffset, r.req.finishedReason, r.noStopTrim⟩)

/-- The part of `stream_output_generation` for one request. -/
def streamOutput (r : StreamReq) : StreamReq × Option TokenIdOutput :=
  if r.req.finished then
    if r.finishedOutput then (r, none)
    else
      let finishedLen := r.req.finishedLen.getD r.req.outputIds.length
      let (r, output) := { r with finishedOutput := true, req := { r.req with finishedLen := some finishedLen } }.send
      (r, some output)
  else if r.shouldOutput then
    let (r, output) := r.send
    (r, some output)
  else (r, none)

end StreamReq

/-- The three processes for one request. `text` is what the tokenizer manager has, `versions` are the texts the detokenizer has come to, and
`ends` are the numbers of output ids that the batches before the finish end at. -/
structure Pipeline where
  request : StreamReq
  status : Option DecodeStatus := none
  text : List Char := []
  versions : List (List Char) := []
  ends : List Nat := []

namespace Pipeline
variable (search : String → String → Bool) (d : Detokenizer)

def output (p : Pipeline) (request : StreamReq) : Pipeline :=
  match request.streamOutput with
  | (request, none) => { p with request := request }
  | (request, some recv) =>
    let (status, outputStr, increment) := d.decodeTokenIdOutput p.status recv
    ⟨request, status, p.text ++ increment, p.versions ++ [outputStr],
      if recv.finishedReason.isNone then p.ends ++ [request.curDecodeIdsLen] else p.ends⟩

def step (p : Pipeline) (token : Int) : Pipeline :=
  if p.request.req.finished then p
  else p.output d { p.request with req := (p.request.req.extend [token]).checkFinished search 1 }

def run (p : Pipeline) (tokens : List Int) : Pipeline := tokens.foldl (step search d) p

/-- The decoding of the whole output, trimmed as a whole. -/
def final (p : Pipeline) : List Char :=
  let r := p.request
  trimText r.noStopTrim r.req.finishedReason
    (d.decode (trimIds d.isToolCallParserGptOss r.noStopTrim r.req.finishedReason r.req.outputIdsThroughStop))

end Pipeline

def Settled (text : List Char) : Prop := text.getLast? ≠ some Utf8.replacement

instance : DecidablePred Settled := fun text => inferInstanceAs (Decidable (text.getLast? ≠ some Utf8.replacement))

theorem prefix_stem {text start : List Char} (settled : Settled start) (begins : start <+: text) : start <+: Utf8.stem text := by
  refine prefix_rdropWhile begins (fun c last => decide_eq_false (fun cut => ?_))
  rw [cut] at last
  exact settled last

theorem printable_start (text : List Char) : findPrintableText text <+: text := by
  unfold findPrintableText
  split
  · exact prefix_refl _
  · split
    · exact prefix_refl _
    · split
      · exact dropLast_prefix _
      · exact rdropWhile_prefix _ _

theorem replacement_not_chinese : isChineseChar Utf8.replacement = false := by decide +kernel

theorem printable_settled (text : List Char) : Settled (findPrintableText text) := by
  intro cut
  unfold findPrintableText at cut
  split at cut
  · next newline =>
    rw [newline] at cut
    exact absurd (Option.some.inj cut) (by decide)
  · split at cut
    · next chinese =>
      rw [cut, Option.any_some, replacement_not_chinese] at chinese
      cases chinese
    · split at cut
      · next chinese =>
        rw [getLast?_eq_getElem?, length_dropLast, getElem?_dropLast, if_pos (by omega), Nat.sub_sub] at cut
        rw [cut, Option.any_some, replacement_not_chinese] at chinese
        cases chinese.2
      · have some : text.rdropWhile (fun c => c ≠ ' ') ≠ [] := by
          intro none
          rw [none] at cut
          cases cut
        have last := rdropWhile_last_not (fun c => decide (c ≠ ' ')) text some
        rw [getLast?_eq_some_getLast some] at cut
        rw [Option.some.inj cut] at last
        exact last (by decide)

theorem cutAt_start (matched output : List Char) : cutAt matched output <+: output := by
  unfold cutAt
  split
  · exact prefix_refl _
  · split
    · exact take_prefix _ _
    · exact prefix_refl _

theorem trimText_start (noStopTrim : Bool) (reason : Option FinishReason) (output : List Char) : trimText noStopTrim reason output <+: output := by
  unfold trimText
  split
  · exact prefix_refl _
  · split
    · exact cutAt_start _ _
    · exact cutAt_start _ _
    · exact prefix_refl _

theorem trimIds_append {gptOss noStopTrim : Bool} {reason : Option FinishReason} {front back : List Int}
    (some : (∃ matched, reason = some (.matchedToken matched)) → back ≠ []) :
    trimIds gptOss noStopTrim reason (front ++ back) = front ++ trimIds gptOss noStopTrim reason back := by
  unfold trimIds
  cases noStopTrim with
  | true => rfl
  | false =>
    rw [if_neg Bool.false_ne_true, if_neg Bool.false_ne_true]
    split
    · next matched =>
      have nonempty := some ⟨matched, rfl⟩
      rw [getLast?_append_of_ne_nil _ nonempty, dropLast_append_of_ne_nil nonempty]
      split
      · rfl
      · split <;> rfl
    · rfl

theorem trimIds_cases (gptOss noStopTrim : Bool) (reason : Option FinishReason) (output : List Int) :
    trimIds gptOss noStopTrim reason output = output ∨
      (∃ matched, reason = some (.matchedToken matched)) ∧ trimIds gptOss noStopTrim reason output = output.dropLast := by
  unfold trimIds
  split
  · exact .inl rfl
  · split
    · next matched =>
      split
      · exact .inl rfl
      · split
        · exact .inl rfl
        · exact .inr ⟨⟨matched, rfl⟩, rfl⟩
    · exact .inl rfl

/-! ### Decoding in parts -/

namespace Detokenizer
section
variable (d : Detokenizer) (out : List Int)

/-- The text that the ids from `m` to `n` add. -/
def added (m n : Nat) : List Char := (d.decode (out.take n)).drop (d.decode (out.take m)).length

/-- The ids from `m` to `n` add text, and it does not end inside a character. -/
def Completes (m n : Nat) : Prop := d.added out m n ≠ [] ∧ Settled (d.added out m n)

instance (m n : Nat) : Decidable (d.Completes out m n) := inferInstanceAs (Decidable (d.added out m n ≠ [] ∧ Settled (d.added out m n)))

/-- A window of ids adds the text that the whole output adds: the window of the prompt's last ids, and those between two ends at which the text is
complete. What stands before a cut character stays. -/
structure LawfulOn (tail : List Int) : Prop where
  empty : d.decode [] = []
  first : ∀ n, d.decode (tail ++ out.take n) = d.decode tail ++ d.decode (out.take n)
  later : ∀ j m n, j ≤ m → m ≤ n → Settled (d.decode (out.take j)) → d.Completes out j m →
    d.decode ((out.take n).drop j) = d.decode ((out.take m).drop j) ++ d.added out m n
  keeps : ∀ m n, m ≤ n → Utf8.stem (d.decode (out.take m)) <+: d.decode (out.take n)

/-- Where the next window begins after a batch that ends at `n`. -/
def nextRead (m n : Nat) : Nat := if d.Completes out m n then n else m

def textAt (m n : Nat) : List Char :=
  if d.Completes out m n then d.decode (out.take n) else d.decode (out.take m) ++ findPrintableText (d.added out m n)

def readAt : Nat → List Nat → Nat
  | m, [] => m
  | m, n :: ends => readAt (d.nextRead out m n) ends

def textsAt : Nat → List Nat → List (List Char)
  | _, [] => []
  | m, n :: ends => d.textAt out m n :: textsAt (d.nextRead out m n) ends

/-- No batch that ends inside a character shows less than the one before it, and the final text is no shorter than what was shown: `shown`
characters after the ids up to `m`. -/
def Keeps (final : List Char) : Nat → Nat → List Nat → Prop
  | m, shown, [] => (d.decode (out.take m)).length + shown ≤ final.length
  | m, shown, n :: ends =>
    if d.Completes out m n then Keeps final n 0 ends
    else shown ≤ (findPrintableText (d.added out m n)).length ∧ Keeps final m (findPrintableText (d.added out m n)).length ends

instance instDecidableKeeps (final : List Char) : ∀ (m shown : Nat) (ends : List Nat), Decidable (d.Keeps out final m shown ends)
  | _, _, [] => inferInstanceAs (Decidable (_ ≤ _))
  | m, shown, n :: ends => by
    have complete := instDecidableKeeps final n 0 ends
    have cut := instDecidableKeeps final m (findPrintableText (d.added out m n)).length ends
    unfold Keeps
    infer_instance

end

section
variable {d : Detokenizer} {tail out : List Int} {j m n k : Nat}

theorem readAt_append (m : Nat) (ends : List Nat) (n : Nat) : d.readAt out m (ends ++ [n]) = d.nextRead out (d.readAt out m ends) n := by
  induction ends generalizing m with
  | nil => rfl
  | cons first ends ih => exact ih _

theorem textsAt_append (m : Nat) (ends : List Nat) (n : Nat) :
    d.textsAt out m (ends ++ [n]) = d.textsAt out m ends ++ [d.textAt out (d.readAt out m ends) n] := by
  induction ends generalizing m with
  | nil => rfl
  | cons first ends ih => exact congrArg _ (ih _)

theorem take_split (le : m ≤ n) : out.take m ++ (out.take n).drop m = out.take n := by
  have whole := take_append_drop m (out.take n)
  rwa [take_take, Nat.min_eq_left le] at whole

theorem drop_split (first : j ≤ m) (le : m ≤ n) : (out.take m).drop j ++ (out.take n).drop m = (out.take n).drop j := by
  rcases Nat.le_total m out.length with inside | outside
  · rw [← drop_append_of_le_length, take_split le]
    rw [length_take]
    omega
  · rw [take_of_length_le outside, take_of_length_le (outside.trans le), drop_eq_nil_of_le outside, append_nil]

namespace LawfulOn
variable (lawful : d.LawfulOn out tail)
include lawful

theorem start (settled : Settled (d.decode (out.take m))) (le : m ≤ n) : d.decode (out.take m) <+: d.decode (out.take n) :=
  (prefix_stem settled (prefix_refl _)).trans (lawful.keeps m n le)

theorem whole (settled : Settled (d.decode (out.take m))) (le : m ≤ n) : d.decode (out.take m) ++ d.added out m n = d.decode (out.take n) := by
  obtain ⟨rest, split⟩ := lawful.start settled le
  unfold added
  rw [← split, drop_left]

theorem settled_next (settled : Settled (d.decode (out.take m))) (le : m ≤ n) (completes : d.Completes out m n) :
    Settled (d.decode (out.take n)) := by
  unfold Settled
  rw [← lawful.whole settled le, getLast?_append_of_ne_nil _ completes.1]
  exact completes.2

theorem textAt_start (settled : Settled (d.decode (out.take m))) (le : m ≤ n) (later : n ≤ k) : d.textAt out m n <+: d.decode (out.take k) := by
  unfold textAt
  split
  · next completes => exact lawful.start (lawful.settled_next settled le completes) later
  · have kept : d.decode (out.take m) ++ findPrintableText (d.added out m n) <+: d.decode (out.take n) := by
      rw [← lawful.whole settled le, prefix_append_right_inj]
      exact printable_start _
    have complete : Settled (d.decode (out.take m) ++ findPrintableText (d.added out m n)) := by
      unfold Settled
      rcases eq_or_ne (findPrintableText (d.added out m n)) [] with none | some
      · rw [none, append_nil]
        exact settled
      · rw [getLast?_append_of_ne_nil _ some]
        exact printable_settled _
    exact (prefix_stem complete kept).trans (lawful.keeps n k later)

theorem grows_iff (final : List Char) {ends : List Nat} {shown : Nat} (settled : Settled (d.decode (out.take m))) (behind : ∀ n ∈ ends, m ≤ n)
    (sorted : ends.Pairwise (· ≤ ·)) (room : ∀ n ∈ ends, (d.decode (out.take m)).length + shown ≤ (d.decode (out.take n)).length) :
    Grows ((d.decode (out.take m)).length + shown) (d.textsAt out m ends ++ [final]) ↔ d.Keeps out final m shown ends := by
  induction ends generalizing m shown with
  | nil => exact and_iff_left trivial
  | cons n ends ih =>
    obtain ⟨least, rest⟩ := pairwise_cons.mp sorted
    have le := behind n mem_cons_self
    have later : ∀ k ∈ ends, m ≤ k := fun k here => behind k (mem_cons_of_mem n here)
    by_cases completes : d.Completes out m n
    · have next := lawful.settled_next settled le completes
      have text : d.textAt out m n = d.decode (out.take n) := if_pos completes
      have read : d.nextRead out m n = n := if_pos completes
      have tail := @ih n 0 next least rest (fun k here => (lawful.start next (least k here)).length_le)
      rw [Nat.add_zero] at tail
      rw [textsAt, text, read, cons_append, Grows, Keeps, if_pos completes, tail]
      exact and_iff_right (room n mem_cons_self)
    · have text : d.textAt out m n = d.decode (out.take m) ++ findPrintableText (d.added out m n) := if_neg completes
      have read : d.nextRead out m n = m := if_neg completes
      have tail := @ih m (findPrintableText (d.added out m n)).length settled later rest (fun k here => ?_)
      · rw [textsAt, read, cons_append, Grows, Keeps, if_neg completes, text, length_append, tail, Nat.add_le_add_iff_left]
      · have fits := (lawful.textAt_start settled le (least k here)).length_le
        rwa [text, length_append] at fits

end LawfulOn

end

/-- Texts join at the end of a settled one, and what is not cut off stays. -/
structure Lawful (d : Detokenizer) : Prop where
  empty : d.decode [] = []
  joins : ∀ ids more, Settled (d.decode ids) → d.decode (ids ++ more) = d.decode ids ++ d.decode more
  keeps : ∀ ids more, Utf8.stem (d.decode ids) <+: d.decode (ids ++ more)

theorem Lawful.on {d : Detokenizer} (lawful : d.Lawful) {tail : List Int} (settled : Settled (d.decode tail)) (out : List Int) :
    d.LawfulOn out tail := by
  have parts {m n : Nat} (complete : Settled (d.decode (out.take m))) (le : m ≤ n) : d.added out m n = d.decode ((out.take n).drop m) := by
    unfold added
    rw [← take_split le, lawful.joins _ _ complete, drop_left, take_split le]
  refine ⟨lawful.empty, fun n => lawful.joins _ _ settled, fun j m n first le start completes => ?_, fun m n le => ?_⟩
  · have window : Settled (d.decode ((out.take m).drop j)) := by
      rw [← parts start first]
      exact completes.2
    have next : Settled (d.decode (out.take m)) := by
      unfold Settled
      rw [← take_split first, lawful.joins _ _ start, ← parts start first, getLast?_append_of_ne_nil _ completes.1]
      exact completes.2
    rw [parts next le, ← lawful.joins _ _ window, drop_split first le]
  · rw [← take_split le]
    exact lawful.keeps _ _

end Detokenizer

/-! ### The detokenizer's steps -/

/-- The detokenizer has the first `n` of the ids `out`, and the text of the first `r`. -/
structure Ready (d : Detokenizer) (tail out : List Int) (n r : Nat) (s : DecodeStatus) : Prop where
  ids : s.decodeIds = tail ++ out.take n
  inside : n ≤ out.length
  read : s.readOffset = tail.length + r
  le : r ≤ n
  window : (r = 0 ∧ s.surrOffset = 0) ∨ ∃ j ≤ r, s.surrOffset = tail.length + j ∧ Settled (d.decode (out.take j)) ∧ d.Completes out j r
  text : s.decodedText = d.decode (out.take r)
  settled : Settled (d.decode (out.take r))

section
variable {d : Detokenizer} {tail out : List Int} {n r : Nat} {s : DecodeStatus}

theorem Ready.surr (ready : Ready d tail out n r s) : s.surrOffset ≤ s.readOffset := by
  rw [ready.read]
  rcases ready.window with ⟨_, zero⟩ | ⟨j, le, offset, _⟩
  · omega
  · omega

theorem Ready.split (ready : Ready d tail out n r s) :
    s.decodeIds.drop s.surrOffset = (s.decodeIds.take s.readOffset).drop s.surrOffset ++ (out.take n).drop r := by
  have rest : s.decodeIds.drop s.readOffset = (out.take n).drop r := by
    rw [ready.ids, ready.read, ← drop_drop, drop_left]
  rw [← rest, ← drop_append_of_le_length, take_append_drop]
  rw [length_take, ready.ids, length_append, length_take]
  have := ready.surr
  have := ready.read
  have := ready.le
  have := ready.inside
  omega

/-- The trimmed ids are a beginning of the output, too. -/
theorem Ready.trimmed (ready : Ready d tail out n r s) (noStopTrim : Bool) {reason : Option FinishReason}
    (last : (∃ matched, reason = some (.matchedToken matched)) → r < n) :
    ∃ k, r ≤ k ∧ trimIds d.isToolCallParserGptOss noStopTrim reason ((out.take n).drop r) = (out.take k).drop r ∧
      trimIds d.isToolCallParserGptOss noStopTrim reason (out.take n) = out.take k := by
  have inside := ready.inside
  have le := ready.le
  have length : ((out.take n).drop r).length = n - r := by
    rw [length_drop, length_take, Nat.min_eq_left inside]
  have some : (∃ matched, reason = some (.matchedToken matched)) → (out.take n).drop r ≠ [] := by
    intro token none
    have := last token
    rw [none, length_nil] at length
    omega
  have join := @trimIds_append d.isToolCallParserGptOss noStopTrim reason (out.take r) _ some
  rw [Detokenizer.take_split le] at join
  rcases trimIds_cases d.isToolCallParserGptOss noStopTrim reason ((out.take n).drop r) with all | ⟨token, shorter⟩
  · refine ⟨n, le, all, ?_⟩
    rw [join, all, Detokenizer.take_split le]
  · have less := last token
    have cut : ((out.take n).drop r).dropLast = (out.take (n - 1)).drop r := by
      rw [dropLast_eq_take, length, take_drop, take_take]
      congr 2
      omega
    refine ⟨n - 1, by omega, shorter.trans cut, ?_⟩
    rw [join, shorter, cut, Detokenizer.take_split (by omega)]

theorem Ready.more (ready : Ready d tail out n r s) {k : Nat} (le : n ≤ k) (inside : k ≤ out.length) :
    Ready d tail out k r { s with decodeIds := s.decodeIds ++ (out.take k).drop n } := by
  refine { ready with ids := ?_, inside := inside, le := ready.le.trans le }
  show s.decodeIds ++ (out.take k).drop n = _
  rw [ready.ids, append_assoc, Detokenizer.take_split le]

section
variable (lawful : d.LawfulOn out tail) (ready : Ready d tail out n r s)
include lawful ready

theorem Ready.newText {k : Nat} (le : r ≤ k) :
    (d.decode ((s.decodeIds.take s.readOffset).drop s.surrOffset ++ (out.take k).drop r)).drop
      (d.decode ((s.decodeIds.take s.readOffset).drop s.surrOffset)).length = d.added out r k := by
  have known : s.decodeIds.take s.readOffset = tail ++ out.take r := by
    rw [ready.ids, ready.read, take_length_add_append, take_take, Nat.min_eq_left ready.le]
  rw [known]
  rcases ready.window with ⟨rfl, zero⟩ | ⟨j, first, offset, start, completes⟩
  · unfold Detokenizer.added
    rw [zero, take_zero, append_nil, drop_zero, drop_zero, lawful.first, drop_left, lawful.empty]
    rfl
  · rw [offset, ← drop_drop, drop_left, Detokenizer.drop_split first le, lawful.later j r k first le start completes, drop_left]

theorem Ready.advance_running (noStopTrim : Bool) :
    ∃ s', d.advance s none noStopTrim = (some s', d.textAt out r n, (d.textAt out r n).drop s.sentOffset) ∧
      Ready d tail out n (d.nextRead out r n) s' ∧ s'.sentOffset = (d.textAt out r n).length := by
  have untrimmed : trimIds d.isToolCallParserGptOss noStopTrim none (s.decodeIds.drop s.surrOffset) = s.decodeIds.drop s.surrOffset := by
    unfold trimIds
    split <;> rfl
  have newText := ready.newText lawful ready.le
  have whole := lawful.whole ready.settled ready.le
  unfold Detokenizer.advance Detokenizer.textAt Detokenizer.nextRead
  dsimp only
  rw [untrimmed, ready.split, newText]
  by_cases completes : d.Completes out r n
  · rw [if_pos completes, if_pos completes, if_pos (show d.added out r n ≠ [] ∧ (d.added out r n).getLast? ≠ some Utf8.replacement from completes)]
    dsimp only
    rw [append_nil, ready.text, whole]
    refine ⟨_, rfl, ⟨ready.ids, ready.inside, ?_, Nat.le_refl _, .inr ⟨r, ready.le, ready.read, ready.settled, completes⟩, rfl, ?_⟩, rfl⟩
    · show s.decodeIds.length = _
      rw [ready.ids, length_append, length_take, Nat.min_eq_left ready.inside]
    · exact lawful.settled_next ready.settled ready.le completes
  · rw [if_neg completes, if_neg completes,
      if_neg (show ¬ (d.added out r n ≠ [] ∧ (d.added out r n).getLast? ≠ some Utf8.replacement) from completes)]
    dsimp only
    rw [ready.text]
    exact ⟨_, rfl, { ready with text := rfl }, rfl⟩

theorem Ready.advance_finished (noStopTrim : Bool) {reason : FinishReason}
    (last : (∃ matched, some reason = some (.matchedToken matched)) → r < n) :
    ∃ version, d.advance s (some reason) noStopTrim = (none, version, version.drop s.sentOffset) ∧
      version = trimText noStopTrim (some reason) (d.decode (trimIds d.isToolCallParserGptOss noStopTrim (some reason) (out.take n))) := by
  obtain ⟨k, le, rest, whole⟩ := ready.trimmed noStopTrim last
  have some : (∃ matched, some reason = some (.matchedToken matched)) → (out.take n).drop r ≠ [] := by
    intro token none
    have := last token
    have := ready.inside
    have length := congrArg List.length none
    rw [length_drop, length_take, length_nil] at length
    omega
  refine ⟨_, rfl, ?_⟩
  rw [ready.split, trimIds_append some, rest, ready.newText lawful le, ready.text, lawful.whole ready.settled le, whole]

end

end

/-! ### The finish of a request -/

section
variable {r : Req} {token : Int}

structure Req.Running (r : Req) : Prop where
  unfinished : r.finishedReason = none
  uncut : r.finishedLen = none
  undecoded : r.decodedText = ""
  short : r.outputIds = [] ∨ r.outputIds.length < r.samplingParams.maxNewTokens

structure Req.Finishes (r r' : Req) : Prop where
  finished : r'.finished = true
  undecoded : r'.decodedText = ""
  keeps : r.outputIds <+: r'.outputIdsThroughStop
  stop : (∃ matched, r'.finishedReason = some (.matchedToken matched)) → r.outputIds.length < r'.outputIdsThroughStop.length

theorem Req.Running.finishes_whole (running : r.Running) {r' : Req} (reason : r'.finishedReason.isSome = true)
    (same : r'.outputIds = r.outputIds ++ [token])
    (text : r'.decodedText = r.decodedText) (cut : r'.finishedLen = none ∨ r'.finishedLen = some (r.outputIds.length + 1)) : r.Finishes r' := by
  have whole : r'.outputIdsThroughStop = r.outputIds ++ [token] := by
    unfold Req.outputIdsThroughStop
    rcases cut with cut | cut
    · rw [cut, same]
    · rw [cut, same]
      exact take_of_length_le (by rw [length_append, length_singleton])
  refine ⟨reason, text.trans running.undecoded, ?_, fun _ => ?_⟩
  · rw [whole]
    exact prefix_append _ _
  · rw [whole, length_append, length_singleton]
    exact Nat.lt_succ_self _

theorem replaced {out ids : List Int} (ends : ∃ last, ids = out ++ [last]) (stops : List Int) : ∃ last, (match stops with
      | [] => ids
      | stop :: _ => ids.set out.length stop) = out ++ [last] := by
  cases stops with
  | nil => exact ends
  | cons stop stops =>
    obtain ⟨last, rfl⟩ := ends
    refine ⟨stop, ?_⟩
    dsimp only
    rw [set_append_right _ _ (Nat.le_refl _), Nat.sub_self]
    rfl

theorem length_extend (token : Int) : (r.extend [token]).outputIds.length = r.outputIds.length + 1 := by
  change (r.outputIds ++ [token]).length = _
  rw [length_append, length_singleton]

section
variable (running : r.Running) {token : Int} {r' : Req}
include running

theorem Req.Running.byToken (done : (r.extend [token]).checkTokenBasedFinish [token] = some r') : r.Finishes r' := by
  unfold Req.checkTokenBasedFinish at done
  split at done
  · cases done
  · split at done
    · cases done
    · next i found =>
      have first : i = 0 := by
        have bound := (findIdx?_eq_some_iff_getElem.mp found).1
        rw [length_singleton] at bound
        omega
      cases done
      refine running.finishes_whole rfl rfl rfl (.inr ?_)
      rw [length_extend, first]
      rfl

theorem Req.Running.byVocab (done : (r.extend [token]).checkVocabBoundaryFinish [token] = some r') : r.Finishes r' := by
  unfold Req.checkVocabBoundaryFinish at done
  split at done
  · cases done
  · next i found =>
    have place : (r.extend [token]).outputIds.length - [token].length + i = r.outputIds.length := by
      have bound := (findIdx?_eq_some_iff_getElem.mp found).1
      rw [length_singleton] at bound
      rw [length_extend, length_singleton]
      omega
    rw [place] at done
    cases done
    refine ⟨rfl, running.undecoded, ?_, ?_⟩
    · obtain ⟨last, same⟩ := replaced (replaced ⟨token, rfl⟩ (r.extend [token]).samplingParams.stopTokenIds) (r.extend [token]).eosTokenIds
      refine List.prefix_take_iff.mpr ⟨?_, Nat.le_succ _⟩
      refine ⟨[last], Eq.trans ?_ same.symm⟩
      rfl
    · rintro ⟨matched, reason⟩
      cases reason

theorem Req.Running.byStr {search : String → String → Bool} (done : (r.extend [token]).checkStrBasedFinish search = some r') : r.Finishes r' := by
  unfold Req.checkStrBasedFinish at done
  dsimp only at done
  split at done
  · cases done
    exact running.finishes_whole rfl rfl rfl (.inl running.uncut)
  · split at done
    · cases done
      exact running.finishes_whole rfl rfl rfl (.inl running.uncut)
    · cases done

theorem Req.Running.checkFinished (search : String → String → Bool) (token : Int) :
    ((r.extend [token]).checkFinished search 1 = r.extend [token] ∧ (r.extend [token]).Running) ∨
      r.Finishes ((r.extend [token]).checkFinished search 1) := by
  have unfinished : (r.extend [token]).finishedReason = none := running.unfinished
  have window : (r.extend [token]).outputIds.drop (r.outputIds.length + 1 - 1) = [token] := drop_left
  unfold Req.checkFinished Req.finished
  rw [unfinished]
  dsimp only [Option.isSome]
  rw [if_neg Bool.false_ne_true]
  split
  · exact .inr (running.finishes_whole rfl rfl rfl (.inl running.uncut))
  · by_cases limit : (r.extend [token]).outputIds.length ≥ (r.extend [token]).samplingParams.maxNewTokens
    · rw [if_pos limit]
      refine .inr ⟨rfl, running.undecoded, ?_, ?_⟩
      · change r.outputIds <+: (r.outputIds ++ [token]).take r.samplingParams.maxNewTokens
        rcases running.short with none | short
        · rw [none]
          exact nil_prefix
        · rw [prefix_take_iff]
          exact ⟨prefix_append _ _, short.le⟩
      · rintro ⟨matched, reason⟩
        cases reason
    · rw [if_neg limit]
      split
      · exact .inr (running.finishes_whole rfl rfl rfl (.inl running.uncut))
      · rw [length_extend, window]
        cases byToken : (r.extend [token]).checkTokenBasedFinish [token] with
        | some r' => exact .inr (running.byToken byToken)
        | none =>
          cases byVocab : (r.extend [token]).checkVocabBoundaryFinish [token] with
          | some r' => exact .inr (running.byVocab byVocab)
          | none =>
            cases byStr : (r.extend [token]).checkStrBasedFinish search with
            | some r' => exact .inr (running.byStr byStr)
            | none =>
              refine .inl ⟨rfl, running.unfinished, running.uncut, running.undecoded, .inr ?_⟩
              exact Nat.lt_of_not_le limit

end

end

/-! ### Whole runs -/

namespace Pipeline

def lastLength (versions : List (List Char)) : Nat := (versions.getLast?.map List.length).getD 0

structure Inv (d : Detokenizer) (tail out : List Int) (p : Pipeline) : Prop where
  running : p.request.req.Running
  promptTail : p.request.promptTail = tail
  notOutput : p.request.finishedOutput = false
  text : p.text = received p.versions
  start : p.request.req.outputIds <+: out
  texts : p.versions = d.textsAt out 0 p.ends
  fixed : ∀ version ∈ p.versions, ∀ n, p.request.req.outputIds.length ≤ n → version <+: d.decode (out.take n)
  sorted : p.ends.Pairwise (· ≤ ·)
  bound : ∀ n ∈ p.ends, n ≤ p.request.req.outputIds.length
  sent : (p.request.surrAndDecodeIds = none ∧ p.request.sendDecodeIdOffset = 0 ∧ p.status = none ∧ p.ends = []) ∨
    ∃ m s, m ≤ p.request.req.outputIds.length ∧ p.request.surrAndDecodeIds = some (tail ++ out.take m) ∧
      p.request.curDecodeIdsLen = m ∧ p.request.sendDecodeIdOffset = (tail ++ out.take m).length ∧ p.status = some s ∧
      Ready d tail out m (d.readAt out 0 p.ends) s ∧ s.sentOffset = lastLength p.versions

structure Done (d : Detokenizer) (out : List Int) (p : Pipeline) : Prop where
  finished : p.request.req.finished = true
  last : p.versions = d.textsAt out 0 p.ends ++ [p.final d]
  text : p.text = received p.versions
  one : ∃ whole, ∀ version ∈ p.versions, version <+: whole
  sorted : p.ends.Pairwise (· ≤ ·)

section
variable {search : String → String → Bool} {d : Detokenizer} {tail out : List Int} {p : Pipeline}

theorem Inv.send (lawful : d.LawfulOn out tail) (inv : p.Inv d tail out) {request : StreamReq} (req : Req) (flag : Bool)
    (same : request = { p.request with req := req, finishedOutput := flag }) (undecoded : req.decodedText = "") {n : Nat}
    (whole : req.outputIdsThroughStop = out.take n) (longer : p.request.req.outputIds.length ≤ n) (inside : n ≤ out.length) :
    d.readAt out 0 p.ends ≤ p.request.req.outputIds.length ∧
      Ready d tail out n (d.readAt out 0 p.ends) (Detokenizer.receive p.status request.send.2) ∧
      (Detokenizer.receive p.status request.send.2).sentOffset = lastLength p.versions ∧
      request.send.1 = { p.request with
        req := req
        finishedOutput := flag
        surrAndDecodeIds := some (tail ++ out.take n)
        curDecodeIdsLen := n
        sendDecodeIdOffset := (tail ++ out.take n).length } ∧
      request.send.2.finishedReason = req.finishedReason ∧ request.send.2.noStopTrim = p.request.noStopTrim := by
  have promptTail := inv.promptTail
  have length : (out.take n).length = n := by
    rw [length_take]
    exact Nat.min_eq_left inside
  unfold StreamReq.promptTail at promptTail
  subst same
  unfold StreamReq.send StreamReq.initIncrementalDetokenize StreamReq.promptTail
  rcases inv.sent with ⟨none, offset, status, ends⟩ | ⟨m, s, le, ids, cur, offset, status, ready, sentOffset⟩
  · have versions : p.versions = [] := by
      rw [inv.texts, ends]
      rfl
    dsimp only
    rw [none, promptTail, offset, status, ends, versions, whole, length]
    refine ⟨Nat.zero_le _, ⟨rfl, inside, rfl, Nat.zero_le _, .inl ⟨rfl, rfl⟩, ?_, ?_⟩, rfl, rfl, rfl, rfl⟩
    · rw [Detokenizer.readAt, take_zero, lawful.empty]
      exact String.toList_eq_nil_iff.mpr undecoded
    · rw [Detokenizer.readAt, take_zero, lawful.empty]
      exact fun last => nomatch last
  · rw [ids, cur, offset, status, promptTail, whole]
    dsimp only
    rw [append_assoc, Detokenizer.take_split (le.trans longer), length]
    have rest : (tail ++ out.take n).drop (tail ++ out.take m).length = (out.take n).drop m := by
      rw [← Detokenizer.take_split (le.trans longer), ← append_assoc, drop_left, Detokenizer.take_split (le.trans longer)]
    rw [rest]
    exact ⟨ready.le.trans le, ready.more (le.trans longer) inside, sentOffset, rfl, rfl, rfl⟩

theorem text_append (versions : List (List Char)) (version : List Char) :
    received versions ++ version.drop (lastLength versions) = received (versions ++ [version]) := by
  unfold received
  rw [increments_append, flatten_append, flatten_singleton]
  rfl

theorem Inv.of_running (inv : p.Inv d tail out) {token : Int} (running : (p.request.req.extend [token]).Running)
    (start : (p.request.req.extend [token]).outputIds <+: out) :
    Inv d tail out { p with request := { p.request with req := p.request.req.extend [token] } } := by
  have longer : p.request.req.outputIds.length ≤ (p.request.req.extend [token]).outputIds.length := (prefix_append _ _).length_le
  refine { inv with running := running, start := start, fixed := ?_, bound := ?_, sent := ?_ }
  · exact fun version mem n le => inv.fixed version mem n (longer.trans le)
  · exact fun n mem => (inv.bound n mem).trans longer
  · exact inv.sent.imp id (fun ⟨m, s, le, rest⟩ => ⟨m, s, le.trans longer, rest⟩)

section
variable (lawful : d.LawfulOn out tail) (inv : p.Inv d tail out)
include lawful inv

theorem Inv.output_running {token : Int} (running : (p.request.req.extend [token]).Running)
    (start : (p.request.req.extend [token]).outputIds <+: out) :
    Inv d tail out (p.output d { p.request with req := p.request.req.extend [token] }) := by
  let next := p.request.req.extend [token]
  have unfinished : next.finished = false := by
    unfold Req.finished
    rw [running.unfinished]
    rfl
  have whole : next.outputIdsThroughStop = out.take next.outputIds.length := by
    unfold Req.outputIdsThroughStop
    rw [running.uncut]
    exact prefix_iff_eq_take.mp start
  have longer : p.request.req.outputIds.length ≤ next.outputIds.length := (prefix_append _ _).length_le
  unfold output StreamReq.streamOutput
  rw [unfinished, if_neg Bool.false_ne_true]
  by_cases sends : StreamReq.shouldOutput { p.request with req := p.request.req.extend [token] } = true
  · rw [if_pos sends]
    obtain ⟨read, ready, sentOffset, request, reason, _⟩ :=
      inv.send lawful _ p.request.finishedOutput rfl running.undecoded whole longer start.length_le
    dsimp only
    rw [Detokenizer.decodeTokenIdOutput, reason, running.unfinished]
    obtain ⟨s', same, ready', sentOffset'⟩ := ready.advance_running lawful (StreamReq.send _).2.noStopTrim
    rw [same, request]
    dsimp only [Option.isNone]
    rw [if_pos rfl]
    refine ⟨running, inv.promptTail, inv.notOutput, ?_, start, ?_, fun other mem n le => ?_, ?_, ?_,
      .inr ⟨next.outputIds.length, s', Nat.le_refl _, rfl, rfl, rfl, rfl, ?_, ?_⟩⟩
    · rw [inv.text, sentOffset]
      exact text_append _ _
    · rw [Detokenizer.textsAt_append, ← inv.texts]
    · rcases mem_append.mp mem with old | new
      · exact inv.fixed other old n (longer.trans le)
      · rw [mem_singleton.mp new]
        exact lawful.textAt_start ready.settled ready.le le
    · refine pairwise_append.mpr ⟨inv.sorted, pairwise_singleton _ _, fun n here m there => ?_⟩
      rw [mem_singleton.mp there]
      exact (inv.bound n here).trans longer
    · intro n mem
      rcases mem_append.mp mem with old | new
      · exact (inv.bound n old).trans longer
      · exact (mem_singleton.mp new).le
    · rw [Detokenizer.readAt_append]
      exact ready'
    · rw [sentOffset', lastLength, getLast?_concat]
      rfl
  · rw [if_neg sends]
    exact inv.of_running running start

theorem Inv.output_finished {req : Req} (finishes : p.request.req.Finishes req) (whole : req.outputIdsThroughStop = out) :
    Done d out (p.output d { p.request with req := req }) := by
  obtain ⟨reason, found⟩ := Option.isSome_iff_exists.mp finishes.finished
  have longer : p.request.req.outputIds.length ≤ out.length := by
    rw [← whole]
    exact finishes.keeps.length_le
  have stop : (∃ matched, some reason = some (.matchedToken matched)) → p.request.req.outputIds.length < out.length := by
    rintro ⟨matched, token⟩
    rw [← whole]
    exact finishes.stop ⟨matched, found.trans token⟩
  unfold output StreamReq.streamOutput
  rw [if_pos finishes.finished, inv.notOutput, if_neg Bool.false_ne_true]
  dsimp only
  have cut : ({ req with finishedLen := some (req.finishedLen.getD req.outputIds.length) } : Req).outputIdsThroughStop = out.take out.length := by
    rw [take_length, ← whole]
    unfold Req.outputIdsThroughStop
    cases req.finishedLen with
    | none => exact take_length
    | some n => rfl
  obtain ⟨read, ready, sentOffset, request, sameReason, noStopTrim⟩ :=
    inv.send lawful { req with finishedLen := some (req.finishedLen.getD req.outputIds.length) } true rfl finishes.undecoded cut longer
      (Nat.le_refl _)
  rw [Detokenizer.decodeTokenIdOutput, sameReason.trans found, noStopTrim]
  obtain ⟨version, same, trimmed⟩ := ready.advance_finished lawful p.request.noStopTrim (fun token => read.trans_lt (stop token))
  have final : version = Pipeline.final d
      { p with request := { p.request with req := { req with finishedLen := some (req.finishedLen.getD req.outputIds.length) } } } := by
    unfold Pipeline.final
    dsimp only
    rw [cut, found]
    exact trimmed
  rw [same, request]
  dsimp only [Option.isNone]
  rw [if_neg Bool.false_ne_true]
  refine ⟨finishes.finished, ?_, ?_,
    ⟨d.decode (trimIds d.isToolCallParserGptOss p.request.noStopTrim (some reason) (out.take out.length)), ?_⟩, inv.sorted⟩
  · rw [final, inv.texts]
    rfl
  · rw [inv.text, sentOffset]
    exact text_append _ _
  · intro other mem
    rcases mem_append.mp mem with old | new
    · rcases trimIds_cases d.isToolCallParserGptOss p.request.noStopTrim (some reason) (out.take out.length) with all | ⟨token, shorter⟩
      · rw [all]
        exact inv.fixed other old _ longer
      · have less := stop token
        rw [shorter, take_length, dropLast_eq_take]
        exact inv.fixed other old _ (by omega)
    · rw [mem_singleton.mp new, trimmed]
      exact trimText_start _ _ _

end

theorem request_output {request : StreamReq} (running : request.req.finished = false) : (p.output d request).request.req = request.req := by
  unfold output StreamReq.streamOutput
  rw [running, if_neg Bool.false_ne_true]
  split
  · next none =>
    split at none
    · cases none
    · cases none
      rfl
  · next sends =>
    split at sends
    · cases sends
      rfl
    · cases sends

theorem through_output {request : StreamReq} (finished : request.req.finished = true) :
    (p.output d request).request.req.outputIdsThroughStop = request.req.outputIdsThroughStop ∧
      (p.output d request).request.req.finished = true := by
  have cut : ({ request.req with finishedLen := some (request.req.finishedLen.getD request.req.outputIds.length) } : Req).outputIdsThroughStop =
      request.req.outputIdsThroughStop := by
    unfold Req.outputIdsThroughStop
    cases request.req.finishedLen with
    | none => exact take_length
    | some n => rfl
  unfold output StreamReq.streamOutput
  rw [if_pos finished]
  split
  · next none =>
    split at none
    · cases none
      exact ⟨rfl, finished⟩
    · cases none
  · next sends =>
    split at sends
    · cases sends
    · cases sends
      exact ⟨cut, finished⟩

theorem run_finished (finished : p.request.req.finished = true) (tokens : List Int) : p.run search d tokens = p := by
  unfold run
  induction tokens with
  | nil => rfl
  | cons token tokens ih =>
    have stays : p.step search d token = p := if_pos finished
    rw [foldl_cons, stays, ih]

theorem outputIds_run (running : p.request.req.Running) {tokens : List Int} (finished : (p.run search d tokens).request.req.finished = true) :
    p.request.req.outputIds <+: (p.run search d tokens).request.req.outputIdsThroughStop := by
  induction tokens generalizing p with
  | nil =>
    unfold run Req.finished at finished
    rw [foldl_nil, running.unfinished] at finished
    cases finished
  | cons token tokens ih =>
    change ((p.step search d token).run search d tokens).request.req.finished = true at finished
    change _ <+: ((p.step search d token).run search d tokens).request.req.outputIdsThroughStop
    have live : p.request.req.finished = false := by
      unfold Req.finished
      rw [running.unfinished]
      rfl
    have step : p.step search d token = p.output d { p.request with req := (p.request.req.extend [token]).checkFinished search 1 } := by
      unfold Pipeline.step
      rw [live, if_neg Bool.false_ne_true]
    rw [step] at finished ⊢
    rcases running.checkFinished search token with ⟨same, running'⟩ | finishes
    · rw [same] at finished ⊢
      have req : (p.output d { p.request with req := p.request.req.extend [token] }).request.req = p.request.req.extend [token] := by
        refine request_output ?_
        unfold Req.finished
        rw [running'.unfinished]
        rfl
      have later := @ih (p.output d { p.request with req := p.request.req.extend [token] }) (by rw [req]; exact running') finished
      rw [req] at later
      exact (prefix_append _ _).trans later
    · obtain ⟨through, ended⟩ := @through_output d p { p.request with req := (p.request.req.extend [token]).checkFinished search 1 } finishes.finished
      rw [run_finished ended, through]
      exact finishes.keeps

theorem Inv.step (lawful : d.LawfulOn out tail) (inv : p.Inv d tail out) (token : Int) {rest : List Int}
    (finished : ((p.step search d token).run search d rest).request.req.finished = true)
    (whole : ((p.step search d token).run search d rest).request.req.outputIdsThroughStop = out) :
    Inv d tail out (p.step search d token) ∨ Done d out (p.step search d token) := by
  have step : p.step search d token = p.output d { p.request with req := (p.request.req.extend [token]).checkFinished search 1 } := by
    unfold Pipeline.step Req.finished
    rw [inv.running.unfinished]
    exact if_neg Bool.false_ne_true
  rw [step] at finished whole ⊢
  rcases inv.running.checkFinished search token with ⟨same, running⟩ | finishes
  · rw [same] at finished whole ⊢
    have req : (p.output d { p.request with req := p.request.req.extend [token] }).request.req = p.request.req.extend [token] := by
      refine request_output ?_
      unfold Req.finished
      rw [running.unfinished]
      rfl
    have later := @outputIds_run search d (p.output d { p.request with req := p.request.req.extend [token] })
        (by rw [req]; exact running) rest finished
    rw [req, whole] at later
    exact .inl (inv.output_running lawful running later)
  · obtain ⟨through, ended⟩ := @through_output d p { p.request with req := (p.request.req.extend [token]).checkFinished search 1 } finishes.finished
    rw [run_finished ended, through] at whole
    exact .inr (inv.output_finished lawful finishes whole)

theorem versions_output (request : StreamReq) : p.versions <+: (p.output d request).versions := by
  unfold output
  split
  · exact prefix_refl _
  · exact prefix_append _ _

theorem versions_run (search : String → String → Bool) (tokens : List Int) : p.versions <+: (p.run search d tokens).versions := by
  unfold run
  induction tokens generalizing p with
  | nil => exact prefix_refl _
  | cons token tokens ih =>
    refine List.IsPrefix.trans ?_ ih
    unfold Pipeline.step
    split
    · exact prefix_refl _
    · exact versions_output _

theorem run_append (tokens more : List Int) : p.run search d (tokens ++ more) = (p.run search d tokens).run search d more := foldl_append

theorem Inv.run (lawful : d.LawfulOn out tail) (inv : p.Inv d tail out) (tokens : List Int) {rest : List Int}
    (finished : (p.run search d (tokens ++ rest)).request.req.finished = true)
    (whole : (p.run search d (tokens ++ rest)).request.req.outputIdsThroughStop = out) :
    Inv d tail out (p.run search d tokens) ∨ Done d out (p.run search d tokens) := by
  induction tokens using reverseRecOn generalizing rest with
  | nil => exact .inl inv
  | append_singleton tokens token ih =>
    have same : p.run search d (tokens ++ [token]) = (p.run search d tokens).step search d token := run_append tokens [token]
    rw [run_append, same] at finished whole
    rw [same]
    rcases @ih (token :: rest) (by rw [run_append]; exact finished) (by rw [run_append]; exact whole) with inv | done
    · exact inv.step lawful token finished whole
    · have stays : (p.run search d tokens).step search d token = p.run search d tokens := if_pos done.finished
      rw [stays]
      exact .inr done

end

structure Fresh (r : StreamReq) : Prop where
  outputIds : r.req.outputIds = []
  finishedReason : r.req.finishedReason = none
  finishedLen : r.req.finishedLen = none
  decodedText : r.req.decodedText = ""
  finishedOutput : r.finishedOutput = false
  surrAndDecodeIds : r.surrAndDecodeIds = none
  sendDecodeIdOffset : r.sendDecodeIdOffset = 0

theorem Fresh.inv (d : Detokenizer) {r : StreamReq} (fresh : Fresh r) (out : List Int) : Inv d r.promptTail out { request := r } where
  running := ⟨fresh.finishedReason, fresh.finishedLen, fresh.decodedText, .inl fresh.outputIds⟩
  promptTail := rfl
  notOutput := fresh.finishedOutput
  text := rfl
  start := by
    rw [show ({ request := r } : Pipeline).request.req.outputIds = [] from fresh.outputIds]
    exact nil_prefix
  texts := rfl
  fixed := fun _ mem => absurd mem not_mem_nil
  sorted := .nil
  bound := fun _ mem => absurd mem not_mem_nil
  sent := .inl ⟨fresh.surrAndDecodeIds, fresh.sendDecodeIdOffset, rfl, rfl⟩

/-- Where the windows of the detokenizer add what the output adds, the client ends up with the trimmed text, and takes nothing back, exactly if no
batch that ends inside a character shows less than the one before it, and the trimmed text has all that was shown. -/
theorem text_whole_iff {d : Detokenizer} (search : String → String → Bool) {r : StreamReq} (fresh : Fresh r) {tokens : List Int}
    (finished : (run search d { request := r } tokens).request.req.finished = true)
    (lawful : d.LawfulOn (run search d { request := r } tokens).request.req.outputIdsThroughStop r.promptTail) :
    ((run search d { request := r } tokens).text = (run search d { request := r } tokens).final d ∧
      ∀ k, (run search d { request := r } (tokens.take k)).text <+: (run search d { request := r } tokens).final d) ↔
      d.Keeps (run search d { request := r } tokens).request.req.outputIdsThroughStop ((run search d { request := r } tokens).final d) 0 0
        (run search d { request := r } tokens).ends := by
  have start := fresh.inv d (run search d { request := r } tokens).request.req.outputIdsThroughStop
  have states (k : Nat) : (run search d { request := r } (tokens.take k)).text =
      received (run search d { request := r } (tokens.take k)).versions := by
    have whole : tokens.take k ++ tokens.drop k = tokens := take_append_drop k tokens
    rcases start.run lawful (tokens.take k) (by rw [whole]; exact finished) (by rw [whole]) with inv | done
    · exact inv.text
    · exact done.text
  rcases @Inv.run search d _ _ _ lawful start tokens [] (by rw [append_nil]; exact finished) (by rw [append_nil]) with inv | done
  · unfold Req.finished at finished
    rw [inv.running.unfinished] at finished
    cases finished
  have empty : (d.decode (List.take 0 (run search d { request := r } tokens).request.req.outputIdsThroughStop)).length + 0 = 0 := by
    rw [take_zero, lawful.empty]
    rfl
  have keeps := @Detokenizer.LawfulOn.grows_iff d _ _ 0 lawful ((run search d { request := r } tokens).final d) _ 0
    (by rw [take_zero, lawful.empty]; exact fun last => nomatch last) (fun n _ => Nat.zero_le n) done.sorted
      (fun n _ => by rw [empty]; exact Nat.zero_le _)
  rw [empty] at keeps
  have last := done.last
  obtain ⟨_, one⟩ := done.one
  rw [done.text, ← keeps]
  rw [last] at one ⊢
  refine ⟨fun ⟨same, _⟩ => (received_eq_iff one).mp same, fun grows => ⟨(received_eq_iff one).mpr grows, fun k => ?_⟩⟩
  rw [states]
  have sent := versions_run (p := run search d { request := r } (tokens.take k)) (d := d) search (tokens.drop k)
  rw [← run_append, take_append_drop, last] at sent
  rcases List.prefix_concat_iff.mp sent with all | ⟨_, split⟩
  · rw [all, (received_eq_iff one).mpr grows]
  · rw [← split] at one grows
    exact received_le one grows

def bytewise : Detokenizer := ⟨fun ids => Utf8.lossy (ids.map (·.toNat.toUInt8)), false⟩

theorem bytewise_lawful : bytewise.Lawful where
  empty := rfl
  joins := fun ids more settled => by
    change Utf8.lossy ((ids ++ more).map _) = _
    rw [map_append]
    exact Utf8.lossy_settled settled _
  keeps := fun ids more => by
    change _ <+: Utf8.lossy ((ids ++ more).map _)
    rw [map_append]
    exact Utf8.stem_lossy _ _

def limited (maxNewTokens streamInterval : Nat) : StreamReq where
  req :=
    { samplingParams := ⟨maxNewTokens, [], false, [], [], 0, 0⟩
      eosTokenIds := []
      tokenizer := none
      vocabSize := 256
      grammar := none
      outputIds := []
      decodedText := ""
      toFinish := none
      finishedReason := none
      finishedLen := none }
  originInputIdsUnpadded := [0x68, 0x69]
  stream := true
  streamInterval := streamInterval
  noStopTrim := false

theorem limited_fresh (maxNewTokens streamInterval : Nat) : Fresh (limited maxNewTokens streamInterval) := ⟨rfl, rfl, rfl, rfl, rfl, rfl, rfl⟩

theorem limited_settled (maxNewTokens streamInterval : Nat) : Settled (bytewise.decode (limited maxNewTokens streamInterval).promptTail) := by
  change Settled (Utf8.lossy [0x68, 0x69])
  unfold Settled
  decide +kernel

/-- The second and the third batch end inside a character, and the third shows more than the second. -/
theorem text_whole_words : let tokens : List Int := [0x41, 0x20, 0x42, 0xC3, 0xA9, 0x20, 0xC3, 0xA9, 0x41, 0x41]
    let p := run (fun _ _ => false) bytewise { request := limited 10 3 } tokens
    p.ends = [1, 4, 7] ∧ p.versions.map String.ofList = ["A", "A ", "A Bé ", "A Bé éAA"] ∧ p.text = p.final bytewise ∧
      ∀ k, (run (fun _ _ => false) bytewise { request := limited 10 3 } (tokens.take k)).text <+: p.final bytewise := by
  intro tokens p
  have finished : p.request.req.finished = true := by decide +kernel
  have lawful := bytewise_lawful.on (limited_settled 10 3) p.request.req.outputIdsThroughStop
  exact ⟨by decide +kernel, by decide +kernel, (text_whole_iff _ (limited_fresh 10 3) finished lawful).mpr (by decide +kernel)⟩

/-- The character is printable while one byte follows: the client gets it twice. -/
theorem text_repeated :
    let p := run (fun _ _ => false) bytewise { request := limited 10 3 } [0xE4, 0xB8, 0xAD, 0xC3, 0xA9, 0x41, 0xC3, 0xA9, 0x41, 0x41]
    (∀ ids more, bytewise.decode ids <+: bytewise.decode (ids ++ more) ∨ (bytewise.decode ids).getLast? = some Utf8.replacement) ∧
      p.request.req.finished = true ∧ p.final bytewise = "中éAéAA".toList ∧ p.text = "中中éAéAA".toList := by
  refine ⟨fun ids more => ?_, ?_, ?_, ?_⟩
  · by_cases cut : (bytewise.decode ids).getLast? = some Utf8.replacement
    · exact .inr cut
    · rw [bytewise_lawful.joins ids more cut]
      exact .inl (prefix_append _ _)
  all_goals decide +kernel

end Pipeline

end TriaxialKV.Finish
