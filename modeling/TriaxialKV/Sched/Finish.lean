import Mathlib.Data.List.Infix

/-! # When a request finishes -/

namespace TriaxialKV.Finish
open List

inductive FinishReason where
  | matchedToken (matched : Int)
  | matchedStr (matched : String)
  | matchedRegex (matched : String)
  | length (length : Nat)
  | abort (message : String)
  deriving DecidableEq

structure Tokenizer where
  eosTokenId : Option Int
  additionalStopTokenIds : List Int
  decode : List Int → String

structure SamplingParams where
  maxNewTokens : Nat
  stopTokenIds : List Int
  ignoreEos : Bool
  stopStrs : List String
  stopRegexStrs : List String
  stopStrMaxLen : Nat
  stopRegexMaxLen : Nat

/-- `grammar` is whether the grammar, if there is one, has terminated. -/
structure Req where
  samplingParams : SamplingParams
  eosTokenIds : List Int
  tokenizer : Option Tokenizer
  vocabSize : Nat
  grammar : Option Bool
  outputIds : List Int
  decodedText : String
  toFinish : Option FinishReason
  finishedReason : Option FinishReason
  finishedLen : Option Nat

namespace Req

def finished (r : Req) : Bool := r.finishedReason.isSome

def outputIdsThroughStop (r : Req) : List Int :=
  match r.finishedLen with
  | some n => r.outputIds.take n
  | none => r.outputIds

def isStop (r : Req) (tokenId : Int) : Bool :=
  decide (tokenId ∈ r.samplingParams.stopTokenIds) || decide (tokenId ∈ r.eosTokenIds) || match r.tokenizer with
    | none => false
    | some tokenizer => decide (tokenizer.eosTokenId = some tokenId) || decide (tokenId ∈ tokenizer.additionalStopTokenIds)

def finishAt (r : Req) (reason : FinishReason) (len : Nat) : Req :=
  { r with finishedReason := some reason, finishedLen := some len }

/-- The checks give the finished request, if they finish it. -/
def checkTokenBasedFinish (r : Req) (newAcceptedTokens : List Int) : Option Req :=
  if r.samplingParams.ignoreEos then none else
  match newAcceptedTokens.findIdx? r.isStop with
  | none => none
  | some i =>
    let matchedPos := r.outputIds.length - newAcceptedTokens.length + i
    some (r.finishAt (.matchedToken newAcceptedTokens[i]!) (matchedPos + 1))

def checkVocabBoundaryFinish (r : Req) (newAcceptedTokens : List Int) : Option Req :=
  match newAcceptedTokens.findIdx? (fun tokenId : Int => tokenId > r.vocabSize || tokenId < 0) with
  | none => none
  | some i =>
    let offset := r.outputIds.length - newAcceptedTokens.length + i
    let replace (ids stops : List Int) := match stops with
      | [] => ids
      | stop :: _ => ids.set offset stop
    let outputIds := replace (replace r.outputIds r.samplingParams.stopTokenIds) r.eosTokenIds
    some ({ r with outputIds := outputIds }.finishAt (.matchedStr "NaN happened") (offset + 1))

def tailStr (r : Req) : String :=
  if r.samplingParams.stopStrs = [] ∧ r.samplingParams.stopRegexStrs = [] then "" else
  let tailLen := min (max (r.samplingParams.stopStrMaxLen + 1) (r.samplingParams.stopRegexMaxLen + 1)) r.outputIds.length
  match r.tokenizer with
  | none => ""
  | some tokenizer => tokenizer.decode (r.outputIds.drop (r.outputIds.length - tailLen))

def occursIn (part whole : String) : Bool := decide (part.toList <:+: whole.toList)

/-- `search` is `re.search`. -/
def checkStrBasedFinish (search : String → String → Bool) (r : Req) : Option Req :=
  let tail := r.tailStr
  match r.samplingParams.stopStrs.find? (fun stop => occursIn stop tail || occursIn stop r.decodedText) with
  | some stop => some { r with finishedReason := some (.matchedStr stop) }
  | none =>
    match r.samplingParams.stopRegexStrs.find? (fun regex => search regex tail) with
    | some regex => some { r with finishedReason := some (.matchedRegex regex) }
    | none => none

def checkFinished (search : String → String → Bool) (r : Req) (newAcceptedLen : Nat) : Req :=
  if r.finished then r else
  match r.toFinish with
  | some reason => { r with finishedReason := some reason, toFinish := none }
  | none =>
    let limit := r.samplingParams.maxNewTokens
    if r.outputIds.length ≥ limit then r.finishAt (.length limit) limit
    else if r.grammar = some true then { r with finishedReason := some (.matchedToken (r.outputIds.getLastD 0)) }
    else
      let newAcceptedTokens := r.outputIds.drop (r.outputIds.length - newAcceptedLen)
      ((r.checkTokenBasedFinish newAcceptedTokens).orElse (fun _ =>
        (r.checkVocabBoundaryFinish newAcceptedTokens).orElse (fun _ => r.checkStrBasedFinish search))).getD r

def extend (r : Req) (tokens : List Int) : Req := { r with outputIds := r.outputIds ++ tokens }

/-- The finish check of `process_batch_result_decode` with the tokens of the second speculative path. -/
def acceptAll (search : String → String → Bool) (r : Req) (tokens : List Int) : Req := (r.extend tokens).checkFinished search tokens.length

/-- The loop of `EagleVerifyInput.verify` over the accepted tokens of a request. -/
def acceptEach (search : String → String → Bool) (r : Req) : List Int → Req
  | [] => r
  | token :: tokens =>
    let r := (r.extend [token]).checkFinished search 1
    if r.finished then r else acceptEach search r tokens

/-- An unfinished request without grammar, stop strings, stop patterns or a pending abort. -/
structure Plain (r : Req) : Prop where
  unfinished : r.finishedReason = none
  uncut : r.finishedLen = none
  notPending : r.toFinish = none
  grammar : r.grammar = none
  stopStrs : r.samplingParams.stopStrs = []
  stopRegexStrs : r.samplingParams.stopRegexStrs = []

def InVocab (r : Req) (tokens : List Int) : Prop := ∀ token ∈ tokens, 0 ≤ token ∧ token ≤ r.vocabSize

def outcome (r : Req) : Option FinishReason × List Int := (r.finishedReason, r.outputIdsThroughStop)

def stops (r : Req) (tokens : List Int) : Option Nat :=
  if r.samplingParams.ignoreEos then none else tokens.findIdx? r.isStop

section
variable {search : String → String → Bool} {r : Req} {tokens : List Int}

theorem Plain.extend (plain : r.Plain) (tokens : List Int) : (r.extend tokens).Plain :=
  { plain with }

theorem Plain.outcome_eq (plain : r.Plain) : r.outcome = (none, r.outputIds) := by
  unfold outcome outputIdsThroughStop
  rw [plain.unfinished, plain.uncut]

theorem vocabFinish_eq (inside : r.InVocab tokens) : r.checkVocabBoundaryFinish tokens = none := by
  have none : tokens.findIdx? (fun tokenId : Int => decide (tokenId > r.vocabSize) || decide (tokenId < 0)) = none := by
    rw [findIdx?_eq_none_iff]
    intro token mem
    have := inside token mem
    simp only [Bool.or_eq_false_iff, decide_eq_false_iff_not]
    omega
  unfold checkVocabBoundaryFinish
  rw [none]

theorem Plain.strFinish_eq (plain : r.Plain) : r.checkStrBasedFinish search = none := by
  unfold checkStrBasedFinish
  rw [plain.stopStrs, plain.stopRegexStrs]
  rfl

theorem Plain.checkFinished_eq (plain : r.Plain) {len : Nat} (inside : r.InVocab (r.outputIds.drop (r.outputIds.length - len))) :
    r.checkFinished search len = if r.samplingParams.maxNewTokens ≤ r.outputIds.length then
        r.finishAt (.length r.samplingParams.maxNewTokens) r.samplingParams.maxNewTokens
      else (r.checkTokenBasedFinish (r.outputIds.drop (r.outputIds.length - len))).getD r := by
  unfold checkFinished finished
  rw [plain.unfinished, plain.notPending]
  dsimp only [Option.isSome]
  rw [if_neg Bool.false_ne_true, plain.grammar, if_neg (by simp : ¬ none = some true), vocabFinish_eq inside,
    plain.strFinish_eq]
  cases r.checkTokenBasedFinish (r.outputIds.drop (r.outputIds.length - len)) <;> rfl

theorem Plain.acceptAll_eq (plain : r.Plain) (inside : r.InVocab tokens) : r.acceptAll search tokens =
      if r.samplingParams.maxNewTokens ≤ r.outputIds.length + tokens.length then
        (r.extend tokens).finishAt (.length r.samplingParams.maxNewTokens) r.samplingParams.maxNewTokens
      else match r.stops tokens with
        | some i => (r.extend tokens).finishAt (.matchedToken tokens[i]!) (r.outputIds.length + i + 1)
        | none => r.extend tokens := by
  have length : (r.extend tokens).outputIds.length = r.outputIds.length + tokens.length := length_append
  have window : (r.extend tokens).outputIds.drop (r.outputIds.length + tokens.length - tokens.length) = tokens := by
    rw [Nat.add_sub_cancel]
    exact drop_left
  unfold acceptAll
  rw [(plain.extend tokens).checkFinished_eq (by rw [length, window]; exact inside), length, window]
  refine if_congr Iff.rfl rfl ?_
  unfold checkTokenBasedFinish stops
  rw [length, Nat.add_sub_cancel]
  change (if r.samplingParams.ignoreEos = true then none else match tokens.findIdx? r.isStop with
    | none => none
    | some i => some ((r.extend tokens).finishAt (.matchedToken tokens[i]!) (r.outputIds.length + i + 1))).getD _ = _
  cases r.samplingParams.ignoreEos with
  | true => rfl
  | false =>
    rw [if_neg Bool.false_ne_true, if_neg Bool.false_ne_true]
    cases tokens.findIdx? r.isStop <;> rfl

theorem stops_cons (r : Req) (token : Int) (tokens : List Int) : r.stops (token :: tokens) =
      if r.samplingParams.ignoreEos = false ∧ r.isStop token = true then some 0 else (r.stops tokens).map (· + 1) := by
  unfold stops
  cases r.samplingParams.ignoreEos with
  | true => simp
  | false => simp [findIdx?_cons]

theorem stops_eq_none_iff : r.stops tokens = none ↔ r.samplingParams.ignoreEos = true ∨ ∀ token ∈ tokens, r.isStop token = false := by
  unfold stops
  cases r.samplingParams.ignoreEos with
  | true => simp
  | false => simp [findIdx?_eq_none_iff]

theorem finishAt_outcome (r : Req) (reason : FinishReason) (len : Nat) : (r.finishAt reason len).outcome = (some reason, r.outputIds.take len) := rfl

theorem Plain.acceptEach_cons (plain : r.Plain) {token : Int} (inside : r.InVocab [token]) (tokens : List Int) :
    r.acceptEach search (token :: tokens) = if r.samplingParams.maxNewTokens ≤ r.outputIds.length + 1 then
        (r.extend [token]).finishAt (.length r.samplingParams.maxNewTokens) r.samplingParams.maxNewTokens
      else if r.samplingParams.ignoreEos = false ∧ r.isStop token = true then
        (r.extend [token]).finishAt (.matchedToken token) (r.outputIds.length + 1)
      else (r.extend [token]).acceptEach search tokens := by
  have step : r.acceptEach search (token :: tokens) = if (r.acceptAll search [token]).finished then r.acceptAll search [token]
      else (r.acceptAll search [token]).acceptEach search tokens := rfl
  have one : r.acceptAll search [token] = _ := plain.acceptAll_eq inside
  have unseen : r.stops [] = none := stops_eq_none_iff.mpr (.inr (by simp))
  rw [length_singleton, stops_cons, unseen] at one
  split
  · next full =>
    rw [if_pos full] at one
    rw [step, one]
    rfl
  · next room =>
    rw [if_neg room] at one
    split
    · next stop =>
      rw [if_pos stop] at one
      rw [step, one]
      rfl
    · next other =>
      rw [if_neg other] at one
      have running : (r.acceptAll search [token]).finished = false := by
        rw [one]
        exact congrArg Option.isSome plain.unfinished
      rw [step, if_neg (by rw [running]; exact Bool.false_ne_true), one]
      rfl

theorem Plain.acceptEach_outcome (plain : r.Plain) (inside : r.InVocab tokens) : (r.acceptEach search tokens).outcome =
      match r.stops (tokens.take (r.samplingParams.maxNewTokens - r.outputIds.length - 1)) with
      | some i => (some (.matchedToken tokens[i]!), r.outputIds ++ tokens.take (i + 1))
      | none =>
        if tokens ≠ [] ∧ r.samplingParams.maxNewTokens ≤ r.outputIds.length + tokens.length then
          (some (.length r.samplingParams.maxNewTokens), (r.outputIds ++ tokens).take r.samplingParams.maxNewTokens)
        else (none, r.outputIds ++ tokens) := by
  induction tokens generalizing r with
  | nil =>
    rw [acceptEach, plain.outcome_eq, take_nil, stops_eq_none_iff.mpr (.inr (by simp)), append_nil]
    rfl
  | cons token tokens ih =>
    have here : r.InVocab [token] := fun x mem => inside x (mem_singleton.mp mem ▸ mem_cons_self)
    have ids : (r.extend [token]).outputIds = r.outputIds ++ [token] := rfl
    have more : r.outputIds ++ token :: tokens = r.outputIds ++ [token] ++ tokens := by simp
    rw [plain.acceptEach_cons here, more]
    split
    · next full =>
      rw [show r.samplingParams.maxNewTokens - r.outputIds.length - 1 = 0 by omega, take_zero, stops_eq_none_iff.mpr (.inr (by simp))]
      have cut : (r.outputIds ++ [token] ++ tokens).take r.samplingParams.maxNewTokens =
          (r.outputIds ++ [token]).take r.samplingParams.maxNewTokens := take_append_of_le_length (by simpa using full)
      rw [if_pos ⟨cons_ne_nil _ _, by rw [length_cons]; omega⟩, finishAt_outcome, ids, cut]
    · next room =>
      rw [show r.samplingParams.maxNewTokens - r.outputIds.length - 1 =
        r.samplingParams.maxNewTokens - (r.outputIds.length + 1) - 1 + 1 by omega, take_succ_cons, stops_cons]
      split
      · rw [finishAt_outcome, ids, take_of_length_le (by simp)]
        rfl
      · have later := ih (plain.extend [token]) (fun x mem => inside x (mem_cons_of_mem _ mem))
        have same : (tokens ≠ [] ∧ r.samplingParams.maxNewTokens ≤ r.outputIds.length + 1 + tokens.length) ↔
            (token :: tokens ≠ [] ∧ r.samplingParams.maxNewTokens ≤ r.outputIds.length + (token :: tokens).length) := by
          cases tokens with
          | nil => simpa using room
          | cons => simp only [ne_eq, reduceCtorEq, not_false_eq_true, true_and, length_cons]; omega
        have length : (r.outputIds ++ [token]).length = r.outputIds.length + 1 := by simp
        rw [ids, length, show (r.extend [token]).samplingParams = r.samplingParams from rfl,
          show (r.extend [token]).stops = r.stops from rfl] at later
        rw [later, ← if_congr same rfl rfl]
        cases r.stops (tokens.take (r.samplingParams.maxNewTokens - (r.outputIds.length + 1) - 1)) with
        | some i => simp
        | none => rfl

/-- Accepting all tokens at once ends like accepting them one by one just when no stop token comes
before the token that reaches the limit. -/
theorem acceptAll_eq_acceptEach_iff (search : String → String → Bool) {r : Req} {tokens : List Int} (plain : r.Plain)
    (nonempty : tokens ≠ []) (inside : r.InVocab tokens) :
    (r.acceptAll search tokens).outcome = (r.acceptEach search tokens).outcome ↔
      (r.samplingParams.maxNewTokens ≤ r.outputIds.length + tokens.length → r.samplingParams.ignoreEos = false →
        ∀ token ∈ tokens.take (r.samplingParams.maxNewTokens - r.outputIds.length - 1), r.isStop token = false) := by
  rw [plain.acceptEach_outcome inside, plain.acceptAll_eq inside]
  by_cases full : r.samplingParams.maxNewTokens ≤ r.outputIds.length + tokens.length
  · rw [if_pos full, finishAt_outcome]
    cases found : r.stops (tokens.take (r.samplingParams.maxNewTokens - r.outputIds.length - 1)) with
    | none =>
      rw [if_pos ⟨nonempty, full⟩]
      refine ⟨fun _ _ heeds => ?_, fun _ => rfl⟩
      exact (stops_eq_none_iff.mp found).resolve_left (by rw [heeds]; exact Bool.false_ne_true)
    | some i =>
      refine ⟨fun same => (by cases (Prod.mk.inj same).1), fun absent => ?_⟩
      have none : r.stops (tokens.take (r.samplingParams.maxNewTokens - r.outputIds.length - 1)) = none := by
        refine stops_eq_none_iff.mpr ?_
        cases ignores : r.samplingParams.ignoreEos with
        | true => exact .inl rfl
        | false => exact .inr (absent full ignores)
      rw [none] at found
      cases found
  · rw [if_neg full, take_of_length_le (by omega)]
    refine ⟨fun _ impossible => absurd impossible full, fun _ => ?_⟩
    cases found : r.stops tokens with
    | none =>
      rw [if_neg (fun both => full both.2), (plain.extend tokens).outcome_eq]
      rfl
    | some i =>
      rw [finishAt_outcome, Nat.add_assoc]
      exact congrArg _ (take_length_add_append _)

end

def fresh (maxNewTokens : Nat) : Req := ⟨⟨maxNewTokens, [7], false, [], [], 0, 0⟩, [], none, 100, none, [], "", none, none, none⟩

theorem fresh_plain (maxNewTokens : Nat) : (fresh maxNewTokens).Plain := ⟨rfl, rfl, rfl, rfl, rfl, rfl⟩

theorem acceptAll_eq_acceptEach_below_limit : ((fresh 8).Plain ∧ [1, 7, 2] ≠ ([] : List Int) ∧ (fresh 8).InVocab [1, 7, 2]) ∧
      ((fresh 8).acceptAll (fun _ _ => false) [1, 7, 2]).outcome = ((fresh 8).acceptEach (fun _ _ => false) [1, 7, 2]).outcome := by
  have inside : (fresh 8).InVocab [1, 7, 2] := by unfold InVocab; decide
  refine ⟨⟨fresh_plain 8, cons_ne_nil _ _, inside⟩, ?_⟩
  exact (acceptAll_eq_acceptEach_iff _ (fresh_plain 8) (cons_ne_nil _ _) inside).mpr (fun full => absurd full (by decide))

/-- The stop token comes first, and the tokens after it stay visible. -/
theorem acceptAll_past_stop : ((fresh 3).Plain ∧ (fresh 3).InVocab [7, 1, 2]) ∧
      ((fresh 3).acceptAll (fun _ _ => false) [7, 1, 2]).outcome = (some (.length 3), [7, 1, 2]) ∧
        ((fresh 3).acceptEach (fun _ _ => false) [7, 1, 2]).outcome = (some (.matchedToken 7), [7]) := by
  refine ⟨⟨fresh_plain 3, ?_⟩, by decide, by decide⟩
  unfold InVocab
  decide

end Req

end TriaxialKV.Finish
