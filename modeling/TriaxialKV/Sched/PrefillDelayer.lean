import Mathlib.Algebra.Order.Ring.Unbundled.Rat
import TriaxialKV.Lib.Runs

/-!
# Delayed prefills

Passes that only some ranks want are delayed up to a bound; full passes that all ranks want are delayed without one.
-/

namespace TriaxialKV
open List Runs

/-- What a rank passes to `negotiate_should_allow_prefill`. -/
structure NegotiateCall where
  localPrefillable : Bool
  tokenUsage : ℚ
  runningBatch : Int
  maxPrefillBs : Int
  maxRunningRequests : Int

/-- A row of the gathered information. -/
structure GlobalInfo where
  prefillable : Bool
  tokenWatermarkForceAllow : Bool
  runningBatch : Int
  maxPrefillBs : Int

inductive PrefillableStatus where
  | all
  | none
  | mixed
  deriving DecidableEq

inductive OutputReason where
  | noWait
  | waitSuccess
  | delay
  | noPrefill
  | tokenWatermark
  | waitTimeout
  deriving DecidableEq

structure NegotiateOutput where
  inputEstimation : PrefillableStatus
  outputAllow : Bool
  outputReason : OutputReason
  numPrefillable : Nat
  numTokenWatermarkForceAllow : Nat

/-- `currState` is the `delayed_count` of `_curr_state`. -/
structure PrefillDelayer where
  dpSize : Nat
  enableDpAttention : Bool
  maxDelayPasses : Nat
  tokenUsageLowWatermark : Option ℚ
  currState : Option Nat
  skipFirstDelayer : Bool

namespace PrefillDelayer

def localInfo (d : PrefillDelayer) (call : NegotiateCall) : GlobalInfo :=
  ⟨call.localPrefillable, call.localPrefillable && d.tokenUsageLowWatermark.any (call.tokenUsage < ·), call.runningBatch, call.maxPrefillBs⟩

def status (infos : List GlobalInfo) : PrefillableStatus :=
  if infos.all (·.prefillable) then .all else if infos.any (·.prefillable) then .mixed else .none

def largest (f : GlobalInfo → Int) (infos : List GlobalInfo) : Int := ((infos.map f).max?).getD 0

/-- Decoding could not reach the largest batch after a merge with the prefill batch. -/
def full (d : PrefillDelayer) (call : NegotiateCall) (infos : List GlobalInfo) : Bool :=
  let maxRunningRequests := if d.enableDpAttention then call.maxRunningRequests else (call.maxRunningRequests + d.dpSize - 1) / d.dpSize
  maxRunningRequests - largest (·.runningBatch) infos < largest (·.maxPrefillBs) infos

def negotiate (d : PrefillDelayer) (call : NegotiateCall) (infos : List GlobalInfo) : NegotiateOutput × PrefillDelayer :=
  let output (allow : Bool) (reason : OutputReason) : NegotiateOutput :=
    ⟨status infos, allow, reason, infos.countP (·.prefillable), infos.countP (·.tokenWatermarkForceAllow)⟩
  let delay := (output false .delay, { d with currState := some (d.currState.getD 0 + 1) })
  match status infos with
  | .all =>
    if d.full call infos && !d.skipFirstDelayer then delay
    else (output true (if d.currState.isSome then .waitSuccess else .noWait),
      { d with currState := .none, skipFirstDelayer := d.skipFirstDelayer && !d.full call infos })
  | .none => (output true .noPrefill, { d with currState := .none })
  | .mixed =>
    if infos.any (·.tokenWatermarkForceAllow) then (output true .tokenWatermark, { d with currState := .none })
    else if (d.currState.getD 0 : Int) < d.maxDelayPasses - 1 then delay
    else (output true .waitTimeout, { d with currState := .none })

/-- The calls of each rank in one pass; only the first one is negotiated, and `finalize` makes one if there is none. -/
abbrev Pass := Nat → Nat → List NegotiateCall

def Pass.call (pass : Pass) (dp tp : Nat) : NegotiateCall := (pass dp tp).headD ⟨false, 0, 0, 0, 0⟩

/-- The rows of the first tensor-parallel ranks. -/
def gatherInfo (d : PrefillDelayer) (pass : Pass) : List GlobalInfo :=
  (range (if d.enableDpAttention then d.dpSize else 1)).map (fun dp => d.localInfo (pass.call dp 0))

section
variable (dp tp : Nat)

/-- What rank `(dp, tp)` does in a pass. -/
def runPass (d : PrefillDelayer) (pass : Pass) : NegotiateOutput × PrefillDelayer := d.negotiate (pass.call dp tp) (d.gatherInfo pass)

def afterPass (d : PrefillDelayer) (pass : Pass) : PrefillDelayer := (d.runPass dp tp pass).2

def Denied (d : PrefillDelayer) (pass : Pass) : Prop := (d.runPass dp tp pass).1.outputAllow = false

/-- All ranks want a prefill and there is no room for all of it. -/
def Crowded (d : PrefillDelayer) (pass : Pass) : Prop := status (d.gatherInfo pass) = .all ∧ d.full (pass.call dp tp) (d.gatherInfo pass)

variable {dp tp} {d : PrefillDelayer} {pass : Pass}

theorem denied_iff : d.Denied dp tp pass ↔ d.Crowded dp tp pass ∧ d.skipFirstDelayer = false ∨
    status (d.gatherInfo pass) = .mixed ∧ (d.gatherInfo pass).any (·.tokenWatermarkForceAllow) = false ∧
      d.currState.getD 0 + 1 < d.maxDelayPasses := by
  have low : (d.currState.getD 0 : Int) < d.maxDelayPasses - 1 ↔ d.currState.getD 0 + 1 < d.maxDelayPasses := by omega
  unfold Denied Crowded runPass negotiate
  cases status (d.gatherInfo pass) with
  | all => by_cases full : d.full (pass.call dp tp) (d.gatherInfo pass) <;> cases d.skipFirstDelayer <;> simp [full]
  | none => simp
  | mixed =>
    cases (d.gatherInfo pass).any (·.tokenWatermarkForceAllow) with
    | true => simp
    | false => by_cases few : d.currState.getD 0 + 1 < d.maxDelayPasses <;> simp [low, few]

theorem Denied.next (denied : d.Denied dp tp pass) : d.afterPass dp tp pass = { d with currState := some (d.currState.getD 0 + 1) } := by
  unfold afterPass runPass negotiate
  rcases denied_iff.mp denied with ⟨⟨all, full⟩, skipped⟩ | ⟨mixed, calm, few⟩
  · simp [all, full, skipped]
  · have low : (d.currState.getD 0 : Int) < d.maxDelayPasses - 1 := by omega
    simp [mixed, calm, low]

theorem denied_crowded {passes : List Pass} (denied : Guarded (afterPass dp tp) (Denied dp tp) d passes) {i : Nat}
    (here : passes[i]? = some pass) (late : d.maxDelayPasses ≤ d.currState.getD 0 + i + 1) : d.Crowded dp tp pass := by
  induction passes generalizing d i with
  | nil => cases here
  | cons first passes ih =>
    have next := denied.1.next
    cases i with
    | zero =>
      cases here
      rcases denied_iff.mp denied.1 with crowded | mixed
      · exact crowded.1
      · omega
    | succ i =>
      have rest := denied.2
      rw [next] at rest
      have crowded := ih rest here (by simp only [Option.getD_some]; omega)
      exact crowded

end

/-- In a stretch of denied passes only crowded ones come after `max_delay_passes - 1` delays, so without them it is shorter than
`max_delay_passes`; crowded passes are denied without end. -/
theorem delay_bounded {d : PrefillDelayer} (bound : 1 ≤ d.maxDelayPasses) (dp tp : Nat) (passes : List Pass) :
    let denied := Guarded (afterPass dp tp) (Denied dp tp) d passes
    (denied → ∀ i pass, passes[i]? = some pass → d.maxDelayPasses ≤ d.currState.getD 0 + i + 1 → d.Crowded dp tp pass) ∧
      ((∀ pass ∈ passes, ¬ d.Crowded dp tp pass) → denied → passes.length < d.maxDelayPasses) ∧
      (d.skipFirstDelayer = false → (∀ pass ∈ passes, d.Crowded dp tp pass) → denied) := by
  intro denied
  refine ⟨fun all i pass here late => denied_crowded all here late, ?_, ?_⟩
  · intro room all
    by_contra long
    have last : d.maxDelayPasses - 1 < passes.length := by omega
    exact room _ (getElem_mem last) (denied_crowded all (getElem?_eq_getElem last) (by omega))
  · intro skipped crowded
    clear bound
    induction passes generalizing d with
    | nil => trivial
    | cons pass passes ih =>
      obtain ⟨here, rest⟩ := forall_mem_cons.mp crowded
      have first : d.Denied dp tp pass := denied_iff.mpr (.inl ⟨here, skipped⟩)
      refine ⟨first, ?_⟩
      rw [first.next]
      exact ih skipped rest

def fullPass : Pass := fun _ _ => [⟨true, 0, 8, 1, 8⟩]

def oneRank (skipFirstDelayer : Bool) : PrefillDelayer := ⟨1, true, 2, none, none, skipFirstDelayer⟩

def twoRanks : PrefillDelayer := ⟨2, true, 2, none, none, false⟩

/-- Only the first rank wants a prefill. -/
def mixedPass : Pass := fun dp _ => [⟨dp = 0, 0, 8, 1, 8⟩]

theorem delay_bounded_two_ranks : Guarded (afterPass 0 0) (Denied 0 0) twoRanks [mixedPass] ∧ [mixedPass].length < twoRanks.maxDelayPasses ∧
    ¬ Guarded (afterPass 0 0) (Denied 0 0) twoRanks [mixedPass, mixedPass] ∧
    Guarded (afterPass 0 0) (Denied 0 0) twoRanks (replicate 100 fullPass) := by
  have room : ¬ twoRanks.Crowded 0 0 mixedPass := fun crowded => absurd crowded.1 (by decide)
  have denied : Guarded (afterPass 0 0) (Denied 0 0) twoRanks [mixedPass] := ⟨rfl, trivial⟩
  refine ⟨denied, (delay_bounded (by decide) 0 0 _).2.1 (forall_mem_singleton.mpr room) denied, fun twice => ?_, ?_⟩
  · exact room ((delay_bounded (by decide) 0 0 _).1 twice 1 _ rfl (by decide))
  · refine (delay_bounded (by decide) 0 0 _).2.2 rfl (fun pass mem => ?_)
    rw [eq_of_mem_replicate mem]
    exact ⟨rfl, rfl⟩

/-- With `max_delay_passes = 2` three passes after the first are denied. -/
theorem third_delay : let d := (oneRank true).afterPass 0 0 fullPass
    d.maxDelayPasses = 2 ∧ Guarded (afterPass 0 0) (Denied 0 0) d [fullPass, fullPass, fullPass] :=
  ⟨rfl, rfl, rfl, rfl, trivial⟩

/-! ### Agreement of the ranks -/

/-- Tensor-parallel ranks want the same, and ranks that want a prefill pass the same limit. -/
def Pass.Uniform (limit : Int) (pass : Pass) : Prop :=
  ∀ dp tp, (pass.call dp tp).localPrefillable = (pass.call dp 0).localPrefillable ∧
    ((pass.call dp tp).localPrefillable → (pass.call dp tp).maxRunningRequests = limit)

section
variable {d : PrefillDelayer} {dp tp dp' tp' : Nat} {pass : Pass} {limit : Int}

theorem afterPass_size : (d.afterPass dp tp pass).dpSize = d.dpSize ∧ (d.afterPass dp tp pass).enableDpAttention = d.enableDpAttention := by
  unfold afterPass runPass negotiate
  dsimp only
  split <;> [split; skip; split <;> [skip; split]] <;> exact ⟨rfl, rfl⟩

theorem runPass_uniform (uniform : pass.Uniform limit) (rows : max dp dp' < if d.enableDpAttention then d.dpSize else 1) :
    d.runPass dp tp pass = d.runPass dp' tp' pass := by
  unfold runPass negotiate
  cases here : status (d.gatherInfo pass) with
  | none | mixed => rfl
  | all =>
    have limits : ∀ r ≤ max dp dp', ∀ t, (pass.call r t).maxRunningRequests = limit := by
      intro r le t
      unfold status at here
      split at here
      · next every =>
        rw [all_eq_true] at every
        apply (uniform r t).2
        rw [(uniform r t).1]
        exact every _ (mem_map.mpr ⟨r, mem_range.mpr (by omega), rfl⟩)
      · split at here <;> cases here
    simp only [full, limits dp (by omega), limits dp' (by omega)]

end

/-- In a run of uniform passes all ranks reach the same decision in every pass. -/
theorem ranks_agree (d : PrefillDelayer) {limit : Int} {passes : List Pass} (uniform : ∀ pass ∈ passes, pass.Uniform limit) {dp dp' : Nat}
    (rows : max dp dp' < if d.enableDpAttention then d.dpSize else 1) (tp tp' : Nat) {pass : Pass} (last : pass.Uniform limit) :
    (passes.foldl (afterPass dp tp) d).runPass dp tp pass = (passes.foldl (afterPass dp' tp') d).runPass dp' tp' pass := by
  induction passes generalizing d with
  | nil => exact runPass_uniform last rows
  | cons first passes ih =>
    obtain ⟨here, rest⟩ := forall_mem_cons.mp uniform
    obtain ⟨size, attention⟩ := @afterPass_size d dp tp first
    have same : d.afterPass dp' tp' first = d.afterPass dp tp first := congrArg Prod.snd (runPass_uniform here (by omega))
    rw [foldl_cons, foldl_cons, same]
    exact ih (d.afterPass dp tp first) rest (by rwa [size, attention])

/-- The ranks run batches of different sizes and ask for different prefills. -/
def unevenPass : Pass := fun dp tp => [⟨true, dp, 3 + 4 * dp, 2 - dp, 8⟩, ⟨tp = 1, 0, 0, 0, 0⟩]

theorem ranks_agree_uneven : ([mixedPass, unevenPass].foldl (afterPass 0 0) twoRanks).runPass 0 0 unevenPass =
    ([mixedPass, unevenPass].foldl (afterPass 1 1) twoRanks).runPass 1 1 unevenPass := by
  have mixed : mixedPass.Uniform 8 := fun _ _ => ⟨rfl, fun _ => rfl⟩
  have uneven : unevenPass.Uniform 8 := fun _ _ => ⟨rfl, fun _ => rfl⟩
  refine ranks_agree _ ?_ (by decide) 0 1 uneven
  rw [forall_mem_cons, forall_mem_singleton]
  exact ⟨mixed, uneven⟩

end PrefillDelayer

end TriaxialKV
