import Mathlib.Algebra.BigOperators.Fin
import Mathlib.Algebra.Order.BigOperators.Group.Finset
import TriaxialKV.Lib.Rounding
import TriaxialKV.Lib.Runs

/-!
# Token bucket of the gateway

A step is a section under the mutex, the creation of a `notified()` future or `notify_waiters`, which wakes
the futures that exist then.
-/

namespace TriaxialKV.Gateway
open List Function

structure TokenBucket where
  capacity : ℚ
  refillRate : ℚ

structure TokenBucketInner where
  tokens : ℚ
  lastRefill : ℚ

namespace TokenBucket

def new (R : Rounding) (capacity refillRate : Nat) : TokenBucket := ⟨R.round capacity, R.round refillRate⟩

section
variable (R : Rounding) (b : TokenBucket)

def refill (now : ℚ) (inner : TokenBucketInner) : TokenBucketInner :=
  let elapsed := R.round (max (now - inner.lastRefill) 0)
  let refillAmount := R.round (elapsed * b.refillRate)
  ⟨min (R.round (inner.tokens + refillAmount)) b.capacity, now⟩

def tryAcquireSync (now tokens : ℚ) (inner : TokenBucketInner) : Bool × TokenBucketInner :=
  let inner := b.refill R now inner
  if tokens ≤ inner.tokens then (true, { inner with tokens := R.round (inner.tokens - tokens) })
  else (false, inner)

def waitTime (tokens : ℚ) (inner : TokenBucketInner) : ℚ := max (R.round (R.round (tokens - inner.tokens) / b.refillRate)) 0

def returnTokensSync (tokens : ℚ) (inner : TokenBucketInner) : TokenBucketInner :=
  { inner with tokens := min (R.round (inner.tokens + tokens)) b.capacity }

end

/-- Where a task stands in `acquire` or `return_tokens_sync`; only the timed loop for a positive refill rate has a deadline. -/
inductive Phase where
  | idle
  /-- Before the first `try_acquire`. -/
  | entered (tokens : ℚ)
  /-- Before the section that computes `wait_time`. -/
  | measuring (tokens : ℚ)
  /-- Before the `try_acquire` of a loop. -/
  | retrying (tokens : ℚ) (deadline : Option ℚ)
  /-- The check failed and the `notified()` future does not exist yet. -/
  | failed (tokens : ℚ) (deadline : Option ℚ)
  /-- The future exists and has not been woken. -/
  | waiting (tokens : ℚ) (deadline : Option ℚ)
  /-- The tokens are back and `notify_waiters` has not run yet. -/
  | returning
deriving DecidableEq

def Phase.wake : Phase → Phase
  | .waiting tokens deadline => .retrying tokens deadline
  | phase => phase

def Phase.asks : Phase → Option ℚ
  | .entered tokens | .measuring tokens | .retrying tokens _ | .failed tokens _ | .waiting tokens _ => some tokens
  | .idle | .returning => none

structure Task where
  phase : Phase
  held : ℚ

structure State (n : Nat) where
  inner : TokenBucketInner
  tasks : Fin n → Task

inductive Action (n : Nat) where
  | acquire (i : Fin n) (tokens : ℚ)
  | tryAcquire (i : Fin n) (now : ℚ)
  | measure (i : Fin n) (now : ℚ)
  | notified (i : Fin n)
  /-- The 10 ms sleep of the timed loop is over. -/
  | sleepOver (i : Fin n)
  /-- The timeout of the timed loop or of `acquire_timeout` drops the waiting call. -/
  | elapsed (i : Fin n)
  | returnTokens (i : Fin n) (tokens : ℚ)
  | notifyWaiters (i : Fin n)
  | availableTokens (now : ℚ)

section
variable (R : Rounding) (b : TokenBucket) {n : Nat}

def State.setTask (s : State n) (i : Fin n) (task : Task) : State n :=
  { s with tasks := update s.tasks i task }

def State.setPhase (s : State n) (i : Fin n) (phase : Phase) : State n := s.setTask i { s.tasks i with phase }

def State.attempt (s : State n) (i : Fin n) (now tokens : ℚ) (otherwise : Phase) : State n :=
  let (acquired, inner) := b.tryAcquireSync R now tokens s.inner
  let s := { s with inner }
  if acquired then s.setTask i ⟨.idle, (s.tasks i).held + tokens⟩ else s.setPhase i otherwise

def step (s : State n) : Action n → State n
  | .acquire i tokens => s.setPhase i (.entered tokens)
  | .tryAcquire i now =>
    match (s.tasks i).phase with
    | .entered tokens =>
      s.attempt R b i now tokens (if b.refillRate = 0 then .failed tokens none else .measuring tokens)
    | .retrying tokens deadline => s.attempt R b i now tokens (.failed tokens deadline)
    | _ => s
  | .measure i now =>
    match (s.tasks i).phase with
    | .measuring tokens => s.setPhase i (.retrying tokens (some (now + b.waitTime R tokens s.inner)))
    | _ => s
  | .notified i =>
    match (s.tasks i).phase with
    | .failed tokens deadline => s.setPhase i (.waiting tokens deadline)
    | _ => s
  | .sleepOver i => s.setPhase i (s.tasks i).phase.wake
  | .elapsed i => s.setPhase i .idle
  | .returnTokens i tokens =>
    { s with inner := b.returnTokensSync R tokens s.inner }.setTask i ⟨.returning, (s.tasks i).held - tokens⟩
  | .notifyWaiters i =>
    { s with tasks := fun j => { s.tasks j with phase := (s.tasks j).phase.wake } }.setPhase i .idle
  | .availableTokens now => { s with inner := b.refill R now s.inner }

/-- Tasks ask for multiples of `unit` up to the capacity and return what they hold. -/
def guard (unit : ℚ) (s : State n) : Action n → Prop
  | .acquire i tokens =>
    (s.tasks i).phase = .idle ∧ 0 ≤ tokens ∧ tokens ≤ b.capacity ∧ ∃ k : ℤ, tokens = k * unit
  | .tryAcquire i _ =>
    ∃ tokens, (s.tasks i).phase = .entered tokens ∨ ∃ deadline, (s.tasks i).phase = .retrying tokens deadline
  | .measure i _ => ∃ tokens, (s.tasks i).phase = .measuring tokens
  | .notified i => ∃ tokens deadline, (s.tasks i).phase = .failed tokens deadline
  | .sleepOver i => ∃ tokens deadline, (s.tasks i).phase = .waiting tokens (some deadline)
  | .elapsed i => ∃ tokens deadline, (s.tasks i).phase = .waiting tokens deadline
  | .returnTokens i tokens =>
    (s.tasks i).phase = .idle ∧ 0 ≤ tokens ∧ tokens ≤ (s.tasks i).held ∧ ∃ k : ℤ, tokens = k * unit
  | .notifyWaiters i => (s.tasks i).phase = .returning
  | .availableTokens _ => True

def start (n : Nat) (now : ℚ) : State n := ⟨⟨b.capacity, now⟩, fun _ => ⟨.idle, 0⟩⟩

end

section
variable {n : Nat} (s : State n) (i j : Fin n) (task : Task) (phase : Phase)

@[simp] theorem setTask_inner : (s.setTask i task).inner = s.inner := rfl

@[simp] theorem setPhase_inner : (s.setPhase i phase).inner = s.inner := rfl

theorem setTask_self : (s.setTask i task).tasks i = task := update_self ..

theorem setTask_other {i j : Fin n} (other : j ≠ i) : (s.setTask i task).tasks j = s.tasks j := update_of_ne other ..

theorem setPhase_self : (s.setPhase i phase).tasks i = ⟨phase, (s.tasks i).held⟩ := update_self ..

theorem setPhase_other {i j : Fin n} (other : j ≠ i) : (s.setPhase i phase).tasks j = s.tasks j := update_of_ne other ..

@[simp] theorem setPhase_held : ((s.setPhase i phase).tasks j).held = (s.tasks j).held := by
  by_cases same : j = i
  · subst same
    rw [setPhase_self]
  · rw [setPhase_other _ _ same]

def State.held : ℚ := ∑ i, (s.tasks i).held

@[simp] theorem held_setPhase : (s.setPhase i phase).held = s.held := by
  unfold State.held
  simp only [setPhase_held]

theorem held_setTask : (s.setTask i task).held = s.held - (s.tasks i).held + task.held := by
  have moved : (fun j => ((s.setTask i task).tasks j).held) = update (fun j => (s.tasks j).held) i task.held :=
    funext (fun j => Function.apply_update (fun _ task => Task.held task) s.tasks i task j)
  unfold State.held
  rw [moved, Finset.sum_update_of_mem (Finset.mem_univ i), ← Finset.add_sum_erase _ _ (Finset.mem_univ i), Finset.sdiff_singleton_eq_erase]
  ring

theorem wake_asks : phase.wake.asks = phase.asks := by
  cases phase <;> rfl

theorem wake_eq_failed {tokens : ℚ} {deadline : Option ℚ} (failed : phase.wake = .failed tokens deadline) : phase = .failed tokens deadline := by
  cases phase <;> first | exact failed | cases failed

theorem wake_ne_waiting {tokens : ℚ} {deadline : Option ℚ} : phase.wake ≠ .waiting tokens deadline := by
  cases phase <;> simp [Phase.wake]

end

section
variable {R : Rounding} {b : TokenBucket} {unit : ℚ} {n : Nat} {s : State n} {a : Action n} {i : Fin n} {now tokens : ℚ} {inner : TokenBucketInner}

/-- Sums of so many multiples of `unit` are exact. -/
structure Exact (R : Rounding) (b : TokenBucket) (unit : ℚ) : Prop where
  norefill : b.refillRate = 0
  whole : ∃ k : ℤ, b.capacity = k * unit
  nonneg : 0 ≤ b.capacity
  exact : ∀ k : ℤ, 0 ≤ k * unit → k * unit ≤ b.capacity → R.round (k * unit) = k * unit

structure Conserved (b : TokenBucket) (unit : ℚ) (s : State n) : Prop where
  nonneg : 0 ≤ s.inner.tokens
  whole : ∃ k : ℤ, s.inner.tokens = k * unit
  held : ∀ i, 0 ≤ (s.tasks i).held
  total : s.inner.tokens + s.held = b.capacity
  asks : ∀ i tokens, (s.tasks i).phase.asks = some tokens → 0 ≤ tokens ∧ tokens ≤ b.capacity ∧ ∃ k : ℤ, tokens = k * unit

theorem Conserved.le_capacity (conserved : Conserved b unit s) : s.inner.tokens ≤ b.capacity := by
  have nonneg : 0 ≤ s.held := Finset.sum_nonneg (fun i _ => conserved.held i)
  linarith [conserved.total]

theorem Conserved.held_le (conserved : Conserved b unit s) (i : Fin n) : (s.tasks i).held ≤ b.capacity - s.inner.tokens := by
  have le : (s.tasks i).held ≤ s.held := Finset.single_le_sum (fun i _ => conserved.held i) (Finset.mem_univ i)
  linarith [conserved.total]

theorem refill_tokens (exact : Exact R b unit) (conserved : Conserved b unit s) (now : ℚ) : (b.refill R now s.inner).tokens = s.inner.tokens := by
  obtain ⟨k, same⟩ := conserved.whole
  have nonneg := conserved.nonneg
  have le := conserved.le_capacity
  have zero := R.exact 0 (by norm_num)
  rw [Int.cast_zero] at zero
  unfold refill
  dsimp only
  rw [exact.norefill, mul_zero, zero, add_zero]
  rw [same] at nonneg le ⊢
  rw [exact.exact k nonneg le, min_eq_left le]

theorem Conserved.setPhase (conserved : Conserved b unit s) (same : inner.tokens = s.inner.tokens) {phase : Phase}
    (asks : ∀ tokens, phase.asks = some tokens → (s.tasks i).phase.asks = some tokens ∨ 0 ≤ tokens ∧ tokens ≤ b.capacity ∧
      ∃ k : ℤ, tokens = k * unit) :
    Conserved b unit ({ s with inner }.setPhase i phase) := by
  refine ⟨same ▸ conserved.nonneg, same ▸ conserved.whole, fun j => ?_, ?_, fun j tokens asked => ?_⟩
  · rw [setPhase_held]
    exact conserved.held j
  · rw [held_setPhase, setPhase_inner, same]
    exact conserved.total
  · by_cases other : j = i
    · subst other
      rw [setPhase_self] at asked
      rcases asks tokens asked with before | fits
      · exact conserved.asks j tokens before
      · exact fits
    · rw [setPhase_other _ _ other] at asked
      exact conserved.asks j tokens asked

theorem Conserved.move (conserved : Conserved b unit s) {task : Task} (quiet : task.phase.asks = none)
    (nonneg : 0 ≤ inner.tokens) (whole : ∃ k : ℤ, inner.tokens = k * unit) (held : 0 ≤ task.held)
    (total : inner.tokens + task.held = s.inner.tokens + (s.tasks i).held) :
    Conserved b unit ({ s with inner }.setTask i task) := by
  refine ⟨nonneg, whole, fun j => ?_, ?_, fun j tokens asked => ?_⟩
  · by_cases other : j = i
    · rw [other, setTask_self]
      exact held
    · rw [setTask_other _ _ other]
      exact conserved.held j
  · rw [held_setTask, setTask_inner, ← conserved.total]
    change inner.tokens + (s.held - (s.tasks i).held + task.held) = _
    linarith
  · by_cases other : j = i
    · rw [other, setTask_self, quiet] at asked
      cases asked
    · rw [setTask_other _ _ other] at asked
      exact conserved.asks j tokens asked

theorem attempt_cases (i : Fin n) (now : ℚ) (exact : Exact R b unit) (conserved : Conserved b unit s)
    (fits : 0 ≤ tokens ∧ tokens ≤ b.capacity ∧ ∃ k : ℤ, tokens = k * unit)
    (otherwise : Phase) :
    (tokens ≤ s.inner.tokens ∧
      s.attempt R b i now tokens otherwise = { s with inner := ⟨s.inner.tokens - tokens, now⟩ }.setTask i ⟨.idle, (s.tasks i).held + tokens⟩) ∨
    (s.inner.tokens < tokens ∧ s.attempt R b i now tokens otherwise = { s with inner := ⟨s.inner.tokens, now⟩ }.setPhase i otherwise) := by
  have refilled : b.refill R now s.inner = ⟨s.inner.tokens, now⟩ := by
    rw [← refill_tokens exact conserved now]
    rfl
  unfold State.attempt tryAcquireSync
  rw [refilled]
  by_cases enough : tokens ≤ s.inner.tokens
  · obtain ⟨_, _, k, asked⟩ := fits
    obtain ⟨m, same⟩ := conserved.whole
    have rest : s.inner.tokens - tokens = ((m - k : ℤ) : ℚ) * unit := by
      rw [same, asked]
      push_cast
      ring
    have le := conserved.le_capacity
    have kept : R.round (s.inner.tokens - tokens) = s.inner.tokens - tokens := by
      rw [rest]
      exact exact.exact _ (by rw [← rest]; linarith) (by rw [← rest]; linarith)
    left
    refine ⟨enough, ?_⟩
    simp only [if_pos enough, kept, if_true]
  · right
    refine ⟨not_le.mp enough, ?_⟩
    simp [enough]

theorem returnTokensSync_tokens (exact : Exact R b unit) (conserved : Conserved b unit s) (nonneg : 0 ≤ tokens)
    (le : tokens ≤ (s.tasks i).held) (whole : ∃ k : ℤ, tokens = k * unit) :
    b.returnTokensSync R tokens s.inner = ⟨s.inner.tokens + tokens, s.inner.lastRefill⟩ := by
  obtain ⟨k, back⟩ := whole
  obtain ⟨m, same⟩ := conserved.whole
  have room := conserved.held_le i
  have filled := conserved.nonneg
  have sum : s.inner.tokens + tokens = ((m + k : ℤ) : ℚ) * unit := by
    rw [same, back]
    push_cast
    ring
  have kept : R.round (s.inner.tokens + tokens) = s.inner.tokens + tokens := by
    rw [sum]
    exact exact.exact _ (by rw [← sum]; linarith) (by rw [← sum]; linarith)
  unfold returnTokensSync
  rw [kept, min_eq_left (by linarith)]

theorem Conserved.awake (conserved : Conserved b unit s) :
    Conserved b unit { s with tasks := fun j => { s.tasks j with phase := (s.tasks j).phase.wake } } :=
  { conserved with asks := fun j tokens asked => conserved.asks j tokens (by rwa [wake_asks] at asked) }

theorem Conserved.attempt (exact : Exact R b unit) (conserved : Conserved b unit s) (asked : (s.tasks i).phase.asks = some tokens) {otherwise : Phase}
    (kept : otherwise.asks = some tokens) : Conserved b unit (s.attempt R b i now tokens otherwise) := by
  have fits := conserved.asks i tokens asked
  rcases attempt_cases i now exact conserved fits otherwise with ⟨enough, done⟩ | ⟨_, done⟩
  · obtain ⟨nonneg, _, k, asked⟩ := fits
    obtain ⟨m, same⟩ := conserved.whole
    rw [done]
    refine conserved.move rfl (sub_nonneg.mpr enough) ⟨m - k, ?_⟩ (add_nonneg (conserved.held i) nonneg) ?_
    · rw [same, asked]
      push_cast
      ring
    · ring
  · have same : (⟨s.inner.tokens, now⟩ : TokenBucketInner).tokens = s.inner.tokens := rfl
    rw [done]
    refine conserved.setPhase same (fun other asks => .inl ?_)
    rwa [asked, ← kept]

theorem step_conserved (exact : Exact R b unit) (conserved : Conserved b unit s) (allowed : guard b unit s a) : Conserved b unit (step R b s a) := by
  cases a with
  | acquire i tokens =>
    refine conserved.setPhase rfl (fun other asks => .inr ?_)
    obtain rfl : tokens = other := Option.some.inj asks
    exact allowed.2
  | tryAcquire i now =>
    obtain ⟨tokens, phase | ⟨deadline, phase⟩⟩ := allowed
    · simp only [step, phase, if_pos exact.norefill]
      exact conserved.attempt exact (by rw [phase]; rfl) rfl
    · simp only [step, phase]
      exact conserved.attempt exact (by rw [phase]; rfl) rfl
  | measure i now =>
    obtain ⟨tokens, phase⟩ := allowed
    simp only [step, phase]
    exact conserved.setPhase rfl (fun other asks => .inl (by rw [phase]; exact asks))
  | notified i =>
    obtain ⟨tokens, deadline, phase⟩ := allowed
    simp only [step, phase]
    exact conserved.setPhase rfl (fun other asks => .inl (by rw [phase]; exact asks))
  | sleepOver i => exact conserved.setPhase rfl (fun other asks => .inl (by rwa [wake_asks] at asks))
  | elapsed i => exact conserved.setPhase rfl nofun
  | returnTokens i tokens =>
    obtain ⟨_, nonneg, le, k, back⟩ := allowed
    obtain ⟨m, same⟩ := conserved.whole
    simp only [step, returnTokensSync_tokens exact conserved nonneg le ⟨k, back⟩]
    refine conserved.move rfl (add_nonneg conserved.nonneg nonneg) ⟨m + k, ?_⟩ (sub_nonneg.mpr le) ?_
    · rw [same, back]
      push_cast
      ring
    · ring
  | notifyWaiters i => exact conserved.awake.setPhase rfl nofun
  | availableTokens now =>
    have same := refill_tokens exact conserved now
    exact ⟨same ▸ conserved.nonneg, same ▸ conserved.whole, conserved.held, same ▸ conserved.total, conserved.asks⟩

theorem start_conserved (exact : Exact R b unit) (n : Nat) (now : ℚ) : Conserved b unit (start b n now) := by
  refine ⟨exact.nonneg, exact.whole, fun _ => le_refl _, ?_, nofun⟩
  change b.capacity + ∑ _ : Fin n, (0 : ℚ) = b.capacity
  rw [Finset.sum_const_zero, add_zero]

end

section
variable {R : Rounding} {b : TokenBucket} {unit : ℚ} {n : Nat} {s : State n} {a : Action n} {i j : Fin n} {now tokens : ℚ}
  {deadline deadline' : Option ℚ}

/-- Task `i` found too few tokens and has not been woken since. -/
def State.Blocked (s : State n) (i : Fin n) (tokens : ℚ) (deadline : Option ℚ) : Prop :=
  (s.tasks i).phase = .failed tokens deadline ∨ (s.tasks i).phase = .waiting tokens deadline

theorem attempt_other (otherwise : Phase) (other : j ≠ i) : (s.attempt R b i now tokens otherwise).tasks j = s.tasks j := by
  unfold State.attempt
  split
  split
  · rw [setTask_other _ _ other]
  · rw [setPhase_other _ _ other]

section
variable (exact : Exact R b unit) (conserved : Conserved b unit s) (asked : (s.tasks i).phase.asks = some tokens)
include exact conserved asked

theorem attempt_blocked {wanted : ℚ} (blocked : (s.attempt R b i now tokens (.failed tokens deadline)).Blocked i wanted deadline') :
    (s.attempt R b i now tokens (.failed tokens deadline)).inner.tokens < wanted := by
  rcases attempt_cases i now exact conserved (conserved.asks i tokens asked) (.failed tokens deadline) with ⟨_, done⟩ | ⟨few, done⟩
  · rw [done, State.Blocked, setTask_self] at blocked
    rcases blocked with blocked | blocked <;> cases blocked
  · rw [done, State.Blocked, setPhase_self] at blocked
    rw [done]
    rcases blocked with blocked | blocked <;> cases blocked
    exact few

theorem attempt_tokens_le (otherwise : Phase) : (s.attempt R b i now tokens otherwise).inner.tokens ≤ s.inner.tokens := by
  have fits := conserved.asks i tokens asked
  rcases attempt_cases i now exact conserved fits otherwise with ⟨_, done⟩ | ⟨_, done⟩
  · rw [done]
    exact sub_le_self _ fits.1
  · rw [done]
    exact le_refl _

end

def Action.own? : Action n → Option (Fin n)
  | .acquire i _ | .tryAcquire i _ | .measure i _ | .notified i | .sleepOver i | .elapsed i | .returnTokens i _ => some i
  | .notifyWaiters _ | .availableTokens _ => none

theorem step_other {k : Fin n} (own : a.own? = some k) (other : j ≠ k) : (step R b s a).tasks j = s.tasks j := by
  cases a <;> cases own <;> simp only [step]
  case tryAcquire =>
    split
    · exact attempt_other _ other
    · exact attempt_other _ other
    · rfl
  case measure =>
    split
    · exact setPhase_other _ _ other
    · rfl
  case notified =>
    split
    · exact setPhase_other _ _ other
    · rfl
  case returnTokens => exact setTask_other _ _ other
  all_goals exact setPhase_other _ _ other

theorem guard_own {k : Fin n} (own : a.own? = some k) (allowed : guard b unit s a) : (s.tasks k).phase ≠ .returning := by
  intro returning
  cases a <;> cases own <;> simp [guard, returning] at allowed

theorem step_tokens {k : Fin n} (exact : Exact R b unit) (conserved : Conserved b unit s) (own : a.own? = some k) (allowed : guard b unit s a) :
    (step R b s a).inner.tokens ≤ s.inner.tokens ∨ ((step R b s a).tasks k).phase = .returning := by
  cases a <;> cases own
  case tryAcquire now =>
    obtain ⟨tokens, phase | ⟨deadline, phase⟩⟩ := allowed <;> simp only [step, phase]
    · exact .inl (attempt_tokens_le exact conserved (by rw [phase]; rfl) _)
    · exact .inl (attempt_tokens_le exact conserved (by rw [phase]; rfl) _)
  case measure now =>
    obtain ⟨tokens, phase⟩ := allowed
    simp only [step, phase]
    exact .inl (le_refl _)
  case notified =>
    obtain ⟨tokens, deadline, phase⟩ := allowed
    simp only [step, phase]
    exact .inl (le_refl _)
  case returnTokens tokens =>
    right
    simp only [step, setTask_self]
  all_goals exact .inl (le_refl _)

theorem step_own_blocked (exact : Exact R b unit) (conserved : Conserved b unit s) (own : a.own? = some i) (allowed : guard b unit s a)
    (blocked : (step R b s a).Blocked i tokens deadline) (enough : tokens ≤ (step R b s a).inner.tokens) :
    (s.tasks i).phase = .failed tokens deadline := by
  cases a <;> cases own
  case tryAcquire now =>
    obtain ⟨asked, phase | ⟨other, phase⟩⟩ := allowed
    · simp only [step, phase, if_pos exact.norefill] at blocked enough
      exact absurd (attempt_blocked exact conserved (by rw [phase]; rfl) blocked) (not_lt.mpr enough)
    · simp only [step, phase] at blocked enough
      exact absurd (attempt_blocked exact conserved (by rw [phase]; rfl) blocked) (not_lt.mpr enough)
  case measure now =>
    obtain ⟨asked, phase⟩ := allowed
    simp [step, phase, State.Blocked, setPhase_self] at blocked
  case notified =>
    obtain ⟨asked, other, phase⟩ := allowed
    simp only [step, phase, State.Blocked, setPhase_self] at blocked
    rcases blocked with blocked | blocked <;> cases blocked
    exact phase
  case sleepOver =>
    obtain ⟨asked, other, phase⟩ := allowed
    simp [step, phase, Phase.wake, State.Blocked, setPhase_self] at blocked
  all_goals simp [step, State.Blocked, setPhase_self, setTask_self] at blocked

/-- A task blocked after a step with tokens enough was blocked before; notifications stay due unless the task missed them. -/
theorem step_blocked (exact : Exact R b unit) (conserved : Conserved b unit s) (allowed : guard b unit s a)
    (blocked : (step R b s a).Blocked i tokens deadline) (enough : tokens ≤ (step R b s a).inner.tokens) :
    s.Blocked i tokens deadline ∧ ((∃ j, ((step R b s a).tasks j).phase = .returning) ∨ tokens ≤ s.inner.tokens ∧
      ((∀ j, (s.tasks j).phase = .returning → ((step R b s a).tasks j).phase = .returning) ∨
        ∃ k, a = .notifyWaiters k ∧ (s.tasks i).phase = .failed tokens deadline)) := by
  cases own : a.own? with
  | some k =>
    have before : s.Blocked i tokens deadline := by
      by_cases self : i = k
      · exact .inl (step_own_blocked exact conserved (self ▸ own) allowed blocked enough)
      · rwa [State.Blocked, step_other own self] at blocked
    refine ⟨before, ?_⟩
    rcases step_tokens exact conserved own allowed with fewer | returning
    · refine .inr ⟨enough.trans fewer, .inl (fun j returning => ?_)⟩
      rw [step_other own (fun self => guard_own own allowed (self ▸ returning))]
      exact returning
    · exact .inl ⟨k, returning⟩
  | none =>
    cases a with
    | notifyWaiters k =>
      by_cases self : i = k
      · subst self
        simp [step, State.Blocked, setPhase_self] at blocked
      · rw [step, State.Blocked, setPhase_other _ _ self] at blocked
        rcases blocked with failed | waiting
        · have failed := wake_eq_failed _ failed
          exact ⟨.inl failed, .inr ⟨enough, .inr ⟨k, rfl, failed⟩⟩⟩
        · exact absurd waiting (wake_ne_waiting _)
    | availableTokens now =>
      rw [step, refill_tokens exact conserved now] at enough
      exact ⟨blocked, .inr ⟨enough, .inl (fun _ returning => returning)⟩⟩
    | _ => cases own

end

section
variable {R : Rounding} {b : TokenBucket} {unit : ℚ} {n : Nat} {s : State n} {i : Fin n} {tokens : ℚ} {deadline : Option ℚ} {as : List (Action n)}

/-- A notification came between the failed check of task `i` and its future, and the task has been blocked since. -/
def Missed (R : Rounding) (b : TokenBucket) (s : State n) (as : List (Action n)) (i : Fin n) (tokens : ℚ) (deadline : Option ℚ) : Prop :=
  ∃ k j, as[k]? = some (.notifyWaiters j) ∧ (((as.take k).foldl (step R b) s).tasks i).phase = .failed tokens deadline ∧
    ∀ m, k < m → ((as.take m).foldl (step R b) s).Blocked i tokens deadline

theorem run_conserved (exact : Exact R b unit) (conserved : Conserved b unit s) (allowed : Runs.Guarded (step R b) (guard b unit) s as) :
    Conserved b unit (as.foldl (step R b) s) :=
  (allowed.reachable .start).invariant _ conserved (fun _ _ before allowed => step_conserved exact before allowed)

theorem Missed.concat (missed : Missed R b s as i tokens deadline) {a : Action n}
    (blocked : (step R b (as.foldl (step R b) s) a).Blocked i tokens deadline) : Missed R b s (as ++ [a]) i tokens deadline := by
  obtain ⟨k, j, notify, _, since⟩ := missed
  obtain ⟨lt, _⟩ := List.getElem?_eq_some_iff.mp notify
  refine ⟨k, j, by rwa [getElem?_append_left lt], by rwa [take_append_of_le_length (le_of_lt lt)], fun m later => ?_⟩
  by_cases short : m ≤ as.length
  · rw [take_append_of_le_length short]
    exact since m later
  · rw [take_of_length_le (by rw [length_append, length_singleton]; omega), foldl_append]
    exact blocked

theorem missed_of_blocked (exact : Exact R b unit) (conserved : Conserved b unit s) (fresh : ∀ i, (s.tasks i).phase.asks = none)
    (allowed : Runs.Guarded (step R b) (guard b unit) s as) (blocked : (as.foldl (step R b) s).Blocked i tokens deadline)
    (enough : tokens ≤ (as.foldl (step R b) s).inner.tokens) :
    (∃ j, ((as.foldl (step R b) s).tasks j).phase = .returning) ∨ Missed R b s as i tokens deadline := by
  induction as using reverseRecOn with
  | nil =>
    have asked := fresh i
    rcases blocked with blocked | blocked <;> rw [foldl_nil] at blocked <;> rw [blocked] at asked <;> cases asked
  | append_singleton as a ih =>
    obtain ⟨before, last, _⟩ := Runs.guarded_append.mp allowed
    rw [foldl_append] at blocked enough ⊢
    obtain ⟨blocked', due | ⟨enough', kept⟩⟩ := step_blocked exact (run_conserved exact conserved before) last blocked enough
    · exact .inl due
    · rcases ih before blocked' enough' with ⟨j, due⟩ | missed
      · rcases kept with kept | ⟨k, rfl, _⟩
        · exact .inl ⟨j, kept j due⟩
        · right
          refine ⟨as.length, k, getElem?_concat_length, by rwa [take_left], fun m later => ?_⟩
          rw [take_of_length_le (by rw [length_append, length_singleton]; omega), foldl_append]
          exact blocked
      · exact .inr (missed.concat blocked)

def State.Quiescent (s : State n) : Prop :=
  ∀ j, ((s.tasks j).phase = .idle ∨ ∃ tokens deadline, (s.tasks j).phase = .waiting tokens deadline) ∧ (s.tasks j).held = 0

/-- Task `i` waits for ever although there are tokens enough for it. -/
def State.Lost (s : State n) (i : Fin n) : Prop :=
  s.Quiescent ∧ ∃ tokens deadline, (s.tasks i).phase = .waiting tokens deadline ∧ tokens ≤ s.inner.tokens

theorem State.Quiescent.full (quiescent : s.Quiescent) (conserved : Conserved b unit s) : s.inner.tokens = b.capacity := by
  have none : s.held = 0 := Finset.sum_eq_zero (fun j _ => (quiescent j).2)
  rw [← conserved.total, none, add_zero]

theorem State.Quiescent.waiting (quiescent : s.Quiescent) (blocked : s.Blocked i tokens deadline) : (s.tasks i).phase = .waiting tokens deadline := by
  rcases blocked with failed | waiting
  · obtain ⟨idle | ⟨_, _, waits⟩, _⟩ := quiescent i
    · rw [failed] at idle
      cases idle
    · rw [failed] at waits
      cases waits
  · exact waiting

theorem State.Quiescent.none_due (quiescent : s.Quiescent) (j : Fin n) : (s.tasks j).phase ≠ .returning := by
  intro returning
  obtain ⟨idle | ⟨_, _, waits⟩, _⟩ := quiescent j
  · rw [returning] at idle
    cases idle
  · rw [returning] at waits
    cases waits

def missedRun (b : TokenBucket) (now : ℚ) (i j : Fin n) : List (Action n) :=
  [.acquire i b.capacity, .tryAcquire i now, .acquire j b.capacity, .tryAcquire j now, .returnTokens i b.capacity, .notifyWaiters i, .notified j]

theorem missedRun_lost (exact : Exact R b unit) (pos : 0 < b.capacity) (now : ℚ) {i j : Fin n} (differ : i ≠ j) :
    Runs.Guarded (step R b) (guard b unit) (start b n now) (missedRun b now i j) ∧
      ((missedRun b now i j).foldl (step R b) (start b n now)).Lost j := by
  obtain ⟨k, whole⟩ := exact.whole
  have zero : R.round 0 = 0 := by
    have exact := R.exact 0 (by norm_num)
    rwa [Int.cast_zero] at exact
  have full : R.round b.capacity = b.capacity := by
    rw [whole]
    exact exact.exact k (by rw [← whole]; exact exact.nonneg) (by rw [← whole])
  have units : ∃ k : ℤ, b.capacity = k * unit := exact.whole
  constructor
  · simp [missedRun, Runs.Guarded, guard, step, start, State.setPhase, State.setTask, State.attempt, tryAcquireSync, refill, returnTokensSync,
      Phase.wake, exact.norefill, zero, full, differ, differ.symm, pos.le, not_le.mpr pos, units]
  · have last : (missedRun b now i j).foldl (step R b) (start b n now) = (start b n now).setTask j ⟨.waiting b.capacity none, 0⟩ := by
      simp only [missedRun, List.foldl, step, start, State.setPhase, State.setTask, State.attempt, tryAcquireSync, refill, returnTokensSync]
      simp [Phase.wake, exact.norefill, zero, full, differ, differ.symm, pos.le, not_le.mpr pos]
      funext k
      by_cases self : k = j
      · simp [self]
      · by_cases other : k = i
        · simp [other, differ]
        · simp [self, other]
    rw [last]
    refine ⟨fun k => ?_, b.capacity, none, by rw [setTask_self], le_refl _⟩
    by_cases self : k = j
    · rw [self, setTask_self]
      exact ⟨.inr ⟨_, _, rfl⟩, rfl⟩
    · rw [setTask_other _ _ self]
      exact ⟨.inl rfl, rfl⟩

theorem exact_whole (R : Rounding) (capacity : Nat) (small : capacity ≤ 2 ^ 53) : Exact R (new R capacity 0) 1 := by
  have zero := R.exact 0 (by norm_num)
  have full := R.exact capacity (by rw [abs_of_nonneg (Int.natCast_nonneg _)]; exact_mod_cast small)
  rw [Int.cast_zero] at zero
  rw [Int.cast_natCast] at full
  refine ⟨by unfold new; rw [Nat.cast_zero, zero], ⟨capacity, by unfold new; rw [full, mul_one, Int.cast_natCast]⟩, ?_, fun k nonneg le => ?_⟩
  · change 0 ≤ R.round capacity
    rw [full]
    exact Nat.cast_nonneg _
  · change _ ≤ R.round capacity at le
    rw [full] at le
    rw [mul_one] at nonneg le ⊢
    apply R.exact
    have nonneg : 0 ≤ k := by exact_mod_cast nonneg
    have le : k ≤ capacity := by exact_mod_cast le
    rw [abs_of_nonneg nonneg]
    omega

/-- The tokens always make up the capacity, and in the end the tasks that wait for ever are those that missed a notification. -/
theorem lost_iff_missed (R : Rounding) (capacity n : Nat) (now unit : ℚ) (exact : Exact R (new R capacity 0) unit) (as : List (Action n))
    (allowed : Runs.Guarded (step R (new R capacity 0)) (guard (new R capacity 0) unit) (start (new R capacity 0) n now) as) :
    let s := as.foldl (step R (new R capacity 0)) (start (new R capacity 0) n now)
    0 ≤ s.inner.tokens ∧ s.inner.tokens + s.held = (new R capacity 0).capacity ∧
      ∀ i, s.Lost i ↔ s.Quiescent ∧ ∃ tokens deadline, Missed R (new R capacity 0) (start (new R capacity 0) n now) as i tokens deadline := by
  intro s
  have conserved := run_conserved exact (start_conserved exact n now) allowed
  refine ⟨conserved.nonneg, conserved.total, fun i => ⟨?_, ?_⟩⟩
  · rintro ⟨quiescent, tokens, deadline, waiting, enough⟩
    refine ⟨quiescent, tokens, deadline, ?_⟩
    rcases missed_of_blocked exact (start_conserved exact n now) (fun _ => rfl) allowed (.inr waiting) enough with ⟨j, returning⟩ | missed
    · exact absurd returning (quiescent.none_due j)
    · exact missed
  · rintro ⟨quiescent, tokens, deadline, k, j, notify, _, since⟩
    obtain ⟨inside, _⟩ := List.getElem?_eq_some_iff.mp notify
    have blocked := since as.length inside
    rw [take_length] at blocked
    have waiting := quiescent.waiting blocked
    refine ⟨quiescent, tokens, deadline, waiting, ?_⟩
    rw [quiescent.full conserved]
    exact (conserved.asks i tokens (by rw [waiting]; rfl)).2.1

theorem lost_iff_missed_two_tasks : let b := new .none 1 0
    ∃ as : List (Action 2), Runs.Guarded (step .none b) (guard b 1) (start b 2 0) as ∧ let s := as.foldl (step .none b) (start b 2 0)
      0 ≤ s.inner.tokens ∧ s.inner.tokens + s.held = b.capacity ∧
        ∀ i, s.Lost i ↔ s.Quiescent ∧ ∃ tokens deadline, Missed .none b (start b 2 0) as i tokens deadline := by
  have exact := exact_whole .none 1 (by norm_num)
  have allowed := (missedRun_lost exact (by norm_num [new, Rounding.none]) 0 (i := (0 : Fin 2)) (j := 1) (by decide)).1
  exact ⟨_, allowed, lost_iff_missed .none 1 2 0 1 exact _ allowed⟩

theorem lost_wakeup : let b := new .none 1 0
    let as : List (Action 2) := [.acquire 0 1, .tryAcquire 0 0, .acquire 1 1, .tryAcquire 1 0, .returnTokens 0 1, .notifyWaiters 0, .notified 1]
    Runs.Guarded (step .none b) (guard b 1) (start b 2 0) as ∧ (as.foldl (step .none b) (start b 2 0)).Lost 1 := by
  have exact := exact_whole .none 1 (by norm_num)
  have lost := missedRun_lost exact (by norm_num [new, Rounding.none]) 0 (i := (0 : Fin 2)) (j := 1) (by decide)
  have one : (new .none 1 0).capacity = 1 := by norm_num [new, Rounding.none]
  rw [missedRun, one] at lost
  exact lost

end

end TokenBucket

end TriaxialKV.Gateway
