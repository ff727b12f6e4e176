import Mathlib.Algebra.Group.Defs
import Mathlib.Tactic.Common

/-!
# Parsing in rounds

A round takes some of the unread text, with an output, or waits for more.
-/

namespace TriaxialKV.Rounds
open List

variable {σ α ω : Type} [Monoid ω]

def emit (out : ω) (result : σ × ω × List α) : σ × ω × List α := (result.1, out * result.2.1, result.2.2)

theorem emit_one (result : σ × ω × List α) : emit 1 result = result := by
  unfold emit
  rw [one_mul]

theorem emit_emit (out out' : ω) (result : σ × ω × List α) : emit out (emit out' result) = emit (out * out') result := by
  unfold emit
  rw [mul_assoc]

def run (round : σ → List α → Option (σ × ω × List α)) : Nat → σ → List α → σ × ω × List α
  | 0, s, text => (s, 1, text)
  | fuel + 1, s, text =>
    match round s text with
    | none => (s, 1, text)
    | some (s', out, rest) => emit out (run round fuel s' rest)

def drain (round : σ → List α → Option (σ × ω × List α)) (s : σ) (text : List α) : σ × ω × List α := run round text.length s text

/-- Every round that does not wait takes something. -/
def Consumes (round : σ → List α → Option (σ × ω × List α)) : Prop :=
  ∀ s text s' out rest, round s text = some (s', out, rest) → rest.length < text.length

/-- What a round does is done on a longer text too. -/
def Stable (round : σ → List α → Option (σ × ω × List α)) : Prop :=
  ∀ s text s' out rest, round s text = some (s', out, rest) → ∀ more, drain round s (text ++ more) = emit out (drain round s' (rest ++ more))

def feed (round : σ → List α → Option (σ × ω × List α)) (result : σ × ω × List α) (chunk : List α) : σ × ω × List α :=
  emit result.2.1 (drain round result.1 (result.2.2 ++ chunk))

section
variable {round : σ → List α → Option (σ × ω × List α)} (consumes : Consumes round) {s : σ} {text : List α}
include consumes

omit [Monoid ω] in
theorem round_nil (s : σ) : round s [] = none := by
  cases taken : round s [] with
  | none => rfl
  | some step => exact absurd (consumes s [] step.1 step.2.1 step.2.2 taken) (Nat.not_lt_zero _)

theorem run_nil (fuel : Nat) (s : σ) : run round fuel s [] = (s, 1, []) := by
  cases fuel with
  | zero => rfl
  | succ fuel =>
    unfold run
    rw [round_nil consumes]

theorem run_congr {fuel fuel' : Nat} (enough : text.length ≤ fuel) (enough' : text.length ≤ fuel') :
    run round fuel s text = run round fuel' s text := by
  induction fuel generalizing fuel' s text with
  | zero =>
    obtain rfl := eq_nil_of_length_eq_zero (Nat.le_zero.mp enough)
    rw [run_nil consumes, run_nil consumes]
  | succ fuel ih =>
    cases fuel' with
    | zero =>
      obtain rfl := eq_nil_of_length_eq_zero (Nat.le_zero.mp enough')
      rw [run_nil consumes, run_nil consumes]
    | succ fuel' =>
      unfold run
      cases taken : round s text with
      | none => rfl
      | some step =>
        have less := consumes s text step.1 step.2.1 step.2.2 taken
        have same : run round fuel step.1 step.2.2 = run round fuel' step.1 step.2.2 := ih (by omega) (by omega)
        dsimp only
        rw [same]

theorem drain_none (waits : round s text = none) : drain round s text = (s, 1, text) := by
  unfold drain
  cases text with
  | nil => exact run_nil consumes 0 s
  | cons c text =>
    rw [length_cons]
    unfold run
    rw [waits]

theorem drain_nil (s : σ) : drain round s [] = (s, 1, []) := drain_none consumes (round_nil consumes s)

theorem drain_some {s' : σ} {out : ω} {rest : List α} (taken : round s text = some (s', out, rest)) :
    drain round s text = emit out (drain round s' rest) := by
  have less := consumes s text s' out rest taken
  unfold drain
  obtain ⟨fuel, length⟩ := Nat.exists_eq_succ_of_ne_zero (Nat.ne_of_gt (Nat.zero_lt_of_lt less))
  rw [length]
  conv_lhs => unfold run
  rw [taken]
  dsimp only
  rw [run_congr consumes (show rest.length ≤ fuel by omega) (Nat.le_refl _)]

variable (stable : Stable round)
include stable

theorem drain_append (s : σ) (text more : List α) : drain round s (text ++ more) = feed round (drain round s text) more := by
  induction length : text.length using Nat.strongRecOn generalizing s text with
  | ind n ih =>
    unfold feed
    cases taken : round s text with
    | none =>
      rw [drain_none consumes taken]
      exact (emit_one _).symm
    | some step =>
      obtain ⟨s', out, rest⟩ := step
      have later := ih rest.length (by rw [← length]; exact consumes s text s' out rest taken) s' rest rfl
      unfold feed at later
      rw [stable s text s' out rest taken more, later, drain_some consumes taken, emit_emit]
      rfl

theorem foldl_feed (s : σ) (chunks : List (List α)) : chunks.foldl (feed round) (s, 1, []) = drain round s chunks.flatten := by
  have from_ (text : List α) : chunks.foldl (feed round) (drain round s text) = drain round s (text ++ chunks.flatten) := by
    induction chunks generalizing text with
    | nil => rw [flatten_nil, append_nil, foldl_nil]
    | cons chunk chunks ih => rw [foldl_cons, ← drain_append consumes stable, ih, flatten_cons, append_assoc]
  have start := from_ []
  rw [drain_nil consumes] at start
  exact start

end

end TriaxialKV.Rounds
