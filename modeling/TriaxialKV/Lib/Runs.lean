/-!
# Runs of a guarded machine

`Reachable step guard start` holds of the states that a run from `start` reaches when every step
meets its guard.
-/

namespace TriaxialKV.Runs
variable {σ α : Type} {step : σ → α → σ} {guard : σ → α → Prop} {start s : σ} {as : List α}

inductive Reachable (step : σ → α → σ) (guard : σ → α → Prop) (start : σ) : σ → Prop where
  | start : Reachable step guard start start
  | step {s : σ} {a : α} : Reachable step guard start s → guard s a → Reachable step guard start (step s a)

theorem Reachable.invariant (reachable : Reachable step guard start s) (inv : σ → Prop)
    (initial : inv start) (preserve : ∀ s a, inv s → guard s a → inv (step s a)) : inv s := by
  induction reachable with
  | start => exact initial
  | step _ allowed ih => exact preserve _ _ ih allowed

theorem Reachable.weaken {weaker : σ → α → Prop} (reachable : Reachable step guard start s)
    (imp : ∀ s a, guard s a → weaker s a) : Reachable step weaker start s := by
  induction reachable with
  | start => exact .start
  | step _ allowed ih => exact .step ih (imp _ _ allowed)

/-- Every step of the run `as` from `s` meets its guard. -/
def Guarded (step : σ → α → σ) (guard : σ → α → Prop) : σ → List α → Prop
  | _, [] => True
  | s, a :: as => guard s a ∧ Guarded step guard (step s a) as

instance instDecidableGuarded [∀ s a, Decidable (guard s a)] : ∀ (s : σ) (as : List α), Decidable (Guarded step guard s as)
  | _, [] => .isTrue trivial
  | s, a :: as => @instDecidableAnd _ _ _ (instDecidableGuarded (step s a) as)

theorem Guarded.reachable (prior : Reachable step guard start s)
    (guarded : Guarded step guard s as) : Reachable step guard start (as.foldl step s) := by
  induction as generalizing s with
  | nil => exact prior
  | cons a as ih => exact ih (.step prior guarded.1) guarded.2

theorem guarded_append {bs : List α} : Guarded step guard s (as ++ bs) ↔ Guarded step guard s as ∧ Guarded step guard (as.foldl step s) bs := by
  induction as generalizing s with
  | nil => exact (and_iff_right trivial).symm
  | cons a as ih =>
    rw [List.cons_append, List.foldl_cons, Guarded, Guarded, ih, and_assoc]

theorem Guarded.place (prior : Reachable step guard start s) (guarded : Guarded step guard s as) {k : Nat} {a : α} (here : as[k]? = some a) :
    Reachable step guard start ((as.take k).foldl step s) ∧ guard ((as.take k).foldl step s) a ∧
      (as.take (k + 1)).foldl step s = step ((as.take k).foldl step s) a := by
  induction as generalizing s k with
  | nil => cases here
  | cons first as ih =>
    cases k with
    | zero =>
      cases here
      exact ⟨prior, guarded.1, rfl⟩
    | succ k => exact ih (.step prior guarded.1) guarded.2 here

section
variable {try_ : σ → α → Option σ}

/-- The states that a run of successful steps reaches. -/
inductive Run (try_ : σ → α → Option σ) (guard : σ → α → Prop) (start : σ) : σ → Prop where
  | start : Run try_ guard start start
  | step {s s' : σ} {a : α} : Run try_ guard start s → guard s a → try_ s a = some s' → Run try_ guard start s'

theorem Run.invariant (run : Run try_ guard start s) (inv : σ → Prop) (initial : inv start)
    (preserve : ∀ s a s', inv s → guard s a → try_ s a = some s' → inv s') : inv s := by
  induction run with
  | start => exact initial
  | step _ allowed done ih => exact preserve _ _ _ ih allowed done

/-- A list of steps, each of them permitted and successful. -/
def attempt (try_ : σ → α → Option σ) (guard : σ → α → Prop) [∀ s a, Decidable (guard s a)] : σ → List α → Option σ
  | s, [] => some s
  | s, a :: as => if guard s a then (try_ s a).bind (fun s => attempt try_ guard s as) else none

theorem Run.of_attempt [∀ s a, Decidable (guard s a)] {s' : σ} (prior : Run try_ guard start s)
    (done : attempt try_ guard s as = some s') : Run try_ guard start s' := by
  induction as generalizing s with
  | nil =>
    cases done
    exact prior
  | cons a as ih =>
    unfold attempt at done
    split at done
    · next allowed =>
      obtain ⟨next, first, rest⟩ := Option.bind_eq_some_iff.mp done
      exact ih (.step prior allowed first) rest
    · cases done

end

end TriaxialKV.Runs
