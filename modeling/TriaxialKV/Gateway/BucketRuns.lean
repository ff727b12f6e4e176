import TriaxialKV.Gateway.Bucket

/-!
# Buckets over changes of the workers

Only the first initialisation of a bucket divides the lengths up to 4096; every later one divides all lengths.
-/

namespace TriaxialKV.Gateway
open List

namespace Bucket
variable {b : Bucket} {urls : List String}

def Even (b : Bucket) : Prop :=
  b.lMax = 4096 ∧ b.prefillWorkerUrls = [] ∨ b.lMax = usizeMax ∧ (b.prefillWorkerUrls ≠ [] →
      b.boundary = ({ new 0 with lMax := usizeMax }.initPrefillWorkerUrls b.prefillWorkerUrls).boundary)

theorem boundary_singleton (b b' : Bucket) (single : urls.length = 1) :
    (b.initPrefillWorkerUrls urls).boundary = (b'.initPrefillWorkerUrls urls).boundary := by
  obtain ⟨_, rfl⟩ := length_eq_one_iff.mp single
  simp [initPrefillWorkerUrls]

theorem gap_ne {n : Nat} (fits : n ≤ usizeMax.toNat) (several : 1 < n) : usizeMax / UInt64.ofNat n ≠ 4096 / UInt64.ofNat n := by
  intro same
  have top : usizeMax.toNat = 18446744073709551615 := rfl
  have small : (UInt64.ofNat n).toNat = n := UInt64.toNat_ofNat_of_lt' (by rw [UInt64.size]; omega)
  have quotients : usizeMax.toNat / n = 4096 / n := by
    have := congrArg UInt64.toNat same
    rwa [UInt64.toNat_div, UInt64.toNat_div, small] at this
  rw [top] at fits quotients
  rcases Nat.lt_or_ge 4096 n with large | le
  · rw [Nat.div_eq_of_lt large] at quotients
    have := Nat.div_pos fits (by omega)
    omega
  · have low : 4097 ≤ 18446744073709551615 / n := (Nat.le_div_iff_mul_le (by omega)).mpr (by omega)
    have high := Nat.div_le_self 4096 n
    omega

theorem boundary_differs {b' : Bucket} (fits : urls.length ≤ usizeMax.toNat) (several : 1 < urls.length) (all : b.lMax = usizeMax)
    (fresh : b'.lMax = 4096) : (b.initPrefillWorkerUrls urls).boundary ≠ (b'.initPrefillWorkerUrls urls).boundary := by
  intro same
  -- the first of several entries ends where the second begins
  have first := congrArg (fun boundary => boundary.head?.map (·.high)) same
  obtain ⟨url, rest, rfl⟩ := exists_cons_of_length_pos (Nat.zero_lt_of_lt several)
  have short : 0 ≠ rest.length := by rw [length_cons] at several; omega
  simp only [initPrefillWorkerUrls, zipIdx_cons, map_cons, head?_cons, Option.map_some, all, fresh, length_cons, Nat.add_sub_cancel,
    if_neg short] at first
  have ends := Option.some.inj first
  rw [UInt64.sub_left_inj] at ends
  exact gap_ne fits several (by simpa using ends)

theorem even_initUrls (some : urls ≠ []) (later : b.lMax = usizeMax ∨ urls.length = 1) : (b.initPrefillWorkerUrls urls).Even := by
  have count : urls.length ≠ 0 := fun none => some (length_eq_zero_iff.mp none)
  refine .inr ⟨if_neg count, fun _ => ?_⟩
  rcases later with later | single
  · unfold initPrefillWorkerUrls
    dsimp only
    rw [later]
  · exact boundary_singleton b _ single

theorem Even.later (even : b.Even) (some : b.prefillWorkerUrls ≠ []) : b.lMax = usizeMax := by
  rcases even with ⟨_, none⟩ | ⟨later, _⟩
  · exact absurd none some
  · exact later

end Bucket

namespace BucketPolicy
variable {env : Env} {p : BucketPolicy}

def changeGuard (_ : BucketPolicy) : Op → Prop
  | .addPrefillUrl _ => True
  | .removePrefillUrl _ => True
  | .selectWorker _ _ _ => True
  | .initPrefillWorkerUrls _ => False
  | .adjustBoundary _ => False

theorem step_even {op : Op} (even : p.Each Bucket.Even) (allowed : changeGuard p op) : (step env p op).Each Bucket.Even := by
  cases op with
  | initPrefillWorkerUrls _ => exact allowed.elim
  | adjustBoundary _ => exact allowed.elim
  | addPrefillUrl worker =>
    have before := even.entry (env.normalizeModelKey worker.modelId) (fun _ => .inl ⟨rfl, rfl⟩)
    refine even.setBucket _ (Bucket.even_initUrls ?_ ?_)
    · split
      · next listed => exact ne_nil_of_mem listed
      · exact append_ne_nil_of_right_ne_nil _ (cons_ne_nil _ _)
    · rcases before with ⟨_, none⟩ | ⟨later, _⟩
      · rw [none, if_neg not_mem_nil]
        exact .inr rfl
      · exact .inl later
  | removePrefillUrl worker =>
    unfold step removePrefillUrl
    dsimp only
    split
    · exact even
    · next b bucket =>
      have before := even _ b bucket
      refine even.setBucket _ ?_
      split
      · next some =>
        have some := ne_nil_of_length_pos some
        exact Bucket.even_initUrls some (.inl (before.later (fun none => some (by rw [none]; rfl))))
      · next none =>
        have none := length_eq_zero_iff.mp (Nat.eq_zero_of_not_pos none)
        exact before.imp (fun first => ⟨first.1, none⟩) (fun later => ⟨later.1, fun some => absurd none some⟩)
  | selectWorker workers requestText draw =>
    unfold step selectWorker
    dsimp only
    split
    · exact even
    · split
      · next b bucket => exact even.setBucket _ (even _ b bucket)
      · exact even

/-- The URLs of a model after one more change of its workers. -/
def change (env : Env) (modelKey : String) (urls : List String) : Op → List String
  | .addPrefillUrl worker => if env.normalizeModelKey worker.modelId = modelKey ∧ worker.url ∉ urls then urls ++ [worker.url] else urls
  | .removePrefillUrl worker => if env.normalizeModelKey worker.modelId = modelKey then urls.filter (· ≠ worker.url) else urls
  | _ => urls

def listed (env : Env) (modelKey : String) (ops : List Op) : List String := ops.foldl (change env modelKey) []

theorem entry_setBucket (p : BucketPolicy) (key modelKey : String) (b : Bucket) :
    (p.setBucket key b).entry modelKey = if modelKey = key then b else p.entry modelKey := by
  unfold entry setBucket
  split
  · next same => rw [same, AList.lookup_insert, Option.getD_some]
  · next differ => rw [AList.lookup_insert_ne differ]

theorem entry_of_lookup {modelKey : String} {b : Bucket} (bucket : p.buckets.lookup modelKey = some b) : p.entry modelKey = b := by
  unfold entry
  rw [bucket, Option.getD_some]

theorem step_listed {op : Op} (allowed : changeGuard p op) (modelKey : String) :
    ((step env p op).entry modelKey).prefillWorkerUrls = change env modelKey (p.entry modelKey).prefillWorkerUrls op := by
  cases op with
  | initPrefillWorkerUrls _ => exact allowed.elim
  | adjustBoundary _ => exact allowed.elim
  | addPrefillUrl worker =>
    unfold step addPrefillUrl change
    dsimp only
    rw [entry_setBucket]
    by_cases same : modelKey = env.normalizeModelKey worker.modelId
    · subst same
      by_cases known : worker.url ∈ (p.entry (env.normalizeModelKey worker.modelId)).prefillWorkerUrls <;>
        simp [known, Bucket.initPrefillWorkerUrls]
    · rw [if_neg same, if_neg (fun fits => same fits.1.symm)]
  | removePrefillUrl worker =>
    unfold step removePrefillUrl change
    dsimp only
    split
    · next absent =>
      split
      · next same =>
        have empty : (p.entry modelKey).prefillWorkerUrls = [] := by
          unfold entry
          rw [← same, absent]
          rfl
        rw [empty]
        rfl
      · rfl
    · next b bucket =>
      rw [entry_setBucket]
      by_cases same : modelKey = env.normalizeModelKey worker.modelId
      · rw [if_pos same, if_pos same.symm, same, entry_of_lookup bucket]
        split <;> rfl
      · rw [if_neg same, if_neg (Ne.symm same)]
  | selectWorker workers requestText draw =>
    unfold step selectWorker change
    dsimp only
    split
    · rfl
    · split
      · next b bucket =>
        rw [entry_setBucket]
        split
        · next same =>
          rw [same, entry_of_lookup bucket]
          rfl
        · rfl
      · rfl

theorem run_listed {ops : List Op} (guarded : Runs.Guarded (step env) changeGuard p ops) (modelKey : String) :
    ((ops.foldl (step env) p).entry modelKey).prefillWorkerUrls = ops.foldl (change env modelKey) (p.entry modelKey).prefillWorkerUrls := by
  induction ops generalizing p with
  | nil => rfl
  | cons op ops ih => rw [foldl_cons, ih guarded.2, step_listed guarded.1, foldl_cons]

/-- The bucket divides all lengths among its workers; that is what a fresh one does exactly when there is a single worker. -/
theorem boundary_after_changes (env : Env) (config : BucketConfig) {ops : List Op}
    (guarded : Runs.Guarded (step env) changeGuard (withConfig config) ops) {modelKey : String} (nonempty : listed env modelKey ops ≠ [])
    (period : UInt64) : ∃ b, (ops.foldl (step env) (withConfig config)).buckets.lookup modelKey = some b ∧
      b.prefillWorkerUrls = listed env modelKey ops ∧
      b.boundary = ({ Bucket.new period with lMax := usizeMax }.initPrefillWorkerUrls (listed env modelKey ops)).boundary ∧
      ((listed env modelKey ops).length ≤ usizeMax.toNat →
        (b.boundary = ((Bucket.new period).initPrefillWorkerUrls (listed env modelKey ops)).boundary ↔ (listed env modelKey ops).length = 1)) := by
  have even : (ops.foldl (step env) (withConfig config)).Each Bucket.Even :=
    (guarded.reachable .start).invariant (Each Bucket.Even) nofun (fun _ _ before allowed => step_even before allowed)
  have urls := run_listed guarded modelKey
  change _ = listed env modelKey ops at urls
  cases bucket : (ops.foldl (step env) (withConfig config)).buckets.lookup modelKey with
  | none =>
    unfold entry at urls
    rw [bucket] at urls
    exact absurd urls.symm nonempty
  | some b =>
    rw [entry_of_lookup bucket] at urls
    rw [← urls] at nonempty ⊢
    rcases even modelKey b bucket with ⟨_, none⟩ | ⟨_, divided⟩
    · exact absurd none nonempty
    · refine ⟨b, rfl, rfl, divided nonempty, fun fits => ?_⟩
      rw [show b.boundary = _ from divided nonempty]
      refine ⟨fun same => ?_, fun single => Bucket.boundary_singleton _ _ single⟩
      by_contra several
      exact Bucket.boundary_differs fits (by have := length_pos_of_ne_nil nonempty; omega) rfl rfl same

theorem boundary_after_changes_readded : let w1 : Worker := ⟨"w1", "", true, true⟩
    let ops : List Op := [.addPrefillUrl w1, .addPrefillUrl ⟨"w2", "", true, true⟩, .removePrefillUrl w1]
    ∃ b, (ops.foldl (step exactEnv) (withConfig .default)).buckets.lookup "unknown" = some b ∧ b.prefillWorkerUrls = ["w2"] ∧
      b.boundary = ((Bucket.new 0).initPrefillWorkerUrls ["w2"]).boundary := by
  intro w1 ops
  have guarded : Runs.Guarded (step exactEnv) changeGuard (withConfig .default) ops := ⟨trivial, trivial, trivial, trivial⟩
  have left : listed exactEnv "unknown" ops = ["w2"] := by decide
  obtain ⟨b, bucket, urls, _, fresh⟩ := boundary_after_changes exactEnv .default guarded (left ▸ cons_ne_nil _ _) 0
  rw [left] at urls fresh
  exact ⟨b, bucket, urls, (fresh (by decide)).mpr rfl⟩

theorem second_worker_divides_all_lengths : let p := twoWorkers.foldl (fun p w => step exactEnv p (.addPrefillUrl w)) (withConfig .default)
    (p.buckets.lookup "unknown").map (·.boundary.map (·.high)) = some [usizeMax / 2 - 1, usizeMax] ∧
      (((Bucket.new 5000).initPrefillWorkerUrls (twoWorkers.map (·.url))).boundary.map (·.high)) = [2047, usizeMax] := by
  decide +kernel

end BucketPolicy

end TriaxialKV.Gateway
