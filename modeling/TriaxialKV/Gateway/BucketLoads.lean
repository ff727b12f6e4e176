import Mathlib
import TriaxialKV.Gateway.BucketRuns

/-!
# The loads of a bucket

A change of the workers starts every counter of its model again at 0.
-/

namespace TriaxialKV.Gateway
open List

namespace Bucket
variable {b : Bucket} {requests rest : List SequencerRequest} {reqLoads : AList (fun _ : Nat => UInt64)} {loads : Loads} {url : String} {x y : UInt64}

theorem toNat_saturatingSub : (saturatingSub x y).toNat = x.toNat - y.toNat := by
  unfold saturatingSub
  split
  · next le => exact (Nat.sub_eq_zero_of_le (UInt64.le_iff_toNat_le.mp le)).symm
  · next gt => exact UInt64.toNat_sub_of_le _ _ (UInt64.le_of_lt (UInt64.not_le.mp gt))

theorem toNat_add_of_lt (small : x.toNat + y.toNat < 2 ^ 64) : (x + y).toNat = x.toNat + y.toNat := by
  rw [UInt64.toNat_add, Nat.mod_eq_of_lt small]

theorem toNat_saturatingAdd (small : x.toNat + y.toNat < 2 ^ 64) : (saturatingAdd x y).toNat = x.toNat + y.toNat := by
  have fits : x ≤ usizeMax - y := by
    have most : usizeMax.toNat = 2 ^ 64 - 1 := rfl
    rw [UInt64.le_iff_toNat_le, UInt64.toNat_sub_of_le _ _ (UInt64.le_iff_toNat_le.mpr (by omega))]
    omega
  unfold saturatingAdd
  rw [if_pos fits, toNat_add_of_lt small]

def chars (requests : List SequencerRequest) : Nat := (requests.map (·.charCnt.toNat)).sum

def charsOf (url : String) (requests : List SequencerRequest) : Nat := chars (requests.filter (·.prefillWorkerUrl = url))

/-- The map has the requests of the list and no others. -/
def Lists (reqLoads : AList (fun _ : Nat => UInt64)) (requests : List SequencerRequest) : Prop :=
  ∀ id count, reqLoads.lookup id = some count ↔ ∃ req ∈ requests, req.id = id ∧ req.charCnt = count

/-- The counter of `url` is `more` above its requests in the list. -/
def Charges (loads : Loads) (url : String) (more : Nat) (requests : List SequencerRequest) : Prop :=
  ∃ count, loads.lookup url = some count ∧ count.toNat = charsOf url requests + more

theorem charsOf_cons (req : SequencerRequest) : charsOf url (req :: rest) =
    (if req.prefillWorkerUrl = url then req.charCnt.toNat else 0) + charsOf url rest := by
  unfold charsOf chars
  by_cases here : req.prefillWorkerUrl = url <;> simp [here]

theorem charsOf_le : charsOf url requests ≤ chars requests := by
  induction requests with
  | nil => exact Nat.le_refl _
  | cons req rest ih =>
    have first : chars (req :: rest) = req.charCnt.toNat + chars rest := sum_cons
    rw [charsOf_cons, first]
    split <;> omega

/-- What the loop over expired requests leaves. -/
structure Expired (requests : List SequencerRequest) (reqLoads : AList (fun _ : Nat => UInt64)) (loads : Loads) (removed : UInt64)
    (left : List SequencerRequest × AList (fun _ : Nat => UInt64) × Loads × UInt64) : Prop where
  suffix : left.1 <:+ requests
  total : left.2.2.2.toNat + chars left.1 = removed.toNat + chars requests
  lists : Lists left.2.1 left.1
  charges : ∀ url more, Charges loads url more requests → Charges left.2.2.1 url more left.1

theorem expireLoop_expired {now : Nat} {period removed : UInt64} (nodup : (requests.map (·.id)).Nodup) (lists : Lists reqLoads requests)
    (small : removed.toNat + chars requests < 2 ^ 64) :
    Expired requests reqLoads loads removed (expireLoop now period requests reqLoads loads removed) := by
  induction requests generalizing reqLoads loads removed with
  | nil => exact ⟨suffix_rfl, rfl, lists, fun _ _ charges => charges⟩
  | cons req rest ih =>
    unfold expireLoop
    dsimp only
    split
    · obtain ⟨other, nodup⟩ := nodup_cons.mp nodup
      have first : chars (req :: rest) = req.charCnt.toNat + chars rest := sum_cons
      rw [first] at small
      have removed' : (removed + req.charCnt).toNat = removed.toNat + req.charCnt.toNat := toNat_add_of_lt (by omega)
      have lists' : Lists (reqLoads.erase req.id) rest := by
        intro id count
        by_cases same : id = req.id
        · subst same
          rw [AList.lookup_erase]
          apply iff_of_false (Option.some_ne_none count).symm
          rintro ⟨req', mem, same, _⟩
          exact other (mem_map.mpr ⟨req', mem, same⟩)
        · rw [AList.lookup_erase_ne same, lists]
          simp only [exists_mem_cons_iff]
          exact or_iff_right (fun first => same first.1.symm)
      obtain ⟨suffix, total, lists, charges⟩ := ih nodup lists' (show (removed + req.charCnt).toNat + _ < _ by omega)
      refine ⟨suffix.trans (suffix_cons _ _), by omega, lists, fun url more counted => charges url more ?_⟩
      obtain ⟨count, known, exact⟩ := counted
      rw [charsOf_cons] at exact
      by_cases here : req.prefillWorkerUrl = url
      · rw [if_pos here] at exact
        rw [here, known]
        exact ⟨_, AList.lookup_insert _, by rw [toNat_saturatingSub]; omega⟩
      · rw [if_neg here, Nat.zero_add] at exact
        refine ⟨count, ?_, exact⟩
        split
        · rwa [AList.lookup_insert_ne (Ne.symm here)]
        · exact known
    · exact ⟨suffix_rfl, rfl, lists, fun _ _ charges => charges⟩

/-- The total and the map of loads are those of the listed requests. -/
structure Accounts (b : Bucket) : Prop where
  total : b.loadTotal.toNat = chars b.requestList
  distinct : (b.requestList.map (·.id)).Nodup
  lists : Lists b.tReqLoads b.requestList

/-- So are the counters of the registered URLs. -/
def Charged (b : Bucket) : Prop := ∀ url ∈ b.prefillWorkerUrls, Charges b.charsPerUrl url 0 b.requestList

theorem accounts_new (period : UInt64) : (new period).Accounts :=
  ⟨rfl, nodup_nil, fun _ _ => iff_of_false nofun (by rintro ⟨_, ⟨⟩, _⟩)⟩

theorem charged_init (b : Bucket) (urls : List String) :
    (b.initPrefillWorkerUrls urls).Charged ↔ ∀ url ∈ urls, charsOf url b.requestList = 0 := by
  have cleared (urls : List String) (loads : Loads) (url : String) (known : url ∈ urls ∨ loads.lookup url = some 0) :
      (urls.foldl (fun loads url => loads.insert url 0) loads).lookup url = some 0 := by
    induction urls generalizing loads with
    | nil => exact known.resolve_left not_mem_nil
    | cons first urls ih =>
      apply ih
      by_cases same : url = first
      · exact .inr (same ▸ AList.lookup_insert _)
      · rw [AList.lookup_insert_ne same]
        exact known.imp_left (fun mem => (mem_cons.mp mem).resolve_left same)
  refine forall₂_congr (fun url mem => ?_)
  have zero : (b.initPrefillWorkerUrls urls).charsPerUrl.lookup url = some 0 := cleared urls ∅ url (.inl mem)
  unfold Charges
  rw [zero]
  constructor
  · rintro ⟨count, same, counted⟩
    cases same
    exact counted.symm
  · exact fun none => ⟨0, rfl, none.symm⟩

section
variable (accounts : b.Accounts) (now : Nat) {id : Nat} {charCnt : UInt64} (prefillUrl : String) (fresh : id ∉ b.requestList.map (·.id))
  (small : chars b.requestList + charCnt.toNat < 2 ^ 64)
include accounts fresh small

theorem Accounts.postProcessRequest : (b.postProcessRequest now id charCnt prefillUrl).Accounts ∧
    (b.Charged → (b.postProcessRequest now id charCnt prefillUrl).Charged) := by
  have loop := @expireLoop_expired b.requestList b.tReqLoads
    (b.charsPerUrl.insert prefillUrl ((b.charsPerUrl.lookup prefillUrl).getD 0 + charCnt)) now b.period 0 accounts.distinct accounts.lists
    (show 0 + chars b.requestList < 2 ^ 64 by omega)
  unfold Bucket.postProcessRequest
  dsimp only
  generalize expireLoop now b.period b.requestList b.tReqLoads _ 0 = left at loop
  obtain ⟨rest, reqLoads, loads, removed⟩ := left
  obtain ⟨suffix, total, lists, charges⟩ := loop
  have total : removed.toNat + chars rest = chars b.requestList := total.trans (Nat.zero_add _)
  have fresh' : id ∉ rest.map (·.id) := fun mem => fresh ((suffix.sublist.map _).subset mem)
  refine ⟨⟨?_, ?_, fun id' count => ?_⟩, fun charged url mem => ?_⟩
  · have before := accounts.total
    have added : chars (rest ++ [⟨id, charCnt, now, prefillUrl⟩]) = chars rest + charCnt.toNat := by simp [chars]
    change (saturatingAdd (saturatingSub b.loadTotal removed) charCnt).toNat = _
    rw [added, toNat_saturatingAdd (by rw [toNat_saturatingSub]; omega), toNat_saturatingSub]
    omega
  · rw [map_append, map_singleton, nodup_append_comm]
    exact nodup_cons.mpr ⟨fresh', (accounts.distinct.sublist (suffix.sublist.map _))⟩
  · by_cases same : id' = id
    · subst same
      rw [AList.lookup_insert, Option.some_inj]
      constructor
      · rintro rfl
        exact ⟨_, mem_append_right _ mem_cons_self, rfl, rfl⟩
      · rintro ⟨req, mem, same, rfl⟩
        rcases mem_append.mp mem with old | new
        · exact absurd (same ▸ mem_map_of_mem old) fresh'
        · rw [mem_singleton.mp new]
    · rw [AList.lookup_insert_ne same, lists]
      simp only [mem_append, mem_singleton, or_and_right, exists_or, exists_eq_left]
      exact (or_iff_left (fun new => same new.1.symm)).symm
  · obtain ⟨count, known, exact⟩ := charged url mem
    have most : charsOf url b.requestList ≤ chars b.requestList := charsOf_le
    obtain ⟨count', known', exact'⟩ := charges url (if url = prefillUrl then charCnt.toNat else 0) (by
      by_cases same : url = prefillUrl
      · subst same
        rw [if_pos rfl, known]
        exact ⟨_, AList.lookup_insert _, by rw [Option.getD_some, toNat_add_of_lt (by omega)]; omega⟩
      · rw [if_neg same]
        exact ⟨count, by rwa [AList.lookup_insert_ne same], exact⟩)
    refine ⟨count', known', exact'.trans ?_⟩
    have added : charsOf url (rest ++ [⟨id, charCnt, now, prefillUrl⟩]) = charsOf url rest + if url = prefillUrl then charCnt.toNat else 0 := by
      unfold charsOf chars
      by_cases same : prefillUrl = url <;> simp [same, eq_comm]
    rw [added]
    rfl

end

theorem adjustBoundary_requests (b : Bucket) : b.adjustBoundary.loadTotal = b.loadTotal ∧ b.adjustBoundary.requestList = b.requestList ∧
    b.adjustBoundary.tReqLoads = b.tReqLoads := by
  unfold Bucket.adjustBoundary
  split
  · exact ⟨rfl, rfl, rfl⟩
  · dsimp only
    split
    · exact ⟨rfl, rfl, rfl⟩
    · split <;> exact ⟨rfl, rfl, rfl⟩

theorem Charged.adjustBoundary (charged : b.Charged) : b.adjustBoundary.Charged := by
  have counted : b.updateWorkersCnt.Charged := by
    intro url mem
    obtain ⟨count, known, exact⟩ := charged url mem
    have listed : url ∈ b.charsPerUrl.keys := AList.mem_keys.mp (AList.lookup_isSome.mp (by rw [known]; rfl))
    refine ⟨count, ?_, exact⟩
    apply foldlRecOn (motive := fun loads : Loads => loads.lookup url = some count)
    · apply foldlRecOn (motive := fun loads : Loads => loads.lookup url = some count) _ _ known
      intro loads kept new mem'
      have other : url ≠ new := by
        rintro rfl
        exact of_decide_eq_true (mem_filter.mp mem').2 listed
      rwa [AList.lookup_insert_ne other]
    · intro loads kept gone mem'
      have other : url ≠ gone := by
        rintro rfl
        exact of_decide_eq_true (mem_filter.mp mem').2 mem
      split
      · rwa [AList.lookup_erase_ne other]
      · exact kept
  unfold Bucket.adjustBoundary
  split
  · exact charged
  · dsimp only
    split
    · exact counted
    · split <;> exact counted

end Bucket

namespace BucketPolicy
variable {env : Env} {p : BucketPolicy}

/-- Request identifiers are unused, and the characters of the listed requests fit a machine word. -/
def accountGuard (p : BucketPolicy) : Op → Prop
  | .selectWorker _ requestText draw =>
    p.Each (fun b => draw.id ∉ b.requestList.map (·.id) ∧ Bucket.chars b.requestList + (charCount requestText).toNat < 2 ^ 64)
  | _ => True

/-- A change of the workers finds no characters listed for the URLs that it registers or keeps. -/
def idleGuard (env : Env) (p : BucketPolicy) : Op → Prop
  | .initPrefillWorkerUrls workers => ∀ key ∈ workers.map (fun w => env.normalizeModelKey w.modelId),
    ∀ url ∈ (workers.filter (fun w => env.normalizeModelKey w.modelId = key)).map (·.url), Bucket.charsOf url (p.entry key).requestList = 0
  | .addPrefillUrl worker => ∀ url ∈ change env (env.normalizeModelKey worker.modelId)
      (p.entry (env.normalizeModelKey worker.modelId)).prefillWorkerUrls (.addPrefillUrl worker),
    Bucket.charsOf url (p.entry (env.normalizeModelKey worker.modelId)).requestList = 0
  | .removePrefillUrl worker => ∀ url ∈ change env (env.normalizeModelKey worker.modelId)
      (p.entry (env.normalizeModelKey worker.modelId)).prefillWorkerUrls (.removePrefillUrl worker),
    Bucket.charsOf url (p.entry (env.normalizeModelKey worker.modelId)).requestList = 0
  | .adjustBoundary _ => True
  | .selectWorker _ _ _ => True

theorem lookup_setBucket (p : BucketPolicy) (modelKey key : String) (b : Bucket) :
    (p.setBucket modelKey b).buckets.lookup key = if key = modelKey then some b else p.buckets.lookup key := by
  unfold setBucket
  split
  · next same => rw [same, AList.lookup_insert]
  · next differ => rw [AList.lookup_insert_ne differ]

theorem lookup_initKeys (urls : String → List String) {keys : List String} (nodup : keys.Nodup) (key : String) :
    (keys.foldl (fun p key => p.setBucket key ((p.entry key).initPrefillWorkerUrls (urls key))) p).buckets.lookup key =
      if key ∈ keys then some ((p.entry key).initPrefillWorkerUrls (urls key)) else p.buckets.lookup key := by
  induction keys generalizing p with
  | nil => exact (if_neg not_mem_nil).symm
  | cons first keys ih =>
    obtain ⟨other, nodup⟩ := nodup_cons.mp nodup
    rw [foldl_cons, ih nodup, entry_setBucket, lookup_setBucket]
    by_cases same : key = first
    · rw [same, if_neg other, if_pos rfl, if_pos mem_cons_self]
    · rw [if_neg same, if_neg same]
      simp only [mem_cons, same, false_or]

theorem Each.initKeys {P : Bucket → Prop} (each : p.Each P) (urls : String → List String) {keys : List String} (nodup : keys.Nodup)
    (holds : ∀ key ∈ keys, P ((p.entry key).initPrefillWorkerUrls (urls key))) :
    (keys.foldl (fun p key => p.setBucket key ((p.entry key).initPrefillWorkerUrls (urls key))) p).Each P := by
  intro key b here
  rw [lookup_initKeys urls nodup] at here
  split at here
  · next mem =>
    cases here
    exact holds key mem
  · exact each key b here

theorem step_accounts {op : Op} (accounts : p.Each Bucket.Accounts) (allowed : accountGuard p op) : (step env p op).Each Bucket.Accounts := by
  have kept {b b' : Bucket} (holds : b.Accounts)
      (same : b'.loadTotal = b.loadTotal ∧ b'.requestList = b.requestList ∧ b'.tReqLoads = b.tReqLoads) : b'.Accounts := by
    obtain ⟨total, list, loads⟩ := same
    exact ⟨by rw [total, list]; exact holds.total, by rw [list]; exact holds.distinct, by rw [list, loads]; exact holds.lists⟩
  cases op with
  | initPrefillWorkerUrls workers =>
    exact accounts.initKeys _ (nodup_dedup _) (fun key _ => kept (accounts.entry key Bucket.accounts_new) ⟨rfl, rfl, rfl⟩)
  | addPrefillUrl worker => exact accounts.setBucket _ (kept (accounts.entry _ Bucket.accounts_new) ⟨rfl, rfl, rfl⟩)
  | removePrefillUrl worker =>
    unfold step removePrefillUrl
    dsimp only
    split
    · exact accounts
    · next b bucket =>
      refine accounts.setBucket _ (kept (accounts _ b bucket) ?_)
      split <;> exact ⟨rfl, rfl, rfl⟩
  | adjustBoundary modelKey =>
    unfold step adjustBoundary
    dsimp only
    split
    · exact accounts
    · next b bucket => exact accounts.setBucket _ (kept (accounts modelKey b bucket) b.adjustBoundary_requests)
  | selectWorker workers requestText draw =>
    unfold step selectWorker
    dsimp only
    split
    · exact accounts
    · split
      · next b bucket =>
        obtain ⟨fresh, small⟩ := allowed _ b bucket
        exact accounts.setBucket _ ((accounts _ b bucket).postProcessRequest _ _ fresh small).1
      · exact accounts

theorem step_charged {op : Op} (accounts : p.Each Bucket.Accounts) (charged : p.Each Bucket.Charged) (allowed : accountGuard p op) :
    (step env p op).Each Bucket.Charged ↔ idleGuard env p op := by
  have one (modelKey : String) (b : Bucket) : (p.setBucket modelKey b).Each Bucket.Charged ↔ b.Charged := by
    refine ⟨fun each => each modelKey b ?_, charged.setBucket modelKey⟩
    rw [lookup_setBucket, if_pos rfl]
  cases op with
  | initPrefillWorkerUrls workers =>
    constructor
    · intro each key mem
      refine (Bucket.charged_init _ _).mp (each key _ ?_)
      refine (lookup_initKeys (fun key => (workers.filter (fun w => env.normalizeModelKey w.modelId = key)).map (·.url)) (nodup_dedup _) key).trans ?_
      exact if_pos (mem_dedup.mpr mem)
    · intro idle
      exact charged.initKeys _ (nodup_dedup _) (fun key mem => (Bucket.charged_init _ _).mpr (idle key (mem_dedup.mp mem)))
  | addPrefillUrl worker =>
    have urls (b : Bucket) : change env (env.normalizeModelKey worker.modelId) b.prefillWorkerUrls (.addPrefillUrl worker) =
        if worker.url ∈ b.prefillWorkerUrls then b.prefillWorkerUrls else b.prefillWorkerUrls ++ [worker.url] := by
      by_cases here : worker.url ∈ b.prefillWorkerUrls <;> simp [change, here]
    unfold step addPrefillUrl idleGuard
    dsimp only
    rw [one, Bucket.charged_init, urls]
  | removePrefillUrl worker =>
    have urls (b : Bucket) : change env (env.normalizeModelKey worker.modelId) b.prefillWorkerUrls (.removePrefillUrl worker) =
        b.prefillWorkerUrls.filter (· ≠ worker.url) := if_pos rfl
    unfold step removePrefillUrl idleGuard
    dsimp only
    rw [urls]
    split
    · next none =>
      have fresh : (p.entry (env.normalizeModelKey worker.modelId)).prefillWorkerUrls = [] := by
        unfold entry
        rw [none]
        rfl
      rw [fresh]
      exact iff_of_true charged nofun
    · next b bucket =>
      rw [one, entry_of_lookup bucket]
      split
      · exact Bucket.charged_init _ _
      · next none =>
        have empty := length_eq_zero_iff.mp (Nat.eq_zero_of_not_pos none)
        rw [empty]
        exact iff_of_true (fun url mem => absurd mem not_mem_nil) nofun
  | adjustBoundary modelKey =>
    refine iff_of_true ?_ trivial
    unfold step adjustBoundary
    dsimp only
    split
    · exact charged
    · next b bucket => exact charged.setBucket _ (charged modelKey b bucket).adjustBoundary
  | selectWorker workers requestText draw =>
    refine iff_of_true ?_ trivial
    unfold step selectWorker
    dsimp only
    split
    · exact charged
    · split
      · next b bucket =>
        obtain ⟨fresh, small⟩ := allowed _ b bucket
        exact charged.setBucket _ (((accounts _ b bucket).postProcessRequest _ _ fresh small).2 (charged _ b bucket))
      · exact charged

theorem run_accounts {ops : List Op} (guarded : Runs.Guarded (step env) accountGuard p ops) (accounts : p.Each Bucket.Accounts) (n : Nat) :
    ((ops.take n).foldl (step env) p).Each Bucket.Accounts := by
  induction ops generalizing p n with
  | nil =>
    rw [take_nil]
    exact accounts
  | cons op ops ih =>
    cases n with
    | zero => exact accounts
    | succ n => exact ih guarded.2 (step_accounts accounts guarded.1) n

theorem run_charged {ops : List Op} (guarded : Runs.Guarded (step env) accountGuard p ops) (accounts : p.Each Bucket.Accounts)
    (charged : p.Each Bucket.Charged) :
    (∀ n, ((ops.take n).foldl (step env) p).Each Bucket.Charged) ↔ Runs.Guarded (step env) (idleGuard env) p ops := by
  induction ops generalizing p with
  | nil =>
    refine iff_of_true (fun n => ?_) trivial
    rw [take_nil]
    exact charged
  | cons op ops ih =>
    have next : (step env p op).Each Bucket.Charged ↔ idleGuard env p op := step_charged accounts charged guarded.1
    have later : (step env p op).Each Bucket.Accounts := step_accounts accounts guarded.1
    constructor
    · intro each
      have first : (step env p op).Each Bucket.Charged := each 1
      exact ⟨next.mp first, (ih guarded.2 later first).mp (fun n => each (n + 1))⟩
    · intro idle n
      cases n with
      | zero => exact charged
      | succ n => exact (ih guarded.2 later (next.mpr idle.1)).mpr idle.2 n

/-- The total and the map of loads are right all along a run; the counters of the URLs are exactly if every change of the workers finds no
characters listed for the URLs that it registers or keeps. -/
theorem loads_accounted (env : Env) (config : BucketConfig) {ops : List Op}
    (guarded : Runs.Guarded (step env) accountGuard (withConfig config) ops) :
    (∀ n modelKey b, ((ops.take n).foldl (step env) (withConfig config)).buckets.lookup modelKey = some b →
      b.loadTotal.toNat = (b.requestList.map (·.charCnt.toNat)).sum ∧
      ∀ id count, b.tReqLoads.lookup id = some count ↔ ∃ req ∈ b.requestList, req.id = id ∧ req.charCnt = count) ∧
    ((∀ n modelKey b, ((ops.take n).foldl (step env) (withConfig config)).buckets.lookup modelKey = some b →
      ∀ url ∈ b.prefillWorkerUrls, ∃ count, b.charsPerUrl.lookup url = some count ∧
        count.toNat = ((b.requestList.filter (·.prefillWorkerUrl = url)).map (·.charCnt.toNat)).sum) ↔
      Runs.Guarded (step env) (idleGuard env) (withConfig config) ops) := by
  have accounts : (withConfig config).Each Bucket.Accounts := fun key b here => by cases here
  have charged : (withConfig config).Each Bucket.Charged := fun key b here => by cases here
  refine ⟨fun n key b here => ?_, run_charged guarded accounts charged⟩
  have right := run_accounts guarded accounts n key b here
  exact ⟨right.total, right.lists⟩

theorem each_of_entries {P : Bucket → Prop} (all : ∀ entry ∈ p.buckets.entries, P entry.2) : p.Each P :=
  fun key b here => all ⟨key, b⟩ (AList.mem_lookup_iff.mp here)

/-- The first request expires before the second worker comes, and the second one has no characters. -/
def expiringRun : List Op := [.addPrefillUrl ⟨"w1", "", true, true⟩, .selectWorker [⟨"w1", "", true, true⟩] (some "hello") ⟨0, 0, 0, 0⟩,
  .selectWorker [⟨"w1", "", true, true⟩] (some "") ⟨0, 0, 10 ^ 12, 1⟩, .addPrefillUrl ⟨"w2", "", true, true⟩]

theorem loads_accounted_expiring : let p := expiringRun.foldl (step exactEnv) (withConfig .default)
    (p.buckets.lookup "unknown").map (fun b => (b.loadTotal, b.requestList.map (·.id))) = some (0, [1]) ∧
      Runs.Guarded (step exactEnv) accountGuard (withConfig .default) expiringRun ∧
      ∀ n modelKey b, ((expiringRun.take n).foldl (step exactEnv) (withConfig .default)).buckets.lookup modelKey = some b →
        ∀ url ∈ b.prefillWorkerUrls, ∃ count, b.charsPerUrl.lookup url = some count ∧
          count.toNat = ((b.requestList.filter (·.prefillWorkerUrl = url)).map (·.charCnt.toNat)).sum := by
  have guarded : Runs.Guarded (step exactEnv) accountGuard (withConfig .default) expiringRun :=
    ⟨trivial, each_of_entries (by decide +kernel), each_of_entries (by decide +kernel), trivial, trivial⟩
  refine ⟨by decide +kernel, guarded, (loads_accounted exactEnv .default guarded).2.mpr ⟨?_, trivial, trivial, ?_, trivial⟩⟩
  all_goals
    unfold idleGuard
    decide +kernel

/-- A worker is added while a request of the first one is listed, and the counter of the first starts again at 0. -/
theorem added_worker_clears_counters :
    let ops : List Op := [.addPrefillUrl ⟨"w1", "", true, true⟩, .selectWorker [⟨"w1", "", true, true⟩] (some "hello") ⟨0, 0, 0, 0⟩,
      .addPrefillUrl ⟨"w2", "", true, true⟩]
    ((ops.foldl (step exactEnv) (withConfig .default)).buckets.lookup "unknown").map (fun b =>
      (b.prefillWorkerUrls, b.charsPerUrl.lookup "w1", b.loadTotal, b.requestList.map (·.prefillWorkerUrl))) =
      some (["w1", "w2"], some 0, 5, ["w1"]) := by
  decide +kernel

end BucketPolicy

end TriaxialKV.Gateway
