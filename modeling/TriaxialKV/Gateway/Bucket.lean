import Mathlib.Algebra.Order.Ring.Unbundled.Rat
import Mathlib.Data.List.AList
import Mathlib.Data.List.Dedup
import TriaxialKV.Lib.Runs

/-!
# Bucket policy of the gateway

A request goes to the URL of its interval of lengths, or to a least loaded URL when the loads differ too much.
-/

namespace TriaxialKV.Gateway
open List

variable {url : String} {urls : List String}

structure Worker where
  url : String
  modelId : String
  isHealthy : Bool
  canExecute : Bool
deriving DecidableEq

def Worker.isAvailable (w : Worker) : Bool := w.isHealthy && w.canExecute

def getHealthyWorkerIndices (workers : List Worker) : List Nat :=
  (workers.zipIdx.filter (fun entry => entry.1.isHealthy && entry.1.canExecute)).map (·.2)

/-- What the policy takes from outside: the key of workers without a model and the rounding to `f32`. -/
structure Env where
  unknownModelId : String
  f32 : ℚ → ℚ

def Env.normalizeModelKey (env : Env) (modelId : String) : String :=
  if modelId = "" then env.unknownModelId else modelId

structure BucketConfig where
  balanceAbsThreshold : UInt64
  balanceRelThreshold : ℚ
  bucketAdjustIntervalSecs : UInt64

def BucketConfig.default : BucketConfig where
  balanceAbsThreshold := 32
  balanceRelThreshold := 10001 / 10000
  bucketAdjustIntervalSecs := 5

structure Boundary where
  url : String
  low : UInt64
  high : UInt64
deriving DecidableEq

structure SequencerRequest where
  id : Nat
  charCnt : UInt64
  timestamp : Nat
  prefillWorkerUrl : String

abbrev Loads := AList (fun _ : String => UInt64)

structure Bucket where
  lMax : UInt64
  bucketCnt : UInt64
  prefillWorkerUrls : List String
  loadTotal : UInt64
  period : UInt64
  bucketLoad : UInt64
  boundary : List Boundary
  requestList : List SequencerRequest
  tReqLoads : AList (fun _ : Nat => UInt64)
  charsPerUrl : Loads

def usizeMax : UInt64 := 0 - 1

def saturatingSub (x y : UInt64) : UInt64 :=
  if x ≤ y then 0 else x - y

def saturatingAdd (x y : UInt64) : UInt64 :=
  if x ≤ usizeMax - y then x + y else usizeMax

namespace Bucket

def new (period : UInt64) : Bucket where
  lMax := 4096
  bucketCnt := 0
  prefillWorkerUrls := []
  loadTotal := 0
  period := period
  bucketLoad := 0
  boundary := []
  requestList := []
  tReqLoads := ∅
  charsPerUrl := ∅

def initPrefillWorkerUrls (b : Bucket) (prefillWorkerUrls : List String) : Bucket :=
  let workerCnt := prefillWorkerUrls.length
  let gap := b.lMax / .ofNat workerCnt
  { b with
    bucketCnt := .ofNat workerCnt
    prefillWorkerUrls
    charsPerUrl := prefillWorkerUrls.foldl (fun loads url => loads.insert url 0) ∅
    lMax := if workerCnt = 0 then b.lMax else usizeMax
    boundary := prefillWorkerUrls.zipIdx.map (fun (url, i) =>
      ⟨url, .ofNat i * gap, if i = workerCnt - 1 then usizeMax else (.ofNat i + 1) * gap - 1⟩) }

def expireLoop (now : Nat) (period : UInt64) : List SequencerRequest → AList (fun _ : Nat => UInt64) → Loads → UInt64 →
    List SequencerRequest × AList (fun _ : Nat => UInt64) × Loads × UInt64
  | [], reqLoads, loads, removed => ([], reqLoads, loads, removed)
  | req :: rest, reqLoads, loads, removed =>
    if now < req.timestamp ∨ period.toNat * 1000000 < now - req.timestamp then
      let loads' := match loads.lookup req.prefillWorkerUrl with
        | some count => loads.insert req.prefillWorkerUrl (saturatingSub count req.charCnt)
        | none => loads
      expireLoop now period rest (reqLoads.erase req.id) loads' (removed + req.charCnt)
    else (req :: rest, reqLoads, loads, removed)

/-- The clock reads `now`, in nanoseconds, and `id` is the identifier drawn for the request. -/
def postProcessRequest (b : Bucket) (now id : Nat) (charCnt : UInt64) (prefillUrl : String) : Bucket :=
  let charged := b.charsPerUrl.insert prefillUrl ((b.charsPerUrl.lookup prefillUrl).getD 0 + charCnt)
  let (requestList, tReqLoads, charsPerUrl, removedLoad) := expireLoop now b.period b.requestList b.tReqLoads charged 0
  { b with
    charsPerUrl
    tReqLoads := tReqLoads.insert id charCnt
    requestList := requestList ++ [⟨id, charCnt, now, prefillUrl⟩]
    loadTotal := saturatingAdd (saturatingSub b.loadTotal removedLoad) charCnt }

def findLoop (boundary : List Boundary) (charCount : UInt64) : Nat → Nat → Nat → Option String
  | 0, _, _ => none
  | rounds + 1, left, right =>
    if left < right then
      let mid := left + (right - left) / 2
      match boundary[mid]? with
      | none => none
      | some entry =>
        if charCount < entry.low then findLoop boundary charCount rounds left mid
        else if entry.high < charCount then findLoop boundary charCount rounds (mid + 1) right
        else some entry.url
    else none

def findBoundary (b : Bucket) (charCount : UInt64) : Option String := findLoop b.boundary charCount b.boundary.length 0 b.boundary.length

def updateWorkersCnt (b : Bucket) : Bucket :=
  let current := b.charsPerUrl.keys
  let fresh := b.prefillWorkerUrls.filter (· ∉ current)
  let gone := current.filter (· ∉ b.prefillWorkerUrls)
  let filled := fresh.foldl (fun loads url => loads.insert url 0) b.charsPerUrl
  { b with
    bucketCnt := .ofNat b.prefillWorkerUrls.length
    charsPerUrl := gone.foldl (fun loads url => if loads.lookup url = some 0 then loads.erase url else loads) filled }

/-- The index of the load at which the sum reaches `single`, and that load. -/
def accumulate (single : UInt64) : List UInt64 → UInt64 → Nat → Nat × Option UInt64
  | [], _, index => (index, none)
  | load :: rest, accumulator, index =>
    if single ≤ accumulator + load then (index, some load)
    else accumulate single rest (accumulator + load) (index + 1)

def adjustLoop (single : UInt64) (histLoad : List UInt64) : List String → UInt64 → Nat → List Boundary
  | [], _, _ => []
  | url :: rest, upperBound, lastLoadIndex =>
    -- the last worker gets the rest, whether or not loads are left
    if rest = [] then [⟨url, upperBound, usizeMax⟩]
    else
      match accumulate single (histLoad.drop lastLoadIndex) 0 lastLoadIndex with
      | (index, some load) =>
        let high := if load ≤ upperBound then upperBound + single else load
        ⟨url, upperBound, high⟩ :: adjustLoop single histLoad rest (high + 1) (index + 1)
      | (index, none) =>
        let high := upperBound + single
        ⟨url, upperBound, high⟩ :: adjustLoop single histLoad rest (high + 1) index

def adjustBoundary (b : Bucket) : Bucket :=
  if b.tReqLoads.entries = [] then b
  else
    let b := b.updateWorkersCnt
    if b.bucketCnt = 0 then b
    else
      let single := b.loadTotal / b.bucketCnt
      if single ≤ 2 * b.bucketLoad ∧ b.bucketLoad ≤ 2 * single ∧ b.bucketLoad ≠ 0 then b
      else
        let histLoad := (b.tReqLoads.entries.map (·.2)).mergeSort (· ≤ ·)
        { b with bucketLoad := single, boundary := adjustLoop single histLoad b.prefillWorkerUrls 0 0 }

end Bucket

structure BucketPolicy where
  config : BucketConfig
  buckets : AList (fun _ : String => Bucket)

/-- What the program leaves open: the least loaded URL that comes first, the random index, the clock and the identifier. -/
structure Draw where
  tie : Nat
  rng : Nat
  now : Nat
  id : Nat

namespace BucketPolicy

def withConfig (config : BucketConfig) : BucketPolicy := ⟨config, ∅⟩

def entry (p : BucketPolicy) (modelKey : String) : Bucket := (p.buckets.lookup modelKey).getD (.new (p.config.bucketAdjustIntervalSecs * 1000))

def setBucket (p : BucketPolicy) (modelKey : String) (b : Bucket) : BucketPolicy :=
  { p with buckets := p.buckets.insert modelKey b }

section
variable (env : Env)

def initPrefillWorkerUrls (p : BucketPolicy) (prefillWorkers : List Worker) : BucketPolicy :=
  let key (w : Worker) := env.normalizeModelKey w.modelId
  (prefillWorkers.map key).dedup.foldl (fun p modelKey =>
    p.setBucket modelKey ((p.entry modelKey).initPrefillWorkerUrls ((prefillWorkers.filter (key · = modelKey)).map (·.url)))) p

/-- The counter that `add_prefill_url` sets up is cleared with the others by the new initialisation. -/
def addPrefillUrl (p : BucketPolicy) (worker : Worker) : BucketPolicy :=
  let modelKey := env.normalizeModelKey worker.modelId
  let b := p.entry modelKey
  let urls := if worker.url ∈ b.prefillWorkerUrls then b.prefillWorkerUrls else b.prefillWorkerUrls ++ [worker.url]
  let charsPerUrl := if worker.url ∈ b.charsPerUrl then b.charsPerUrl else b.charsPerUrl.insert worker.url 0
  p.setBucket modelKey ({ b with prefillWorkerUrls := urls, charsPerUrl }.initPrefillWorkerUrls urls)

def removePrefillUrl (p : BucketPolicy) (worker : Worker) : BucketPolicy :=
  let modelKey := env.normalizeModelKey worker.modelId
  match p.buckets.lookup modelKey with
  | none => p
  | some b =>
    let urls := b.prefillWorkerUrls.filter (· ≠ worker.url)
    let b := { b with prefillWorkerUrls := urls, charsPerUrl := b.charsPerUrl.erase worker.url, bucketCnt := .ofNat urls.length }
    -- without workers the old boundaries stay
    p.setBucket modelKey (if 0 < urls.length then b.initPrefillWorkerUrls urls else b)

def adjustBoundary (p : BucketPolicy) (modelKey : String) : BucketPolicy :=
  match p.buckets.lookup modelKey with
  | none => p
  | some b => p.setBucket modelKey b.adjustBoundary

def charCount (requestText : Option String) : UInt64 :=
  match requestText with
  | none => 0
  | some text => .ofNat text.length

def isImbalanced (config : BucketConfig) (loads : Loads) : Bool :=
  let maxLoad := ((loads.entries.map (·.2)).max?).getD 0
  let minLoad := ((loads.entries.map (·.2)).min?).getD 0
  let relThreshold := env.f32 (config.balanceRelThreshold * env.f32 minLoad.toNat)
  config.balanceAbsThreshold < saturatingSub maxLoad minLoad && relThreshold < env.f32 maxLoad.toNat

def leastLoaded (loads : Loads) : List String :=
  let minLoad := ((loads.entries.map (·.2)).min?).getD 0
  (loads.entries.filter (·.2 = minLoad)).map (·.1)

def choices (config : BucketConfig) (b : Bucket) (count : UInt64) : List String :=
  if isImbalanced env config b.charsPerUrl then leastLoaded b.charsPerUrl
  else (b.findBoundary count).toList.filter (· ≠ "")

def randomUrl (workers : List Worker) (rng : Nat) : String :=
  let healthyIndices := getHealthyWorkerIndices workers
  ((workers[healthyIndices[rng % healthyIndices.length]?.getD 0]?).map (·.url)).getD ""

def selectWorker (p : BucketPolicy) (workers : List Worker) (requestText : Option String) (draw : Draw) : Option Nat × BucketPolicy :=
  let healthyIndices := getHealthyWorkerIndices workers
  match healthyIndices.head?.bind (workers[·]?) with
  | none => (none, p)
  | some first =>
    let count := charCount requestText
    let modelKey := env.normalizeModelKey first.modelId
    match p.buckets.lookup modelKey with
    | some b =>
      let names := choices env p.config b count
      let prefillUrl := (names[draw.tie % names.length]?).getD (randomUrl workers draw.rng)
      (workers.findIdx? (·.url == prefillUrl), p.setBucket modelKey (b.postProcessRequest draw.now draw.id count prefillUrl))
    | none =>
      let prefillUrl := randomUrl workers draw.rng
      (workers.findIdx? (·.url == prefillUrl), p)

end

inductive Op where
  | initPrefillWorkerUrls (prefillWorkers : List Worker)
  | addPrefillUrl (worker : Worker)
  | removePrefillUrl (worker : Worker)
  | adjustBoundary (modelKey : String)
  | selectWorker (workers : List Worker) (requestText : Option String) (draw : Draw)

def step (env : Env) (p : BucketPolicy) : Op → BucketPolicy
  | .initPrefillWorkerUrls prefillWorkers => p.initPrefillWorkerUrls env prefillWorkers
  | .addPrefillUrl worker => p.addPrefillUrl env worker
  | .removePrefillUrl worker => p.removePrefillUrl env worker
  | .adjustBoundary modelKey => p.adjustBoundary modelKey
  | .selectWorker workers requestText draw => (p.selectWorker env workers requestText draw).2

end BucketPolicy

namespace Bucket
variable {U : String → Prop} {b : Bucket}

/-- All URLs that a bucket can name satisfy `U`. -/
structure Within (U : String → Prop) (b : Bucket) : Prop where
  boundary : ∀ entry ∈ b.boundary, U entry.url
  chars : ∀ url ∈ b.charsPerUrl, U url
  workers : ∀ url ∈ b.prefillWorkerUrls, U url

theorem within_new (period : UInt64) : (new period).Within U := by
  refine ⟨?_, ?_, ?_⟩ <;> intro _ mem <;> cases mem

theorem mem_foldl_insert (urls : List String) (loads : Loads) :
    url ∈ urls.foldl (fun loads url => loads.insert url 0) loads ↔ url ∈ urls ∨ url ∈ loads := by
  induction urls generalizing loads with
  | nil => simp
  | cons first rest ih =>
    rw [foldl_cons, ih, AList.mem_insert, mem_cons]
    tauto

theorem Within.initPrefillWorkerUrls (b : Bucket) (all : ∀ url ∈ urls, U url) : (b.initPrefillWorkerUrls urls).Within U := by
  refine ⟨fun entry mem => ?_, fun url mem => ?_, all⟩
  · obtain ⟨⟨url, i⟩, lt, rfl⟩ := mem_map.mp mem
    exact all url (fst_mem_of_mem_zipIdx lt)
  · rcases (mem_foldl_insert urls ∅).mp mem with named | none
    · exact all url named
    · cases none

theorem mem_expireLoop {now : Nat} {period : UInt64} (requests : List SequencerRequest) (reqLoads : AList (fun _ : Nat => UInt64))
    (loads : Loads) (removed : UInt64) : url ∈ (expireLoop now period requests reqLoads loads removed).2.2.1 ↔ url ∈ loads := by
  induction requests generalizing reqLoads loads removed with
  | nil => rfl
  | cons req rest ih =>
    unfold expireLoop
    split
    · rw [ih]
      split
      · next known =>
        rw [AList.mem_insert, or_iff_right_of_imp]
        rintro rfl
        rw [← AList.lookup_isSome, known]
        rfl
      · rfl
    · rfl

theorem Within.postProcessRequest (within : b.Within U) (now id : Nat) (charCnt : UInt64) {prefillUrl : String} (known : U prefillUrl) :
    (b.postProcessRequest now id charCnt prefillUrl).Within U := by
  refine ⟨within.boundary, fun url mem => ?_, within.workers⟩
  rcases (AList.mem_insert _).mp ((mem_expireLoop b.requestList b.tReqLoads _ 0).mp mem) with rfl | old
  · exact known
  · exact within.chars url old

theorem mem_of_findLoop {boundary : List Boundary} {charCount : UInt64} {rounds left right : Nat}
    (found : findLoop boundary charCount rounds left right = some url) :
    ∃ entry ∈ boundary, entry.url = url ∧ entry.low ≤ charCount ∧ charCount ≤ entry.high := by
  induction rounds generalizing left right with
  | zero => cases found
  | succ rounds ih =>
    unfold findLoop at found
    split at found
    · dsimp only at found
      split at found
      · cases found
      · next entry here =>
        split at found
        · exact ih found
        · next above =>
          split at found
          · exact ih found
          · next below => exact ⟨entry, mem_of_getElem? here, Option.some.inj found, UInt64.not_lt.mp above, UInt64.not_lt.mp below⟩
    · cases found

/-- Each interval ends before the next one begins. -/
def InOrder (boundary : List Boundary) : Prop :=
  (∀ entry ∈ boundary, entry.low ≤ entry.high) ∧ boundary.Pairwise (fun entry later => entry.high < later.low)

theorem InOrder.before {boundary : List Boundary} (order : InOrder boundary) {i j : Nat} {entry later : Boundary} (lt : i < j)
    (here : boundary[i]? = some entry) (there : boundary[j]? = some later) : entry.high < later.low := by
  obtain ⟨le, rfl⟩ := List.getElem?_eq_some_iff.mp here
  obtain ⟨le', rfl⟩ := List.getElem?_eq_some_iff.mp there
  exact pairwise_iff_getElem.mp order.2 i j le le' lt

theorem findLoop_complete {boundary : List Boundary} (order : InOrder boundary) {charCount : UInt64} {entry : Boundary} {i : Nat}
    (here : boundary[i]? = some entry) (low : entry.low ≤ charCount) (high : charCount ≤ entry.high) {rounds left right : Nat}
    (from_left : left ≤ i) (to_right : i < right) (enough : right - left ≤ rounds) (bound : right ≤ boundary.length) :
    findLoop boundary charCount rounds left right = some entry.url := by
  induction rounds generalizing left right with
  | zero => omega
  | succ rounds ih =>
    have inside : left + (right - left) / 2 < boundary.length := by omega
    have middle := getElem?_eq_getElem inside
    unfold findLoop
    rw [if_pos (by omega)]
    dsimp only
    rw [middle]
    dsimp only
    generalize boundary[left + (right - left) / 2] = other at middle
    -- an interval on the wrong side of the middle would not contain the count
    rcases Nat.lt_trichotomy i (left + (right - left) / 2) with before | same | behind
    · rw [if_pos (UInt64.lt_of_le_of_lt high (order.before before here middle))]
      exact ih from_left before (by omega) (by omega)
    · rw [← same, here] at middle
      obtain rfl := Option.some.inj middle
      rw [if_neg (UInt64.not_lt.mpr low), if_neg (UInt64.not_lt.mpr high)]
    · have ends := UInt64.lt_of_lt_of_le (order.before behind middle here) low
      have begins := UInt64.le_trans (order.1 other (mem_of_getElem? middle)) (UInt64.le_of_lt ends)
      rw [if_neg (UInt64.not_lt.mpr begins), if_pos ends]
      exact ih behind to_right (by omega) bound

theorem mem_foldl_erase (gone : List String) (loads : Loads)
    (mem : url ∈ gone.foldl (fun loads url => if loads.lookup url = some 0 then loads.erase url else loads) loads) : url ∈ loads := by
  induction gone generalizing loads with
  | nil => exact mem
  | cons first rest ih =>
    have kept := ih _ mem
    dsimp only at kept
    split at kept
    · exact (AList.mem_erase.mp kept).2
    · exact kept

theorem Within.updateWorkersCnt (within : b.Within U) : b.updateWorkersCnt.Within U := by
  refine ⟨within.boundary, fun url mem => ?_, within.workers⟩
  rcases (mem_foldl_insert _ _).mp (mem_foldl_erase _ _ mem) with fresh | old
  · exact within.workers url (mem_filter.mp fresh).1
  · exact within.chars url old

theorem mem_adjustLoop {single : UInt64} {histLoad : List UInt64} {entry : Boundary} {upperBound : UInt64} {index : Nat}
    (mem : entry ∈ adjustLoop single histLoad urls upperBound index) : entry.url ∈ urls := by
  induction urls generalizing upperBound index with
  | nil => cases mem
  | cons url rest ih =>
    unfold adjustLoop at mem
    split at mem
    · obtain rfl := mem_singleton.mp mem
      exact mem_cons_self
    · split at mem
      · rcases mem_cons.mp mem with rfl | mem
        · exact mem_cons_self
        · exact mem_cons_of_mem _ (ih mem)
      · rcases mem_cons.mp mem with rfl | mem
        · exact mem_cons_self
        · exact mem_cons_of_mem _ (ih mem)

theorem Within.adjustBoundary (within : b.Within U) : b.adjustBoundary.Within U := by
  have counted := within.updateWorkersCnt
  unfold Bucket.adjustBoundary
  split
  · exact within
  · dsimp only
    split
    · exact counted
    · split
      · exact counted
      · exact ⟨fun entry mem => within.workers _ (mem_adjustLoop mem), counted.chars, counted.workers⟩

theorem Within.choices (within : b.Within U) {env : Env} {config : BucketConfig} {count : UInt64}
    (named : url ∈ BucketPolicy.choices env config b count) : U url := by
  unfold BucketPolicy.choices at named
  split at named
  · obtain ⟨entry, mem, rfl⟩ := mem_map.mp named
    exact within.chars _ (mem_keys_of_mem (mem_filter.mp mem).1)
  · obtain ⟨entry, mem, rfl, _⟩ := mem_of_findLoop (Option.mem_toList.mp (mem_filter.mp named).1)
    exact within.boundary entry mem

end Bucket

namespace BucketPolicy
variable {env : Env} {U : String → Prop} {p : BucketPolicy} {workers : List Worker} {requestText : Option String} {draw : Draw}

theorem mem_healthyIndices {i : Nat} : i ∈ getHealthyWorkerIndices workers ↔ ∃ w, workers[i]? = some w ∧ w.isAvailable := by
  unfold getHealthyWorkerIndices Worker.isAvailable
  simp only [mem_map, mem_filter, Prod.exists, mk_mem_zipIdx_iff_getElem?, exists_eq_right]

theorem healthy_ne_nil (available : ∃ w ∈ workers, w.isAvailable) : getHealthyWorkerIndices workers ≠ [] := by
  obtain ⟨w, mem, available⟩ := available
  obtain ⟨i, here⟩ := mem_iff_getElem?.mp mem
  exact ne_nil_of_mem (mem_healthyIndices.mpr ⟨w, here, available⟩)

theorem randomUrl_available (available : ∃ w ∈ workers, w.isAvailable) (rng : Nat) :
    ∃ w ∈ workers, w.url = randomUrl workers rng ∧ w.isAvailable := by
  have lt := Nat.mod_lt rng (length_pos_of_ne_nil (healthy_ne_nil available))
  obtain ⟨w, here, available⟩ := mem_healthyIndices.mp (getElem_mem lt)
  refine ⟨w, mem_of_getElem? here, ?_, available⟩
  unfold randomUrl
  dsimp only
  rw [getElem?_eq_getElem lt, Option.getD_some, here]
  rfl

def names (env : Env) (p : BucketPolicy) (workers : List Worker) (requestText : Option String) : List String :=
  match (getHealthyWorkerIndices workers).head?.bind (workers[·]?) with
  | none => []
  | some first =>
    match p.buckets.lookup (env.normalizeModelKey first.modelId) with
    | some b => choices env p.config b (charCount requestText)
    | none => []

theorem first_available (available : ∃ w ∈ workers, w.isAvailable) :
    ∃ first, (getHealthyWorkerIndices workers).head?.bind (workers[·]?) = some first := by
  obtain ⟨i, _, healthy⟩ := exists_cons_of_ne_nil (healthy_ne_nil available)
  obtain ⟨first, here, _⟩ := mem_healthyIndices.mp (healthy ▸ mem_cons_self : i ∈ getHealthyWorkerIndices workers)
  exact ⟨first, by rw [healthy]; exact here⟩

theorem selectWorker_fst (available : ∃ w ∈ workers, w.isAvailable) (draw : Draw) : let named := names env p workers requestText
    (p.selectWorker env workers requestText draw).1 =
      workers.findIdx? (·.url == (named[draw.tie % named.length]?).getD (randomUrl workers draw.rng)) := by
  obtain ⟨first, here⟩ := first_available available
  unfold selectWorker names
  simp only [here]
  cases p.buckets.lookup (env.normalizeModelKey first.modelId) with
  | none => rfl
  | some b => rfl

theorem findIdx?_url (nodup : (workers.map (·.url)).Nodup) {w : Worker} (mem : w ∈ workers) :
    ∃ i, workers.findIdx? (·.url == w.url) = some i ∧ workers[i]? = some w := by
  obtain ⟨i, lt, rfl⟩ := mem_iff_getElem.mp mem
  refine ⟨i, findIdx?_eq_some_iff_getElem.mpr ⟨lt, beq_self_eq_true _, fun j before same => ?_⟩, getElem?_eq_getElem lt⟩
  apply pairwise_iff_getElem.mp nodup j i (by rw [length_map]; omega) (by rwa [length_map]) before
  rw [getElem_map, getElem_map]
  exact beq_iff_eq.mp same

theorem selects_available_iff (nodup : (workers.map (·.url)).Nodup) (available : ∃ w ∈ workers, w.isAvailable) :
    (∀ draw, ∃ i w, (p.selectWorker env workers requestText draw).1 = some i ∧ workers[i]? = some w ∧ w.isAvailable) ↔
      ∀ url ∈ names env p workers requestText, ∃ w ∈ workers, w.url = url ∧ w.isAvailable := by
  let urls := names env p workers requestText
  constructor
  · intro selects url named
    obtain ⟨k, lt, rfl⟩ := mem_iff_getElem.mp named
    obtain ⟨i, w, selected, here, available'⟩ := selects ⟨k, 0, 0, 0⟩
    rw [selectWorker_fst available] at selected
    rw [Nat.mod_eq_of_lt lt, getElem?_eq_getElem lt, Option.getD_some] at selected
    obtain ⟨lt', same, _⟩ := findIdx?_eq_some_iff_getElem.mp selected
    obtain ⟨_, rfl⟩ := List.getElem?_eq_some_iff.mp here
    exact ⟨_, getElem_mem lt', beq_iff_eq.mp same, available'⟩
  · intro covered draw
    have target : ∃ w ∈ workers, w.url = (urls[draw.tie % urls.length]?).getD
        (randomUrl workers draw.rng) ∧ w.isAvailable := by
      cases named : urls[draw.tie % urls.length]? with
      | none => exact randomUrl_available available draw.rng
      | some url => exact covered url (mem_of_getElem? named)
    obtain ⟨w, mem, same, available'⟩ := target
    obtain ⟨i, found, here⟩ := findIdx?_url nodup mem
    refine ⟨i, w, ?_, here, available'⟩
    rw [selectWorker_fst available, ← same]
    exact found

def Each (P : Bucket → Prop) (p : BucketPolicy) : Prop := ∀ modelKey b, p.buckets.lookup modelKey = some b → P b

/-- All URLs in the buckets of the policy satisfy `U`. -/
def Within (U : String → Prop) (p : BucketPolicy) : Prop := ∀ modelKey b, p.buckets.lookup modelKey = some b → b.Within U

def guard (U : String → Prop) (_ : BucketPolicy) : Op → Prop
  | .initPrefillWorkerUrls workers => ∀ w ∈ workers, U w.url
  | .addPrefillUrl w => U w.url
  | .removePrefillUrl _ => True
  | .adjustBoundary _ => True
  | .selectWorker workers _ _ => ∀ w ∈ workers, w.isAvailable → U w.url

theorem Each.setBucket {P : Bucket → Prop} (each : p.Each P) (modelKey : String) {b : Bucket} (holds : P b) : (p.setBucket modelKey b).Each P := by
  intro key b' here
  unfold BucketPolicy.setBucket at here
  by_cases same : key = modelKey
  · rw [same, AList.lookup_insert] at here
    exact Option.some.inj here ▸ holds
  · rw [AList.lookup_insert_ne same] at here
    exact each key b' here

theorem Each.entry {P : Bucket → Prop} (each : p.Each P) (modelKey : String) (fresh : ∀ period, P (.new period)) : P (p.entry modelKey) := by
  unfold BucketPolicy.entry
  cases here : p.buckets.lookup modelKey with
  | none => exact fresh _
  | some b => exact each modelKey b here

theorem Within.selectWorker (within : p.Within U) (known : ∀ w ∈ workers, w.isAvailable → U w.url) :
    (p.selectWorker env workers requestText draw).2.Within U := by
  unfold BucketPolicy.selectWorker
  dsimp only
  split
  · exact within
  · next _ here =>
    split
    · next b bucket =>
      have bounded := within _ b bucket
      refine Each.setBucket within _ (bounded.postProcessRequest _ _ _ ?_)
      cases named : (choices env p.config b (charCount requestText))[draw.tie % (choices env p.config b (charCount requestText)).length]? with
      | none =>
        obtain ⟨i, head, _⟩ := Option.bind_eq_some_iff.mp here
        obtain ⟨first', here', healthy⟩ := mem_healthyIndices.mp (mem_of_mem_head? head)
        obtain ⟨w, mem, same, available⟩ := randomUrl_available ⟨first', mem_of_getElem? here', healthy⟩ draw.rng
        rw [Option.getD_none, ← same]
        exact known w mem available
      | some url => exact bounded.choices (mem_of_getElem? named)
    · exact within

theorem step_within (op : Op) (within : p.Within U) (allowed : guard U p op) : (step env p op).Within U := by
  cases op with
  | initPrefillWorkerUrls workers =>
    unfold step BucketPolicy.initPrefillWorkerUrls
    dsimp only
    generalize (workers.map (fun w => env.normalizeModelKey w.modelId)).dedup = keys
    induction keys generalizing p with
    | nil => exact within
    | cons key keys ih =>
      refine ih (Each.setBucket within key (Bucket.Within.initPrefillWorkerUrls _ (fun url mem => ?_))) allowed
      obtain ⟨w, lt, rfl⟩ := mem_map.mp mem
      exact allowed w (mem_filter.mp lt).1
  | addPrefillUrl worker =>
    refine Each.setBucket within _ (Bucket.Within.initPrefillWorkerUrls _ (fun url mem => ?_))
    have old := (Each.entry within (env.normalizeModelKey worker.modelId) Bucket.within_new).workers
    split at mem
    · exact old url mem
    · rcases mem_append.mp mem with mem | mem
      · exact old url mem
      · obtain rfl := mem_singleton.mp mem
        exact allowed
  | removePrefillUrl worker =>
    unfold step BucketPolicy.removePrefillUrl
    dsimp only
    split
    · exact within
    · next b bucket =>
      have bounded := within _ b bucket
      have rest : ∀ url ∈ b.prefillWorkerUrls.filter (· ≠ worker.url), U url :=
        fun url mem => bounded.workers url (mem_filter.mp mem).1
      refine Each.setBucket within _ ?_
      split
      · exact Bucket.Within.initPrefillWorkerUrls _ rest
      · exact ⟨bounded.boundary, fun url mem => bounded.chars url (AList.mem_erase.mp mem).2, rest⟩
  | adjustBoundary modelKey =>
    unfold step BucketPolicy.adjustBoundary
    dsimp only
    split
    · exact within
    · next b bucket => exact Each.setBucket within _ (within modelKey b bucket).adjustBoundary
  | selectWorker workers requestText draw => exact within.selectWorker allowed

def Open (workers : List Worker) (url : String) : Prop := ∃ w ∈ workers, w.url = url ∧ w.isAvailable

def Least (loads : Loads) (url : String) : Prop :=
  ∃ load, loads.lookup url = some load ∧ ∀ other load', loads.lookup other = some load' → load ≤ load'

/-- Out of balance, every URL with a least counter is open; in balance, that of every interval around the length that has one. -/
def Covers (env : Env) (config : BucketConfig) (workers : List Worker) (count : UInt64) (b : Bucket) : Prop :=
  if isImbalanced env config b.charsPerUrl then ∀ url, Least b.charsPerUrl url → Open workers url
  else ∀ entry ∈ b.boundary, entry.low ≤ count → count ≤ entry.high → entry.url ≠ "" → Open workers entry.url

/-- The bucket of the model that `select_worker` reads from the slice. -/
def BucketOf (env : Env) (p : BucketPolicy) (workers : List Worker) (b : Bucket) : Prop :=
  ∃ first, workers.find? (·.isAvailable) = some first ∧ p.buckets.lookup (env.normalizeModelKey first.modelId) = some b

theorem mem_leastLoaded {loads : Loads} {url : String} : url ∈ leastLoaded loads ↔ Least loads url := by
  have counters {url : String} {load : UInt64} (here : loads.lookup url = some load) : load ∈ loads.entries.map (·.2) :=
    mem_map.mpr ⟨⟨url, load⟩, AList.mem_lookup_iff.mp here, rfl⟩
  unfold leastLoaded Least
  constructor
  · intro named
    obtain ⟨⟨url, load⟩, mem, rfl⟩ := mem_map.mp named
    obtain ⟨listed, least⟩ := mem_filter.mp mem
    have here := AList.mem_lookup_iff.mpr listed
    refine ⟨load, here, fun other load' there => ?_⟩
    obtain ⟨low, lowest⟩ := Option.ne_none_iff_exists'.mp (fun none => ne_nil_of_mem (counters here) (min?_eq_none_iff.mp none))
    rw [lowest, decide_eq_true_eq, Option.getD_some] at least
    rw [show load = low from least]
    exact (min?_eq_some_iff.mp lowest).2 load' (counters there)
  · rintro ⟨load, here, least⟩
    have lowest : (loads.entries.map (·.2)).min? = some load := by
      refine min?_eq_some_iff.mpr ⟨counters here, fun load' mem => ?_⟩
      obtain ⟨entry, listed, rfl⟩ := mem_map.mp mem
      exact least entry.1 entry.2 (AList.mem_lookup_iff.mpr listed)
    refine mem_map.mpr ⟨⟨url, load⟩, mem_filter.mpr ⟨AList.mem_lookup_iff.mp here, ?_⟩, rfl⟩
    rw [lowest, Option.getD_some, decide_eq_true_eq]

theorem head_healthy (workers : List Worker) : (getHealthyWorkerIndices workers).head?.bind (workers[·]?) = workers.find? (·.isAvailable) := by
  have found : workers.find? (·.isAvailable) = (workers.zipIdx.find? (fun entry => entry.1.isAvailable)).map (·.1) := by
    conv_lhs => rw [← zipIdx_map_fst 0 workers, find?_map]
    rfl
  unfold getHealthyWorkerIndices
  rw [head?_map, head?_filter, found]
  cases here : workers.zipIdx.find? (fun entry => entry.1.isHealthy && entry.1.canExecute) with
  | none => rw [show workers.zipIdx.find? (fun entry => entry.1.isAvailable) = none from here]; rfl
  | some entry =>
    rw [show workers.zipIdx.find? (fun entry => entry.1.isAvailable) = some entry from here]
    exact mk_mem_zipIdx_iff_getElem?.mp (mem_of_find?_eq_some here)

theorem names_eq (env : Env) (p : BucketPolicy) (workers : List Worker) (requestText : Option String) : names env p workers requestText =
    ((workers.find? (·.isAvailable)).bind (fun first => p.buckets.lookup (env.normalizeModelKey first.modelId))).elim []
      (choices env p.config · (charCount requestText)) := by
  unfold names
  rw [head_healthy]
  cases workers.find? (·.isAvailable) with
  | none => rfl
  | some first => cases here : p.buckets.lookup (env.normalizeModelKey first.modelId) <;> simp [here]

theorem choices_open {b : Bucket} {count : UInt64} (covers : Covers env p.config workers count b) {url : String}
    (named : url ∈ choices env p.config b count) : Open workers url := by
  unfold Covers at covers
  unfold choices at named
  split at named
  · next imbalanced =>
    rw [if_pos imbalanced] at covers
    exact covers url (mem_leastLoaded.mp named)
  · next balanced =>
    rw [if_neg balanced] at covers
    obtain ⟨found, nonempty⟩ := mem_filter.mp named
    obtain ⟨entry, mem, rfl, low, high⟩ := Bucket.mem_of_findLoop (Option.mem_toList.mp found)
    exact covers entry mem low high (of_decide_eq_true nonempty)

theorem covers_of_open {b : Bucket} {count : UInt64} (order : Bucket.InOrder b.boundary)
    (all : ∀ url ∈ choices env p.config b count, Open workers url) : Covers env p.config workers count b := by
  unfold choices at all
  unfold Covers
  split at all
  · next imbalanced =>
    rw [if_pos imbalanced]
    exact fun url least => all url (mem_leastLoaded.mpr least)
  · next balanced =>
    rw [if_neg balanced]
    intro entry mem low high nonempty
    obtain ⟨i, here⟩ := mem_iff_getElem?.mp mem
    obtain ⟨lt, _⟩ := List.getElem?_eq_some_iff.mp here
    refine all entry.url (mem_filter.mpr ⟨Option.mem_toList.mpr ?_, decide_eq_true nonempty⟩)
    exact Bucket.findLoop_complete order here low high (Nat.zero_le i) lt (Nat.sub_le _ _) le_rfl

/-- The choice is right for all draws when the bucket covers the request, and, its intervals being in order, only then. -/
theorem selectWorker_available (env : Env) (config : BucketConfig) (U : String → Prop)
    (reachable : Runs.Reachable (step env) (guard U) (withConfig config) p) (workers : List Worker) (requestText : Option String)
    (distinct : (workers.map (·.url)).Nodup) (available : ∃ w ∈ workers, w.isAvailable) :
    let Selects := ∀ draw, ∃ i w, (p.selectWorker env workers requestText draw).1 = some i ∧ workers[i]? = some w ∧ w.isAvailable
    let Covered := ∀ b, BucketOf env p workers b → Covers env p.config workers (charCount requestText) b
    (Covered → Selects) ∧ ((∀ b, BucketOf env p workers b → Bucket.InOrder b.boundary) → Selects → Covered) ∧
      ((∀ url, U url → Open workers url) → Covered) := by
  intro Selects Covered
  have named (url : String) : url ∈ names env p workers requestText ↔
      ∃ b, BucketOf env p workers b ∧ url ∈ choices env p.config b (charCount requestText) := by
    rw [names_eq]
    unfold BucketOf
    cases workers.find? (·.isAvailable) with
    | none => simp
    | some first => cases here : p.buckets.lookup (env.normalizeModelKey first.modelId) <;> simp [here]
  refine ⟨fun covered => ?_, fun order selects b bucket => ?_, fun all b bucket => ?_⟩
  · refine (selects_available_iff distinct available).mpr (fun url mem => ?_)
    obtain ⟨b, bucket, mem⟩ := (named url).mp mem
    exact choices_open (covered b bucket) mem
  · refine covers_of_open (order b bucket) (fun url mem => ?_)
    exact (selects_available_iff distinct available).mp selects url ((named url).mpr ⟨b, bucket, mem⟩)
  · have within : p.Within U := reachable.invariant (Within U) nofun (fun _ op before allowed => step_within op before allowed)
    obtain ⟨first, _, here⟩ := bucket
    unfold Covers
    split
    · rintro url ⟨load, listed, _⟩
      exact all url ((within _ b here).chars url (AList.lookup_isSome.mp (listed ▸ rfl)))
    · exact fun entry mem _ _ _ => all entry.url ((within _ b here).boundary entry mem)

def exactEnv : Env := ⟨"unknown", id⟩

def twoWorkers : List Worker := [⟨"http://w1:8000", "", true, true⟩, ⟨"http://w2:8000", "", true, true⟩]

theorem selectWorker_available_two_workers : let p := step exactEnv (withConfig .default) (.initPrefillWorkerUrls twoWorkers)
    ∀ draw, ∃ i w, (p.selectWorker exactEnv twoWorkers none draw).1 = some i ∧ twoWorkers[i]? = some w ∧ w.isAvailable := by
  have known : guard (· ∈ twoWorkers.map (·.url)) (withConfig .default) (.initPrefillWorkerUrls twoWorkers) :=
    fun w member => mem_map_of_mem member
  obtain ⟨enough, _, registered⟩ := selectWorker_available exactEnv .default _ (.step .start known) twoWorkers none (by decide)
    ⟨_, mem_cons_self, rfl⟩
  exact enough (registered (by unfold Open; decide))

theorem selectWorker_filtered_out : let p := step exactEnv (withConfig .default) (.initPrefillWorkerUrls twoWorkers)
    (∃ w ∈ twoWorkers.drop 1, w.isAvailable) ∧ (p.selectWorker exactEnv (twoWorkers.drop 1) (some "") ⟨0, 0, 0, 0⟩).1 = none := by
  decide +kernel

end BucketPolicy

end TriaxialKV.Gateway
