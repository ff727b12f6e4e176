import TriaxialKV.Lib.Runs
import Mathlib.Data.List.Nodup
import Mathlib.Logic.Function.Basic

/-! # Worker registry of the gateway -/

namespace TriaxialKV.Gateway.Registry
open List Function

variable {fresh id : Nat} {url : String}

inductive WorkerType where
  | regular
  | prefill (bootstrapPort : Option Nat)
  | decode
deriving DecidableEq

inductive ConnectionMode where
  | http
  | grpc (port : Option Nat)
deriving DecidableEq

/-- `object` tells workers apart that were built at different times. -/
structure Worker where
  url : String
  modelId : String
  workerType : WorkerType
  connectionMode : ConnectionMode
  object : Nat
deriving DecidableEq

/-- `HashRing::new`: 150 virtual nodes for each worker, sorted by their position. -/
def hashRing (hash : String → Nat → Nat) (workers : List Worker) : List (Nat × String) :=
  (workers.flatMap (fun w => (range 150).map (fun vnode => (hash w.url vnode, w.url)))).mergeSort (fun a b => a.1 ≤ b.1)

structure WorkerRegistry where
  workers : List (Nat × Worker)
  modelIndex : String → Option (List Worker)
  hashRings : String → Option (List (Nat × String))
  typeWorkers : WorkerType → List Nat
  connectionWorkers : ConnectionMode → List Nat
  urlToId : String → Option Nat

namespace WorkerRegistry
variable (hash : String → Nat → Nat) (r : WorkerRegistry)

def new : WorkerRegistry := ⟨[], fun _ => none, fun _ => none, fun _ => [], fun _ => [], fun _ => none⟩

def get (id : Nat) : Option Worker := (r.workers.find? (·.1 == id)).map (·.2)

def getByModel (modelId : String) : List Worker := (r.modelIndex modelId).getD []

def getByType (workerType : WorkerType) : List Worker := (r.typeWorkers workerType).filterMap r.get

def getByConnection (connectionMode : ConnectionMode) : List Worker := (r.connectionWorkers connectionMode).filterMap r.get

def getWorkerDistribution : Nat × Nat :=
  let regularCount := (r.typeWorkers .regular).length
  (regularCount, r.workers.length - regularCount)

def rebuildHashRing (modelId : String) : WorkerRegistry :=
  { r with hashRings := update r.hashRings modelId ((r.modelIndex modelId).map (hashRing hash)) }

/-- `workers.insert(id, worker)` -/
def insertWorker (workers : List (Nat × Worker)) (id : Nat) (worker : Worker) : List (Nat × Worker) :=
  if id ∈ workers.map (·.1) then workers.map (fun p => if p.1 = id then (id, worker) else p) else workers ++ [(id, worker)]

/-- `fresh` is the id that `WorkerId::new` would give. -/
def register (worker : Worker) (fresh : Nat) : WorkerRegistry :=
  let id := (r.urlToId worker.url).getD fresh
  let r := { r with
    workers := insertWorker r.workers id worker
    urlToId := update r.urlToId worker.url (some id)
    modelIndex := update r.modelIndex worker.modelId (some (r.getByModel worker.modelId ++ [worker])) }
  let r := r.rebuildHashRing hash worker.modelId
  { r with
    typeWorkers := update r.typeWorkers worker.workerType (r.typeWorkers worker.workerType ++ [id])
    connectionWorkers := update r.connectionWorkers worker.connectionMode
      (r.connectionWorkers worker.connectionMode ++ [id]) }

def reserveIdForUrl (url : String) (fresh : Nat) : WorkerRegistry :=
  { r with urlToId := update r.urlToId url (some ((r.urlToId url).getD fresh)) }

def removeWorker (id : Nat) (worker : Worker) : WorkerRegistry :=
  let r := { r with
    workers := r.workers.filter (·.1 != id)
    urlToId := update r.urlToId worker.url none
    modelIndex := update r.modelIndex worker.modelId
      ((r.modelIndex worker.modelId).map (List.filter (·.url != worker.url))) }
  let r := r.rebuildHashRing hash worker.modelId
  { r with
    typeWorkers := update r.typeWorkers worker.workerType ((r.typeWorkers worker.workerType).filter (· != id))
    connectionWorkers := update r.connectionWorkers worker.connectionMode
      ((r.connectionWorkers worker.connectionMode).filter (· != id)) }

def remove (id : Nat) : WorkerRegistry :=
  match r.get id with
  | none => r
  | some worker => r.removeWorker hash id worker

def removeByUrl (url : String) : WorkerRegistry :=
  match r.urlToId url with
  | none => r
  | some id => remove hash { r with urlToId := update r.urlToId url none } id

inductive RegistryOp where
  | register (worker : Worker) (fresh : Nat)
  | reserveIdForUrl (url : String) (fresh : Nat)
  | remove (id : Nat)
  | removeByUrl (url : String)

def step (r : WorkerRegistry) : RegistryOp → WorkerRegistry
  | .register worker fresh => r.register hash worker fresh
  | .reserveIdForUrl url fresh => r.reserveIdForUrl url fresh
  | .remove id => r.remove hash id
  | .removeByUrl url => r.removeByUrl hash url

def Unused (id : Nat) : Prop := (∀ p ∈ r.workers, p.1 ≠ id) ∧ ∀ url, r.urlToId url ≠ some id

def freshGuard (r : WorkerRegistry) : RegistryOp → Prop
  | .register _ fresh | .reserveIdForUrl _ fresh => r.Unused fresh
  | .remove _ | .removeByUrl _ => True

def newUrlGuard (r : WorkerRegistry) : RegistryOp → Prop
  | .register worker _ => ∀ p ∈ r.workers, p.2.url ≠ worker.url
  | .reserveIdForUrl _ _ | .remove _ | .removeByUrl _ => True

structure Agrees : Prop where
  models : ∀ m, (r.getByModel m).Perm ((r.workers.map (·.2)).filter (·.modelId = m))
  types : ∀ t, (r.getByType t).Perm ((r.workers.map (·.2)).filter (·.workerType = t))
  connections : ∀ c, (r.getByConnection c).Perm ((r.workers.map (·.2)).filter (·.connectionMode = c))
  urls : ∀ p ∈ r.workers, r.urlToId p.2.url = some p.1
  rings : ∀ m url, (∃ pos, (pos, url) ∈ (r.hashRings m).getD []) ↔ ∃ w ∈ r.getByModel m, w.url = url
  distribution : r.getWorkerDistribution = (r.workers.countP (·.2.workerType = .regular), r.workers.countP (¬ ·.2.workerType = .regular))

section
variable {κ α : Type} [DecidableEq κ] {key : Worker → κ} {entry : Nat × Worker → α} {index : κ → List α}
  {workers : List (Nat × Worker)} {p : Nat × Worker}

def Indexes (key : Worker → κ) (entry : Nat × Worker → α) (index : κ → List α) (workers : List (Nat × Worker)) : Prop :=
  ∀ k, index k = (workers.filter (fun p => key p.2 = k)).map entry

theorem Indexes.add (indexes : Indexes key entry index workers) (p : Nat × Worker) :
    Indexes key entry (update index (key p.2) (index (key p.2) ++ [entry p])) (workers ++ [p]) := by
  intro k
  by_cases same : k = key p.2
  · subst same
    simp [indexes (key p.2)]
  · simp [update_of_ne same, indexes k, Ne.symm same]

theorem Indexes.remove (indexes : Indexes key entry index workers) (unique : ∀ q ∈ workers, q.1 = p.1 → q = p) {keep : α → Bool}
    (kept : ∀ q ∈ workers, keep (entry q) = (q.1 != p.1)) :
    Indexes key entry (update index (key p.2) ((index (key p.2)).filter keep)) (workers.filter (·.1 != p.1)) := by
  intro k
  by_cases same : k = key p.2
  · subst same
    have kept' : ∀ q ∈ workers, (keep ∘ entry) q = (q.1 != p.1) := kept
    rw [update_self, indexes, filter_map, filter_comm, filter_congr kept']
  · rw [update_of_ne same, indexes k, filter_filter]
    congr 1
    apply filter_congr
    intro q mem
    by_cases here : q.1 = p.1
    · obtain rfl := unique q mem here
      simp [Ne.symm same]
    · simp [here]

end

def Apart (urlToId : String → Option Nat) : Prop := ∀ u v id, urlToId u = some id → urlToId v = some id → u = v

theorem Apart.update {urlToId : String → Option Nat} (apart : Apart urlToId) {new : Option Nat}
    (own : ∀ u id, new = some id → urlToId u = some id → u = url) : Apart (update urlToId url new) := by
  intro u v id first second
  rw [update_apply] at first second
  split at first <;> split at second
  · next here there => exact here.trans there.symm
  · next here there => exact here.trans (own v id first second).symm
  · next here there => exact (own u id second first).trans there.symm
  · exact apart u v id first second

structure Inv : Prop where
  ids : (r.workers.map (·.1)).Nodup
  urls : ∀ p ∈ r.workers, r.urlToId p.2.url = some p.1
  apart : Apart r.urlToId
  models : Indexes (·.modelId) (·.2) r.getByModel r.workers
  types : Indexes (·.workerType) (·.1) r.typeWorkers r.workers
  connections : Indexes (·.connectionMode) (·.1) r.connectionWorkers r.workers
  rings : ∀ m, r.hashRings m = (r.modelIndex m).map (hashRing hash)

variable {hash r} {worker : Worker}

theorem mem_hashRing {workers : List Worker} : (∃ pos, (pos, url) ∈ hashRing hash workers) ↔ ∃ w ∈ workers, w.url = url := by
  simp only [hashRing, mem_mergeSort, mem_flatMap, mem_map, mem_range, Prod.mk.injEq]
  constructor
  · rintro ⟨_, w, mem, _, _, _, same⟩
    exact ⟨w, mem, same⟩
  · rintro ⟨w, mem, same⟩
    exact ⟨hash w.url 0, w, mem, 0, by decide, rfl, same⟩

theorem new_inv : new.Inv hash := ⟨nodup_nil, nofun, nofun, fun _ => rfl, fun _ => rfl, fun _ => rfl, fun _ => rfl⟩

theorem mem_of_get (found : r.get id = some worker) : (id, worker) ∈ r.workers := by
  obtain ⟨p, first, rfl⟩ := Option.map_eq_some_iff.mp found
  have same : p.1 = id := by simpa using find?_some first
  exact same ▸ mem_of_find?_eq_some first

namespace Inv
variable (inv : r.Inv hash)
include inv

theorem unique {p : Nat × Worker} (mem : p ∈ r.workers) : ∀ q ∈ r.workers, q.1 = p.1 → q = p :=
  fun _ mem' same => inj_on_of_nodup_map inv.ids mem' mem same

theorem get_mem {p : Nat × Worker} (mem : p ∈ r.workers) : r.get p.1 = some p.2 := by
  cases found : r.workers.find? (·.1 == p.1) with
  | none => exact absurd (find?_eq_none.mp found p mem) (by simp)
  | some q =>
    have same : q.1 = p.1 := by simpa using find?_some found
    rw [get, found, inv.unique mem q (mem_of_find?_eq_some found) same]
    rfl

theorem looked_up {κ : Type} [DecidableEq κ] {key : Worker → κ} {index : κ → List Nat}
    (indexes : Indexes key (·.1) index r.workers) (k : κ) : (index k).filterMap r.get = (r.workers.map (·.2)).filter (key · = k) := by
  rw [indexes k, filterMap_map, filter_map]
  have each : ∀ p ∈ r.workers.filter (fun p => key p.2 = k), (r.get ∘ (·.1)) p = (some ∘ (·.2)) p :=
    fun p mem => inv.get_mem (mem_filter.mp mem).1
  rw [filterMap_congr each, filterMap_eq_map]
  rfl

theorem agrees : r.Agrees where
  models m := by
    rw [inv.models m, filter_map]
    rfl
  types t := .of_eq (inv.looked_up inv.types t)
  connections c := .of_eq (inv.looked_up inv.connections c)
  urls := inv.urls
  rings m url := by
    rw [inv.rings m, getByModel]
    cases r.modelIndex m with
    | none => simp
    | some workers => exact mem_hashRing
  distribution := by
    have all := r.workers.length_eq_countP_add_countP (fun p => p.2.workerType = .regular)
    rw [getWorkerDistribution, inv.types .regular, length_map, ← countP_eq_length_filter]
    simp only [decide_eq_true_eq, decide_not] at all ⊢
    rw [all, Nat.add_sub_cancel_left]

theorem own_id (url : String) (unused : r.Unused fresh) (u : String) (id : Nat)
    (known : some ((r.urlToId url).getD fresh) = some id) (mapped : r.urlToId u = some id) : u = url := by
  cases here : r.urlToId url with
  | none =>
    rw [here] at known
    exact absurd (mapped.trans known.symm) (unused.2 u)
  | some old =>
    rw [here] at known
    exact inv.apart _ _ id mapped (here.trans known)

theorem register (unused : r.Unused fresh) (new : ∀ p ∈ r.workers, p.2.url ≠ worker.url) : (r.register hash worker fresh).Inv hash := by
  have own := inv.own_id worker.url unused
  have absent : (r.urlToId worker.url).getD fresh ∉ r.workers.map (·.1) := fun mem => by
    obtain ⟨p, listed, same⟩ := mem_map.mp mem
    exact new p listed (own _ _ (congrArg some same.symm) (inv.urls p listed))
  have workers : (r.register hash worker fresh).workers = r.workers ++ [((r.urlToId worker.url).getD fresh, worker)] := if_neg absent
  have models : (r.register hash worker fresh).getByModel = update r.getByModel worker.modelId (r.getByModel worker.modelId ++ [worker]) := by
    funext m
    simp only [WorkerRegistry.register, rebuildHashRing, getByModel, update_apply]
    split <;> rfl
  refine ⟨?_, ?_, inv.apart.update own, ?_, ?_, ?_, fun m => ?_⟩
  · rw [workers, map_append]
    simpa [nodup_append] using ⟨inv.ids, fun x w mem same => absent (same ▸ mem_map_of_mem mem)⟩
  · rw [workers]
    intro p mem
    rcases mem_append.mp mem with old | last
    · exact (update_of_ne (new p old) _ _).trans (inv.urls p old)
    · rw [mem_singleton.mp last]
      exact update_self ..
  · rw [workers, models]
    exact inv.models.add (_, worker)
  · rw [workers]
    exact inv.types.add (_, worker)
  · rw [workers]
    exact inv.connections.add (_, worker)
  · simp only [WorkerRegistry.register, rebuildHashRing, update_apply, inv.rings m]
    split <;> rfl

theorem reserveIdForUrl (unused : r.Unused fresh) : (r.reserveIdForUrl url fresh).Inv hash := by
  have own := inv.own_id url unused
  refine { inv with urls := fun p mem => ?_, apart := inv.apart.update own }
  have mapped := inv.urls p mem
  by_cases same : p.2.url = url
  · rw [same] at mapped ⊢
    simp [WorkerRegistry.reserveIdForUrl, mapped]
  · exact (update_of_ne same _ _).trans mapped

theorem removeWorker (mem : (id, worker) ∈ r.workers) : (r.removeWorker hash id worker).Inv hash := by
  have unique := inv.unique mem
  have kept : ∀ q ∈ r.workers, (q.2.url != worker.url) = (q.1 != id) := by
    intro q mem'
    rw [Bool.eq_iff_iff, bne_iff_ne, bne_iff_ne, not_iff_not]
    constructor
    · intro same
      exact Option.some.inj ((inv.urls q mem').symm.trans (same ▸ inv.urls _ mem))
    · intro same
      rw [unique q mem' same]
  have models : (r.removeWorker hash id worker).getByModel =
      update r.getByModel worker.modelId ((r.getByModel worker.modelId).filter (·.url != worker.url)) := by
    funext m
    simp only [WorkerRegistry.removeWorker, rebuildHashRing, getByModel, update_apply]
    split
    · cases r.modelIndex worker.modelId <;> rfl
    · rfl
  refine ⟨inv.ids.sublist (filter_sublist.map _), fun q mem' => ?_, inv.apart.update nofun, ?_,
    inv.types.remove unique (fun _ _ => rfl), inv.connections.remove unique (fun _ _ => rfl), fun m => ?_⟩
  · obtain ⟨listed, other⟩ := mem_filter.mp mem'
    rw [← kept q listed] at other
    exact (update_of_ne (bne_iff_ne.mp other) _ _).trans (inv.urls q listed)
  · rw [models]
    exact inv.models.remove unique kept
  · simp only [WorkerRegistry.removeWorker, rebuildHashRing, update_apply, inv.rings m]
    split <;> rfl

theorem remove (id : Nat) : (r.remove hash id).Inv hash := by
  unfold WorkerRegistry.remove
  split
  · exact inv
  · next _ found => exact inv.removeWorker (mem_of_get found)

theorem removeByUrl (url : String) : (r.removeByUrl hash url).Inv hash := by
  unfold WorkerRegistry.removeByUrl WorkerRegistry.remove
  split
  · exact inv
  · next id mapped =>
    split
    · next missing =>
      refine { inv with urls := fun p mem => ?_, apart := inv.apart.update nofun }
      have other : p.2.url ≠ url := by
        rintro rfl
        obtain rfl := Option.some.inj ((inv.urls p mem).symm.trans mapped)
        cases (inv.get_mem mem).symm.trans missing
      exact (update_of_ne other _ _).trans (inv.urls p mem)
    · next worker found =>
      have found : r.get id = some worker := found
      have here : worker.url = url := inv.apart _ _ id (inv.urls _ (mem_of_get found)) mapped
      have same : WorkerRegistry.removeWorker hash { r with urlToId := update r.urlToId url none } id worker = r.removeWorker hash id worker := by
        simp only [WorkerRegistry.removeWorker, rebuildHashRing, here, update_idem]
      rw [same]
      exact inv.removeWorker (mem_of_get found)

theorem step (op : RegistryOp) (fresh : r.freshGuard op) (new : r.newUrlGuard op) : (step hash r op).Inv hash := by
  cases op with
  | register worker id => exact inv.register fresh new
  | reserveIdForUrl url id => exact inv.reserveIdForUrl fresh
  | remove id => exact inv.remove id
  | removeByUrl url => exact inv.removeByUrl url

theorem not_agrees {op : RegistryOp} (known : ¬ r.newUrlGuard op) : ¬ (WorkerRegistry.step hash r op).Agrees := by
  cases op with
  | reserveIdForUrl url id => exact absurd trivial known
  | remove id => exact absurd trivial known
  | removeByUrl url => exact absurd trivial known
  | register worker fresh =>
    simp only [newUrlGuard, not_forall, not_not] at known
    obtain ⟨p, mem, same⟩ := known
    have mapped : (r.urlToId worker.url).getD fresh = p.1 := by rw [← same, inv.urls p mem, Option.getD_some]
    have workers : (r.register hash worker fresh).workers = r.workers.map (fun q => if q.1 = p.1 then (p.1, worker) else q) := by
      show insertWorker r.workers ((r.urlToId worker.url).getD fresh) worker = _
      rw [mapped, insertWorker, if_pos (mem_map_of_mem mem)]
    intro agrees
    have models := agrees.models p.2.modelId
    rw [WorkerRegistry.step, workers] at models
    simp only [WorkerRegistry.register, rebuildHashRing, getByModel, update_apply] at models
    by_cases model : p.2.modelId = worker.modelId
    · have size := models.length_eq
      have listed : r.getByModel worker.modelId = _ := inv.models worker.modelId
      have count : (r.workers.map (fun q => if q.1 = p.1 then (p.1, worker) else q)).countP
          (fun q => q.2.modelId = worker.modelId) = r.workers.countP (fun q => q.2.modelId = worker.modelId) := by
        rw [countP_map]
        refine countP_congr (fun q mem' => ?_)
        by_cases here : q.1 = p.1
        · simp [inv.unique mem q mem' here, model]
        · simp [here]
      rw [if_pos model, Option.getD_some, show (r.modelIndex worker.modelId).getD [] = _ from listed, model, length_append,
        length_map, ← countP_eq_length_filter, ← countP_eq_length_filter, countP_map, length_singleton] at size
      exact absurd (size.trans count) (Nat.succ_ne_self _)
    · rw [if_neg model] at models
      have listed : p.2 ∈ (r.modelIndex p.2.modelId).getD [] := by
        show p.2 ∈ r.getByModel p.2.modelId
        rw [inv.models]
        exact mem_map_of_mem (mem_filter.mpr ⟨mem, by simp⟩)
      obtain ⟨_, stored, replaced⟩ := mem_map.mp (mem_filter.mp (models.mem_iff.mp listed)).1
      obtain ⟨q, mem', rfl⟩ := mem_map.mp stored
      split at replaced
      · exact model (congrArg Worker.modelId replaced).symm
      · next other => exact other (Option.some.inj ((inv.urls q mem').symm.trans (replaced ▸ inv.urls p mem)))

end Inv

/-- The indexes agree all along a run exactly if no worker is registered under the URL of a registered one. -/
theorem indexes_agree_iff (hash : String → Nat → Nat) {ops : List RegistryOp} (fresh : Runs.Guarded (step hash) freshGuard new ops) :
    (∀ n, ((ops.take n).foldl (step hash) new).Agrees) ↔ Runs.Guarded (step hash) newUrlGuard new ops := by
  have start : new.Inv hash := new_inv
  generalize new = r at fresh start
  induction ops generalizing r with
  | nil => exact ⟨fun _ => trivial, fun _ n => by rw [take_nil]; exact start.agrees⟩
  | cons op ops ih =>
    constructor
    · intro all
      have first : r.newUrlGuard op := by
        by_contra known
        exact start.not_agrees known (all 1)
      exact ⟨first, (ih _ fresh.2 (start.step op fresh.1 first)).mp (fun n => all (n + 1))⟩
    · rintro ⟨first, rest⟩ n
      cases n with
      | zero => exact start.agrees
      | succ n => exact (ih _ fresh.2 (start.step op fresh.1 first)).mpr rest n

/-- A removed URL is registered again beside another worker. -/
theorem indexes_agree_again : let ops : List RegistryOp := [.register ⟨"a", "m", .regular, .http, 0⟩ 1,
      .register ⟨"b", "m", .regular, .http, 0⟩ 2, .remove 1, .register ⟨"a", "m", .regular, .http, 1⟩ 3]
    Runs.Guarded (step (fun _ _ => 0)) freshGuard new ops ∧ ∀ n, ((ops.take n).foldl (step (fun _ _ => 0)) new).Agrees := by
  intro ops
  have fresh : Runs.Guarded (step (fun _ _ => 0)) freshGuard new ops := by
    refine ⟨⟨nofun, nofun⟩, ⟨by decide, fun url => ?_⟩, trivial, ⟨by decide, fun url => ?_⟩, trivial⟩
    · show (update (fun _ => none) "a" (some 1) : String → Option Nat) url ≠ some 2
      rw [update_apply]
      split <;> nofun
    · show (update (update (update (fun _ => none) "a" (some 1)) "b" (some 2)) "a" none : String → Option Nat) url ≠ some 3
      simp only [update_apply]
      split <;> [nofun; split <;> nofun]
  refine ⟨fresh, (indexes_agree_iff _ fresh).mpr ⟨nofun, ?_, trivial, ?_, trivial⟩⟩
  · show ∀ p ∈ _, _
    decide
  · show ∀ p ∈ _, _
    decide

/-- An update of its labels lists a worker twice. -/
theorem reregistered_listed_twice :
    let ops : List RegistryOp := [.register ⟨"a", "m", .regular, .http, 0⟩ 1, .register ⟨"a", "m", .regular, .http, 1⟩ 2]
    let r := ops.foldl (step (fun _ _ => 0)) new
    r.workers = [(1, ⟨"a", "m", .regular, .http, 1⟩)] ∧ r.getByModel "m" = [⟨"a", "m", .regular, .http, 0⟩, ⟨"a", "m", .regular, .http, 1⟩] ∧
      r.getByType .regular = [⟨"a", "m", .regular, .http, 1⟩, ⟨"a", "m", .regular, .http, 1⟩] ∧ r.getWorkerDistribution = (2, 0) := by
  decide

end WorkerRegistry

end TriaxialKV.Gateway.Registry
