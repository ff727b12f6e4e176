import Mathlib.Data.List.Count
import Mathlib.Data.List.Perm.Basic
import Mathlib.Data.List.Nodup
import Mathlib.Algebra.Order.Ring.Int
import TriaxialKV.Lib.Runs

/-!
# The registry of LoRA adapters

Tasks take turns where they wait for a lock or a condition, or for the tasks of a `gather`.
-/

namespace TriaxialKV.Lora
open List

/-! ### Calls -/

/-- The calls that need the write lock; `acquire` takes one name or a list. -/
inductive WriterCall where
  | register (name : String) (id : Nat)
  | acquireOne (name : String)
  | acquire (names : List (Option String))
  | unload (name : String)
  deriving DecidableEq

/-- What a task does after it has given the write lock back. -/
inductive Section where
  | done
  | acquiredOne (id : Nat)
  | acquired (ids : List Nat)
  | unregistered (id : Nat)
  deriving DecidableEq

structure Acquiring where
  todo : List Nat
  counted : List Nat
  deriving DecidableEq

/-- `registry` is in the order of use; `counters` are the ids with a counter, which lives on for those with a reference to it. -/
structure LoRARegistry where
  registry : List (String × Nat) := []
  counters : List Nat := []
  count : Nat → Int := fun _ => 0
  issued : List Nat := []
  writer : Option Section := none
  readers : List (List Nat) := []
  waitingWriters : List WriterCall := []
  waitingReaders : List (List Nat) := []
  acquiring : List Acquiring := []
  held : List Nat := []
  unloading : List Nat := []
  lost : List Nat := []
  raised : Bool := false

namespace LoRARegistry

def moveToEnd (registry : List (String × Nat)) (name : String) (id : Nat) : List (String × Nat) :=
  registry.filter (fun entry => entry.1 ≠ name) ++ [(name, id)]

def lookup : List (String × Nat) → List (Option String) → Option (List Nat) × List (String × Nat)
  | registry, [] => (some [], registry)
  | registry, none :: names => lookup registry names
  | registry, some name :: names =>
    match registry.lookup name with
    | none => (none, registry)
    | some id =>
      let (ids, registry) := lookup (moveToEnd registry name id) names
      (ids.map (fun ids => id :: ids), registry)

/-- A call that raises under the write lock gives it back and ends. -/
def write (s : LoRARegistry) : WriterCall → LoRARegistry
  | .register name id =>
    if (s.registry.lookup name).isSome then { s with writer := some .done }
    else
      { s with
        registry := s.registry ++ [(name, id)]
        counters := s.counters ++ [id]
        count := fun i => if i = id then 0 else s.count i
        issued := s.issued ++ [id]
        writer := some .done }
  | .acquireOne name =>
    match s.registry.lookup name with
    | none => { s with writer := some .done }
    | some id => { s with registry := moveToEnd s.registry name id, writer := some (.acquiredOne id) }
  | .acquire names =>
    let (ids, registry) := lookup s.registry names
    { s with registry := registry, writer := some (ids.elim .done .acquired) }
  | .unload name =>
    match s.registry.lookup name with
    | none => { s with writer := some .done }
    | some id => { s with registry := s.registry.filter (fun entry => entry.1 ≠ name), writer := some (.unregistered id) }

def acquireWriter (s : LoRARegistry) (call : WriterCall) : LoRARegistry :=
  if s.writer ≠ none ∨ s.readers ≠ [] then { s with waitingWriters := s.waitingWriters ++ [call] } else s.write call

def add (count : Nat → Int) (id : Nat) (n : Int) : Nat → Int := fun i => if i = id then count i + n else count i

/-- `release_writer`, and what follows up to the next wait. One id is counted at once, since neither lock is ever held over a wait; for a list the
tasks of the `gather` have to run first. -/
def releaseWriter (s : LoRARegistry) : LoRARegistry :=
  match s.writer with
  | none => s
  | some .done => { s with writer := none }
  | some (.acquiredOne id) =>
    if id ∈ s.counters then { s with writer := none, count := add s.count id 1, held := s.held ++ [id] }
    else { s with writer := none, raised := true }
  | some (.acquired ids) =>
    if ∀ id ∈ ids, id ∈ s.counters then { s with writer := none, acquiring := s.acquiring ++ [⟨ids, []⟩] }
    else { s with writer := none, raised := true }
  | some (.unregistered id) => { s with writer := none, unloading := s.unloading ++ [id] }

def read (s : LoRARegistry) (ids : List Nat) : LoRARegistry :=
  if ∀ id ∈ ids, id ∈ s.counters then { s with readers := s.readers ++ [ids] }
  else { s with readers := s.readers ++ [[]], lost := s.lost ++ ids }

def acquireReader (s : LoRARegistry) (ids : List Nat) : LoRARegistry :=
  if s.writer ≠ none ∨ s.waitingWriters ≠ [] then { s with waitingReaders := s.waitingReaders ++ [ids] } else s.read ids

/-! ### Steps -/

inductive Action where
  | call (call : WriterCall)
  | resumeWriter (call : WriterCall)
  | releaseWriter
  | increment (acquire : Acquiring) (id : Nat)
  | returns (acquire : Acquiring)
  | release (ids : List Nat)
  | resumeReader (ids : List Nat)
  | decrement (todo : List Nat) (id : Nat)
  | releaseReader
  | wake (id : Nat)

def step (s : LoRARegistry) : Action → LoRARegistry
  | .call call => s.acquireWriter call
  | .resumeWriter call => { s with waitingWriters := s.waitingWriters.erase call }.write call
  | .releaseWriter => s.releaseWriter
  | .increment acquire id =>
    { s with
      count := add s.count id 1
      acquiring := s.acquiring.erase acquire ++ [⟨acquire.todo.erase id, acquire.counted ++ [id]⟩] }
  | .returns acquire => { s with acquiring := s.acquiring.erase acquire, held := s.held ++ acquire.counted }
  | .release ids => { s with held := s.held.diff ids }.acquireReader ids
  | .resumeReader ids => { s with waitingReaders := s.waitingReaders.erase ids }.read ids
  | .decrement todo id => { s with count := add s.count id (-1), readers := s.readers.erase todo ++ [todo.erase id] }
  | .releaseReader => { s with readers := s.readers.erase [] }
  | .wake id => { s with unloading := s.unloading.erase id, counters := s.counters.erase id }

def Fresh (s : LoRARegistry) : WriterCall → Prop
  | .register _ id => id ∉ s.issued
  | _ => True

def guard (s : LoRARegistry) : Action → Prop
  | .call call => s.Fresh call
  | .resumeWriter call => call ∈ s.waitingWriters ∧ s.writer = none ∧ s.readers = [] ∧ s.Fresh call
  | .releaseWriter => s.writer ≠ none
  | .increment acquire id => acquire ∈ s.acquiring ∧ id ∈ acquire.todo
  | .returns acquire => acquire ∈ s.acquiring ∧ acquire.todo = []
  | .release ids => ∀ id ∈ ids, ids.count id ≤ s.held.count id
  | .resumeReader ids => ids ∈ s.waitingReaders ∧ s.writer = none ∧ s.waitingWriters = []
  | .decrement todo id => todo ∈ s.readers ∧ id ∈ todo
  | .releaseReader => [] ∈ s.readers
  | .wake id => id ∈ s.unloading ∧ s.count id = 0

instance (s : LoRARegistry) : (call : WriterCall) → Decidable (s.Fresh call)
  | .register _ id => inferInstanceAs (Decidable (id ∉ s.issued))
  | .acquireOne _ => .isTrue trivial
  | .acquire _ => .isTrue trivial
  | .unload _ => .isTrue trivial

instance (s : LoRARegistry) : (action : Action) → Decidable (s.guard action)
  | .call call => inferInstanceAs (Decidable (s.Fresh call))
  | .resumeWriter _ => inferInstanceAs (Decidable (_ ∧ _))
  | .releaseWriter => inferInstanceAs (Decidable (s.writer ≠ none))
  | .increment .. => inferInstanceAs (Decidable (_ ∧ _))
  | .returns _ => inferInstanceAs (Decidable (_ ∧ _))
  | .release ids => inferInstanceAs (Decidable (∀ id ∈ ids, ids.count id ≤ s.held.count id))
  | .resumeReader _ => inferInstanceAs (Decidable (_ ∧ _))
  | .decrement .. => inferInstanceAs (Decidable (_ ∧ _))
  | .releaseReader => inferInstanceAs (Decidable ([] ∈ s.readers))
  | .wake _ => inferInstanceAs (Decidable (_ ∧ _))

def Section.ids : Option Section → List Nat
  | some (.acquiredOne id) => [id]
  | some (.acquired ids) => ids
  | _ => []

def pending (s : LoRARegistry) : List Nat := Section.ids s.writer ++ s.acquiring.flatMap (·.todo)

def counted (s : LoRARegistry) : List Nat := s.acquiring.flatMap (·.counted) ++ s.held ++ s.waitingReaders.flatten ++ s.readers.flatten ++ s.lost

def outstanding (s : LoRARegistry) : List Nat := s.pending ++ s.counted

def Completes (s : LoRARegistry) (id : Nat) : Prop := s.guard (.wake id)

def Quiet (s : LoRARegistry) : Prop := s.writer = none ∧ s.acquiring = [] ∧ s.waitingReaders = [] ∧ s.readers = []

/-! ### The invariant -/

def ids (s : LoRARegistry) : List Nat := s.registry.map Prod.snd

structure Inv (s : LoRARegistry) : Prop where
  counts : ∀ id, s.count id = s.counted.count id
  known : ∀ id ∈ s.outstanding, id ∈ s.issued
  names : (s.registry.map Prod.fst).Nodup
  distinct : s.ids.Nodup
  registered : ∀ id ∈ s.ids, id ∈ s.counters ∧ id ∈ s.issued
  unloading : ∀ id ∈ s.unloading, id ∉ s.ids ∧ id ∈ s.issued
  acquired : ∀ id ∈ Section.ids s.writer, id ∈ s.ids
  unregistered : ∀ id, s.writer = some (.unregistered id) → id ∉ s.ids ∧ id ∈ s.issued
  raised : s.raised = false

section
variable {registry : List (String × Nat)} {name : String} {id : Nat}

theorem lookup_mem (found : registry.lookup name = some id) : (name, id) ∈ registry := by
  induction registry with
  | nil => cases found
  | cons entry registry ih =>
    rw [lookup_cons] at found
    split at found
    · next same =>
      cases found
      rw [eq_of_beq same]
      exact mem_cons_self
    · exact mem_cons_of_mem _ (ih found)

theorem lookup_none (absent : ¬ (registry.lookup name).isSome = true) : name ∉ registry.map Prod.fst := by
  intro mem
  obtain ⟨entry, here, rfl⟩ := mem_map.mp mem
  refine absent ?_
  rw [lookup_isSome_iff]
  exact ⟨entry, here, beq_self_eq_true _⟩

theorem moveToEnd_perm (names : (registry.map Prod.fst).Nodup) (found : registry.lookup name = some id) :
    (moveToEnd registry name id).Perm registry := by
  unfold moveToEnd
  induction registry with
  | nil => cases found
  | cons entry registry ih =>
    obtain ⟨alone, names⟩ := nodup_cons.mp names
    rw [lookup_cons] at found
    split at found
    · next same =>
      cases found
      have here : name = entry.1 := eq_of_beq same
      have others : registry.filter (fun e => e.1 ≠ name) = registry := by
        refine filter_eq_self.mpr (fun e mem => decide_eq_true (fun eq => alone ?_))
        rw [← here, ← eq]
        exact mem_map_of_mem mem
      rw [filter_cons_of_neg (by simpa using here.symm), others, here]
      exact perm_append_singleton entry registry
    · next other =>
      have apart : entry.1 ≠ name := fun same => by simp [same] at other
      rw [filter_cons_of_pos (by simpa using apart), cons_append]
      exact (ih names found).cons entry

theorem lookup_spec (names : (registry.map Prod.fst).Nodup) (wanted : List (Option String)) : (lookup registry wanted).2.Perm registry ∧
      ∀ found, (lookup registry wanted).1 = some found → ∀ id ∈ found, id ∈ registry.map Prod.snd := by
  induction wanted generalizing registry with
  | nil =>
    refine ⟨.refl _, fun found eq id mem => ?_⟩
    cases eq
    cases mem
  | cons first wanted ih =>
    cases first with
    | none => exact ih names
    | some name =>
      rw [lookup]
      cases found : registry.lookup name with
      | none => exact ⟨.refl _, nofun⟩
      | some id =>
        have moved := moveToEnd_perm names found
        obtain ⟨perm, listed⟩ := ih ((moved.map Prod.fst).nodup_iff.mpr names)
        refine ⟨perm.trans moved, fun ids eq i mem => ?_⟩
        obtain ⟨rest, eq', rfl⟩ := Option.map_eq_some_iff.mp eq
        rcases mem_cons.mp mem with rfl | later
        · exact mem_map_of_mem (lookup_mem found)
        · exact (moved.map Prod.snd).mem_iff.mp (listed rest eq' i later)

end

section
variable {s s' : LoRARegistry} {id : Nat}

theorem count_flatErase {β : Type} [DecidableEq β] {l : List β} {a : β} (f : β → List Nat) (mem : a ∈ l) (i : Nat) :
    (l.flatMap f).count i = (f a).count i + ((l.erase a).flatMap f).count i := by
  rw [((perm_cons_erase mem).flatMap_right f).count_eq, flatMap_cons, count_append]

theorem count_flatten_erase {l : List (List Nat)} {a : List Nat} (mem : a ∈ l) (i : Nat) :
    l.flatten.count i = a.count i + (l.erase a).flatten.count i := by
  rw [(perm_cons_erase mem).flatten.count_eq, flatten_cons, count_append]

theorem count_erase_mem {l : List Nat} (mem : id ∈ l) (i : Nat) : l.count i = (l.erase id).count i + if i = id then 1 else 0 := by
  rw [(perm_cons_erase mem).count_eq, count_cons]
  by_cases same : i = id
  · rw [if_pos same, if_pos (by rw [same, beq_self_eq_true])]
  · rw [if_neg same, if_neg (by simpa using Ne.symm same)]

theorem count_singleton_ite (id i : Nat) : [id].count i = if i = id then 1 else 0 := by
  rw [count_erase_mem (mem_singleton_self id), erase_cons_head, count_nil, zero_add]

theorem count_counted (s : LoRARegistry) (i : Nat) :
    s.counted.count i = (s.acquiring.flatMap (·.counted)).count i + s.held.count i + s.waitingReaders.flatten.count i +
      s.readers.flatten.count i + s.lost.count i := by
  unfold counted
  simp only [count_append]

theorem count_owned (s : LoRARegistry) (i : Nat) :
    s.outstanding.count i = (Section.ids s.writer).count i + (s.acquiring.flatMap (·.todo)).count i + s.counted.count i := by
  unfold outstanding pending
  rw [count_append, count_append]

section
variable (inv : s.Inv)
include inv

theorem Inv.known_of_le (less : ∀ i, s'.outstanding.count i ≤ s.outstanding.count i) : ∀ id ∈ s'.outstanding, id ∈ s.issued := by
  intro id mem
  refine inv.known id (count_pos_iff.mp ?_)
  exact (count_pos_iff.mpr mem).trans_le (less id)

theorem Inv.of_same (same : s'.registry = s.registry ∧ s'.counters = s.counters ∧ s'.issued = s.issued ∧
      s'.unloading = s.unloading ∧ s'.writer = s.writer ∧ s'.raised = s.raised)
    (counts : ∀ i, s'.count i = s'.counted.count i) (known : ∀ id ∈ s'.outstanding, id ∈ s.issued) : s'.Inv := by
  obtain ⟨registry, counters, issued, unloading, writer, raised⟩ := same
  have ids : s'.ids = s.ids := congrArg (List.map Prod.snd) registry
  constructor
  case counts => exact counts
  case known => rw [issued]; exact known
  case names => rw [registry]; exact inv.names
  case distinct => rw [ids]; exact inv.distinct
  case registered => rw [ids, counters, issued]; exact inv.registered
  case unloading => rw [unloading, ids, issued]; exact inv.unloading
  case acquired => rw [writer, ids]; exact inv.acquired
  case unregistered => rw [writer, ids, issued]; exact inv.unregistered
  case raised => rw [raised]; exact inv.raised

theorem Inv.increment {acquire : Acquiring} (here : acquire ∈ s.acquiring) (due : id ∈ acquire.todo) : (s.step (.increment acquire id)).Inv := by
  have moved (i : Nat) : (s.step (.increment acquire id)).counted.count i = s.counted.count i + if i = id then 1 else 0 := by
    have old := count_flatErase (·.counted) here i
    rw [count_counted, count_counted]
    change ((s.acquiring.erase acquire ++ [_]).flatMap _).count i + s.held.count i + s.waitingReaders.flatten.count i + s.readers.flatten.count i +
      s.lost.count i = _
    rw [flatMap_append, flatMap_singleton, count_append, count_append, count_singleton_ite]
    omega
  refine { inv with counts := fun i => ?_, known := inv.known_of_le (fun i => ?_) }
  · rw [moved]
    change add s.count id 1 i = _
    unfold add
    rw [inv.counts i]
    split <;> simp
  · have old := count_flatErase (·.todo) here i
    have rest := count_erase_mem due i
    rw [count_owned, count_owned, moved]
    change (Section.ids s.writer).count i + ((s.acquiring.erase acquire ++ [_]).flatMap _).count i + _ ≤ _
    rw [flatMap_append, flatMap_singleton, count_append]
    dsimp only
    omega

theorem Inv.returns {acquire : Acquiring} (here : acquire ∈ s.acquiring) : (s.step (.returns acquire)).Inv := by
  have moved (i : Nat) : (s.step (.returns acquire)).counted.count i = s.counted.count i := by
    have old := count_flatErase (·.counted) here i
    rw [count_counted, count_counted]
    change ((s.acquiring.erase acquire).flatMap _).count i + (s.held ++ acquire.counted).count i + s.waitingReaders.flatten.count i +
      s.readers.flatten.count i + s.lost.count i = _
    rw [count_append]
    omega
  refine { inv with counts := fun i => ?_, known := inv.known_of_le (fun i => ?_) }
  · rw [moved]
    exact inv.counts i
  · have old := count_flatErase (·.todo) here i
    rw [count_owned, count_owned, moved]
    change (Section.ids s.writer).count i + ((s.acquiring.erase acquire).flatMap _).count i + _ ≤ _
    omega

theorem Inv.read {ids held : List Nat} {waiting : List (List Nat)}
    (taken : ∀ i, held.count i + waiting.flatten.count i + ids.count i = s.held.count i + s.waitingReaders.flatten.count i) :
    (LoRARegistry.read { s with held := held, waitingReaders := waiting } ids).Inv := by
  have moved (i : Nat) : (LoRARegistry.read { s with held := held, waitingReaders := waiting } ids).counted.count i = s.counted.count i := by
    have := taken i
    rw [count_counted, count_counted]
    unfold LoRARegistry.read
    split
    · simp only [flatten_append, flatten_singleton, count_append]
      omega
    · simp only [flatten_append, flatten_singleton, count_append, count_nil]
      omega
  have same (i : Nat) : (LoRARegistry.read { s with held := held, waitingReaders := waiting } ids).outstanding.count i = s.outstanding.count i := by
    rw [count_owned, count_owned, moved]
    unfold LoRARegistry.read
    split <;> rfl
  have counts (i : Nat) : (LoRARegistry.read { s with held := held, waitingReaders := waiting } ids).count i = s.counted.count i := by
    rw [← inv.counts i]
    unfold LoRARegistry.read
    split <;> rfl
  have known := inv.known_of_le (fun i => (same i).le)
  generalize after : LoRARegistry.read { s with held := held, waitingReaders := waiting } ids = s' at moved counts known
  have kept : s'.registry = s.registry ∧ s'.counters = s.counters ∧ s'.issued = s.issued ∧ s'.unloading = s.unloading ∧ s'.writer = s.writer ∧
      s'.raised = s.raised := by
    rw [← after]
    unfold LoRARegistry.read
    split <;> exact ⟨rfl, rfl, rfl, rfl, rfl, rfl⟩
  exact inv.of_same kept (fun i => (counts i).trans (by rw [moved])) known

theorem Inv.acquireReader {ids held : List Nat} (taken : ∀ i, held.count i + ids.count i = s.held.count i) :
    (LoRARegistry.acquireReader { s with held := held } ids).Inv := by
  unfold LoRARegistry.acquireReader
  split
  · have moved (i : Nat) : ({ s with held := held, waitingReaders := s.waitingReaders ++ [ids] } : LoRARegistry).counted.count i =
        s.counted.count i := by
      have := taken i
      rw [count_counted, count_counted]
      simp only [flatten_append, flatten_singleton, count_append]
      omega
    refine inv.of_same ⟨rfl, rfl, rfl, rfl, rfl, rfl⟩ (fun i => ?_) (inv.known_of_le (fun i => ?_))
    · rw [moved]
      exact inv.counts i
    · rw [count_owned, count_owned, moved]
  · exact inv.read (fun i => by have := taken i; omega)

theorem Inv.decrement {todo : List Nat} (here : todo ∈ s.readers) (due : id ∈ todo) : (s.step (.decrement todo id)).Inv := by
  have moved (i : Nat) : (s.step (.decrement todo id)).counted.count i + (if i = id then 1 else 0) = s.counted.count i := by
    have old := count_flatten_erase here i
    have rest := count_erase_mem due i
    rw [count_counted, count_counted]
    change _ + (s.readers.erase todo ++ [todo.erase id]).flatten.count i + s.lost.count i + _ = _
    rw [flatten_append, flatten_singleton, count_append]
    change (s.acquiring.flatMap _).count i + s.held.count i + s.waitingReaders.flatten.count i + _ + _ + _ = _
    omega
  refine { inv with counts := fun i => ?_, known := inv.known_of_le (fun i => ?_) }
  · have counted := inv.counts i
    have := moved i
    change add s.count id (-1) i = _
    unfold add
    split at this
    · next same =>
      rw [if_pos same]
      omega
    · next other =>
      rw [if_neg other]
      omega
  · have := moved i
    rw [count_owned, count_owned]
    change (Section.ids s.writer).count i + (s.acquiring.flatMap _).count i + _ ≤ _
    omega

theorem Inv.releaseReader (here : [] ∈ s.readers) : (s.step .releaseReader).Inv := by
  have moved (i : Nat) : (s.step .releaseReader).counted.count i = s.counted.count i := by
    have old := count_flatten_erase here i
    rw [count_counted, count_counted]
    change (s.acquiring.flatMap _).count i + s.held.count i + s.waitingReaders.flatten.count i +
      (s.readers.erase []).flatten.count i + s.lost.count i = _
    rw [count_nil] at old
    omega
  refine inv.of_same ⟨rfl, rfl, rfl, rfl, rfl, rfl⟩ (fun i => ?_) (inv.known_of_le (fun i => ?_))
  · rw [moved]
    exact inv.counts i
  · rw [count_owned, count_owned, moved]
    exact le_refl _

theorem Inv.wake (here : id ∈ s.unloading) : (s.step (.wake id)).Inv := by
  refine { inv with registered := fun i mem => ?_, unloading := fun i mem => ?_ }
  · obtain ⟨counter, issued⟩ := inv.registered i mem
    -- The id that is unloaded is not in the registry any more.
    have other : i ≠ id := fun same => (inv.unloading id here).1 (same ▸ mem)
    exact ⟨(mem_erase_of_ne other).mpr counter, issued⟩
  · exact inv.unloading i (mem_of_mem_erase mem)

theorem Inv.releaseWriter : s.releaseWriter.Inv := by
  unfold LoRARegistry.releaseWriter
  split
  · exact inv
  · next ended =>
    refine { inv with known := inv.known_of_le (fun i => ?_), acquired := nofun, unregistered := nofun }
    rw [count_owned, count_owned, ended]
    exact le_refl _
  · next id ended =>
    have found : id ∈ s.counters := (inv.registered id (inv.acquired id (by rw [ended]; exact mem_singleton_self id))).1
    rw [if_pos found]
    have moved (i : Nat) : ({ s with writer := none, count := add s.count id 1, held := s.held ++ [id] } : LoRARegistry).counted.count i =
        s.counted.count i + if i = id then 1 else 0 := by
      rw [count_counted, count_counted]
      simp only [count_append, count_singleton_ite]
      omega
    refine { inv with counts := fun i => ?_, known := inv.known_of_le (fun i => ?_), acquired := nofun, unregistered := nofun }
    · rw [moved]
      change add s.count id 1 i = _
      unfold add
      rw [inv.counts i]
      split <;> simp
    · rw [count_owned, count_owned, moved, ended]
      simp only [Section.ids, count_nil, count_singleton_ite]
      omega
  · next ids ended =>
    have found : ∀ id ∈ ids, id ∈ s.counters := fun id mem => (inv.registered id (inv.acquired id (by rw [ended]; exact mem))).1
    rw [if_pos found]
    have moved (i : Nat) : ({ s with writer := none, acquiring := s.acquiring ++ [⟨ids, []⟩] } : LoRARegistry).counted.count i =
        s.counted.count i := by
      rw [count_counted, count_counted]
      simp only [flatMap_append, flatMap_singleton, append_nil]
    refine { inv with counts := fun i => ?_, known := inv.known_of_le (fun i => ?_), acquired := nofun, unregistered := nofun }
    · rw [moved]
      exact inv.counts i
    · rw [count_owned, count_owned, moved, ended]
      simp only [flatMap_append, flatMap_singleton, count_append, Section.ids, count_nil]
      omega
  · next id ended =>
    refine { inv with known := inv.known_of_le (fun i => ?_), unloading := fun i mem => ?_, acquired := nofun, unregistered := nofun }
    · rw [count_owned, count_owned, ended]
      exact le_refl _
    · rcases mem_append.mp mem with old | new
      · exact inv.unloading i old
      · rw [mem_singleton.mp new]
        exact inv.unregistered id ended

end

theorem unlocked (free : s.writer = none) (acquiring : s'.acquiring = s.acquiring) (none : Section.ids s'.writer = [])
    (counted : s'.counted = s.counted) : ∀ i, s'.outstanding.count i ≤ s.outstanding.count i := by
  intro i
  rw [count_owned, count_owned, acquiring, none, counted, free]
  exact le_refl _

section
variable (inv : s.Inv)
include inv

theorem Inv.register (free : s.writer = none) {name : String} (fresh : id ∉ s.issued) : (s.write (.register name id)).Inv := by
  rw [LoRARegistry.write]
  split
  · refine { inv with known := inv.known_of_le (unlocked free rfl rfl rfl), acquired := ?_, unregistered := ?_ }
    · exact nofun
    · exact nofun
  · next absent =>
    have new : id ∉ s.ids := fun mem => fresh (inv.registered id mem).2
    have unknown : s.counted.count id = 0 := by
      refine count_eq_zero.mpr (fun mem => fresh (inv.known id ?_))
      exact mem_append_right _ mem
    have ids : ({ s with registry := s.registry ++ [(name, id)] } : LoRARegistry).ids = s.ids ++ [id] := map_append
    constructor
    case counts =>
      intro i
      change (if i = id then 0 else s.count i) = (s.counted.count i : Int)
      split
      · next same =>
        rw [same, unknown]
        rfl
      · exact inv.counts i
    case known =>
      intro i mem
      refine mem_append_left _ (inv.known_of_le ?_ i mem)
      exact unlocked free rfl rfl rfl
    case names =>
      rw [map_append]
      exact nodup_append_comm.mp (nodup_cons.mpr ⟨lookup_none absent, inv.names⟩)
    case distinct =>
      change ({ s with registry := s.registry ++ [(name, id)] } : LoRARegistry).ids.Nodup
      rw [ids]
      exact nodup_append_comm.mp (nodup_cons.mpr ⟨new, inv.distinct⟩)
    case registered =>
      change ∀ i ∈ ({ s with registry := s.registry ++ [(name, id)] } : LoRARegistry).ids, _
      rw [ids]
      intro i mem
      rcases mem_append.mp mem with old | last
      · exact ⟨mem_append_left _ (inv.registered i old).1, mem_append_left _ (inv.registered i old).2⟩
      · exact ⟨mem_append_right _ last, mem_append_right _ last⟩
    case unloading =>
      intro i mem
      obtain ⟨gone, issued⟩ := inv.unloading i mem
      refine ⟨?_, mem_append_left _ issued⟩
      change i ∉ ({ s with registry := s.registry ++ [(name, id)] } : LoRARegistry).ids
      rw [ids]
      intro here
      rcases mem_append.mp here with old | last
      · exact gone old
      · rw [mem_singleton.mp last] at issued
        exact fresh issued
    case acquired =>
      exact nofun
    case unregistered =>
      exact nofun
    case raised => exact inv.raised

theorem Inv.looked {registry : List (String × Nat)} {after : Section} (perm : registry.Perm s.registry)
    (found : ∀ id ∈ Section.ids (some after), id ∈ s.ids) (other : ∀ id, after ≠ .unregistered id) :
    ({ s with registry := registry, writer := some after } : LoRARegistry).Inv := by
  have ids : (registry.map Prod.snd).Perm s.ids := perm.map Prod.snd
  constructor
  case counts => exact inv.counts
  case known =>
    intro i mem
    rcases mem_append.mp mem with waits | counted
    · rcases mem_append.mp waits with looked | due
      · exact (inv.registered i (found i looked)).2
      · exact inv.known i (mem_append_left _ (mem_append_right _ due))
    · exact inv.known i (mem_append_right _ counted)
  case names => exact (perm.map Prod.fst).nodup_iff.mpr inv.names
  case distinct => exact ids.nodup_iff.mpr inv.distinct
  case registered => exact fun i mem => inv.registered i (ids.mem_iff.mp mem)
  case unloading => exact fun i mem => ⟨fun here => (inv.unloading i mem).1 (ids.mem_iff.mp here), (inv.unloading i mem).2⟩
  case acquired => exact fun i mem => ids.mem_iff.mpr (found i mem)
  case unregistered => exact fun i eq => absurd (Option.some.inj eq) (other i)
  case raised => exact inv.raised

theorem Inv.acquireOne (name : String) : (s.write (.acquireOne name)).Inv := by
  rw [LoRARegistry.write]
  split
  · exact inv.looked (.refl _) nofun nofun
  · next id found =>
    refine inv.looked (moveToEnd_perm inv.names found) (fun i mem => ?_) nofun
    rw [mem_singleton.mp mem]
    exact mem_map_of_mem (lookup_mem found)

theorem Inv.acquire (names : List (Option String)) : (s.write (.acquire names)).Inv := by
  obtain ⟨perm, listed⟩ := lookup_spec inv.names names
  rw [LoRARegistry.write]
  dsimp only
  cases found : (lookup s.registry names).1 with
  | none => exact inv.looked perm nofun nofun
  | some ids => exact inv.looked perm (listed ids found) nofun

theorem Inv.unregister (free : s.writer = none) (name : String) : (s.write (.unload name)).Inv := by
  rw [LoRARegistry.write]
  split
  · refine { inv with known := inv.known_of_le (unlocked free rfl rfl rfl), acquired := ?_, unregistered := ?_ }
    · exact nofun
    · exact nofun
  · next id found =>
    have kept : (s.registry.filter (fun entry => entry.1 ≠ name)).Sublist s.registry := filter_sublist
    have listed : id ∈ s.ids := mem_map_of_mem (lookup_mem found)
    constructor
    case counts => exact inv.counts
    case known => exact inv.known_of_le (unlocked free rfl rfl rfl)
    case names => exact inv.names.sublist (kept.map _)
    case distinct => exact inv.distinct.sublist (kept.map _)
    case registered => exact fun i mem => inv.registered i ((kept.map _).subset mem)
    case unloading => exact fun i mem => ⟨fun here => (inv.unloading i mem).1 ((kept.map _).subset here), (inv.unloading i mem).2⟩
    case acquired =>
      exact nofun
    case unregistered =>
      intro i eq
      obtain rfl := Section.unregistered.inj (Option.some.inj eq)
      refine ⟨fun here => ?_, (inv.registered _ listed).2⟩
      -- Another entry with this id would have the same name.
      obtain ⟨entry, mem, same'⟩ := mem_map.mp here
      obtain ⟨lt, other⟩ := mem_filter.mp mem
      have equal := inj_on_of_nodup_map inv.distinct lt (lookup_mem found) same'
      rw [equal] at other
      exact of_decide_eq_true other rfl
    case raised => exact inv.raised

theorem Inv.write (free : s.writer = none) {call : WriterCall} (fresh : s.Fresh call) : (s.write call).Inv := by
  cases call with
  | register name id => exact inv.register free fresh
  | acquireOne name => exact inv.acquireOne name
  | acquire names => exact inv.acquire names
  | unload name => exact inv.unregister free name

theorem Inv.acquireWriter {call : WriterCall} (fresh : s.Fresh call) : (s.acquireWriter call).Inv := by
  unfold LoRARegistry.acquireWriter
  split
  · exact inv.of_same ⟨rfl, rfl, rfl, rfl, rfl, rfl⟩ inv.counts inv.known
  · next free => exact inv.write (not_not.mp (not_or.mp free).1) fresh

theorem Inv.step {action : Action} (allowed : s.guard action) : (s.step action).Inv := by
  cases action with
  | call call => exact inv.acquireWriter allowed
  | resumeWriter call =>
    obtain ⟨_, free, _, fresh⟩ := allowed
    have waits : ({ s with waitingWriters := s.waitingWriters.erase call } : LoRARegistry).Inv :=
      inv.of_same ⟨rfl, rfl, rfl, rfl, rfl, rfl⟩ inv.counts inv.known
    have fresh' : ({ s with waitingWriters := s.waitingWriters.erase call } : LoRARegistry).Fresh call := by
      cases call <;> exact fresh
    exact waits.write free fresh'
  | releaseWriter => exact inv.releaseWriter
  | increment acquire id => exact inv.increment allowed.1 allowed.2
  | returns acquire => exact inv.returns allowed.1
  | release ids =>
    refine inv.acquireReader (fun i => ?_)
    rw [count_diff]
    by_cases mem : i ∈ ids
    · have := allowed i mem
      omega
    · rw [count_eq_zero.mpr mem]
      rfl
  | resumeReader ids =>
    refine inv.read (fun i => ?_)
    have old := count_flatten_erase allowed.1 i
    omega
  | decrement todo id => exact inv.decrement allowed.1 allowed.2
  | releaseReader => exact inv.releaseReader allowed
  | wake id => exact inv.wake allowed.1

end

end

def create : LoRARegistry := {}

theorem create_inv : create.Inv := by
  constructor
  case counts => exact fun _ => rfl
  case known => exact fun _ mem => absurd mem not_mem_nil
  case names => exact nodup_nil
  case distinct => exact nodup_nil
  case registered => exact fun _ mem => absurd mem not_mem_nil
  case unloading => exact fun _ mem => absurd mem not_mem_nil
  case acquired => exact nofun
  case unregistered => exact nofun
  case raised => rfl

/-- An adapter is taken out of the registry only when no acquire of a list has its id still to count. -/
def Settled (s : LoRARegistry) : Action → Prop
  | .call (.unload name) => s.writer = none ∧ s.readers = [] → ∀ id ∈ s.registry.lookup name, id ∉ s.acquiring.flatMap (·.todo)
  | .resumeWriter (.unload name) => ∀ id ∈ s.registry.lookup name, id ∉ s.acquiring.flatMap (·.todo)
  | _ => True

instance (s : LoRARegistry) : (action : Action) → Decidable (s.Settled action)
  | .call (.unload _) => inferInstanceAs (Decidable (_ → _))
  | .resumeWriter (.unload name) => inferInstanceAs (Decidable (∀ id ∈ s.registry.lookup name, id ∉ s.acquiring.flatMap (·.todo)))
  | .call (.register ..) | .call (.acquireOne _) | .call (.acquire _) => .isTrue trivial
  | .resumeWriter (.register ..) | .resumeWriter (.acquireOne _) | .resumeWriter (.acquire _) => .isTrue trivial
  | .releaseWriter | .increment .. | .returns _ | .release _ | .resumeReader _ | .decrement .. | .releaseReader | .wake _ => .isTrue trivial

def settledGuard (s : LoRARegistry) (action : Action) : Prop := s.guard action ∧ s.Settled action

def singleGuard (s : LoRARegistry) (action : Action) : Prop :=
  s.guard action ∧ ∀ names, action ≠ .call (.acquire names) ∧ action ≠ .resumeWriter (.acquire names)

/-- No id that is on its way out waits to be counted. -/
def Calm (s : LoRARegistry) : Prop := ∀ id, id ∈ s.unloading ∨ s.writer = some (.unregistered id) → id ∉ s.pending

section
variable {s s' : LoRARegistry} {id : Nat}

theorem Calm.of_subset (calm : s.Calm) (pending : s'.pending ⊆ s.pending) (unloading : s'.unloading ⊆ s.unloading)
    (writer : ∀ id, s'.writer = some (.unregistered id) → s.writer = some (.unregistered id)) : s'.Calm :=
  fun id leaves due => calm id (leaves.imp (fun mem => unloading mem) (writer id)) (pending due)

theorem Calm.write (calm : s.Calm) (inv : s.Inv) (free : s.writer = none) {call : WriterCall}
    (settled : ∀ name, call = .unload name → ∀ id ∈ s.registry.lookup name, id ∉ s.acquiring.flatMap (·.todo)) : (s.write call).Calm := by
  have looked {registry : List (String × Nat)} {after : Section} (found : ∀ id ∈ Section.ids (some after), id ∈ s.ids)
      (other : ∀ id, after ≠ .unregistered id) : ({ s with registry := registry, writer := some after } : LoRARegistry).Calm := by
    intro id leaves due
    rcases leaves with leaves | same
    · rcases mem_append.mp due with looked | due
      · exact (inv.unloading id leaves).1 (found id looked)
      · exact calm id (.inl leaves) (mem_append_right _ due)
    · exact other id (Option.some.inj same)
  cases call with
  | register name id =>
    rw [LoRARegistry.write]
    split
    · exact looked nofun nofun
    · refine calm.of_subset ?_ (Subset.refl _) nofun
      unfold pending
      rw [free]
      exact Subset.refl _
  | acquireOne name =>
    rw [LoRARegistry.write]
    split
    · exact looked nofun nofun
    · next id found =>
      refine looked (fun i mem => ?_) nofun
      rw [mem_singleton.mp mem]
      exact mem_map_of_mem (lookup_mem found)
  | acquire names =>
    rw [LoRARegistry.write]
    dsimp only
    cases found : (lookup s.registry names).1 with
    | none => exact looked nofun nofun
    | some ids => exact looked ((lookup_spec inv.names names).2 ids found) nofun
  | unload name =>
    rw [LoRARegistry.write]
    split
    · exact looked nofun nofun
    · next id found =>
      intro i leaves due
      rcases leaves with leaves | same
      · exact calm i (.inl leaves) (mem_append_right _ due)
      · obtain rfl := Section.unregistered.inj (Option.some.inj same)
        exact settled name rfl _ found due

theorem Calm.releaseWriter (calm : s.Calm) : s.releaseWriter.Calm := by
  unfold LoRARegistry.releaseWriter
  split
  · exact calm
  · exact calm.of_subset (subset_append_right _ _) (Subset.refl _) nofun
  · split
    · exact calm.of_subset (subset_append_right _ _) (Subset.refl _) nofun
    · exact calm.of_subset (subset_append_right _ _) (Subset.refl _) nofun
  · next ids ended =>
    split
    · refine calm.of_subset (fun i mem => ?_) (Subset.refl _) nofun
      unfold pending at mem ⊢
      rw [ended]
      simp only [flatMap_append, flatMap_singleton, Section.ids, nil_append, mem_append] at mem ⊢
      exact mem.symm
    · exact calm.of_subset (subset_append_right _ _) (Subset.refl _) nofun
  · next id ended =>
    intro i leaves due
    have due : i ∈ s.pending := mem_append_right _ due
    rcases leaves with leaves | same
    · rcases mem_append.mp leaves with old | new
      · exact calm i (.inl old) due
      · exact calm i (.inr (mem_singleton.mp new ▸ ended)) due
    · cases same

theorem Calm.increment (calm : s.Calm) {acquire : Acquiring} (here : acquire ∈ s.acquiring) : (s.step (.increment acquire id)).Calm := by
  refine calm.of_subset (fun i mem => ?_) (Subset.refl _) (fun _ same => same)
  rcases mem_append.mp mem with looked | due
  · exact mem_append_left _ looked
  · obtain ⟨other, listed, due⟩ := mem_flatMap.mp due
    refine mem_append_right _ (mem_flatMap.mpr ?_)
    rcases mem_append.mp listed with old | new
    · exact ⟨other, mem_of_mem_erase old, due⟩
    · rw [mem_singleton.mp new] at due
      exact ⟨acquire, here, mem_of_mem_erase due⟩

theorem Calm.step (calm : s.Calm) (inv : s.Inv) {action : Action} (allowed : s.settledGuard action) : (s.step action).Calm := by
  obtain ⟨allowed, settled⟩ := allowed
  have read {held : List Nat} {waiting : List (List Nat)} (ids : List Nat) :
      (LoRARegistry.read { s with held := held, waitingReaders := waiting } ids).Calm := by
    unfold LoRARegistry.read
    split <;> exact calm
  cases action with
  | call call =>
    change (s.acquireWriter call).Calm
    unfold LoRARegistry.acquireWriter
    split
    · exact calm
    · next free =>
      obtain ⟨writer, readers⟩ := not_or.mp free
      refine calm.write inv (not_not.mp writer) (fun name same => ?_)
      subst same
      exact settled ⟨not_not.mp writer, not_not.mp readers⟩
  | resumeWriter call =>
    obtain ⟨_, free, _, _⟩ := allowed
    have waits : ({ s with waitingWriters := s.waitingWriters.erase call } : LoRARegistry).Inv :=
      inv.of_same ⟨rfl, rfl, rfl, rfl, rfl, rfl⟩ inv.counts inv.known
    refine Calm.write (s := { s with waitingWriters := s.waitingWriters.erase call }) calm waits free (fun name same => ?_)
    subst same
    exact settled
  | releaseWriter => exact calm.releaseWriter
  | increment acquire id => exact calm.increment allowed.1
  | returns acquire =>
    refine calm.of_subset (fun i mem => ?_) (Subset.refl _) (fun _ same => same)
    rcases mem_append.mp mem with looked | due
    · exact mem_append_left _ looked
    · obtain ⟨other, listed, due⟩ := mem_flatMap.mp due
      exact mem_append_right _ (mem_flatMap.mpr ⟨other, mem_of_mem_erase listed, due⟩)
  | release ids =>
    change (LoRARegistry.acquireReader _ ids).Calm
    unfold LoRARegistry.acquireReader
    split
    · exact calm
    · exact read ids
  | resumeReader ids => exact read ids
  | decrement todo id => exact calm
  | releaseReader => exact calm
  | wake id => exact calm.of_subset (Subset.refl _) (fun _ mem => mem_of_mem_erase mem) (fun _ same => same)

/-- Without lists nothing is ever acquired in steps. -/
def Single (s : LoRARegistry) : Prop := s.acquiring = [] ∧ (∀ ids, s.writer ≠ some (.acquired ids)) ∧ ∀ names, .acquire names ∉ s.waitingWriters

theorem Single.settled (single : s.Single) (action : Action) : s.Settled action := by
  unfold Settled
  split
  · intro _ id _ due
    rw [single.1] at due
    cases due
  · intro id _ due
    rw [single.1] at due
    cases due
  · trivial

theorem Single.write (single : s.Single) {call : WriterCall} (other : ∀ names, call ≠ .acquire names) : (s.write call).Single := by
  cases call with
  | register name id =>
    rw [LoRARegistry.write]
    split <;> exact ⟨single.1, nofun, single.2.2⟩
  | acquireOne name =>
    rw [LoRARegistry.write]
    split <;> exact ⟨single.1, nofun, single.2.2⟩
  | acquire names => exact absurd rfl (other names)
  | unload name =>
    rw [LoRARegistry.write]
    split <;> exact ⟨single.1, nofun, single.2.2⟩

theorem Single.step (single : s.Single) {action : Action} (allowed : s.singleGuard action) : (s.step action).Single := by
  obtain ⟨allowed, other⟩ := allowed
  have read {held : List Nat} {waiting : List (List Nat)} (ids : List Nat) :
      (LoRARegistry.read { s with held := held, waitingReaders := waiting } ids).Single := by
    unfold LoRARegistry.read
    split <;> exact single
  have none {acquire : Acquiring} (here : acquire ∈ s.acquiring) : False := by
    rw [single.1] at here
    cases here
  cases action with
  | call call =>
    have other : ∀ names, call ≠ .acquire names := fun names same => (other names).1 (congrArg Action.call same)
    change (s.acquireWriter call).Single
    unfold LoRARegistry.acquireWriter
    split
    · refine ⟨single.1, single.2.1, fun names mem => ?_⟩
      rcases mem_append.mp mem with old | new
      · exact single.2.2 names old
      · exact other names (mem_singleton.mp new).symm
    · exact single.write other
  | resumeWriter call =>
    have waits : ({ s with waitingWriters := s.waitingWriters.erase call } : LoRARegistry).Single :=
      ⟨single.1, single.2.1, fun names mem => single.2.2 names (mem_of_mem_erase mem)⟩
    exact waits.write (fun names same => (other names).2 (congrArg Action.resumeWriter same))
  | releaseWriter =>
    change s.releaseWriter.Single
    unfold LoRARegistry.releaseWriter
    split
    · exact single
    · exact ⟨single.1, nofun, single.2.2⟩
    · split <;> exact ⟨single.1, nofun, single.2.2⟩
    · next ids ended => exact absurd ended (single.2.1 ids)
    · exact ⟨single.1, nofun, single.2.2⟩
  | increment acquire id => exact (none allowed.1).elim
  | returns acquire => exact (none allowed.1).elim
  | release ids =>
    change (LoRARegistry.acquireReader _ ids).Single
    unfold LoRARegistry.acquireReader
    split
    · exact single
    · exact read ids
  | resumeReader ids => exact read ids
  | decrement todo id => exact single
  | releaseReader => exact single
  | wake id => exact single

theorem Inv.unused (inv : s.Inv) (calm : s.Calm) (completes : s.Completes id) : id ∉ s.outstanding := by
  have counts := inv.counts id
  rw [completes.2] at counts
  intro mem
  rcases mem_append.mp mem with due | counted
  · exact calm id (.inl completes.1) due
  · exact count_eq_zero.mp (by omega) counted

end

theorem reachable_inv {s : LoRARegistry} (reachable : Runs.Reachable step guard create s) : s.Inv :=
  reachable.invariant Inv create_inv (fun _ _ inv allowed => inv.step allowed)

/-- An unload that completes finds its id unused, in runs that take no adapter away from a list acquire and in runs without lists. -/
theorem unload_safe {s : LoRARegistry} (reachable : Runs.Reachable step guard create s) :
    (Runs.Reachable step settledGuard create s ∨ Runs.Reachable step singleGuard create s → ∀ id, s.Completes id → id ∉ s.outstanding) ∧
      s.raised = false ∧ (s.Quiet → ∀ id ∈ s.counters, s.count id = s.outstanding.count id) := by
  have inv := reachable_inv reachable
  have start : create.Inv ∧ create.Calm := ⟨create_inv, fun _ _ => not_mem_nil⟩
  refine ⟨fun runs id completes => ?_, inv.raised, fun quiet id _ => ?_⟩
  · have calm : s.Calm := by
      rcases runs with settled | single
      · exact (settled.invariant (fun s => s.Inv ∧ s.Calm) start
          (fun _ _ both allowed => ⟨both.1.step allowed.1, both.2.step both.1 allowed⟩)).2
      · exact (single.invariant (fun s => (s.Inv ∧ s.Calm) ∧ s.Single) ⟨start, rfl, nofun, nofun⟩ (fun _ action all allowed =>
          ⟨⟨all.1.1.step allowed.1, all.1.2.step all.1.1 ⟨allowed.1, all.2.settled action⟩⟩, all.2.step allowed⟩)).1.2
    exact inv.unused calm completes
  · obtain ⟨writer, acquiring, _, _⟩ := quiet
    have none : s.pending = [] := by
      unfold pending
      rw [writer, acquiring]
      rfl
    unfold outstanding
    rw [none]
    exact inv.counts id

/-- The list acquire has counted its ids before the adapter is taken out of the registry; the wait ends with the last release. -/
def releasedRun : List Action :=
  [.call (.register "a" 1), .releaseWriter, .call (.acquire [some "a"]), .releaseWriter, .call (.acquireOne "a"), .releaseWriter,
    .increment ⟨[1], []⟩ 1, .call (.unload "a"), .returns ⟨[], [1]⟩, .releaseWriter, .release [1], .decrement [1] 1, .releaseReader, .release [1],
    .decrement [1] 1, .releaseReader]

theorem unload_safe_after_release : (releasedRun.foldl step create).Completes 1 ∧ 1 ∉ (releasedRun.foldl step create).outstanding := by
  have settled : Runs.Guarded step settledGuard create releasedRun := by
    unfold settledGuard
    decide +kernel
  have reachable : Runs.Reachable step guard create (releasedRun.foldl step create) := Runs.Guarded.reachable .start (by decide +kernel)
  have completes : (releasedRun.foldl step create).Completes 1 := by
    unfold Completes
    decide +kernel
  exact ⟨completes, (unload_safe reachable).1 (.inl (settled.reachable .start)) 1 completes⟩

/-- The acquire has looked the adapter up and is not counted yet. -/
theorem unload_under_acquire : ∃ s, Runs.Reachable step guard create s ∧ s.Completes 1 ∧ 1 ∈ s.outstanding := by
  refine ⟨[Action.call (.register "a" 1), .releaseWriter, .call (.acquire [some "a"]), .releaseWriter, .call (.unload "a"),
    .releaseWriter].foldl step create, Runs.Guarded.reachable .start (by decide +kernel), ?_, by decide +kernel⟩
  unfold Completes
  decide +kernel

end LoRARegistry

end TriaxialKV.Lora
