import TriaxialKV.Disagg.Staging
import TriaxialKV.Lib.Runs

/-!
# Staging memory of one room

The decode side of one request. `elsewhere` is what other rooms do with the allocator.
-/

namespace TriaxialKV.Disagg
open List

variable {allocId chunk i : Nat} {complete : Nat → Bool}

inductive KVPoll where
  | failed | bootstrapping | waitingForInput | transferring | success
  deriving DecidableEq, Repr

def KVPoll.code : KVPoll → Nat
  | failed => 0
  | bootstrapping => 1
  | waitingForInput => 2
  | transferring => 3
  | success => 4

def KVPoll.min (a b : KVPoll) : KVPoll := if b.code < a.code then b else a

/-- An entry of `chunk_staging_infos`: the allocation or that the chunk is too large. -/
structure ChunkInfo where
  allocId : Option Nat := none
  oversized : Bool := false
  deriving DecidableEq, Repr

structure StagingRoom where
  allocator : StagingAllocator
  numWriters : Nat
  expectedResponses : Nat
  /-- In the transfer queue and known to the handler. -/
  registered : Bool := true
  requestStatus : KVPoll := .waitingForInput
  concludeState : Option KVPoll := none
  chunkInfos : List ChunkInfo := []
  /-- `_chunk_writer_counts[room]` -/
  writerCounts : Nat → Nat := fun _ => 0
  /-- `prefill_response_tracker[room]` -/
  responses : List Nat := []
  /-- The allocations of submitted chunk scatters. -/
  chunkEvents : List Nat := []
  /-- The allocation of the submitted last scatter. -/
  scatterEvent : Option Nat := none
  scatterDone : Bool := false
  /-- What has been done so far: chunks with the allocations taken for them and scattered, and the calls of `free`. -/
  assigned : List (Nat × Nat) := []
  scattered : List (Nat × Nat) := []
  freed : List Nat := []

inductive StagingMsg where
  | stagingReq (chunk required : Nat)
  | chunkReady (chunk : Nat)
  | success (rank : Nat)
  | failed
  | abort
  /-- A scheduler poll: the scatters that are complete, the status on the other ranks, and whether the metadata has arrived. -/
  | poll (complete : Nat → Bool) (others : KVPoll) (metadata : Bool)
  | elsewhere (allocator : StagingAllocator)

namespace StagingRoom
variable (s : StagingRoom)

def info (chunk : Nat) : ChunkInfo := s.chunkInfos[chunk]?.getD {}

def setInfo (chunk : Nat) (info : ChunkInfo) : StagingRoom :=
  { s with chunkInfos := (s.chunkInfos ++ replicate (chunk + 1 - s.chunkInfos.length) ({} : ChunkInfo)).set chunk info }

def handleStagingReq (chunk required : Nat) : StagingRoom :=
  if !s.registered then s
  else
    if (s.info chunk).allocId.isSome then s
    else if (s.info chunk).oversized then s
    else
      match s.allocator.assign required with
      | (_, none) => s.setInfo chunk { oversized := true }
      | (allocator, some (allocId, _, _)) =>
        { s.setInfo chunk { allocId := some allocId } with allocator, assigned := s.assigned ++ [(chunk, allocId)] }

def submitChunkScatter (chunk : Nat) : StagingRoom :=
  match (s.info chunk).allocId with
  | some allocId =>
    { s.setInfo chunk {} with chunkEvents := s.chunkEvents ++ [allocId], scattered := s.scattered ++ [(chunk, allocId)] }
  | none => s

def handleChunkReady (chunk : Nat) : StagingRoom :=
  let arrived := s.writerCounts chunk + 1
  let counted := { s with writerCounts := Function.update s.writerCounts chunk arrived }
  if !s.registered then counted
  else if arrived ≥ s.numWriters then
    let s := counted.submitChunkScatter chunk
    { s with writerCounts := Function.update s.writerCounts chunk 0 }
  else counted

/-- The record of the last chunk is left as it is. -/
def submitLastScatter : StagingRoom :=
  match (s.info (s.chunkInfos.length - 1)).allocId with
  | some allocId => { s with scatterEvent := some allocId, scattered := s.scattered ++ [(s.chunkInfos.length - 1, allocId)] }
  | none => { s with scatterDone := true }

def updateStatus (status : KVPoll) : StagingRoom :=
  { s with requestStatus := if status = .failed then .failed else if s.requestStatus.code < status.code then status else s.requestStatus }

/-- The status of a request that has left is no longer kept. -/
def handleSuccess (rank : Nat) : StagingRoom :=
  if !s.registered then s
  else
    let s := { s with responses := if rank ∈ s.responses then s.responses else rank :: s.responses }
    if s.responses.length = s.expectedResponses then
      { (s.submitLastScatter).updateStatus .success with writerCounts := fun _ => 0 }
    else s

def isDone : Bool := s.scatterDone && s.chunkEvents.isEmpty

def freeAll (ids : List Nat) : StagingRoom :=
  { s with allocator := ids.foldl StagingAllocator.free s.allocator, freed := s.freed ++ ids }

def advanceScatter (complete : Nat → Bool) : StagingRoom :=
  let s := { s.freeAll (s.chunkEvents.reverse.filter complete) with chunkEvents := s.chunkEvents.filter (fun id => !complete id) }
  match s.scatterEvent with
  | some allocId => if complete allocId then { s.freeAll [allocId] with scatterEvent := none, scatterDone := true } else s
  | none => s

/-- What the receiver's `poll` answers; a final status is kept. -/
def receiverPoll : KVPoll := s.concludeState.getD s.requestStatus

def handlePoll (complete : Nat → Bool) (others : KVPoll) (metadata : Bool) : StagingRoom :=
  if !s.registered then s
  else
    let s := if s.isDone then s else s.advanceScatter complete
    let answer := s.receiverPoll
    let s := { s with concludeState := if answer = .success ∨ answer = .failed then some answer else s.concludeState }
    let answer := if answer = .success ∧ !s.isDone then .transferring else answer
    match answer.min others with
    | .failed => { s with registered := false }
    | .success => if metadata then { s with registered := false } else s
    | _ => s

def step : StagingMsg → StagingRoom
  | .stagingReq chunk required => s.handleStagingReq chunk required
  | .chunkReady chunk => s.handleChunkReady chunk
  | .success rank => s.handleSuccess rank
  | .failed => if s.registered then s.updateStatus .failed else s
  | .abort => if s.registered then { s with concludeState := some .failed } else s
  | .poll complete others metadata => s.handlePoll complete others metadata
  | .elsewhere allocator => { s with allocator }

def guard : StagingMsg → Prop
  | .elsewhere allocator => (∀ p ∈ s.assigned, p.2 ∈ allocator.allocations ↔ p.2 ∈ s.allocator.allocations) ∧
      s.allocator.nextAllocId ≤ allocator.nextAllocId
  | _ => True

/-- No allocation waits for its scatter, and no scatter runs. -/
def Idle : Prop := (∀ k, (s.info k).allocId = none) ∧ s.chunkEvents = [] ∧ s.scatterEvent = none

def Failing : Prop := s.requestStatus = .failed ∨ s.concludeState = some .failed

/-- A request fails only while it is idle, nothing is requested for a failed one, and chunks are requested and scattered in order. -/
def orderly : StagingMsg → Prop
  | .stagingReq chunk _ => s.requestStatus ≠ .success ∧ (s.registered = true → ¬ s.Failing) ∧ ∀ i, (chunk, i) ∉ s.scattered
  | .chunkReady _ => s.requestStatus ≠ .success
  | .success rank => (s.registered = true → s.requestStatus ≠ .failed) ∧ rank ∉ s.responses ∧
      (s.responses.length + 1 = s.expectedResponses → ∀ k, k + 1 < s.chunkInfos.length → (s.info k).allocId = none)
  | .failed => s.registered = true → s.Idle
  | .abort => s.registered = true → s.Idle
  | .poll _ others _ => others = .failed → s.registered = true → s.Idle
  | .elsewhere _ => True

def start (allocator : StagingAllocator) (numWriters expectedResponses : Nat) : StagingRoom := { allocator, numWriters, expectedResponses }

/-- A chunk is scattered once at most, what was freed was scattered and freed once, and a request that left has no allocation. -/
structure Returned : Prop where
  single : ∀ chunk i j, (chunk, i) ∈ s.assigned → (chunk, j) ∈ s.assigned → i ∈ s.allocator.allocations → j ∈ s.allocator.allocations → i = j
  once : (s.scattered.map Prod.fst).Nodup
  freed : s.freed.Nodup ∧ ∀ i ∈ s.freed, i ∈ s.scattered.map Prod.snd
  gone : s.registered = false → ∀ p ∈ s.assigned, p.2 ∉ s.allocator.allocations

end StagingRoom

section
variable {a : StagingAllocator}

theorem assign_spec (a : StagingAllocator) (required : Nat) : (a.assign required).2 = none ∧ (a.assign required).1 = a ∨
      ∃ offset round, (a.assign required).2 = some (a.nextAllocId, offset, round) ∧ (a.assign required).1.nextAllocId = a.nextAllocId + 1 ∧
        ∀ i, i ∈ (a.assign required).1.allocations ↔ i = a.nextAllocId ∨ i ∈ a.allocations := by
  unfold StagingAllocator.assign
  split
  · exact .inl ⟨rfl, rfl⟩
  · refine .inr ⟨_, _, rfl, rfl, fun i => ?_⟩
    rw [AList.mem_insert]

theorem mem_free (a : StagingAllocator) (id i : Nat) : (i ∈ (a.free id).allocations ↔ i ≠ id ∧ i ∈ a.allocations) ∧
    (a.free id).nextAllocId = a.nextAllocId := by
  have erased : i ∈ a.allocations.erase id ↔ i ≠ id ∧ i ∈ a.allocations := AList.mem_erase
  unfold StagingAllocator.free
  split
  · next absent =>
    refine ⟨⟨fun here => ⟨?_, here⟩, And.right⟩, rfl⟩
    rintro rfl
    exact absent here
  · dsimp only
    split
    · exact ⟨erased, rfl⟩
    · split
      · exact ⟨erased, rfl⟩
      · exact ⟨erased, rfl⟩

theorem mem_freeAll (ids : List Nat) (a : StagingAllocator) (i : Nat) :
    (i ∈ (ids.foldl StagingAllocator.free a).allocations ↔ i ∉ ids ∧ i ∈ a.allocations) ∧
      (ids.foldl StagingAllocator.free a).nextAllocId = a.nextAllocId := by
  induction ids generalizing a with
  | nil => simp
  | cons id ids ih =>
    obtain ⟨rest, next⟩ := ih (a.free id)
    obtain ⟨first, next'⟩ := mem_free a id i
    rw [foldl_cons, rest, first, mem_cons, not_or]
    exact ⟨by tauto, next.trans next'⟩

end

namespace StagingRoom
variable {s : StagingRoom}

theorem info_setInfo (s : StagingRoom) (chunk j : Nat) (info : ChunkInfo) : (s.setInfo chunk info).info j = if j = chunk then info else s.info j := by
  unfold setInfo StagingRoom.info
  by_cases same : j = chunk
  · subst same
    rw [if_pos rfl]
    rw [getElem?_set_self (by simp; omega), Option.getD_some]
  · rw [if_neg same]
    rw [getElem?_set_ne (Ne.symm same)]
    by_cases lt : j < s.chunkInfos.length
    · rw [getElem?_append_left lt]
    · rw [getElem?_append_right (by omega), getElem?_eq_none (l := s.chunkInfos) (by omega), Option.getD_none]
      cases filled : (replicate (chunk + 1 - s.chunkInfos.length) ({} : ChunkInfo))[j - s.chunkInfos.length]? with
      | none => rfl
      | some info =>
        have := mem_of_getElem? filled
        rw [eq_of_mem_replicate this, Option.getD_some]

theorem info_outside {k : Nat} (outside : s.chunkInfos.length ≤ k) : s.info k = {} := by
  rw [StagingRoom.info, getElem?_eq_none outside, Option.getD_none]

structure RoomInv (s : StagingRoom) : Prop where
  known : ∀ p ∈ s.assigned, p.2 < s.allocator.nextAllocId
  ids : (s.assigned.map Prod.snd).Nodup
  chunks : (s.assigned.map Prod.fst).Nodup
  infos : ∀ k i, (s.info k).allocId = some i → (k, i) ∈ s.assigned
  scattered : ∀ p ∈ s.scattered, p ∈ s.assigned
  once : s.scattered.Nodup
  split : ∀ p ∈ s.assigned, (s.info p.1).allocId = some p.2 ∨ p ∈ s.scattered
  events : (s.scattered.map Prod.snd).Perm (s.freed ++ (s.chunkEvents ++ s.scatterEvent.toList))
  live : ∀ p ∈ s.assigned, p.2 ∈ s.allocator.allocations ↔ p.2 ∉ s.freed
  open_ : s.requestStatus ≠ .success → s.scatterEvent = none ∧ s.scatterDone = false ∧ s.concludeState = none ∧
    ∀ k i, (s.info k).allocId = some i → (k, i) ∉ s.scattered
  closed : s.requestStatus = .success → s.expectedResponses ≤ s.responses.length ∧ ∀ p ∈ s.assigned, p ∈ s.scattered
  done : s.scatterDone = true → s.scatterEvent = none
  status : s.requestStatus ≠ .failed ∧ s.concludeState ≠ some .failed
  gone : s.registered = false → s.requestStatus = .success ∧ s.isDone = true

theorem RoomInv.start (allocator : StagingAllocator) (numWriters expectedResponses : Nat) :
    (start allocator numWriters expectedResponses).RoomInv := by
  have empty : ∀ k i, ((StagingRoom.start allocator numWriters expectedResponses).info k).allocId = some i → False := by
    intro k i here
    rw [info_outside (Nat.zero_le _)] at here
    cases here
  exact
    { known := nofun
      ids := nodup_nil
      chunks := nodup_nil
      infos := fun k i here => (empty k i here).elim
      scattered := nofun
      once := nodup_nil
      split := nofun
      events := .refl _
      live := nofun
      open_ := fun _ => ⟨rfl, rfl, rfl, fun k i here => (empty k i here).elim⟩
      closed := nofun
      done := nofun
      status := ⟨nofun, nofun⟩
      gone := fun ended => by cases ended }

section
variable (inv : s.RoomInv) (running : s.requestStatus ≠ .success)
include inv running

theorem RoomInv.setNone (none_ : (s.info chunk).allocId = none) (info : ChunkInfo)
    (empty : info.allocId = none) : (s.setInfo chunk info).RoomInv := by
  have same : ∀ k, ((s.setInfo chunk info).info k).allocId = (s.info k).allocId := by
    intro k
    rw [info_setInfo]
    split
    · next here => rw [here, none_, empty]
    · rfl
  exact { inv with
    infos := fun k i here => inv.infos k i (by rw [← same]; exact here)
    split := fun p here => by rw [same]; exact inv.split p here
    open_ := fun _ => by
      obtain ⟨event, done, conclude, apart⟩ := inv.open_ running
      exact ⟨event, done, conclude, fun k i here => apart k i (by rw [← same]; exact here)⟩ }

theorem RoomInv.assign (new : ∀ i, (chunk, i) ∉ s.assigned)
    {allocator : StagingAllocator} (next : allocator.nextAllocId = s.allocator.nextAllocId + 1)
    (members : ∀ i, i ∈ allocator.allocations ↔ i = s.allocator.nextAllocId ∨ i ∈ s.allocator.allocations) :
    RoomInv { s.setInfo chunk { allocId := some s.allocator.nextAllocId } with
      allocator, assigned := s.assigned ++ [(chunk, s.allocator.nextAllocId)] } := by
  have fresh : ∀ k, (k, s.allocator.nextAllocId) ∉ s.assigned := fun k here => lt_irrefl _ (inv.known _ here)
  have info : ∀ k, ((s.setInfo chunk { allocId := some s.allocator.nextAllocId }).info k).allocId =
      if k = chunk then some s.allocator.nextAllocId else (s.info k).allocId := by
    intro k
    rw [info_setInfo]
    split <;> rfl
  have unfreed : s.allocator.nextAllocId ∉ s.freed := by
    intro here
    obtain ⟨p, listed, same⟩ := mem_map.mp (inv.events.mem_iff.mpr (mem_append_left _ here))
    have := inv.known p (inv.scattered p listed)
    omega
  exact { inv with
    known := fun p here => by
      rcases mem_append.mp here with old | added
      · have := inv.known p old
        rw [next]
        omega
      · rw [mem_singleton.mp added, next]
        exact Nat.lt_succ_self _
    ids := by
      rw [map_append, nodup_append]
      refine ⟨inv.ids, nodup_singleton _, ?_⟩
      rintro i old j added rfl
      obtain ⟨p, here, same⟩ := mem_map.mp old
      rw [map_singleton, mem_singleton] at added
      have := inv.known p here
      omega
    chunks := by
      rw [map_append, nodup_append]
      refine ⟨inv.chunks, nodup_singleton _, ?_⟩
      rintro k old j added rfl
      obtain ⟨p, here, same⟩ := mem_map.mp old
      rw [map_singleton, mem_singleton] at added
      have chunkOf : p.1 = chunk := same.trans added
      exact new p.2 (chunkOf ▸ here)
    infos := fun k i here => by
      have here' := info k ▸ here
      split at here'
      · next same =>
        obtain rfl := Option.some.inj here'
        rw [same]
        exact mem_append_right _ mem_cons_self
      · exact mem_append_left _ (inv.infos k i here')
    scattered := fun p here => mem_append_left _ (inv.scattered p here)
    split := fun p here => by
      show ((s.setInfo chunk { allocId := some s.allocator.nextAllocId }).info p.1).allocId = some p.2 ∨ p ∈ s.scattered
      rw [info]
      rcases mem_append.mp here with old | added
      · rw [if_neg (by rintro same; exact new p.2 (by rw [← same]; exact old))]
        exact inv.split p old
      · rw [mem_singleton.mp added, if_pos rfl]
        exact .inl rfl
    live := fun p here => by
      show p.2 ∈ allocator.allocations ↔ p.2 ∉ s.freed
      rw [members]
      rcases mem_append.mp here with old | added
      · rw [← inv.live p old]
        have := inv.known p old
        constructor
        · rintro (same | here)
          · omega
          · exact here
        · exact .inr
      · rw [mem_singleton.mp added]
        exact iff_of_true (.inl rfl) unfreed
    open_ := fun _ => by
      obtain ⟨event, done, conclude, apart⟩ := inv.open_ running
      refine ⟨event, done, conclude, fun k i here => ?_⟩
      have here' := info k ▸ here
      split at here'
      · obtain rfl := Option.some.inj here'
        exact fun listed => fresh k (inv.scattered _ listed)
      · exact apart k i here'
    closed := fun ended => absurd ended running }

section
variable (found : (s.info chunk).allocId = some allocId)
include found

omit running in
theorem RoomInv.scattered_concat (p : Nat × Nat) (here : p ∈ s.scattered ++ [(chunk, allocId)]) : p ∈ s.assigned := by
  rcases mem_append.mp here with old | added
  · exact inv.scattered p old
  · rw [mem_singleton.mp added]
    exact inv.infos _ _ found

theorem RoomInv.once_concat : (s.scattered ++ [(chunk, allocId)]).Nodup := by
  rw [nodup_append]
  refine ⟨inv.once, nodup_singleton _, ?_⟩
  rintro p old q added rfl
  rw [mem_singleton.mp added] at old
  exact (inv.open_ running).2.2.2 _ _ found old

omit found in
theorem RoomInv.events_concat (chunk allocId : Nat) :
    ((s.scattered ++ [(chunk, allocId)]).map Prod.snd).Perm (s.freed ++ (s.chunkEvents ++ [allocId])) := by
  have events := inv.events
  rw [(inv.open_ running).1, Option.toList_none, append_nil] at events
  rw [map_append, ← append_assoc]
  exact events.append_right _

theorem RoomInv.scatter :
    RoomInv { s.setInfo chunk {} with chunkEvents := s.chunkEvents ++ [allocId], scattered := s.scattered ++ [(chunk, allocId)] } := by
  obtain ⟨event, done, conclude, apart⟩ := inv.open_ running
  have info : ∀ k, ((s.setInfo chunk {}).info k).allocId = if k = chunk then none else (s.info k).allocId := by
    intro k
    rw [info_setInfo]
    split <;> rfl
  exact { inv with
    infos := fun k i here => by
      have here' := info k ▸ here
      split at here'
      · cases here'
      · exact inv.infos k i here'
    scattered := inv.scattered_concat found
    once := inv.once_concat running found
    split := fun p here => by
      show ((s.setInfo chunk {}).info p.1).allocId = some p.2 ∨ p ∈ s.scattered ++ [(chunk, allocId)]
      rw [info]
      rcases inv.split p here with record | listed
      · by_cases same : p.1 = chunk
        · rw [same, found] at record
          refine .inr (mem_append_right _ (mem_singleton.mpr (Prod.ext same (Option.some.inj record).symm)))
        · rw [if_neg same]
          exact .inl record
      · exact .inr (mem_append_left _ listed)
    events := by
      show ((s.scattered ++ [(chunk, allocId)]).map Prod.snd).Perm (s.freed ++ (s.chunkEvents ++ [allocId] ++ s.scatterEvent.toList))
      rw [event, Option.toList_none, append_nil]
      exact inv.events_concat running _ _
    open_ := fun _ => by
      refine ⟨event, done, conclude, fun k i here => ?_⟩
      have here' := info k ▸ here
      split at here'
      · cases here'
      · next other =>
        intro listed
        rcases mem_append.mp listed with old | added
        · exact apart k i here' old
        · exact other (Prod.mk.inj (mem_singleton.mp added)).1
    closed := fun ended => absurd ended running
    gone := fun left => absurd (inv.gone left).1 running }

end

end

theorem RoomInv.stagingReq (inv : s.RoomInv) {required : Nat} (allowed : s.orderly (.stagingReq chunk required)) :
    (s.handleStagingReq chunk required).RoomInv := by
  obtain ⟨running, _, fresh⟩ := allowed
  unfold handleStagingReq
  split
  · exact inv
  · split
    · exact inv
    · next free =>
      split
      · exact inv
      · have none_ : (s.info chunk).allocId = none := by simpa using free
        have new : ∀ i, (chunk, i) ∉ s.assigned := by
          intro i here
          rcases inv.split _ here with info | ended
          · rw [none_] at info
            cases info
          · exact fresh i ended
        rcases assign_spec s.allocator required with ⟨refused, same⟩ | ⟨_, _, taken, next, members⟩
        · rw [show s.allocator.assign required = (s.allocator, none) from Prod.ext same refused]
          exact inv.setNone running none_ { oversized := true } rfl
        · generalize s.allocator.assign required = result at taken next members
          obtain ⟨_, _⟩ := result
          subst taken
          exact inv.assign running new next members

theorem RoomInv.chunkReady (inv : s.RoomInv) (running : s.requestStatus ≠ .success) : (s.handleChunkReady chunk).RoomInv := by
  have counted : ∀ counts, ({ s with writerCounts := counts } : StagingRoom).RoomInv := fun counts => { inv with }
  unfold handleChunkReady
  dsimp only
  split
  · exact counted _
  · split
    · unfold submitChunkScatter
      split
      · next _ found => exact { (inv.scatter running found) with }
      · exact counted _
    · exact counted _

theorem lastScatter_some (found : (s.info (s.chunkInfos.length - 1)).allocId = some allocId) : s.submitLastScatter =
    { s with scatterEvent := some allocId, scattered := s.scattered ++ [(s.chunkInfos.length - 1, allocId)] } := by
  rw [submitLastScatter, found]

theorem chunkScatter_none (found : (s.info chunk).allocId = none) : s.submitChunkScatter chunk = s := by
  rw [submitChunkScatter, found]

theorem lastScatter_none (found : (s.info (s.chunkInfos.length - 1)).allocId = none) : s.submitLastScatter = { s with scatterDone := true } := by
  rw [submitLastScatter, found]

section
variable (inv : s.RoomInv)
include inv

theorem RoomInv.success {rank : Nat} (allowed : s.orderly (.success rank)) : (s.handleSuccess rank).RoomInv := by
  obtain ⟨_, new, scatteredBefore⟩ := allowed
  unfold handleSuccess
  dsimp only
  rw [if_neg new]
  split
  · exact inv
  · split
    · next all =>
      have running : s.requestStatus ≠ .success := by
        intro ended
        have := (inv.closed ended).1
        rw [length_cons] at all
        omega
      obtain ⟨event, done, _⟩ := inv.open_ running
      have higher : s.requestStatus.code < KVPoll.success.code := by
        cases status : s.requestStatus with
        | success => exact absurd status running
        | _ => decide
      have last : ∀ k i, (s.info k).allocId = some i → k = s.chunkInfos.length - 1 := by
        intro k i record
        by_contra other
        rcases Nat.lt_or_ge k s.chunkInfos.length with _ | outside
        · rw [scatteredBefore (by simpa using all) k (by omega)] at record
          cases record
        · rw [info_outside outside] at record
          cases record
      cases found : (s.info (s.chunkInfos.length - 1)).allocId with
      | some allocId =>
        rw [lastScatter_some (s := { s with responses := rank :: s.responses }) found]
        unfold updateStatus
        rw [if_neg (by decide : ¬KVPoll.success = .failed), if_pos higher]
        refine { inv with
          scattered := inv.scattered_concat found
          once := inv.once_concat running found
          split := fun p here => (inv.split p here).imp_right (mem_append_left _)
          events := inv.events_concat running _ _
          open_ := fun bad => absurd rfl bad
          closed := fun _ => ⟨all.ge, fun p here => ?_⟩
          done := fun ended => by rw [show s.scatterDone = true from ended] at done; cases done
          status := ⟨nofun, inv.status.2⟩
          gone := fun left => absurd (inv.gone left).1 running }
        rcases inv.split p here with record | listed
        · have place := last _ _ record
          rw [place, found] at record
          exact mem_append_right _ (mem_singleton.mpr (Prod.ext place (Option.some.inj record).symm))
        · exact mem_append_left _ listed
      | none =>
        rw [lastScatter_none (s := { s with responses := rank :: s.responses }) found]
        unfold updateStatus
        rw [if_neg (by decide : ¬KVPoll.success = .failed), if_pos higher]
        refine { inv with
          open_ := fun bad => absurd rfl bad
          closed := fun _ => ⟨all.ge, fun p here => ?_⟩
          done := fun _ => event
          status := ⟨nofun, inv.status.2⟩
          gone := fun left => absurd (inv.gone left).1 running }
        rcases inv.split p here with record | listed
        · rw [last _ _ record, found] at record
          cases record
        · exact listed
    · exact { inv with closed := fun ended => ⟨Nat.le_succ_of_le (inv.closed ended).1, (inv.closed ended).2⟩ }

theorem RoomInv.freeEvents (registered : s.registered = true) {ids chunkEvents : List Nat} {scatterEvent : Option Nat} {scatterDone : Bool}
    (parts : (s.chunkEvents ++ s.scatterEvent.toList).Perm (ids ++ (chunkEvents ++ scatterEvent.toList)))
    (ready : s.requestStatus ≠ .success → scatterEvent = none ∧ scatterDone = false) (done : scatterDone = true → scatterEvent = none) :
    RoomInv { s.freeAll ids with chunkEvents, scatterEvent, scatterDone } := by
  exact { inv with
    known := fun p here => by
      show p.2 < (ids.foldl StagingAllocator.free s.allocator).nextAllocId
      rw [(mem_freeAll ids s.allocator p.2).2]
      exact inv.known p here
    events := by
      show (s.scattered.map Prod.snd).Perm (s.freed ++ ids ++ (chunkEvents ++ scatterEvent.toList))
      rw [append_assoc]
      exact inv.events.trans (parts.append_left _)
    live := fun p here => by
      show p.2 ∈ (ids.foldl StagingAllocator.free s.allocator).allocations ↔ p.2 ∉ s.freed ++ ids
      rw [(mem_freeAll ids s.allocator p.2).1, inv.live p here, mem_append, not_or, and_comm]
    open_ := fun running => ⟨(ready running).1, (ready running).2, (inv.open_ running).2.2⟩
    done := done
    gone := fun left => by
      rw [show s.registered = false from left] at registered
      cases registered }

theorem RoomInv.advance (registered : s.registered = true) (complete : Nat → Bool) : (s.advanceScatter complete).RoomInv := by
  have parts : (s.chunkEvents ++ s.scatterEvent.toList).Perm
      (s.chunkEvents.reverse.filter complete ++ (s.chunkEvents.filter (fun id => !complete id) ++ s.scatterEvent.toList)) := by
    rw [← append_assoc]
    refine List.Perm.append_right _ ?_
    exact (filter_append_perm complete s.chunkEvents).symm.trans (((reverse_perm _).symm.filter _).append_right _)
  have first := inv.freeEvents registered parts (fun running => ⟨(inv.open_ running).1, (inv.open_ running).2.1⟩) inv.done
  unfold advanceScatter
  dsimp only
  split
  · next allocId event =>
    have event' : s.scatterEvent = some allocId := event
    split
    · have ended : s.requestStatus = .success := by
        by_contra running
        rw [(inv.open_ running).1] at event'
        cases event'
      refine first.freeEvents registered ?_ (fun running => absurd ended running) (fun _ => rfl)
      rw [event', Option.toList_some, Option.toList_none, append_nil]
      exact perm_append_comm
    · exact first
  · exact first

theorem RoomInv.receiverPoll : s.receiverPoll ≠ .failed ∧ (s.receiverPoll = .success → s.requestStatus = .success) := by
  unfold StagingRoom.receiverPoll
  cases conclude : s.concludeState with
  | none => exact ⟨inv.status.1, id⟩
  | some final =>
    refine ⟨fun bad => inv.status.2 (by rw [conclude]; exact congrArg some bad), fun _ => ?_⟩
    by_contra running
    rw [(inv.open_ running).2.2.1] at conclude
    cases conclude

theorem RoomInv.poll {others : KVPoll} {metadata : Bool} (fine : others ≠ .failed) : (s.handlePoll complete others metadata).RoomInv := by
  unfold handlePoll
  split
  · exact inv
  · next here =>
    have registered : s.registered = true := by simpa using here
    have advanced : (if s.isDone then s else s.advanceScatter complete).RoomInv := by
      split
      · exact inv
      · exact inv.advance registered complete
    have still : (if s.isDone then s else s.advanceScatter complete).registered = true := by
      split
      · exact registered
      · unfold advanceScatter
        dsimp only
        split
        · split <;> exact registered
        · exact registered
    generalize (if s.isDone then s else s.advanceScatter complete) = next at advanced still
    have sound := advanced.receiverPoll
    dsimp only
    generalize next.receiverPoll = answer at sound
    obtain ⟨unfailed, ended⟩ := sound
    have concluded : RoomInv { next with concludeState := if answer = .success ∨ answer = .failed then some answer else next.concludeState } := by
      refine { advanced with
        open_ := fun running => ?_
        status := ⟨advanced.status.1, ?_⟩ }
      · have quiet : ¬(answer = .success ∨ answer = .failed) := not_or.mpr ⟨fun done => running (ended done), unfailed⟩
        rw [if_neg quiet]
        exact advanced.open_ running
      · split
        · exact fun bad => unfailed (Option.some.inj bad)
        · exact advanced.status.2
    have known : ∀ result, KVPoll.min (if answer = .success ∧ (!next.isDone) = true then .transferring else answer) others = result →
        result ≠ .failed ∧ (result = .success → answer = .success ∧ next.isDone = true) := by
      rintro result rfl
      unfold KVPoll.min
      by_cases pending : answer = .success ∧ (!next.isDone) = true
      · rw [if_pos pending]
        split
        · next lower =>
          refine ⟨fine, fun top => ?_⟩
          rw [top] at lower
          exact absurd lower (by decide)
        · exact ⟨by decide, nofun⟩
      · rw [if_neg pending]
        split
        · next lower =>
          refine ⟨fine, fun top => ?_⟩
          rw [top] at lower
          exact absurd lower (by cases answer <;> decide)
        · refine ⟨unfailed, fun top => ⟨top, ?_⟩⟩
          by_contra open_
          exact pending ⟨top, by simpa using open_⟩
    generalize result : KVPoll.min _ others = reduced
    obtain ⟨kept, left⟩ := known reduced result
    cases reduced with
    | failed => exact absurd rfl kept
    | success =>
      obtain ⟨top, done⟩ := left rfl
      dsimp only
      split
      · exact { concluded with gone := fun _ => ⟨ended top, done⟩ }
      · exact concluded
    | _ => exact concluded

theorem RoomInv.returned : s.Returned := by
  have chunk : ∀ p ∈ s.assigned, ∀ q ∈ s.assigned, p.1 = q.1 → p = q := fun p here q there same => inj_on_of_nodup_map inv.chunks here there same
  have scatteredIds : (s.scattered.map Prod.snd).Nodup := by
    refine List.Nodup.map_on (fun p here q there same => ?_) inv.once
    exact inj_on_of_nodup_map inv.ids (inv.scattered p here) (inv.scattered q there) same
  have all := (inv.events.nodup_iff).mp scatteredIds
  refine ⟨fun k i j here there _ _ => (Prod.mk.inj (chunk _ here _ there rfl)).2, ?_, ⟨(nodup_append.mp all).1, fun i here => ?_⟩,
    fun left p here => ?_⟩
  · exact List.Nodup.map_on (fun p here q there same => chunk p (inv.scattered p here) q (inv.scattered q there) same) inv.once
  · exact inv.events.mem_iff.mpr (mem_append_left _ here)
  · obtain ⟨ended, complete⟩ := inv.gone left
    rw [isDone, Bool.and_eq_true, List.isEmpty_iff] at complete
    have events := inv.events
    rw [complete.2, inv.done complete.1, Option.toList_none, append_nil, append_nil] at events
    rw [inv.live p here, not_not]
    exact events.mem_iff.mp (mem_map.mpr ⟨p, (inv.closed ended).2 p here, rfl⟩)

theorem RoomInv.unallocated (idle : s.Idle) : ∀ p ∈ s.assigned, p.2 ∉ s.allocator.allocations := by
  intro p here
  have scattered : p ∈ s.scattered := by
    refine (inv.split p here).resolve_left (fun waits => ?_)
    rw [idle.1] at waits
    cases waits
  have events := inv.events
  rw [idle.2.1, idle.2.2, Option.toList_none, append_nil, append_nil] at events
  rw [inv.live p here, not_not]
  exact events.mem_iff.mp (mem_map.mpr ⟨p, scattered, rfl⟩)

end

/-! ### Requests that failed while they were idle -/

structure Emptied (s : StagingRoom) : Prop where
  failing : s.registered = false ∨ s.Failing
  idle : s.Idle
  once : (s.scattered.map Prod.fst).Nodup
  freed : s.freed.Nodup ∧ ∀ i ∈ s.freed, i ∈ s.scattered.map Prod.snd
  unallocated : ∀ p ∈ s.assigned, p.2 ∉ s.allocator.allocations

section
variable {s : StagingRoom}

theorem Emptied.returned (empty : s.Emptied) : s.Returned :=
  ⟨fun _ _ _ here _ held => absurd held (empty.unallocated _ here), empty.once, empty.freed, fun _ => empty.unallocated⟩

theorem Idle.advance (idle : s.Idle) (complete : Nat → Bool) : s.advanceScatter complete = s := by
  have events := idle.2.1
  have scatter := idle.2.2
  cases s
  dsimp only at events scatter
  subst events scatter
  simp [advanceScatter, freeAll]

/-- A poll of an idle request changes nothing but its conclusion and its registration. -/
theorem Idle.poll (idle : s.Idle) (registered : s.registered = true) (complete : Nat → Bool) (others : KVPoll) (metadata : Bool) :
    ∃ kept, s.handlePoll complete others metadata =
        { s with
          registered := kept
          concludeState := if s.receiverPoll = .success ∨ s.receiverPoll = .failed then some s.receiverPoll else s.concludeState } ∧
      (others = .failed → kept = false) := by
  have same : (if s.isDone then s else s.advanceScatter complete) = s := by
    rw [idle.advance, ite_self]
  have lowest (answer : KVPoll) : answer.min .failed = .failed := by cases answer <;> rfl
  unfold handlePoll
  rw [registered, if_neg (by decide), same]
  dsimp only
  split
  · exact ⟨false, rfl, fun _ => rfl⟩
  · next top =>
    split
    · exact ⟨false, rfl, fun _ => rfl⟩
    · refine ⟨true, by rw [← registered], ?_⟩
      rintro rfl
      rw [lowest] at top
      cases top
  · next failed _ =>
    refine ⟨true, by rw [← registered], ?_⟩
    rintro rfl
    exact absurd (lowest _) failed

theorem Idle.chunkReady (idle : s.Idle) (chunk : Nat) : ∃ counts, s.handleChunkReady chunk = { s with writerCounts := counts } := by
  unfold handleChunkReady
  dsimp only
  split
  · exact ⟨_, rfl⟩
  · split
    · have same := chunkScatter_none (s := { s with writerCounts := Function.update s.writerCounts chunk (s.writerCounts chunk + 1) }) (idle.1 chunk)
      rw [same]
      exact ⟨_, rfl⟩
    · exact ⟨_, rfl⟩

theorem Idle.success (idle : s.Idle) (rank : Nat) : ∃ responses done status counts, s.handleSuccess rank =
    { s with responses := responses, scatterDone := done, requestStatus := status, writerCounts := counts } := by
  unfold handleSuccess
  dsimp only
  generalize (if rank ∈ s.responses then s.responses else rank :: s.responses) = responses
  split
  · exact ⟨_, _, _, _, rfl⟩
  · split
    · have same := lastScatter_none (s := { s with responses := responses }) (idle.1 _)
      rw [same]
      exact ⟨_, _, _, _, rfl⟩
    · exact ⟨_, _, _, _, rfl⟩

theorem Emptied.step {msg : StagingMsg} (empty : s.Emptied) (allowed : s.guard msg ∧ s.orderly msg) : (s.step msg).Emptied := by
  have failing (registered : s.registered = true) : s.Failing := empty.failing.resolve_left (by rw [registered]; decide)
  cases msg with
  | elsewhere allocator =>
    exact { empty with unallocated := fun p here => (allowed.1.1 p here).not.mpr (empty.unallocated p here) }
  | chunkReady chunk =>
    obtain ⟨counts, same⟩ := empty.idle.chunkReady chunk
    rw [StagingRoom.step, same]
    exact { empty with }
  | stagingReq chunk required =>
    rw [StagingRoom.step, handleStagingReq]
    split
    · exact empty
    · next registered => exact absurd (failing (by simpa using registered)) (allowed.2.2.1 (by simpa using registered))
  | success rank =>
    cases registered : s.registered with
    | false =>
      have same : s.step (.success rank) = s := by simp [StagingRoom.step, handleSuccess, registered]
      rw [same]
      exact empty
    | true =>
      have concluded := (failing registered).resolve_left (allowed.2.1 registered)
      obtain ⟨_, _, _, _, same⟩ := empty.idle.success rank
      rw [StagingRoom.step, same]
      exact { empty with failing := .inr (.inr concluded) }
  | failed =>
    rw [StagingRoom.step]
    split
    · exact { empty with failing := .inr (.inl rfl) }
    · exact empty
  | abort =>
    rw [StagingRoom.step]
    split
    · exact { empty with failing := .inr (.inr rfl) }
    · exact empty
  | poll complete others metadata =>
    cases registered : s.registered with
    | false =>
      have same : s.step (.poll complete others metadata) = s := by simp [StagingRoom.step, handlePoll, registered]
      rw [same]
      exact empty
    | true =>
      obtain ⟨kept, same, _⟩ := empty.idle.poll registered complete others metadata
      rw [StagingRoom.step, same]
      refine { empty with failing := .inr ?_ }
      rcases failing registered with failed | failed
      · exact .inl failed
      · have answer : s.receiverPoll = .failed := by
          unfold receiverPoll
          rw [failed]
          rfl
        exact .inr (by simp [answer])

theorem RoomInv.step {msg : StagingMsg} (inv : s.RoomInv) (allowed : s.guard msg ∧ s.orderly msg) :
    (s.step msg).RoomInv ∨ (s.step msg).Emptied := by
  have returned := inv.returned
  cases msg with
  | stagingReq chunk required => exact .inl (inv.stagingReq allowed.2)
  | chunkReady chunk => exact .inl (inv.chunkReady allowed.2)
  | success rank => exact .inl (inv.success allowed.2)
  | failed =>
    rw [StagingRoom.step]
    split
    · next registered =>
      exact .inr ⟨.inr (.inl rfl), allowed.2 registered, returned.once, returned.freed, inv.unallocated (allowed.2 registered)⟩
    · exact .inl inv
  | abort =>
    rw [StagingRoom.step]
    split
    · next registered =>
      exact .inr ⟨.inr (.inr rfl), allowed.2 registered, returned.once, returned.freed, inv.unallocated (allowed.2 registered)⟩
    · exact .inl inv
  | poll complete others metadata =>
    by_cases bad : others = .failed
    · cases registered : s.registered with
      | false =>
        have same : s.step (.poll complete others metadata) = s := by simp [StagingRoom.step, handlePoll, registered]
        rw [same]
        exact .inl inv
      | true =>
        have idle := allowed.2 bad registered
        obtain ⟨kept, same, left⟩ := idle.poll registered complete others metadata
        rw [StagingRoom.step, same]
        exact .inr ⟨.inl (left bad), idle, returned.once, returned.freed, inv.unallocated idle⟩
    · exact .inl (inv.poll bad)
  | elsewhere allocator =>
    obtain ⟨same, later⟩ := allowed.1
    exact .inl { inv with
      known := fun p here => lt_of_lt_of_le (inv.known p here) later
      live := fun p here => (same p here).trans (inv.live p here) }

end

theorem freed_chunkScatter (s : StagingRoom) (chunk : Nat) : (s.submitChunkScatter chunk).freed = s.freed := by
  unfold submitChunkScatter
  split <;> rfl

theorem freed_lastScatter (s : StagingRoom) : s.submitLastScatter.freed = s.freed := by
  unfold submitLastScatter
  split <;> rfl

theorem mem_freed_advance {s : StagingRoom} (here : i ∈ (s.advanceScatter complete).freed) : i ∈ s.freed ∨ complete i = true := by
  have chunks : i ∈ s.freed ++ s.chunkEvents.reverse.filter complete → i ∈ s.freed ∨ complete i = true := by
    intro listed
    rcases mem_append.mp listed with old | done
    · exact .inl old
    · exact .inr (mem_filter.mp done).2
  unfold advanceScatter at here
  dsimp only at here
  split at here
  · next _ _ =>
    split at here
    · next done =>
      rcases mem_append.mp here with old | last
      · exact chunks old
      · rw [mem_singleton.mp last]
        exact .inr done
    · exact chunks here
  · exact chunks here

theorem freed_complete (s : StagingRoom) (msg : StagingMsg) (here : i ∈ (s.step msg).freed) (new : i ∉ s.freed) :
    ∃ complete others metadata, msg = .poll complete others metadata ∧ complete i = true := by
  cases msg with
  | poll complete others metadata =>
    refine ⟨complete, others, metadata, rfl, ?_⟩
    rw [step, handlePoll] at here
    split at here
    · exact absurd here new
    · have freed : i ∈ (if s.isDone then s else s.advanceScatter complete).freed := by
        dsimp only at here
        split at here
        · exact here
        · split at here <;> exact here
        · exact here
      split at freed
      · exact absurd freed new
      · exact (mem_freed_advance freed).resolve_left new
  | stagingReq chunk required =>
    rw [step, handleStagingReq] at here
    split at here
    · exact absurd here new
    · split at here
      · exact absurd here new
      · split at here
        · exact absurd here new
        · split at here <;> exact absurd here new
  | chunkReady chunk =>
    rw [step, handleChunkReady] at here
    split at here
    · exact absurd here new
    · split at here
      · rw [freed_chunkScatter] at here
        exact absurd here new
      · exact absurd here new
  | success rank =>
    rw [step, handleSuccess] at here
    dsimp only at here
    generalize (if rank ∈ s.responses then s.responses else rank :: s.responses) = responses at here
    split at here
    · exact absurd here new
    · split at here
      · rw [updateStatus, freed_lastScatter] at here
        exact absurd here new
      · exact absurd here new
  | failed =>
    rw [step] at here
    split at here <;> exact absurd here new
  | abort =>
    rw [step] at here
    split at here <;> exact absurd here new
  | elsewhere allocator => exact absurd here new

/-- In an orderly run the staging memory is always given back. -/
theorem staging_returned {allocator : StagingAllocator} {numWriters expectedResponses : Nat}
    (run : Runs.Reachable step (fun s msg => s.guard msg ∧ s.orderly msg) (start allocator numWriters expectedResponses) s) :
    s.Returned ∧ ∀ msg i, i ∈ (s.step msg).freed → i ∉ s.freed → ∃ complete others metadata, msg = .poll complete others metadata ∧
      complete i = true := by
  have inv := run.invariant (fun s => s.RoomInv ∨ s.Emptied) (.inl (.start _ _ _)) (fun s msg inv allowed =>
    inv.elim (fun open_ => open_.step allowed) (fun empty => .inr (empty.step allowed)))
  exact ⟨inv.elim RoomInv.returned Emptied.returned, fun msg i here new => freed_complete s msg here new⟩

def twoChunks : List StagingMsg :=
  [.stagingReq 0 4, .stagingReq 1 4, .stagingReq 0 4, .chunkReady 0, .chunkReady 0, .success 0, .success 1, .poll (fun _ => true) .success true]

theorem twoChunks_orderly : Runs.Guarded step (fun s msg => s.guard msg ∧ s.orderly msg) (start { totalSize := 8 } 2 2) twoChunks := by
  have fine (s : StagingRoom) (status : s.requestStatus ≠ .failed) (conclude : s.concludeState ≠ some .failed) : s.registered = true → ¬ s.Failing :=
    fun _ failing => failing.elim status conclude
  refine ⟨⟨trivial, by decide, fine _ (by decide) (by decide), fun i => not_mem_nil⟩,
    ⟨trivial, by decide, fine _ (by decide) (by decide), fun i => not_mem_nil⟩,
    ⟨trivial, by decide, fine _ (by decide) (by decide), fun i => not_mem_nil⟩, ⟨trivial, ?_⟩, ⟨trivial, ?_⟩,
    ⟨trivial, fun _ => by decide, by decide, fun all => absurd all (by decide)⟩,
    ⟨trivial, fun _ => by decide, by decide, fun _ k lt => ?_⟩, ⟨trivial, ?_⟩, trivial⟩
  · exact KVPoll.noConfusion
  · exact KVPoll.noConfusion
  · cases k with
    | zero => rfl
    | succ k => exact absurd lt (Nat.not_lt.mpr (Nat.le_add_left 2 k))
  · exact KVPoll.noConfusion

/-- The transfer fails before anything was requested. -/
def failedFirst : List StagingMsg := [.failed, .poll (fun _ => true) .success true]

theorem failedFirst_orderly : Runs.Guarded step (fun s msg => s.guard msg ∧ s.orderly msg) (start { totalSize := 8 } 2 2) failedFirst :=
  ⟨⟨trivial, fun _ => ⟨fun _ => rfl, rfl, rfl⟩⟩, ⟨trivial, KVPoll.noConfusion⟩, trivial⟩

theorem staging_returned_two : (twoChunks.foldl step (start { totalSize := 8 } 2 2)).registered = false ∧
    (twoChunks.foldl step (start { totalSize := 8 } 2 2)).assigned = [(0, 0), (1, 1)] ∧
    (twoChunks.foldl step (start { totalSize := 8 } 2 2)).Returned ∧
    (failedFirst.foldl step (start { totalSize := 8 } 2 2)).registered = false ∧ (failedFirst.foldl step (start { totalSize := 8 } 2 2)).Returned :=
  ⟨rfl, rfl, (staging_returned (twoChunks_orderly.reachable .start)).1, rfl, (staging_returned (failedFirst_orderly.reachable .start)).1⟩

def failedTransfer : List StagingMsg := [.stagingReq 0 4, .failed, .poll (fun _ => true) .success true]

theorem failed_room_keeps_memory : Runs.Guarded step guard (start { totalSize := 8 } 1 1) failedTransfer ∧
    (failedTransfer.foldl step (start { totalSize := 8 } 1 1)).registered = false ∧
    0 ∈ (failedTransfer.foldl step (start { totalSize := 8 } 1 1)).allocator.allocations :=
  ⟨⟨trivial, trivial, trivial, trivial⟩, rfl, by decide⟩

end StagingRoom

end TriaxialKV.Disagg
