import TriaxialKV.Cache.BlockHashes
import TriaxialKV.Cache.PagedRuns

/-!
# Decode-side KV offload

Requests are decoded one token at a time, so `kv_committed_len` and `kv_allocated_len` are the length of the
request's row. The results of a batch are processed inside a free group: what they free is collected and freed at
its end.
-/

namespace TriaxialKV.Disagg

structure OffloadConfig where
  pageSize : Nat
  envStride : Option Int
  hasher : BlockHash
  positive : 0 < pageSize

namespace OffloadConfig

def offloadStride (c : OffloadConfig) : Nat :=
  match c.envStride with
  | none => c.pageSize
  | some stride => if stride ≤ 0 then c.pageSize else max c.pageSize (stride.toNat / c.pageSize * c.pageSize)

def computePrefixHash (c : OffloadConfig) (tokens : List Nat) (priorHash : Option Nat) : List Nat :=
  c.hasher.chain priorHash (keyPages tokens c.pageSize)

/-- The slots as they are, or with larger pages the pages of all of them, each once. -/
def freed (c : OffloadConfig) (freeIndex : List Nat) : List Nat :=
  if c.pageSize = 1 then freeIndex else (freeIndex.map (· / c.pageSize)).dedup

end OffloadConfig

structure OffloadedState where
  prefillLen : Nat
  incLen : Nat
  lastHash : Option Nat

/-- What the manager reads of a request, with its row of `req_to_token`. -/
structure OffloadReq where
  originInputIds : List Nat
  outputIds : List Nat := []
  row : List Nat := []
  reqPoolIdx : Option Nat := none
  finished : Bool := false
  kvCommittedFreed : Bool := false
  kvOverallocatedFreed : Bool := false

structure HostCopy where
  req : Nat
  tokens : List Nat
  start : Nat
  stop : Nat

/-- What `_trigger_backup` wrote, and whether the request was still decoding. -/
structure Backup where
  req : Nat
  start : Nat
  tokens : List Nat
  keys : List Nat
  live : Bool

/-- `freePages` are the free and the released pages of the allocator; `freeGroup` has the slots freed in an open free group. -/
structure OffloadManager where
  reqs : Nat → OffloadReq
  freePages : List Nat
  freeGroup : Option (List Nat)
  freeRows : List Nat
  offloadedState : Nat → Option OffloadedState
  ongoingOffload : List HostCopy
  backups : List Backup

inductive OffloadOp where
  /-- The prompt's KV has arrived with the first token. -/
  | start (i : Nat) (first : Nat)
  /-- `prepare_for_decode` -/
  | prepare (i : Nat)
  /-- `free_group_begin` before the results of a batch -/
  | groupBegin
  /-- `process_batch_result_decode` for one request; `room` tells whether the host has memory for a copy. -/
  | result (i : Nat) (token : Nat) (finish room : Bool)
  | groupEnd
  | ack

namespace OffloadManager
variable (c : OffloadConfig) (s : OffloadManager)

def setReq (i : Nat) (req : OffloadReq) : OffloadManager := { s with reqs := Function.update s.reqs i req }

def setState (i : Nat) (state : Option OffloadedState) : OffloadManager :=
  { s with offloadedState := Function.update s.offloadedState i state }

def free (freeIndex : List Nat) : OffloadManager :=
  { s with
    freePages := s.freePages ++ s.freeGroup.elim (c.freed freeIndex) (fun _ => [])
    freeGroup := s.freeGroup.map (· ++ freeIndex) }

def prefillOffloadedLen (i : Nat) : Nat := (s.reqs i).originInputIds.length / c.pageSize * c.pageSize

def stateOf (i : Nat) : OffloadedState :=
  (s.offloadedState i).getD
    { prefillLen := s.prefillOffloadedLen c i
      incLen := 0
      lastHash := if 0 < s.prefillOffloadedLen c i then
          (c.computePrefixHash ((s.reqs i).originInputIds.take (s.prefillOffloadedLen c i)) none).getLast?
        else none }

def offloadKvCache (i : Nat) (room : Bool) : Bool × OffloadManager :=
  let req := s.reqs i
  if req.outputIds.length = 0 ∨ req.row.length = 0 then (false, s)
  else
    let allTokens := req.originInputIds ++ req.outputIds.dropLast
    let state := s.stateOf c i
    let s := s.setState i (some state)
    let incrementalTotal := allTokens.length - state.prefillLen
    let incrementalNew := incrementalTotal - state.incLen
    let alignedLen := incrementalNew / c.offloadStride * c.offloadStride
    if alignedLen = 0 then (false, s)
    else
      let start := state.prefillLen + state.incLen
      let stop := start + alignedLen
      let s := if 0 < state.prefillLen ∧ state.incLen = 0 then s.free c (req.row.take state.prefillLen) else s
      if room then
        let copy : HostCopy := { req := i, tokens := (allTokens.drop start).take (stop - start), start, stop }
        (true, { s.setState i (some { state with incLen := state.incLen + alignedLen }) with
          ongoingOffload := s.ongoingOffload ++ [copy] })
      else (false, s)

/-- No slots are over-allocated, so `pop_overallocated_kv_cache` only marks the request. -/
def releaseFinishedReq (i start : Nat) : Option OffloadManager :=
  let req := s.reqs i
  if req.kvCommittedFreed ∨ req.kvOverallocatedFreed then none
  else
    match req.reqPoolIdx with
    | none => none
    | some idx =>
      let s := s.free c (req.row.drop start)
      let s := s.setReq i { req with kvCommittedFreed := true, kvOverallocatedFreed := true, reqPoolIdx := none }
      some { s.setState i none with freeRows := s.freeRows ++ [idx] }

def finalizeReleaseOnFinish (i : Nat) : Option OffloadManager :=
  let (prefillLen, incLen) :=
    match s.offloadedState i with
    | none => (s.prefillOffloadedLen c i, 0)
    | some state => (state.prefillLen, state.incLen)
  let s := if 0 < prefillLen ∧ incLen = 0 then s.free c ((s.reqs i).row.take prefillLen) else s
  s.releaseFinishedReq c i (prefillLen + incLen)

def processResult (i token : Nat) (finish room : Bool) : Option OffloadManager :=
  let s := s.setReq i { s.reqs i with outputIds := (s.reqs i).outputIds ++ [token], finished := finish }
  let (offloaded, s) := s.offloadKvCache c i room
  if finish ∧ !offloaded then s.finalizeReleaseOnFinish c i else some s

def triggerBackup (copy : HostCopy) (priorHash : Option Nat) (live : Bool) : Option Nat × OffloadManager :=
  let keys := c.computePrefixHash copy.tokens priorHash
  (keys.getLast?.or priorHash, { s with backups := s.backups ++ [{ req := copy.req, start := copy.start, tokens := copy.tokens, keys, live }] })

def checkOffloadProgress : Option OffloadManager :=
  match s.ongoingOffload with
  | [] => some s
  | copy :: rest => do
    let req := s.reqs copy.req
    let s := { s with ongoingOffload := rest }
    let s ← (if req.finished then s.releaseFinishedReq c copy.req copy.start
      else some (s.free c ((req.row.drop copy.start).take (copy.stop - copy.start))))
    let state := s.offloadedState copy.req
    let (lastHash, s) := s.triggerBackup c copy (state.bind OffloadedState.lastHash) (!req.finished)
    some (s.setState copy.req (state.map (fun state => { state with lastHash })))

def step : OffloadOp → Option OffloadManager
  | .start i first =>
    let req := s.reqs i
    let numPages := pagesOf c.pageSize req.originInputIds.length
    some { s.setReq i { req with
        outputIds := [first]
        row := layout c.pageSize (s.freePages.take numPages) req.originInputIds.length
        reqPoolIdx := s.freeRows.head? } with
      freePages := s.freePages.drop numPages
      freeRows := s.freeRows.tail }
  | .prepare i =>
    let req := s.reqs i
    if req.row.length % c.pageSize = 0 then
      some { s.setReq i { req with row := req.row ++ [s.freePages.headD 0 * c.pageSize] } with freePages := s.freePages.tail }
    else some (s.setReq i { req with row := req.row ++ [req.row.getLastD 0 + 1] })
  | .groupBegin => some { s with freeGroup := some [] }
  | .result i token finish room => s.processResult c i token finish room
  | .groupEnd => some ({ s with freeGroup := none }.free c (s.freeGroup.getD []))
  | .ack => s.checkOffloadProgress c

/-- A request is admitted once, and decodes only with a slot. -/
def guard : OffloadOp → Prop
  | .start i _ => s.freeGroup = none ∧ (s.reqs i).reqPoolIdx = none ∧ (s.reqs i).outputIds = [] ∧ s.freeRows ≠ [] ∧
      pagesOf c.pageSize (s.reqs i).originInputIds.length ≤ s.freePages.length
  | .prepare i => s.freeGroup = none ∧ (s.reqs i).reqPoolIdx ≠ none ∧ (s.reqs i).finished = false ∧
      ((s.reqs i).row.length % c.pageSize = 0 → s.freePages ≠ [])
  | .groupBegin => s.freeGroup = none
  | .result i _ _ _ => s.freeGroup ≠ none ∧ (s.reqs i).reqPoolIdx ≠ none ∧ (s.reqs i).finished = false ∧
      (s.reqs i).originInputIds.length + (s.reqs i).outputIds.length ≤ (s.reqs i).row.length
  | .groupEnd => s.freeGroup ≠ none
  | .ack => s.freeGroup = none ∧ s.ongoingOffload ≠ []

instance (op : OffloadOp) : Decidable (s.guard c op) := by
  cases op with
  | start => exact inferInstanceAs (Decidable (_ ∧ _ ∧ _ ∧ _ ∧ _))
  | prepare => exact inferInstanceAs (Decidable (_ ∧ _ ∧ _ ∧ (_ → _)))
  | groupBegin => exact inferInstanceAs (Decidable (_ = _))
  | result => exact inferInstanceAs (Decidable (_ ∧ _ ∧ _ ∧ _))
  | groupEnd => exact inferInstanceAs (Decidable (_ ≠ _))
  | ack => exact inferInstanceAs (Decidable (_ ∧ _))

def init (prompts : Nat → List Nat) (numPages numRows : Nat) : OffloadManager where
  reqs i := { originInputIds := prompts i }
  freePages := List.range' 1 numPages
  freeGroup := none
  freeRows := List.range numRows
  offloadedState _ := none
  ongoingOffload := []
  backups := []

end OffloadManager

namespace OffloadConfig
variable (c : OffloadConfig)

theorem dvd_offloadStride : c.pageSize ∣ c.offloadStride := by
  unfold offloadStride
  split
  · exact Nat.dvd_refl _
  · split
    · exact Nat.dvd_refl _
    · rcases Nat.le_total c.pageSize (_ / c.pageSize * c.pageSize) with le | le
      · rw [Nat.max_eq_right le]
        exact Nat.dvd_mul_left _ _
      · rw [Nat.max_eq_left le]

theorem pageSize_le_stride : c.pageSize ≤ c.offloadStride := by
  unfold offloadStride
  split
  · exact le_refl _
  · split
    · exact le_refl _
    · exact Nat.le_max_left _ _

theorem stride_pos : 0 < c.offloadStride := lt_of_lt_of_le c.positive c.pageSize_le_stride

end OffloadConfig

namespace OffloadManager
variable {c : OffloadConfig} {s : OffloadManager}

def nextCopy (c : OffloadConfig) (s : OffloadManager) (i len : Nat) : HostCopy :=
  let start := (s.stateOf c i).prefillLen + (s.stateOf c i).incLen
  { req := i
    tokens := (((s.reqs i).originInputIds ++ (s.reqs i).outputIds.dropLast).drop start).take len
    start
    stop := start + len }

def alignedLen (c : OffloadConfig) (s : OffloadManager) (i : Nat) : Nat :=
  ((s.reqs i).originInputIds.length + (s.reqs i).outputIds.dropLast.length - (s.stateOf c i).prefillLen - (s.stateOf c i).incLen) /
    c.offloadStride * c.offloadStride

/-- The slots of the prompt, which are freed when nothing has been offloaded yet. -/
def early (c : OffloadConfig) (s : OffloadManager) (i : Nat) : List Nat :=
  if 0 < (s.stateOf c i).prefillLen ∧ (s.stateOf c i).incLen = 0 then (s.reqs i).row.take (s.stateOf c i).prefillLen else []

section
variable (c : OffloadConfig) (s : OffloadManager) (freeIndex : List Nat)

@[simp] theorem free_reqs : (s.free c freeIndex).reqs = s.reqs := rfl

@[simp] theorem free_freeRows : (s.free c freeIndex).freeRows = s.freeRows := rfl

@[simp] theorem free_offloadedState : (s.free c freeIndex).offloadedState = s.offloadedState := rfl

@[simp] theorem free_ongoingOffload : (s.free c freeIndex).ongoingOffload = s.ongoingOffload := rfl

@[simp] theorem free_backups : (s.free c freeIndex).backups = s.backups := rfl

end

theorem free_nil (c : OffloadConfig) (s : OffloadManager) : s.free c [] = s := by
  have none_ : c.freed [] = [] := by
    unfold OffloadConfig.freed
    split <;> rfl
  obtain ⟨_, _, group, _⟩ := s
  cases group <;> simp [free, none_]

theorem free_early (c : OffloadConfig) (s s' : OffloadManager) (i : Nat) : s'.free c (s.early c i) =
    if 0 < (s.stateOf c i).prefillLen ∧ (s.stateOf c i).incLen = 0 then s'.free c ((s.reqs i).row.take (s.stateOf c i).prefillLen) else s' := by
  unfold early
  split
  · rfl
  · exact free_nil c s'

inductive Offloading (c : OffloadConfig) (s : OffloadManager) (i : Nat) : Bool → Bool → OffloadManager → Prop where
  | idle (room : Bool) (empty : (s.reqs i).outputIds = [] ∨ (s.reqs i).row = []) : Offloading c s i room false s
  | short (room : Bool) (less : s.alignedLen c i = 0) : Offloading c s i room false (s.setState i (some (s.stateOf c i)))
  | refused (more : 0 < s.alignedLen c i) :
      Offloading c s i false false ((s.setState i (some (s.stateOf c i))).free c (s.early c i))
  | issued (more : 0 < s.alignedLen c i) : Offloading c s i true true
        { (s.setState i (some { s.stateOf c i with incLen := (s.stateOf c i).incLen + s.alignedLen c i })).free c (s.early c i) with
          ongoingOffload := s.ongoingOffload ++ [s.nextCopy c i (s.alignedLen c i)] }

theorem offload_offloading (i : Nat) (room : Bool) : Offloading c s i room (s.offloadKvCache c i room).1 (s.offloadKvCache c i room).2 := by
  unfold offloadKvCache
  dsimp only
  rw [List.length_append]
  split
  · next empty => exact .idle room (empty.imp List.length_eq_zero_iff.mp List.length_eq_zero_iff.mp)
  · split
    · next less => exact .short room less
    · next more =>
      have refused := Offloading.refused (Nat.pos_of_ne_zero more)
      have issued := Offloading.issued (Nat.pos_of_ne_zero more)
      rw [free_early] at refused issued
      rw [Nat.add_sub_cancel_left]
      by_cases first : 0 < (s.stateOf c i).prefillLen ∧ (s.stateOf c i).incLen = 0
      · rw [if_pos first] at refused issued ⊢
        cases room with
        | true => simpa only [free, setState, Function.update_idem, ↓reduceIte, nextCopy, alignedLen] using issued
        | false => exact refused
      · rw [if_neg first] at refused issued ⊢
        cases room with
        | true => simpa only [setState, Function.update_idem, ↓reduceIte, nextCopy, alignedLen] using issued
        | false => exact refused

theorem alignedLen_whole (c : OffloadConfig) (s : OffloadManager) (i : Nat) : c.pageSize ∣ s.alignedLen c i :=
  Nat.dvd_trans c.dvd_offloadStride (Nat.dvd_mul_left _ _)

theorem alignedLen_le {i : Nat} (more : 0 < s.alignedLen c i) : (s.stateOf c i).prefillLen + (s.stateOf c i).incLen + s.alignedLen c i ≤
    (s.reqs i).originInputIds.length + (s.reqs i).outputIds.dropLast.length := by
  have le : s.alignedLen c i ≤ _ := Nat.div_mul_le_self _ _
  omega

theorem release_some {i start : Nat} {s' : OffloadManager} (done : s.releaseFinishedReq c i start = some s') :
    ∃ idx, (s.reqs i).reqPoolIdx = some idx ∧ (s.reqs i).kvCommittedFreed = false ∧
      s' = { s.free c ((s.reqs i).row.drop start) with
             reqs := Function.update s.reqs i { s.reqs i with kvCommittedFreed := true, kvOverallocatedFreed := true, reqPoolIdx := none }
             freeRows := s.freeRows ++ [idx]
             offloadedState := Function.update s.offloadedState i none } := by
  unfold releaseFinishedReq at done
  dsimp only at done
  split at done
  · cases done
  · next kept =>
    split at done
    · cases done
    · next idx row =>
      cases done
      exact ⟨idx, row, by simpa using (not_or.mp kept).1, rfl⟩

theorem finalizeRelease_eq (c : OffloadConfig) (s : OffloadManager) (i : Nat) : s.finalizeReleaseOnFinish c i =
      (s.free c (s.early c i)).releaseFinishedReq c i ((s.stateOf c i).prefillLen + (s.stateOf c i).incLen) := by
  rw [free_early]
  unfold finalizeReleaseOnFinish stateOf
  cases s.offloadedState i <;> rfl

def backupOf (c : OffloadConfig) (copy : HostCopy) (priorHash : Option Nat) (live : Bool) : Backup :=
  { req := copy.req, start := copy.start, tokens := copy.tokens, keys := c.computePrefixHash copy.tokens priorHash, live }

/-- The slots of the copy are freed while the request decodes, the rest of the request once it has finished. -/
inductive Acknowledged (c : OffloadConfig) (s : OffloadManager) (copy : HostCopy) (rest : List HostCopy) : OffloadManager → Prop where
  | finished {idx : Nat} (done : (s.reqs copy.req).finished = true) (row : (s.reqs copy.req).reqPoolIdx = some idx)
      (kept : (s.reqs copy.req).kvCommittedFreed = false) :
      Acknowledged c s copy rest
        { s.free c ((s.reqs copy.req).row.drop copy.start) with
          reqs := Function.update s.reqs copy.req
            { s.reqs copy.req with kvCommittedFreed := true, kvOverallocatedFreed := true, reqPoolIdx := none }
          freeRows := s.freeRows ++ [idx]
          offloadedState := Function.update s.offloadedState copy.req none
          ongoingOffload := rest
          backups := s.backups ++ [backupOf c copy none false] }
  | running (live : (s.reqs copy.req).finished = false) : Acknowledged c s copy rest
        { s.free c (((s.reqs copy.req).row.drop copy.start).take (copy.stop - copy.start)) with
          offloadedState := Function.update s.offloadedState copy.req ((s.offloadedState copy.req).map (fun state =>
            { state with lastHash := (c.computePrefixHash copy.tokens state.lastHash).getLast?.or state.lastHash }))
          ongoingOffload := rest
          backups := s.backups ++ [backupOf c copy ((s.offloadedState copy.req).bind OffloadedState.lastHash) true] }

theorem progress_acknowledged {copy : HostCopy} {rest : List HostCopy} {s' : OffloadManager} (queue : s.ongoingOffload = copy :: rest)
    (done : s.checkOffloadProgress c = some s') : Acknowledged c s copy rest s' := by
  unfold checkOffloadProgress at done
  rw [queue] at done
  obtain ⟨_, released, done⟩ := Option.bind_eq_some_iff.mp done
  cases done
  split at released
  · next finished =>
    obtain ⟨_, row, kept, rfl⟩ := release_some released
    have after : Acknowledged c s copy rest _ := .finished finished row kept
    simpa [setState, triggerBackup, backupOf, free, finished] using after
  · next live =>
    cases released
    have after : Acknowledged c s copy rest _ := .running (Bool.eq_false_iff.mpr live)
    cases state : s.offloadedState copy.req with
    | none => simpa [setState, triggerBackup, backupOf, free, live, state] using after
    | some st => simpa [setState, triggerBackup, backupOf, free, live, state] using after

end OffloadManager

end TriaxialKV.Disagg
