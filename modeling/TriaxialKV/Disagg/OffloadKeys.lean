import TriaxialKV.Disagg.DecodeOffload

/-! # The keys of offloaded pages -/

namespace TriaxialKV.Disagg
open List BlockHash Function

/-- Copies of whole pages of `seq` that follow one another from `first` on. -/
def Consecutive (pageSize : Nat) (seq : List Nat) : Nat → List (Nat × List Nat) → Prop
  | _, [] => True
  | first, span :: rest =>
    span.1 = first ∧ span.2 = (seq.drop first).take span.2.length ∧ 0 < span.2.length ∧ pageSize ∣ span.2.length ∧
      first + span.2.length ≤ seq.length ∧ Consecutive pageSize seq (first + span.2.length) rest

def endOf (first : Nat) : List (Nat × List Nat) → Nat
  | [] => first
  | span :: rest => endOf (first + span.2.length) rest

section
variable {pageSize first : Nat} {seq : List Nat} {spans more : List (Nat × List Nat)} {span : Nat × List Nat}

@[simp] theorem endOf_append : endOf first (spans ++ more) = endOf (endOf first spans) more := by
  induction spans generalizing first with
  | nil => rfl
  | cons span rest ih => exact ih

theorem joined_append :
    Consecutive pageSize seq first (spans ++ more) ↔ Consecutive pageSize seq first spans ∧ Consecutive pageSize seq (endOf first spans) more := by
  induction spans generalizing first with
  | nil => exact (and_iff_right trivial).symm
  | cons span rest ih => simp only [cons_append, Consecutive, endOf, ih, and_assoc]

section
variable (chain : Consecutive pageSize seq first spans)
include chain

theorem Consecutive.grow (tail : List Nat) : Consecutive pageSize (seq ++ tail) first spans := by
  induction spans generalizing first with
  | nil => trivial
  | cons span rest ih =>
    obtain ⟨start, tokens, some_, whole, _, later⟩ := chain
    refine ⟨start, ?_, some_, whole, by rw [length_append]; omega, ih later⟩
    rw [drop_append_of_le_length (by omega), take_append_of_le_length (by rw [length_drop]; omega)]
    exact tokens

theorem Consecutive.end_whole (whole : pageSize ∣ first) : pageSize ∣ endOf first spans := by
  induction spans generalizing first with
  | nil => exact whole
  | cons span rest ih =>
    obtain ⟨_, _, _, pages, _, later⟩ := chain
    exact ih later (Nat.dvd_add whole pages)

theorem Consecutive.end_le (inside : first ≤ seq.length) : endOf first spans ≤ seq.length := by
  induction spans generalizing first with
  | nil => exact inside
  | cons span rest ih =>
    obtain ⟨_, _, _, _, room, later⟩ := chain
    exact ih later room

theorem Consecutive.member (whole : pageSize ∣ first) (inside : span ∈ spans) :
    pageSize ∣ span.1 ∧ span.2 = (seq.drop span.1).take span.2.length ∧ 0 < span.2.length ∧ pageSize ∣ span.2.length ∧
      span.1 + span.2.length ≤ seq.length := by
  induction spans generalizing first with
  | nil => cases inside
  | cons head rest ih =>
    obtain ⟨start, tokens, some_, pages, room, later⟩ := chain
    rcases mem_cons.mp inside with rfl | there
    · rw [start]
      exact ⟨whole, tokens, some_, pages, room⟩
    · exact ih later (Nat.dvd_add whole pages) there

end

end

structure Chained (c : OffloadConfig) (seq : List Nat) (first : Nat) (finished : Bool) (state : Option OffloadedState)
    (stored pending : List (Nat × List Nat)) : Prop where
  whole : c.pageSize ∣ first
  inside : first ≤ seq.length
  spans : Consecutive c.pageSize seq first (stored ++ pending)
  agrees : ∀ st, state = some st → st.prefillLen = first ∧ first + st.incLen = endOf first (stored ++ pending) ∧
    st.lastHash = c.hasher.digest c.pageSize (seq.take (endOf first stored))
  fresh : state = none → finished = false → stored ++ pending = []

namespace Chained
variable {c : OffloadConfig} {seq : List Nat} {first : Nat} {finished : Bool} {state : Option OffloadedState}
  {stored pending : List (Nat × List Nat)}

theorem stored_end_le (chained : Chained c seq first finished state stored pending) : endOf first stored ≤ seq.length :=
  (joined_append.mp chained.spans).1.end_le chained.inside

theorem grow (chained : Chained c seq first finished state stored pending) (tail : List Nat) (finished' : Bool)
    (running : finished' = false → finished = false) : Chained c (seq ++ tail) first finished' state stored pending := by
  refine ⟨chained.whole, by rw [length_append]; exact Nat.le_add_right_of_le chained.inside, chained.spans.grow tail, ?_, ?_⟩
  · intro st known
    rw [take_append_of_le_length chained.stored_end_le]
    exact chained.agrees st known
  · intro unknown still
    exact chained.fresh unknown (running still)

theorem known (chained : Chained c seq first false state stored pending) {initial : OffloadedState}
    (start : initial.prefillLen = first ∧ initial.incLen = 0 ∧ initial.lastHash = c.hasher.digest c.pageSize (seq.take first)) (finished : Bool) :
    Chained c seq first finished (some (state.getD initial)) stored pending := by
  refine ⟨chained.whole, chained.inside, chained.spans, ?_, nofun⟩
  rintro st known
  cases known
  cases state with
  | some st => exact chained.agrees st rfl
  | none =>
    obtain ⟨noStored, _⟩ := append_eq_nil_iff.mp (chained.fresh rfl rfl)
    rw [chained.fresh rfl rfl, noStored]
    obtain ⟨len, inc, hash⟩ := start
    exact ⟨len, by rw [Option.getD_none, inc]; rfl, hash⟩

theorem issue {st : OffloadedState} (chained : Chained c seq first finished (some st) stored pending) {len : Nat} (some_ : 0 < len)
    (whole : c.pageSize ∣ len) (room : st.prefillLen + st.incLen + len ≤ seq.length) :
    Chained c seq first finished (some { st with incLen := st.incLen + len }) stored
      (pending ++ [(st.prefillLen + st.incLen, (seq.drop (st.prefillLen + st.incLen)).take len)]) := by
  obtain ⟨prefill, last, hash⟩ := chained.agrees st rfl
  have size : ((seq.drop (st.prefillLen + st.incLen)).take len).length = len := by
    rw [length_take, length_drop]
    omega
  refine ⟨chained.whole, chained.inside, ?_, ?_, nofun⟩
  · rw [← append_assoc, joined_append]
    refine ⟨chained.spans, by rw [prefill, last], ?_, by rw [size]; exact some_, by rw [size]; exact whole, ?_, trivial⟩
    · rw [size, ← last, prefill]
    · rw [size, ← last, ← prefill]
      exact room
  · rintro _ known
    cases known
    refine ⟨prefill, ?_, hash⟩
    rw [← append_assoc, endOf_append, ← last, endOf, endOf, size, add_assoc]

theorem release (chained : Chained c seq first finished state stored pending) : Chained c seq first true none stored pending :=
  ⟨chained.whole, chained.inside, chained.spans, nofun, nofun⟩

theorem store {span : Nat × List Nat} (chained : Chained c seq first finished state stored (span :: pending)) : Chained c seq first finished
      (state.map (fun st => { st with lastHash := (c.computePrefixHash span.2 st.lastHash).getLast?.or st.lastHash }))
      (stored ++ [span]) pending := by
  have same : stored ++ [span] ++ pending = stored ++ span :: pending := by rw [append_assoc, singleton_append]
  refine ⟨chained.whole, chained.inside, by rw [same]; exact chained.spans, ?_, ?_⟩
  · intro _ known
    obtain ⟨st, rfl, rfl⟩ := Option.map_eq_some_iff.mp known
    obtain ⟨prefill, last, hash⟩ := chained.agrees st rfl
    refine ⟨prefill, by rw [same]; exact last, ?_⟩
    obtain ⟨earlier, _, tokens, _, _, _, _⟩ := joined_append.mp chained.spans
    have front : (seq.take (endOf first stored)).length = endOf first stored := by
      rw [length_take]
      omega
    rw [hash, endOf_append, endOf, endOf, take_add, ← tokens, digest_append c.positive
      (by rw [front]; exact earlier.end_whole chained.whole)]
    rfl
  · intro unknown running
    have none_ := chained.fresh (by simpa using unknown) running
    simp at none_

end Chained

namespace OffloadManager

def seq (s : OffloadManager) (i : Nat) : List Nat := (s.reqs i).originInputIds ++ (s.reqs i).outputIds

def storedSpans (s : OffloadManager) (i : Nat) : List (Nat × List Nat) :=
  (s.backups.filter (fun b => decide (b.req = i))).map (fun b => (b.start, b.tokens))

def pendingSpans (s : OffloadManager) (i : Nat) : List (Nat × List Nat) :=
  (s.ongoingOffload.filter (fun copy => decide (copy.req = i))).map (fun copy => (copy.start, copy.tokens))

structure KeyInv (c : OffloadConfig) (s : OffloadManager) : Prop where
  chained : ∀ i, Chained c (s.seq i) (s.prefillOffloadedLen c i) (s.reqs i).finished (s.offloadedState i) (s.storedSpans i) (s.pendingSpans i)
  keyed : ∀ b ∈ s.backups, b.keys = c.computePrefixHash b.tokens (if b.live then c.hasher.digest c.pageSize ((s.seq b.req).take b.start) else none)

variable {c : OffloadConfig} {s s' : OffloadManager} {i : Nat}

theorem KeyInv.stored (inv : s.KeyInv c) {b : Backup} (inside : b ∈ s.backups) :
    c.pageSize ∣ b.start ∧ b.tokens = ((s.seq b.req).drop b.start).take b.tokens.length ∧ 0 < b.tokens.length ∧ c.pageSize ∣ b.tokens.length ∧
      b.start + b.tokens.length ≤ (s.seq b.req).length := by
  have chained := inv.chained b.req
  have here : (b.start, b.tokens) ∈ s.storedSpans b.req := mem_map.mpr ⟨b, mem_filter.mpr ⟨inside, decide_eq_true rfl⟩, rfl⟩
  exact (joined_append.mp chained.spans).1.member chained.whole here

theorem KeyInv.update (inv : s.KeyInv c) (i : Nat)
    (others : ∀ j, j ≠ i → s'.reqs j = s.reqs j ∧ s'.offloadedState j = s.offloadedState j ∧ s'.storedSpans j = s.storedSpans j ∧
      s'.pendingSpans j = s.pendingSpans j) (tail : List Nat) (grown : s'.seq i = s.seq i ++ tail)
    (here : Chained c (s'.seq i) (s'.prefillOffloadedLen c i) (s'.reqs i).finished (s'.offloadedState i) (s'.storedSpans i) (s'.pendingSpans i))
    (backups : ∀ b ∈ s'.backups, b ∈ s.backups ∨
      b.keys = c.computePrefixHash b.tokens (if b.live then c.hasher.digest c.pageSize ((s'.seq b.req).take b.start) else none)) :
    s'.KeyInv c := by
  refine ⟨fun j => ?_, fun b lt => ?_⟩
  · by_cases same : j = i
    · subst same
      exact here
    · obtain ⟨reqs, states, stored, pending⟩ := others j same
      rw [seq, prefillOffloadedLen, reqs, states, stored, pending]
      exact inv.chained j
  · rcases backups b lt with old | new
    · obtain ⟨_, _, _, _, room⟩ := inv.stored old
      rw [inv.keyed b old]
      by_cases same : b.req = i
      · rw [same] at room ⊢
        rw [grown, take_append_of_le_length (by omega)]
      · rw [show s'.seq b.req = s.seq b.req by rw [seq, (others b.req same).1, seq]]
    · exact new

theorem step_admit (inv : s.KeyInv c) {first : Nat} (allowed : s.guard c (.start i first)) (done : s.step c (.start i first) = some s') :
    s'.KeyInv c := by
  cases done
  obtain ⟨_, _, empty, _, _⟩ := allowed
  have grown := (inv.chained i).grow [first] _ id
  rw [seq, empty, append_nil] at grown
  refine inv.update i (fun j other => ⟨update_of_ne other _ _, rfl, rfl, rfl⟩) [first] ?_ ?_ (fun b lt => .inl lt)
  · simp [seq, setReq, empty]
  · simpa [seq, setReq, prefillOffloadedLen, storedSpans, pendingSpans] using grown

theorem step_prepare (inv : s.KeyInv c) (done : s.step c (.prepare i) = some s') : s'.KeyInv c := by
  have kept : ∀ row pages, KeyInv c { s.setReq i { s.reqs i with row } with freePages := pages } := by
    intro row pages
    refine inv.update i (fun j other => ⟨update_of_ne other _ _, rfl, rfl, rfl⟩) [] ?_ ?_ (fun b lt => .inl lt)
    · simp [seq, setReq]
    · simpa [seq, setReq, prefillOffloadedLen, storedSpans, pendingSpans] using inv.chained i
  unfold step at done
  dsimp only at done
  split at done
  · cases done
    exact kept _ _
  · cases done
    exact kept _ s.freePages

theorem stateOf_initial (c : OffloadConfig) (s : OffloadManager) (i : Nat) : ∃ initial : OffloadedState,
    s.stateOf c i = (s.offloadedState i).getD initial ∧ initial.prefillLen = s.prefillOffloadedLen c i ∧ initial.incLen = 0 ∧
      initial.lastHash = c.hasher.digest c.pageSize ((s.seq i).take (s.prefillOffloadedLen c i)) := by
  refine ⟨_, rfl, rfl, rfl, ?_⟩
  have le : s.prefillOffloadedLen c i ≤ (s.reqs i).originInputIds.length := Nat.div_mul_le_self _ _
  rw [seq, take_append_of_le_length le]
  split
  · exact (Option.or_none).symm
  · next none_ =>
    rw [Nat.eq_zero_of_not_pos none_, take_zero, BlockHash.digest, (keyPages_eq_nil c.positive).mpr rfl]
    rfl

namespace Offloading
variable {i : Nat} {room ok : Bool}

theorem frame (effect : Offloading c s i room ok s') : s'.reqs = s.reqs ∧ s'.backups = s.backups ∧
    ∀ j, j ≠ i → s'.offloadedState j = s.offloadedState j ∧ s'.pendingSpans j = s.pendingSpans j := by
  cases effect with
  | idle => exact ⟨rfl, rfl, fun _ _ => ⟨rfl, rfl⟩⟩
  | short => exact ⟨rfl, rfl, fun j other => ⟨update_of_ne other _ _, rfl⟩⟩
  | refused => exact ⟨rfl, rfl, fun j other => ⟨update_of_ne other _ _, rfl⟩⟩
  | issued =>
    refine ⟨rfl, rfl, fun j other => ⟨update_of_ne other _ _, ?_⟩⟩
    simp [pendingSpans, nextCopy, Ne.symm other]

theorem chained (effect : Offloading c s i room ok s') {front : List Nat} {token : Nat} (outputs : (s.reqs i).outputIds = front ++ [token])
    (before : Chained c (s.seq i) (s.prefillOffloadedLen c i) false (s.offloadedState i) (s.storedSpans i) (s.pendingSpans i)) (finish : Bool) :
    Chained c (s'.seq i) (s'.prefillOffloadedLen c i) finish (s'.offloadedState i) (s'.storedSpans i) (s'.pendingSpans i) := by
  obtain ⟨_, state, start⟩ := stateOf_initial c s i
  have known := before.known start finish
  rw [← state] at known
  cases effect with
  | idle =>
    have same := before.grow [] finish (fun _ => rfl)
    rwa [append_nil] at same
  | short => simpa [seq, setState, prefillOffloadedLen, storedSpans, pendingSpans] using known
  | refused => simpa [seq, setState, prefillOffloadedLen, storedSpans, pendingSpans] using known
  | issued more =>
    have room := alignedLen_le more
    have len : (s.seq i).length = (s.reqs i).originInputIds.length + (s.reqs i).outputIds.dropLast.length + 1 := by
      rw [seq, outputs, length_append, length_append, dropLast_concat]
      rfl
    have next := known.issue more (s.alignedLen_whole c i) (by omega)
    have tokens : (s.nextCopy c i (s.alignedLen c i)).tokens =
        ((s.seq i).drop ((s.stateOf c i).prefillLen + (s.stateOf c i).incLen)).take (s.alignedLen c i) := by
      have cut : s.seq i = ((s.reqs i).originInputIds ++ (s.reqs i).outputIds.dropLast) ++ [token] := by
        rw [seq, outputs, dropLast_concat, append_assoc]
      rw [cut, drop_append_of_le_length (by rw [length_append]; omega), take_append_of_le_length (by rw [length_drop, length_append]; omega)]
      rfl
    rw [← tokens] at next
    simpa [seq, setState, prefillOffloadedLen, storedSpans, pendingSpans, nextCopy] using next

end Offloading

theorem releaseFinished_keys (inv : s.KeyInv c) {start : Nat} (done : s.releaseFinishedReq c i start = some s')
    (finished : (s.reqs i).finished = true) : s'.KeyInv c := by
  obtain ⟨_, _, _, rfl⟩ := release_some done
  refine inv.update i (fun j other => ⟨update_of_ne other _ _, update_of_ne other _ _, rfl, rfl⟩) [] ?_ ?_
    (fun b lt => .inl lt)
  · simp [seq]
  · have gone := (inv.chained i).release
    simpa [seq, prefillOffloadedLen, storedSpans, pendingSpans, finished] using gone

theorem step_result (inv : s.KeyInv c) {token : Nat} {finish room : Bool} (allowed : s.guard c (.result i token finish room))
    (done : s.step c (.result i token finish room) = some s') : s'.KeyInv c := by
  obtain ⟨_, _, running, _⟩ := allowed
  unfold step processResult at done
  dsimp only at done
  have effect := offload_offloading (c := c)
    (s := s.setReq i { s.reqs i with outputIds := (s.reqs i).outputIds ++ [token], finished := finish }) i room
  generalize hs : s.setReq i { s.reqs i with outputIds := (s.reqs i).outputIds ++ [token], finished := finish } = mid at effect done
  have req : mid.reqs i = { s.reqs i with outputIds := (s.reqs i).outputIds ++ [token], finished := finish } := by
    subst hs
    simp [setReq]
  have before := (inv.chained i).grow [token] false (fun _ => running)
  have midSeq : mid.seq i = s.seq i ++ [token] := by rw [seq, req, seq, append_assoc]
  generalize mid.offloadKvCache c i room = result at effect done
  obtain ⟨reqs, backups, others⟩ := effect.frame
  have kept : result.2.KeyInv c := by
    refine inv.update i (fun j other => ?_) [token] (by rw [seq, reqs, ← seq, midSeq]) ?_
      (fun b lt => .inl (by rw [backups] at lt; subst hs; exact lt))
    · obtain ⟨states, pending⟩ := others j other
      subst hs
      exact ⟨by rw [reqs]; exact update_of_ne other _ _, states, by rw [storedSpans, backups]; rfl, pending⟩
    · have after := effect.chained (congrArg OffloadReq.outputIds req) (by
        rw [midSeq, prefillOffloadedLen, req]
        subst hs
        exact before) finish
      rw [reqs, req]
      exact after
  split at done
  · next final =>
    rw [finalizeRelease_eq] at done
    have kept' : KeyInv c (result.2.free c (result.2.early c i)) := ⟨kept.chained, kept.keyed⟩
    exact releaseFinished_keys kept' done (by show (result.2.reqs i).finished = true; rw [reqs, req]; exact final.1)
  · cases done
    exact kept

theorem stored_acknowledged (inv : s.KeyInv c) {copy : HostCopy} {rest : List HostCopy} (queue : s.ongoingOffload = copy :: rest) :
    s.pendingSpans copy.req = (copy.start, copy.tokens) :: (rest.filter (fun other => decide (other.req = copy.req))).map
      (fun other => (other.start, other.tokens)) ∧
    copy.start = endOf (s.prefillOffloadedLen c copy.req) (s.storedSpans copy.req) := by
  have pending : s.pendingSpans copy.req = (copy.start, copy.tokens) :: (rest.filter (fun other => decide (other.req = copy.req))).map
      (fun other => (other.start, other.tokens)) := by
    rw [pendingSpans, queue]
    simp
  have spans := (inv.chained copy.req).spans
  rw [pending] at spans
  exact ⟨pending, (joined_append.mp spans).2.1⟩

theorem step_ack (inv : s.KeyInv c) (allowed : s.guard c .ack) (done : s.step c .ack = some s') : s'.KeyInv c := by
  obtain ⟨copy, rest, queue⟩ := exists_cons_of_ne_nil allowed.2
  obtain ⟨pending, start⟩ := stored_acknowledged inv queue
  have chained := inv.chained copy.req
  rw [pending] at chained
  have stored : ∀ prior live, ((s.backups ++ [backupOf c copy prior live]).filter (fun b => decide (b.req = copy.req))).map
      (fun b => (b.start, b.tokens)) = s.storedSpans copy.req ++ [(copy.start, copy.tokens)] := by
    intro prior live
    simp [storedSpans, backupOf]
  have other_stored : ∀ prior live j, j ≠ copy.req → ((s.backups ++ [backupOf c copy prior live]).filter (fun b => decide (b.req = j))).map
      (fun b => (b.start, b.tokens)) = s.storedSpans j := by
    intro prior live j other
    simp [storedSpans, backupOf, Ne.symm other]
  have other_pending : ∀ j, j ≠ copy.req →
      (rest.filter (fun other => decide (other.req = j))).map (fun other => (other.start, other.tokens)) = s.pendingSpans j := by
    intro j other
    simp [pendingSpans, queue, Ne.symm other]
  cases progress_acknowledged queue done with
  | finished ended =>
    refine inv.update copy.req (fun j other => ⟨update_of_ne other _ _, update_of_ne other _ _, other_stored _ _ j other,
      other_pending j other⟩) [] ?_ ?_ ?_
    · simp [seq]
    · have gone := chained.release.store
      rw [← stored none false] at gone
      simpa [seq, prefillOffloadedLen, storedSpans, pendingSpans, ended] using gone
    · intro b lt
      rcases mem_append.mp lt with old | new
      · exact .inl old
      · obtain rfl := mem_singleton.mp new
        exact .inr rfl
  | running live =>
    have known : ∃ st, s.offloadedState copy.req = some st := by
      cases state : s.offloadedState copy.req with
      | some st => exact ⟨st, rfl⟩
      | none =>
        have none_ := chained.fresh state live
        simp at none_
    obtain ⟨st, state⟩ := known
    obtain ⟨_, _, hash⟩ := chained.agrees st state
    refine inv.update copy.req (fun j other => ⟨rfl, update_of_ne other _ _, other_stored _ _ j other, other_pending j other⟩) [] ?_ ?_ ?_
    · simp [seq]
    · have kept := chained.store
      rw [← stored ((s.offloadedState copy.req).bind OffloadedState.lastHash) true] at kept
      simpa [seq, prefillOffloadedLen, storedSpans, pendingSpans] using kept
    · intro b lt
      rcases mem_append.mp lt with old | new
      · exact .inl old
      · obtain rfl := mem_singleton.mp new
        right
        show c.computePrefixHash copy.tokens ((s.offloadedState copy.req).bind OffloadedState.lastHash) =
          c.computePrefixHash copy.tokens (c.hasher.digest c.pageSize ((s.seq copy.req).take copy.start))
        rw [state, Option.bind_some, hash, start]

/-- Pages are stored under the chained hash of the request's tokens, one after the other. -/
def BackupsRight (c : OffloadConfig) (s : OffloadManager) : Prop :=
  (∀ b ∈ s.backups, b.keys = ((c.computePrefixHash (s.seq b.req) none).drop (b.start / c.pageSize)).take (b.tokens.length / c.pageSize)) ∧
  ∀ i, Consecutive c.pageSize (s.seq i) (s.prefillOffloadedLen c i) (s.storedSpans i)

theorem run_keys {prompts : Nat → List Nat} {numPages numRows : Nat}
    (run : Runs.Run (fun s op => s.step c op) (guard c) (init prompts numPages numRows) s) : s.KeyInv c := by
  refine run.invariant (KeyInv c) ⟨fun i => ?_, nofun⟩ (fun s op s' inv allowed done => ?_)
  · refine ⟨Nat.dvd_mul_left _ _, ?_, trivial, nofun, fun _ _ => rfl⟩
    rw [seq, length_append]
    exact Nat.le_add_right_of_le (Nat.div_mul_le_self _ _)
  · cases op with
    | start i first => exact step_admit inv allowed done
    | prepare i => exact step_prepare inv done
    | groupBegin =>
      cases done
      exact ⟨inv.chained, inv.keyed⟩
    | result i token finish room => exact step_result inv allowed done
    | groupEnd =>
      cases done
      exact ⟨inv.chained, inv.keyed⟩
    | ack => exact step_ack inv allowed done

theorem KeyInv.chain_part (inv : s.KeyInv c) {b : Backup} (inside : b ∈ s.backups) :
    ((c.computePrefixHash (s.seq b.req) none).drop (b.start / c.pageSize)).take (b.tokens.length / c.pageSize) =
      c.computePrefixHash b.tokens (c.hasher.digest c.pageSize ((s.seq b.req).take b.start)) := by
  obtain ⟨whole, tokens, _, pages, _⟩ := inv.stored inside
  have front : ((s.seq b.req).take b.start).length = b.start := by
    rw [length_take]
    omega
  have cut : s.seq b.req = (s.seq b.req).take b.start ++ (b.tokens ++ (s.seq b.req).drop (b.start + b.tokens.length)) := by
    conv_lhs => rw [← take_append_drop b.start (s.seq b.req), ← take_append_drop b.tokens.length ((s.seq b.req).drop b.start)]
    rw [← tokens, drop_drop]
  have frontPages : (c.hasher.chain none (keyPages ((s.seq b.req).take b.start) c.pageSize)).length = b.start / c.pageSize := by
    rw [chain_length, keyPages_length c.positive (by rw [front]; exact whole), front]
  have tokenPages : (keyPages b.tokens c.pageSize).length = b.tokens.length / c.pageSize := keyPages_length c.positive pages
  unfold OffloadConfig.computePrefixHash
  conv_lhs => rw [cut]
  rw [keyPages_append c.positive (by rw [front]; exact whole), keyPages_append c.positive pages, chain_append,
    drop_left' frontPages, chain_append, take_left' (by rw [chain_length, tokenPages])]
  rfl

theorem digestFrom_none {hasher : BlockHash} {pages : List (List Nat)} : hasher.digestFrom none pages = none ↔ pages = [] := by
  cases pages using reverseRecOn with
  | nil => exact iff_of_true rfl rfl
  | append_singleton pages page =>
    rw [digest_concat]
    simp

/-- The keys are right exactly when no copy behind the start of a request is acknowledged after the request has finished. -/
theorem backups_right_iff {prompts : Nat → List Nat} {numPages numRows : Nat}
    (injective : ∀ page page' prior prior', c.hasher.getHashStr page prior = c.hasher.getHashStr page' prior' → page = page' ∧ prior = prior')
    (run : Runs.Run (fun s op => s.step c op) (guard c) (init prompts numPages numRows) s) :
    s.BackupsRight c ↔ ∀ b ∈ s.backups, b.live = true ∨ b.start = 0 := by
  have inv := run_keys run
  constructor
  · rintro ⟨keys, _⟩ b inside
    obtain ⟨_, _, some_, _, room⟩ := inv.stored inside
    by_contra wrong
    obtain ⟨ended, later⟩ := not_or.mp wrong
    have same := keys b inside
    rw [inv.chain_part inside, inv.keyed b inside, if_neg ended] at same
    have before : c.hasher.digest c.pageSize ((s.seq b.req).take b.start) ≠ none := by
      rw [Ne, BlockHash.digest, digestFrom_none, keyPages_eq_nil c.positive, take_eq_nil_iff]
      rintro (first | empty)
      · exact later first
      · rw [empty, length_nil] at room
        omega
    have filled : keyPages b.tokens c.pageSize ≠ [] := by
      rw [Ne, keyPages_eq_nil c.positive]
      rintro empty
      rw [empty] at some_
      cases some_
    obtain ⟨page, _, split⟩ := exists_cons_of_ne_nil filled
    rw [OffloadConfig.computePrefixHash, OffloadConfig.computePrefixHash, split, BlockHash.chain, BlockHash.chain] at same
    exact before (injective _ _ _ _ (List.cons.inj same).1).2.symm
  · intro good
    refine ⟨fun b inside => ?_, fun i => (joined_append.mp (inv.chained i).spans).1⟩
    rw [inv.chain_part inside, inv.keyed b inside]
    rcases good b inside with live | first
    · rw [if_pos live]
    · split
      · rfl
      · rw [first, take_zero, BlockHash.digest, (keyPages_eq_nil c.positive).mpr rfl]
        rfl

open BlockHash (pairing)

def pairingConfig : OffloadConfig := { pageSize := 1, envStride := none, hasher := pairing, positive := Nat.one_pos }

theorem pairing_apart (page page' : List Nat) (prior prior' : Option Nat)
    (same : pairing.getHashStr page prior = pairing.getHashStr page' prior') : page = page' ∧ prior = prior' :=
  BlockHash.pairing_injective _ _ _ _ (congrArg Int.ofNat same)

def onePrompt (i : Nat) : List Nat := if i = 0 then [5] else []

theorem run_pairing (ops : List OffloadOp) {s : OffloadManager}
    (done : Runs.attempt (fun s op => step pairingConfig s op) (guard pairingConfig) (init onePrompt 4 1) ops = some s) :
    Runs.Run (fun s op => step pairingConfig s op) (guard pairingConfig) (init onePrompt 4 1) s :=
  .of_attempt .start done

theorem backups_right_live : ∃ s, Runs.Run (fun s op => step pairingConfig s op) (guard pairingConfig) (init onePrompt 4 1) s ∧
    s.backups.length = 1 ∧ s.BackupsRight pairingConfig := by
  have run := run_pairing [.start 0 6, .prepare 0, .groupBegin, .result 0 7 false true, .groupEnd, .ack] rfl
  refine ⟨_, run, rfl, (backups_right_iff pairing_apart run).mpr ?_⟩
  intro b inside
  obtain rfl := mem_singleton.mp inside
  exact .inl rfl

/-- The request finishes with the copy under way. -/
theorem backup_after_finish : ∃ s, Runs.Run (fun s op => step pairingConfig s op) (guard pairingConfig) (init onePrompt 4 1) s ∧
    s.backups.map (fun b => (b.start, b.tokens, b.keys)) = [(1, [6], [pairing.getHashStr [6] none])] ∧
    pairingConfig.computePrefixHash (s.seq 0) none = [pairing.getHashStr [5] none,
      pairing.getHashStr [6] (some (pairing.getHashStr [5] none)),
      pairing.getHashStr [7] (some (pairing.getHashStr [6] (some (pairing.getHashStr [5] none))))] ∧
    pairing.getHashStr [6] none ≠ pairing.getHashStr [6] (some (pairing.getHashStr [5] none)) := by
  refine ⟨_, run_pairing [.start 0 6, .prepare 0, .groupBegin, .result 0 7 true true, .groupEnd, .ack] rfl, rfl, rfl, fun same => ?_⟩
  cases (pairing_apart _ _ _ _ same).2

end OffloadManager

end TriaxialKV.Disagg
