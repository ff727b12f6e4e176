import TriaxialKV.Cache.PagedExtend
import Mathlib.Tactic.Positivity
import Mathlib.Tactic.Ring

/-!
# Pre-allocation on the decode side

The two loops draw on an estimate in tokens, while the allocator hands out pages.
-/

namespace TriaxialKV.Disagg
open List PageAllocator

structure PreallocConfig where
  numReservedDecodeTokens : Nat
  clipMaxNewToken : Nat
  /-- What masked loads and uninitialised memory give `alloc_extend`. -/
  other : Nat
  uninitialised : Nat → Int

structure PreallocReq where
  rid : Nat
  originInputLen : Nat
  outputLen : Nat := 0
  maxNewTokens : Nat
  deriving DecidableEq

structure DecodeRequest where
  rid : Nat
  originInputLen : Nat
  maxNewTokens : Nat
  waitingForInput : Bool
  aborted : Bool
  deriving DecidableEq

def DecodeRequest.req (d : DecodeRequest) : PreallocReq :=
  { rid := d.rid, originInputLen := d.originInputLen, maxNewTokens := d.maxNewTokens }

structure DecodePreallocQueue where
  allocator : PageAllocator
  /-- `req_to_token_pool.free_slots` -/
  freeSlots : List Nat
  /-- `req_to_metadata_buffer_idx_allocator.free_slots` -/
  metadataSlots : List Nat
  runningBatch : List PreallocReq
  waitingQueue : List PreallocReq
  /-- The requests of the last batch if that was prebuilt. -/
  prebuilt : List PreallocReq
  retractedQueue : List PreallocReq
  queue : List DecodeRequest
  /-- Each request in transfer with its metadata buffer index. -/
  transferQueue : List (PreallocReq × Nat)

/-- `alloc` for single slots, else `alloc_extend` for one new sequence. -/
def PreallocConfig.allocFill (c : PreallocConfig) (a : PageAllocator) (fillLen : Nat) : Option (List Int) × PageAllocator :=
  if a.pageSize = 1 then
    let b := a.mergeIfShort fillLen
    b.takePages fillLen ((b.freePages.take fillLen).map Int.ofNat)
  else a.allocExtend c.other c.uninitialised [0] [fillLen] [-1] fillLen

namespace DecodePreallocQueue
variable (c : PreallocConfig) (s : DecodePreallocQueue)

def needSpaceForSingleReq (retractableTokens : Option Int) : Int :=
  match retractableTokens, s.runningBatch with
  | some retractable, x :: xs =>
    let need (x : PreallocReq) : Int := min x.maxNewTokens c.clipMaxNewToken + x.originInputLen - retractable
    (xs.map need).foldl max (need x)
  | _, _ => 0

def allocatableTokens (retractableTokens : Option Int) (countRetracted : Bool) : Int :=
  let allocatable := s.allocator.availableSize -
    max (c.numReservedDecodeTokens * (s.runningBatch.length + s.transferQueue.length + s.waitingQueue.length) : Int)
      (s.needSpaceForSingleReq c retractableTokens)
  let allocatable := allocatable - c.numReservedDecodeTokens * s.prebuilt.length
  if countRetracted then
    allocatable - (s.retractedQueue.map (fun req => (req.originInputLen + req.outputLen + c.numReservedDecodeTokens : Int))).sum
  else allocatable

/-- The two assertions about full pools fail as `none`. -/
def preAlloc (req : PreallocReq) : Option DecodePreallocQueue :=
  match s.freeSlots with
  | [] => none
  | _ :: freeSlots =>
    let fillLen := req.originInputLen + (req.outputLen - 1)
    match c.allocFill s.allocator fillLen with
    | (none, _) => none
    | (some _, allocator) => some { s with freeSlots, allocator }

def resumeLoop (check : Nat → Bool) : List PreallocReq → Int → DecodePreallocQueue →
    Option (List PreallocReq × List PreallocReq × DecodePreallocQueue)
  | [], _, s => some ([], [], s)
  | req :: rest, allocatable, s =>
    if !check req.rid then (resumeLoop check rest allocatable s).map (fun out => (out.1, req :: out.2.1, out.2.2))
    else if s.freeSlots.length ≤ 0 then some ([], req :: rest, s)
    else
      let required : Int := req.originInputLen + req.outputLen + c.numReservedDecodeTokens
      if required > allocatable then some ([], req :: rest, s)
      else (s.preAlloc c req).bind (fun s =>
        (resumeLoop check rest (allocatable - required) s).map (fun out => (req :: out.1, out.2.1, out.2.2)))

/-- The scheduler puts the resumed requests into the waiting queue. -/
def resumeRetractedReqs (check : Nat → Bool) : Option DecodePreallocQueue :=
  (resumeLoop c check s.retractedQueue (s.allocatableTokens c none false) s).map (fun out =>
    { out.2.2 with retractedQueue := out.2.1, waitingQueue := out.2.2.waitingQueue ++ out.1 })

def retractableTokens : Int := (s.runningBatch.map (fun r => (r.originInputLen + r.outputLen : Int))).sum

def popLoop (check : Nat → Bool) (retractable : Int) :
    List DecodeRequest → Int → DecodePreallocQueue → Option (List (PreallocReq × Nat) × List DecodeRequest × DecodePreallocQueue)
  | [], _, s => some ([], [], s)
  | d :: rest, allocatable, s =>
    let stay := some ([], (d :: rest).filter (fun d => !(check d.rid && d.aborted)), s)
    if !check d.rid then (popLoop check retractable rest allocatable s).map (fun out => (out.1, d :: out.2.1, out.2.2))
    else if d.aborted then popLoop check retractable rest allocatable s
    else if !d.waitingForInput then (popLoop check retractable rest allocatable s).map (fun out => (out.1, d :: out.2.1, out.2.2))
    else if s.freeSlots.length ≤ 0 then stay
    else if s.metadataSlots.length ≤ 0 then stay
    else
      let required : Int := d.originInputLen + c.numReservedDecodeTokens
      if max required (d.originInputLen + min d.maxNewTokens c.clipMaxNewToken - retractable) > allocatable then stay
      else if required > allocatable then stay
      else (s.preAlloc c d.req).bind (fun s =>
        -- the assertion on the metadata index
        match s.metadataSlots with
        | [] => none
        | idx :: metadataSlots =>
          (popLoop check retractable rest (allocatable - required) { s with metadataSlots }).map
            (fun out => ((d.req, idx) :: out.1, out.2.1, out.2.2)))

def popPreallocated (check : Nat → Bool) : Option (List (PreallocReq × Nat) × DecodePreallocQueue) :=
  (popLoop c check s.retractableTokens s.queue (s.allocatableTokens c (some s.retractableTokens) true) s).map (fun out =>
    (out.1, { out.2.2 with queue := out.2.1, transferQueue := out.2.2.transferQueue ++ out.1 }))

def resumeAndPop (check check' : Nat → Bool) : Option (List (PreallocReq × Nat) × DecodePreallocQueue) :=
  (s.resumeRetractedReqs c check).bind (fun s => s.popPreallocated c check')

/-- For the requests that are done, whether transferred or failed. -/
def popTransferred (done : PreallocReq → Bool) : DecodePreallocQueue :=
  { s with
    metadataSlots := s.metadataSlots ++ (s.transferQueue.filter (fun entry => done entry.1)).map Prod.snd
    transferQueue := s.transferQueue.filter (fun entry => !done entry.1) }

end DecodePreallocQueue

inductive PreallocOp where
  /-- What happens elsewhere: any queues and pools, but for the transfer queue and its buffers. -/
  | elsewhere (allocator : PageAllocator) (freeSlots : List Nat) (runningBatch waitingQueue prebuilt retractedQueue : List PreallocReq)
      (queue : List DecodeRequest)
  | resumeAndPop (check check' : Nat → Bool)
  | popTransferred (done : PreallocReq → Bool)

namespace DecodePreallocQueue

def step (c : PreallocConfig) (s : DecodePreallocQueue) : PreallocOp → Option DecodePreallocQueue
  | .elsewhere allocator freeSlots runningBatch waitingQueue prebuilt retractedQueue queue =>
    some { s with allocator, freeSlots, runningBatch, waitingQueue, prebuilt, retractedQueue, queue }
  | .resumeAndPop check check' => (s.resumeAndPop c check check').map Prod.snd
  | .popTransferred done => some (s.popTransferred done)

def guard (s : DecodePreallocQueue) : PreallocOp → Prop
  | .elsewhere allocator .. => allocator.pageSize = s.allocator.pageSize
  | _ => True

def start (allocator : PageAllocator) (numMetadata : Nat) : DecodePreallocQueue where
  allocator
  freeSlots := []
  metadataSlots := range numMetadata
  runningBatch := []
  waitingQueue := []
  prebuilt := []
  retractedQueue := []
  queue := []
  transferQueue := []

end DecodePreallocQueue

section
variable {c : PreallocConfig} {a : PageAllocator} {fillLen : Nat}

theorem take_available {β : Type} {b : PageAllocator} {numPages : Nat} (enough : numPages ≤ b.freePages.length) (out : β) :
    (b.takePages numPages out).2.availableSize = b.availableSize - (numPages * b.pageSize : Nat) := by
  unfold takePages
  rw [if_neg (by omega)]
  simp only [PageAllocator.availableSize, length_drop]
  push_cast [enough]
  ring

theorem merge_available (a : PageAllocator) (numPages : Nat) : (a.mergeIfShort numPages).availableSize = a.availableSize := by
  unfold mergeIfShort mergeAndSortFree
  split
  · split
    · simp [PageAllocator.availableSize]
    · rfl
  · rfl

theorem pagesOf_one (len : Nat) : pagesOf 1 len = len := by
  unfold pagesOf
  omega

theorem allocFill_spec (pos : 0 < a.pageSize) (enough : ((fillLen + a.pageSize - 1 : Nat) : Int) ≤ a.availableSize) :
    ∃ out a', c.allocFill a fillLen = (some out, a') ∧ a'.pageSize = a.pageSize ∧
      a'.availableSize = a.availableSize - (pagesOf a.pageSize fillLen * a.pageSize : Nat) := by
  have bounds := pagesOf_bounds pos fillLen
  have pages : pagesOf a.pageSize fillLen ≤ a.pages := by
    refine pages_of_available pos ?_
    have : pagesOf a.pageSize fillLen * a.pageSize ≤ fillLen + a.pageSize - 1 := by omega
    exact_mod_cast Int.le_trans (Int.ofNat_le.mpr this) enough
  unfold PreallocConfig.allocFill
  split
  · next single =>
    rw [single, pagesOf_one] at pages ⊢
    have free := a.merge_free (le_refl fillLen) pages
    refine ⟨_, _, Prod.ext (takePages_ok free _) rfl, ?_, ?_⟩
    · rw [take_pageSize, merge_pageSize, single]
    · rw [take_available free, merge_available, merge_pageSize, single]
  · have need : getNumNewPagesExtend [0] [fillLen] a.pageSize = pagesOf a.pageSize fillLen := by
      have none_ : pagesOf a.pageSize 0 = 0 := Nat.div_eq_of_lt (by omega)
      simp [getNumNewPagesExtend, none_]
    have le : pagesOf a.pageSize fillLen ≤ fillLen / a.pageSize + 1 + 1 := by
      have step : pagesOf a.pageSize fillLen ≤ (fillLen + a.pageSize) / a.pageSize := Nat.div_le_div_right (Nat.sub_le _ _)
      rw [Nat.add_div_right _ pos] at step
      omega
    have free := a.merge_free le pages
    unfold PageAllocator.allocExtend
    dsimp only [length_singleton]
    rw [need]
    refine ⟨_, _, Prod.ext (takePages_ok free _) rfl, ?_, ?_⟩
    · rw [take_pageSize, merge_pageSize]
    · rw [take_available free, merge_available, merge_pageSize]

end

namespace DecodePreallocQueue
variable {c : PreallocConfig} {s s' : DecodePreallocQueue} {allocatable : Int}

structure Taken (s s' : DecodePreallocQueue) : Prop where
  same : s' = { s with allocator := s'.allocator, freeSlots := s'.freeSlots }
  pageSize : s'.allocator.pageSize = s.allocator.pageSize

theorem Taken.trans {s'' : DecodePreallocQueue} (first : s.Taken s') (second : s'.Taken s'') : s.Taken s'' := by
  refine ⟨?_, second.pageSize.trans first.pageSize⟩
  rw [second.same, first.same]

theorem preAlloc_taken {req : PreallocReq} (pos : 0 < s.allocator.pageSize) (slots : ¬s.freeSlots.length ≤ 0)
    (enough : ((req.originInputLen + (req.outputLen - 1) + s.allocator.pageSize - 1 : Nat) : Int) ≤ s.allocator.availableSize) :
    ∃ s', s.preAlloc c req = some s' ∧ s.Taken s' ∧
      s.allocator.availableSize - (req.originInputLen + (req.outputLen - 1) + s.allocator.pageSize - 1 : Nat) ≤ s'.allocator.availableSize := by
  obtain ⟨_, rest, list⟩ := exists_cons_of_ne_nil (ne_nil_of_length_pos (Nat.pos_of_ne_zero (by omega : s.freeSlots.length ≠ 0)))
  obtain ⟨_, a', done, size, available⟩ := allocFill_spec (c := c) pos enough
  refine ⟨{ s with freeSlots := rest, allocator := a' }, ?_, ⟨rfl, size⟩, ?_⟩
  · rw [preAlloc, list]
    dsimp only
    rw [done]
  · have bounds := pagesOf_bounds pos (req.originInputLen + (req.outputLen - 1))
    rw [available]
    omega

theorem resumeLoop_taken (check : Nat → Bool) (reserved : s.allocator.pageSize ≤ c.numReservedDecodeTokens)
    (pos : 0 < s.allocator.pageSize) (reqs : List PreallocReq)
    (backed : allocatable ≤ s.allocator.availableSize) :
    ∃ resumed kept s', resumeLoop c check reqs allocatable s = some (resumed, kept, s') ∧ s.Taken s' := by
  induction reqs generalizing s allocatable with
  | nil => exact ⟨_, _, _, rfl, rfl, rfl⟩
  | cons req rest ih =>
    unfold resumeLoop
    split
    · obtain ⟨resumed, kept, s', done, taken⟩ := ih reserved pos backed
      exact ⟨_, _, _, by rw [done]; rfl, taken⟩
    · split
      · exact ⟨_, _, _, rfl, rfl, rfl⟩
      · next slots =>
        dsimp only
        split
        · exact ⟨_, _, _, rfl, rfl, rfl⟩
        · next _ =>
          have small : ((req.originInputLen + (req.outputLen - 1) + s.allocator.pageSize - 1 : Nat) : Int) ≤ s.allocator.availableSize := by omega
          obtain ⟨mid, done, taken, _⟩ := preAlloc_taken (c := c) pos slots small
          have backed' : allocatable - (req.originInputLen + req.outputLen + c.numReservedDecodeTokens) ≤ mid.allocator.availableSize := by omega
          obtain ⟨resumed, kept, s', done', taken'⟩ := ih (by rw [taken.pageSize]; exact reserved) (by rw [taken.pageSize]; exact pos) backed'
          exact ⟨_, _, _, by rw [done, Option.bind_some, done']; rfl, taken.trans taken'⟩

structure Added (c : PreallocConfig) (s : DecodePreallocQueue) (allocatable : Int) (added : List (PreallocReq × Nat)) (s' : DecodePreallocQueue) :
    Prop where
  same : s' = { s with allocator := s'.allocator, freeSlots := s'.freeSlots, metadataSlots := s'.metadataSlots }
  pageSize : s'.allocator.pageSize = s.allocator.pageSize
  buffers : s.metadataSlots = added.map Prod.snd ++ s'.metadataSlots
  estimate : added ≠ [] → (added.map (fun entry => (entry.1.originInputLen : Int))).sum + added.length * c.numReservedDecodeTokens ≤ allocatable
  available : s.allocator.availableSize - (added.map (fun entry => (entry.1.originInputLen : Int))).sum -
    added.length * (s.allocator.pageSize - 1 : Int) ≤ s'.allocator.availableSize

theorem Added.none (c : PreallocConfig) (s : DecodePreallocQueue) (allocatable : Int) : Added c s allocatable [] s :=
  ⟨rfl, rfl, rfl, fun some_ => absurd rfl some_, by simp⟩

theorem Added.cons {mid : DecodePreallocQueue} {free : List Nat} {added : List (PreallocReq × Nat)} {d : DecodeRequest}
    {idx : Nat} (out : Added c { mid with metadataSlots := free } (allocatable - (d.originInputLen + c.numReservedDecodeTokens)) added s')
    (taken : s.Taken mid) (list : s.metadataSlots = idx :: free) (fits : ¬(d.originInputLen + c.numReservedDecodeTokens : Int) > allocatable)
    (left : s.allocator.availableSize - (d.originInputLen + s.allocator.pageSize - 1 : Int) ≤ mid.allocator.availableSize) :
    Added c s allocatable ((d.req, idx) :: added) s' := by
  have sum : (((d.req, idx) :: added).map (fun entry => (entry.1.originInputLen : Int))).sum =
      d.originInputLen + (added.map (fun entry => (entry.1.originInputLen : Int))).sum := by
    rw [map_cons, sum_cons]
    rfl
  refine ⟨?_, out.pageSize.trans taken.pageSize, ?_, fun _ => ?_, ?_⟩
  · rw [out.same, taken.same]
  · rw [list, map_cons, cons_append, ← out.buffers]
  · rw [sum, length_cons, Nat.cast_succ, Int.add_mul, Int.one_mul]
    by_cases last : added = []
    · subst last
      simp only [map_nil, sum_nil, length_nil]
      omega
    · have rest := out.estimate last
      omega
  · have rest := out.available
    rw [sum, length_cons, Nat.cast_succ, Int.add_mul, Int.one_mul]
    dsimp only at rest
    rw [taken.pageSize] at rest
    omega

theorem popLoop_added (check : Nat → Bool) (reserved : s.allocator.pageSize ≤ c.numReservedDecodeTokens) (pos : 0 < s.allocator.pageSize)
    (retractable : Int)
    (queue : List DecodeRequest) (backed : allocatable ≤ s.allocator.availableSize) :
    ∃ added kept s', popLoop c check retractable queue allocatable s = some (added, kept, s') ∧ Added c s allocatable added s' := by
  induction queue generalizing s allocatable with
  | nil => exact ⟨_, _, _, rfl, .none c s allocatable⟩
  | cons d rest ih =>
    obtain ⟨added, kept, s', done, out⟩ := ih reserved pos backed
    unfold popLoop
    dsimp only
    split
    · exact ⟨_, _, _, by rw [done]; rfl, out⟩
    · split
      · exact ⟨_, _, _, done, out⟩
      · split
        · exact ⟨_, _, _, by rw [done]; rfl, out⟩
        · split
          · exact ⟨_, _, _, rfl, .none c s allocatable⟩
          · next slots =>
            split
            · exact ⟨_, _, _, rfl, .none c s allocatable⟩
            · next _ =>
              split
              · exact ⟨_, _, _, rfl, .none c s allocatable⟩
              · split
                · exact ⟨_, _, _, rfl, .none c s allocatable⟩
                · next fits =>
                  have small : ((d.req.originInputLen + (d.req.outputLen - 1) + s.allocator.pageSize - 1 : Nat) : Int) ≤
                      s.allocator.availableSize := by
                    show ((d.originInputLen + (0 - 1) + s.allocator.pageSize - 1 : Nat) : Int) ≤ _
                    omega
                  obtain ⟨mid, done, taken, left⟩ := preAlloc_taken (c := c) pos slots small
                  obtain ⟨idx, free, list⟩ := exists_cons_of_ne_nil
                    (ne_nil_of_length_pos (Nat.pos_of_ne_zero (by omega : s.metadataSlots.length ≠ 0)))
                  have list' : mid.metadataSlots = idx :: free := by rw [taken.same]; exact list
                  have left' : s.allocator.availableSize - (d.originInputLen + s.allocator.pageSize - 1 : Int) ≤ mid.allocator.availableSize := by
                    have : ((d.req.originInputLen + (d.req.outputLen - 1) + s.allocator.pageSize - 1 : Nat) : Int) =
                        d.originInputLen + s.allocator.pageSize - 1 := by
                      show ((d.originInputLen + (0 - 1) + s.allocator.pageSize - 1 : Nat) : Int) = _
                      omega
                    rw [← this]
                    exact left
                  have backed' : allocatable - (d.originInputLen + c.numReservedDecodeTokens) ≤ mid.allocator.availableSize := by omega
                  obtain ⟨added, kept, s', done', out⟩ := ih (s := { mid with metadataSlots := free })
                    (by show mid.allocator.pageSize ≤ _; rw [taken.pageSize]; exact reserved)
                    (by show 0 < mid.allocator.pageSize; rw [taken.pageSize]; exact pos) backed'
                  refine ⟨(d.req, idx) :: added, kept, s', ?_, ?_⟩
                  · rw [done, Option.bind_some, list']
                    dsimp only
                    rw [done']
                    rfl
                  · exact out.cons taken list fits left'

theorem allocatable_none (c : PreallocConfig) (s : DecodePreallocQueue) : s.allocatableTokens c none false ≤ s.allocator.availableSize := by
  have load : 0 ≤ (c.numReservedDecodeTokens * (s.runningBatch.length + s.transferQueue.length + s.waitingQueue.length) : Int) := by positivity
  have prebuilt : 0 ≤ (c.numReservedDecodeTokens * s.prebuilt.length : Int) := by positivity
  unfold allocatableTokens
  rw [if_neg Bool.false_ne_true]
  omega

theorem allocatable_some (c : PreallocConfig) (s : DecodePreallocQueue) (retractable : Option Int) : s.allocatableTokens c retractable true ≤
      s.allocator.availableSize - c.numReservedDecodeTokens * (s.runningBatch.length + s.transferQueue.length + s.waitingQueue.length) := by
  have prebuilt : 0 ≤ (c.numReservedDecodeTokens * s.prebuilt.length : Int) := by positivity
  have retracted : 0 ≤ (s.retractedQueue.map (fun req => (req.originInputLen + req.outputLen + c.numReservedDecodeTokens : Int))).sum := by
    refine sum_nonneg (fun x listed => ?_)
    obtain ⟨req, _, rfl⟩ := mem_map.mp listed
    positivity
  unfold allocatableTokens
  rw [if_pos rfl]
  omega

def Buffers (s : DecodePreallocQueue) : Prop := (s.transferQueue.map Prod.snd ++ s.metadataSlots).Nodup

theorem resumeAndPop_spec (reserved : s.allocator.pageSize ≤ c.numReservedDecodeTokens) (pos : 0 < s.allocator.pageSize)
    (buffers : s.Buffers) (check check' : Nat → Bool) :
    ∃ added s', s.resumeAndPop c check check' = some (added, s') ∧ s'.Buffers ∧ s'.allocator.pageSize = s.allocator.pageSize ∧
      (added ≠ [] → (c.numReservedDecodeTokens * (s'.runningBatch.length + s'.waitingQueue.length + s'.transferQueue.length) : Int) -
        added.length * (s.allocator.pageSize - 1) ≤ s'.allocator.availableSize) := by
  obtain ⟨resumed, stay, mid, done, taken⟩ := resumeLoop_taken check reserved pos s.retractedQueue (allocatable_none c s)
  have resume : s.resumeRetractedReqs c check = some { mid with retractedQueue := stay, waitingQueue := mid.waitingQueue ++ resumed } := by
    rw [resumeRetractedReqs, done]
    rfl
  generalize next : ({ mid with retractedQueue := stay, waitingQueue := mid.waitingQueue ++ resumed } : DecodePreallocQueue) = s₁ at resume
  have size : s₁.allocator.pageSize = s.allocator.pageSize := by
    subst next
    exact taken.pageSize
  have buffers₁ : s₁.Buffers := by
    subst next
    rw [Buffers, taken.same]
    exact buffers
  have load := allocatable_some c s₁ (some s₁.retractableTokens)
  have reserve : 0 ≤ (c.numReservedDecodeTokens * (s₁.runningBatch.length + s₁.transferQueue.length + s₁.waitingQueue.length) : Int) := by positivity
  obtain ⟨added, kept, s₂, done', out⟩ := popLoop_added check' (by rw [size]; exact reserved) (by rw [size]; exact pos)
    s₁.retractableTokens s₁.queue (by omega : s₁.allocatableTokens c (some s₁.retractableTokens) true ≤ s₁.allocator.availableSize)
  refine ⟨added, { s₂ with queue := kept, transferQueue := s₂.transferQueue ++ added }, ?_, ?_, out.pageSize.trans size, fun some_ => ?_⟩
  · rw [resumeAndPop, resume, Option.bind_some, popPreallocated, done']
    rfl
  · show ((s₂.transferQueue ++ added).map Prod.snd ++ s₂.metadataSlots).Nodup
    rw [map_append, append_assoc, ← out.buffers, out.same]
    exact buffers₁
  · have estimate := out.estimate some_
    have available := out.available
    rw [size] at available
    show (c.numReservedDecodeTokens * (s₂.runningBatch.length + s₂.waitingQueue.length + (s₂.transferQueue ++ added).length : Int) : Int) - _ ≤
      s₂.allocator.availableSize
    have same := out.same
    have running : s₂.runningBatch = s₁.runningBatch := by rw [same]
    have waiting : s₂.waitingQueue = s₁.waitingQueue := by rw [same]
    have transfer : s₂.transferQueue = s₁.transferQueue := by rw [same]
    rw [running, waiting, transfer, length_append, Nat.cast_add]
    have split : (c.numReservedDecodeTokens * (s₁.runningBatch.length + s₁.waitingQueue.length + (s₁.transferQueue.length + added.length)) : Int) =
        c.numReservedDecodeTokens * (s₁.runningBatch.length + s₁.transferQueue.length + s₁.waitingQueue.length) +
          added.length * c.numReservedDecodeTokens := by ring
    omega

theorem popTransferred_buffers (buffers : s.Buffers) (done : PreallocReq → Bool) : (s.popTransferred done).Buffers := by
  unfold Buffers at buffers ⊢
  refine (List.Perm.nodup_iff ?_).mp buffers
  have parts := (filter_append_perm (fun entry => !done entry.1) s.transferQueue).map Prod.snd
  simp only [Bool.not_not, map_append] at parts
  refine (parts.symm.append_right _).trans ?_
  rw [append_assoc]
  exact List.Perm.append_left _ perm_append_comm

/-- The two calls fail no assertion, use no metadata buffer twice, and add requests only while the reserves remain, up to rounding to pages. -/
theorem prealloc_within_estimate {allocator : PageAllocator} {numMetadata : Nat} (positive : 0 < allocator.pageSize)
    (reserved : allocator.pageSize ≤ c.numReservedDecodeTokens)
    (run : Runs.Run (step c) guard (start allocator numMetadata) s) (check check' : Nat → Bool) :
    ∃ added s', s.resumeAndPop c check check' = some (added, s') ∧ (s'.transferQueue.map Prod.snd).Nodup ∧
      (added ≠ [] → (c.numReservedDecodeTokens * (s'.runningBatch.length + s'.waitingQueue.length + s'.transferQueue.length) : Int) -
        added.length * (allocator.pageSize - 1) ≤ s'.allocator.availableSize) := by
  have inv : s.Buffers ∧ s.allocator.pageSize = allocator.pageSize := by
    refine run.invariant (fun s => s.Buffers ∧ s.allocator.pageSize = allocator.pageSize) ⟨?_, rfl⟩ (fun s op s' inv allowed done => ?_)
    · exact nodup_range
    · cases op with
      | elsewhere =>
        cases done
        exact ⟨inv.1, Eq.trans allowed inv.2⟩
      | resumeAndPop check check' =>
        obtain ⟨added, _, done', buffers, size, _⟩ :=
          resumeAndPop_spec (c := c) (by rw [inv.2]; exact reserved) (by rw [inv.2]; exact positive) inv.1 check check'
        rw [step, done'] at done
        cases done
        exact ⟨buffers, size.trans inv.2⟩
      | popTransferred ended =>
        cases done
        exact ⟨popTransferred_buffers inv.1 ended, inv.2⟩
  obtain ⟨added, s', done, buffers, size, room⟩ :=
    resumeAndPop_spec (c := c) (by rw [inv.2]; exact reserved) (by rw [inv.2]; exact positive) inv.1 check check'
  rw [inv.2] at room
  exact ⟨added, s', done, (nodup_append.mp buffers).1, room⟩

def resumeOne : DecodePreallocQueue :=
  { start (pagedClear 20 2 false) 2 with
    freeSlots := [0, 1, 2]
    retractedQueue := [{ rid := 7, originInputLen := 3, outputLen := 2, maxNewTokens := 4 }]
    queue := [{ rid := 8, originInputLen := 3, maxNewTokens := 4, waitingForInput := true, aborted := false }] }

theorem resumeOne_run : Runs.Run (step ⟨2, 4096, 0, fun _ => 0⟩) guard (start (pagedClear 20 2 false) 2) resumeOne :=
  .step (a := .elsewhere (pagedClear 20 2 false) [0, 1, 2] [] [] [] resumeOne.retractedQueue resumeOne.queue) .start rfl rfl

theorem prealloc_within_estimate_two : (resumeOne.resumeAndPop ⟨2, 4096, 0, fun _ => 0⟩ (fun _ => true) (fun _ => true)).map
      (fun out => (out.1.map Prod.snd, out.2.allocator.availableSize)) = some ([0], 12) ∧
    ∃ added s', resumeOne.resumeAndPop ⟨2, 4096, 0, fun _ => 0⟩ (fun _ => true) (fun _ => true) = some (added, s') ∧
      (s'.transferQueue.map Prod.snd).Nodup ∧
      (added ≠ [] → (2 * (s'.runningBatch.length + s'.waitingQueue.length + s'.transferQueue.length) : Int) -
        added.length * (2 - 1) ≤ s'.allocator.availableSize) :=
  ⟨rfl, prealloc_within_estimate (by decide) (by decide) resumeOne_run _ _⟩

end DecodePreallocQueue

end TriaxialKV.Disagg
