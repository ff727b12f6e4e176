import Mathlib

/-!
# Staging ring of the disaggregated transfer

Regions are handed out whether or not older ones are in use. The watermark, the position of the oldest region
in use, goes to the prefill side in messages that may come late or never.
-/

namespace TriaxialKV.Disagg
open List

structure Allocation where
  offset : Nat
  size : Nat
  round : Nat
  deriving DecidableEq, Repr

namespace Allocation

def bytes (a : Allocation) : Set Nat := Set.Ico a.offset (a.offset + a.size)

def end_ (a : Allocation) : Nat := a.offset + a.size

def position (a : Allocation) : ℕ ×ₗ ℕ := toLex (a.round, a.offset)

end Allocation

structure StagingAllocator where
  totalSize : Nat
  head : Nat := 0
  round : Nat := 0
  allocations : AList (fun _ : Nat => Allocation) := ∅
  allocOrder : List Nat := []
  nextAllocId : Nat := 0
  watermarkRound : Nat := 0
  watermarkTail : Nat := 0

namespace StagingAllocator

def assign (s : StagingAllocator) (requiredBytes : Nat) : StagingAllocator × Option (Nat × Nat × Nat) :=
  if requiredBytes > s.totalSize then (s, none)
  else
    let spaceAtEnd := s.totalSize - s.head
    let (offset, round, head) :=
      if requiredBytes ≤ spaceAtEnd then (s.head, s.round, s.head + requiredBytes) else (0, s.round + 1, requiredBytes)
    ({ s with
        head := head
        round := round
        nextAllocId := s.nextAllocId + 1
        allocations := s.allocations.insert s.nextAllocId ⟨offset, requiredBytes, round⟩
        allocOrder := s.allocOrder ++ [s.nextAllocId] },
      some (s.nextAllocId, offset, round))

def free (s : StagingAllocator) (allocId : Nat) : StagingAllocator :=
  if allocId ∉ s.allocations then s
  else
    let allocations := s.allocations.erase allocId
    let allocOrder := s.allocOrder.dropWhile (fun id => decide (id ∉ allocations))
    let s := { s with allocations := allocations, allocOrder := allocOrder }
    if allocations.keys = [] then { s with watermarkRound := s.round, watermarkTail := s.head }
    else
      match allocOrder.head?.bind allocations.lookup with
      | some oldest => { s with watermarkRound := oldest.round, watermarkTail := oldest.offset }
      | none => s

def getWatermark (s : StagingAllocator) : Nat × Nat := (s.watermarkRound, s.watermarkTail)

end StagingAllocator

abbrev RemoteWatermarks := AList (fun _ : String => Nat × Nat)

def isWatermarkReady (remoteWatermarks : RemoteWatermarks) (sessionId : String) (allocRound allocEnd : Nat) : Bool :=
  if allocRound = 0 then true
  else
    let prevRound := allocRound - 1
    let (wmRound, wmTail) := (remoteWatermarks.lookup sessionId).getD (0, 0)
    decide (prevRound < wmRound ∨ prevRound = wmRound ∧ allocEnd ≤ wmTail)

def receiveWatermark (remoteWatermarks : RemoteWatermarks) (session : String) (watermark : Nat × Nat) : RemoteWatermarks :=
  let prev := (remoteWatermarks.lookup session).getD (0, 0)
  if toLex prev < toLex watermark then remoteWatermarks.insert session watermark else remoteWatermarks

structure Staging where
  allocator : StagingAllocator
  sent : List (String × Nat × Nat) := []
  remoteWatermarks : RemoteWatermarks := ∅

inductive Action where
  | assign (requiredBytes : Nat)
  | free (allocId : Nat)
  | send (session : String)
  | deliver (place : Nat)

namespace Staging

def start (totalSize : Nat) : Staging := { allocator := { totalSize := totalSize } }

-- A message stays in `sent`: it may be delivered at any later time, or never.
def step (s : Staging) : Action → Staging
  | .assign requiredBytes => { s with allocator := (s.allocator.assign requiredBytes).1 }
  | .free allocId => { s with allocator := s.allocator.free allocId }
  | .send session => { s with sent := s.sent ++ [(session, s.allocator.getWatermark)] }
  | .deliver place =>
    match s.sent[place]? with
    | some (session, watermark) => { s with remoteWatermarks := receiveWatermark s.remoteWatermarks session watermark }
    | none => s

end Staging

variable {b a : Allocation} (totalSize : Nat)

namespace StagingAllocator
variable {s : StagingAllocator} {id : Nat} {a : Allocation}

def Live (s : StagingAllocator) (id : Nat) (a : Allocation) : Prop := s.allocations.lookup id = some a

def watermark (s : StagingAllocator) : ℕ ×ₗ ℕ := toLex s.getWatermark

def top (s : StagingAllocator) : ℕ ×ₗ ℕ := toLex (s.round, s.head)

def Precedes (a b : Allocation) : Prop := toLex (a.round, a.end_) ≤ b.position

structure Inv (s : StagingAllocator) : Prop where
  known : ∀ id a, s.Live id a → id < s.nextAllocId ∧ id ∈ s.allocOrder
  below : ∀ id a, s.Live id a → toLex (a.round, a.end_) ≤ s.top
  apart : ∀ i a j b, s.Live i a → s.Live j b → i < j → Precedes a b
  issued : ∀ id ∈ s.allocOrder, id < s.nextAllocId
  increasing : s.allocOrder.Pairwise (· < ·)
  behind : ∀ id a, s.Live id a → s.watermark ≤ a.position
  behindTop : s.watermark ≤ s.top

theorem position_le_end (a : Allocation) : a.position ≤ toLex (a.round, a.end_) :=
  Prod.Lex.toLex_le_toLex.mpr (.inr ⟨rfl, Nat.le_add_right a.offset a.size⟩)

theorem disjoint_of_end_le (le : a.end_ ≤ b.offset) : Disjoint a.bytes b.bytes :=
  Set.Ico_disjoint_Ico.mpr ((min_le_left _ _).trans (le.trans (le_max_right _ _)))

theorem Precedes.disjoint (precedes : Precedes a b) (same : a.round = b.round) : Disjoint a.bytes b.bytes := by
  rcases Prod.Lex.toLex_le_toLex.mp precedes with less | ⟨_, le⟩
  · exact absurd same less.ne
  · exact disjoint_of_end_le le

theorem assign_cases (s : StagingAllocator) (requiredBytes : Nat) : (s.assign requiredBytes).1 = s ∨
      ∃ a : Allocation, s.top ≤ a.position ∧ (s.assign requiredBytes).1 = { s with
          head := a.end_, round := a.round, nextAllocId := s.nextAllocId + 1
          allocations := s.allocations.insert s.nextAllocId a, allocOrder := s.allocOrder ++ [s.nextAllocId] } := by
  unfold assign
  split
  · exact .inl rfl
  · dsimp only
    split
    · exact .inr ⟨⟨s.head, requiredBytes, s.round⟩, le_rfl, rfl⟩
    · refine .inr ⟨⟨0, requiredBytes, s.round + 1⟩, ?_, ?_⟩
      · exact Prod.Lex.toLex_le_toLex.mpr (.inl (Nat.lt_succ_self s.round))
      · simp only [Allocation.end_, zero_add]

theorem Inv.assign (inv : s.Inv) (requiredBytes : Nat) : (s.assign requiredBytes).1.Inv ∧ (s.assign requiredBytes).1.watermark = s.watermark := by
  rcases assign_cases s requiredBytes with same | ⟨added, start, after⟩
  · rw [same]
    exact ⟨inv, rfl⟩
  · rw [after]
    refine ⟨?_, rfl⟩
    have live (id : Nat) (a : Allocation) (here : (s.allocations.insert s.nextAllocId added).lookup id = some a) :
        id = s.nextAllocId ∧ a = added ∨ s.Live id a := by
      by_cases new : id = s.nextAllocId
      · rw [new, AList.lookup_insert] at here
        exact .inl ⟨new, (Option.some.inj here).symm⟩
      · rw [AList.lookup_insert_ne new] at here
        exact .inr here
    have topBelow : s.top ≤ toLex (added.round, added.end_) := start.trans (position_le_end added)
    constructor
    case known =>
      intro id a here
      rcases live id a here with ⟨rfl, _⟩ | old
      · exact ⟨Nat.lt_succ_self _, mem_append_right _ (mem_singleton_self _)⟩
      · obtain ⟨less, listed⟩ := inv.known id a old
        exact ⟨Nat.lt_succ_of_lt less, mem_append_left _ listed⟩
    case below =>
      intro id a here
      rcases live id a here with ⟨_, rfl⟩ | old
      · exact le_rfl
      · exact (inv.below id a old).trans topBelow
    case apart =>
      intro i a j b hereA hereB less
      rcases live i a hereA with ⟨rfl, _⟩ | oldA
      · rcases live j b hereB with ⟨rfl, _⟩ | oldB
        · exact absurd less (lt_irrefl _)
        · exact absurd less (Nat.lt_asymm (inv.known j b oldB).1)
      · rcases live j b hereB with ⟨_, rfl⟩ | oldB
        · exact (inv.below i a oldA).trans start
        · exact inv.apart i a j b oldA oldB less
    case issued =>
      intro id listed
      rcases mem_append.mp listed with old | new
      · exact Nat.lt_succ_of_lt (inv.issued id old)
      · rw [mem_singleton.mp new]
        exact Nat.lt_succ_self _
    case increasing =>
      refine pairwise_append.mpr ⟨inv.increasing, pairwise_singleton _ _, fun id old last new => ?_⟩
      rw [mem_singleton.mp new]
      exact inv.issued id old
    case behind =>
      intro id a here
      rcases live id a here with ⟨_, rfl⟩ | old
      · exact inv.behindTop.trans start
      · exact inv.behind id a old
    case behindTop => exact inv.behindTop.trans topBelow

section

theorem dropWhile_oldest {order : List Nat} {live : Nat → Prop} [DecidablePred live] (increasing : order.Pairwise (· < ·))
    {id : Nat} (listed : id ∈ order) (alive : live id) :
    id ∈ order.dropWhile (fun id => decide (¬ live id)) ∧
      ∃ oldest, (order.dropWhile (fun id => decide (¬ live id))).head? = some oldest ∧ live oldest ∧ oldest ≤ id := by
  induction order with
  | nil => cases listed
  | cons first rest ih =>
    obtain ⟨less, increasing⟩ := pairwise_cons.mp increasing
    by_cases gone : live first
    · rw [dropWhile_cons_of_neg (by simpa using gone)]
      refine ⟨listed, first, rfl, gone, ?_⟩
      rcases mem_cons.mp listed with rfl | later
      · exact le_rfl
      · exact (less id later).le
    · rw [dropWhile_cons_of_pos (by simpa using gone)]
      rcases mem_cons.mp listed with rfl | later
      · exact absurd alive gone
      · exact ih increasing later

theorem free_cases (inv : s.Inv) (allocId : Nat) : s.free allocId = s ∨ ∃ round tail, s.free allocId = { s with
          allocations := s.allocations.erase allocId
          allocOrder := s.allocOrder.dropWhile (fun id => decide (id ∉ s.allocations.erase allocId))
          watermarkRound := round, watermarkTail := tail } ∧
        ((∀ id a, (s.allocations.erase allocId).lookup id ≠ some a) ∧ toLex (round, tail) = s.top ∨
          ∃ oldest a, (s.allocations.erase allocId).lookup oldest = some a ∧ toLex (round, tail) = a.position ∧
            ∀ id b, (s.allocations.erase allocId).lookup id = some b → oldest ≤ id) := by
  unfold free
  split
  · exact .inl rfl
  · dsimp only
    split
    · next none =>
      refine .inr ⟨_, _, rfl, .inl ⟨fun id a here => ?_, rfl⟩⟩
      have key : id ∈ (s.allocations.erase allocId).keys := AList.mem_keys.mp (AList.lookup_isSome.mp (Option.isSome_of_eq_some here))
      rw [none] at key
      cases key
    · next left =>
      have front {id : Nat} (key : id ∈ s.allocations.erase allocId) :
          ∃ oldest, (s.allocOrder.dropWhile (fun id => decide (id ∉ s.allocations.erase allocId))).head? = some oldest ∧
            oldest ∈ s.allocations.erase allocId ∧ oldest ≤ id := by
        obtain ⟨a, here⟩ := Option.isSome_iff_exists.mp (AList.lookup_isSome.mpr (AList.mem_erase.mp key).2)
        exact (dropWhile_oldest inv.increasing (inv.known id a here).2 key).2
      obtain ⟨_, key⟩ := exists_mem_of_ne_nil _ left
      obtain ⟨oldest, first, alive, _⟩ := front (AList.mem_keys.mpr key)
      obtain ⟨a, here⟩ := Option.isSome_iff_exists.mp (AList.lookup_isSome.mpr alive)
      rw [first, Option.bind_some, here]
      refine .inr ⟨_, _, rfl, .inr ⟨oldest, a, here, rfl, fun id b here' => ?_⟩⟩
      obtain ⟨_, first', _, _⟩ := front (AList.lookup_isSome.mp (Option.isSome_of_eq_some here'))
      rw [first] at first'
      rwa [Option.some.inj first']

theorem Inv.free (inv : s.Inv) (allocId : Nat) : (s.free allocId).Inv ∧ s.watermark ≤ (s.free allocId).watermark := by
  rcases free_cases inv allocId with same | ⟨round, tail, after, moved⟩
  · rw [same]
    exact ⟨inv, le_rfl⟩
  · rw [after]
    have live (id : Nat) (a : Allocation) (here : (s.allocations.erase allocId).lookup id = some a) : s.Live id a := by
      have key := AList.mem_erase.mp (AList.lookup_isSome.mp (Option.isSome_of_eq_some here))
      rwa [AList.lookup_erase_ne key.1] at here
    have behind (id : Nat) (a : Allocation) (here : (s.allocations.erase allocId).lookup id = some a) : toLex (round, tail) ≤ a.position := by
      rcases moved with ⟨none, _⟩ | ⟨oldest, b, hereB, place, first⟩
      · exact absurd here (none id a)
      · rw [place]
        rcases (first id a here).eq_or_lt with rfl | less
        · rw [Option.some.inj (hereB.symm.trans here)]
        · exact (position_le_end b).trans (inv.apart oldest b id a (live oldest b hereB) (live id a here) less)
    have top : toLex (round, tail) ≤ s.top ∧ s.watermark ≤ toLex (round, tail) := by
      rcases moved with ⟨_, place⟩ | ⟨oldest, b, hereB, place, _⟩
      · rw [place]
        exact ⟨le_rfl, inv.behindTop⟩
      · rw [place]
        exact ⟨(position_le_end b).trans (inv.below oldest b (live oldest b hereB)), inv.behind oldest b (live oldest b hereB)⟩
    refine ⟨?_, top.2⟩
    constructor
    case known =>
      intro id a here
      obtain ⟨less, listed⟩ := inv.known id a (live id a here)
      have key : id ∈ s.allocations.erase allocId := AList.lookup_isSome.mp (Option.isSome_of_eq_some here)
      exact ⟨less, (dropWhile_oldest inv.increasing listed key).1⟩
    case below => exact fun id a here => inv.below id a (live id a here)
    case apart => exact fun i a j b hereA hereB less => inv.apart i a j b (live i a hereA) (live j b hereB) less
    case issued => exact fun id listed => inv.issued id ((dropWhile_suffix _).subset listed)
    case increasing => exact inv.increasing.sublist (dropWhile_suffix _).sublist
    case behind => exact behind
    case behindTop => exact top.1

end

theorem inv_start : Inv { totalSize := totalSize } := by
  have none (id : Nat) (a : Allocation) : ¬ Live { totalSize := totalSize } id a := by
    exact nofun
  constructor
  case known => exact fun id a here => absurd here (none id a)
  case below => exact fun id a here => absurd here (none id a)
  case apart => exact fun i a j b here => absurd here (none i a)
  case issued => exact fun id listed => absurd listed not_mem_nil
  case increasing => exact List.Pairwise.nil
  case behind => exact fun id a here => absurd here (none id a)
  case behindTop => exact le_rfl

end StagingAllocator

namespace Staging
open StagingAllocator

structure Inv (s : Staging) : Prop where
  allocator : s.allocator.Inv
  sent : ∀ message ∈ s.sent, toLex message.2 ≤ s.allocator.watermark
  remote : ∀ session, toLex ((s.remoteWatermarks.lookup session).getD (0, 0)) ≤ s.allocator.watermark

theorem receiveWatermark_le {remoteWatermarks : RemoteWatermarks} {bound : ℕ ×ₗ ℕ} {watermark : Nat × Nat} (session : String)
    (old : ∀ session, toLex ((remoteWatermarks.lookup session).getD (0, 0)) ≤ bound) (new : toLex watermark ≤ bound) (other : String) :
    toLex (((receiveWatermark remoteWatermarks session watermark).lookup other).getD (0, 0)) ≤ bound := by
  unfold receiveWatermark
  dsimp only
  split
  · by_cases same : other = session
    · rw [same, AList.lookup_insert, Option.getD_some]
      exact new
    · rw [AList.lookup_insert_ne same]
      exact old other
  · exact old other

theorem Inv.step {s : Staging} (inv : s.Inv) (action : Action) : (s.step action).Inv := by
  cases action with
  | assign requiredBytes =>
    obtain ⟨allocator, same⟩ := inv.allocator.assign requiredBytes
    refine ⟨allocator, fun message mem => ?_, fun session => ?_⟩
    · exact (inv.sent message mem).trans same.ge
    · exact (inv.remote session).trans same.ge
  | free allocId =>
    obtain ⟨allocator, forward⟩ := inv.allocator.free allocId
    refine ⟨allocator, fun message mem => ?_, fun session => ?_⟩
    · exact (inv.sent message mem).trans forward
    · exact (inv.remote session).trans forward
  | send session =>
    refine ⟨inv.allocator, fun message mem => ?_, inv.remote⟩
    rcases mem_append.mp mem with old | new
    · exact inv.sent message old
    · rw [mem_singleton.mp new]
      exact le_rfl
  | deliver place =>
    unfold Staging.step
    dsimp only
    split
    · next session _ found =>
      have bound := inv.sent _ (mem_of_getElem? found)
      exact ⟨inv.allocator, inv.sent, receiveWatermark_le session inv.remote bound⟩
    · exact inv

theorem inv_start : Inv (start totalSize) := by
  refine ⟨StagingAllocator.inv_start totalSize, fun message mem => absurd mem not_mem_nil, fun session => ?_⟩
  exact le_rfl

theorem inv_run (actions : List Action) : Inv (actions.foldl step (start totalSize)) := by
  induction actions using reverseRecOn with
  | nil => exact inv_start totalSize
  | append_singleton actions action ih =>
    rw [foldl_append]
    exact ih.step action

structure Safe (s : Staging) : Prop where
  ready : ∀ session i a j b, s.allocator.Live i a → s.allocator.Live j b → j < i →
    isWatermarkReady s.remoteWatermarks session a.round a.end_ = true → Disjoint a.bytes b.bytes
  sameRound : ∀ i a j b, s.allocator.Live i a → s.allocator.Live j b → i ≠ j → a.round = b.round → Disjoint a.bytes b.bytes

theorem Inv.ready_disjoint {s : Staging} (inv : s.Inv) {session : String} {i j : Nat} (liveA : s.allocator.Live i a)
    (liveB : s.allocator.Live j b) (older : j < i) (ready : isWatermarkReady s.remoteWatermarks session a.round a.end_ = true) :
    Disjoint a.bytes b.bytes := by
  have order : b.round ≤ a.round ∧ (b.round = a.round → Disjoint b.bytes a.bytes) := by
    have precedes := inv.allocator.apart j b i a liveB liveA older
    refine ⟨?_, precedes.disjoint⟩
    rcases Prod.Lex.toLex_le_toLex.mp precedes with less | ⟨same, _⟩
    · exact less.le
    · exact same.le
  by_cases same : b.round = a.round
  · exact (order.2 same).symm
  · -- the older region is of an earlier round, at or after the watermark that the prefill side knows
    have less : b.round < a.round := lt_of_le_of_ne order.1 same
    have known := Prod.Lex.toLex_le_toLex.mp ((inv.remote session).trans (inv.allocator.behind j b liveB))
    unfold isWatermarkReady at ready
    rw [if_neg (Nat.ne_of_gt (Nat.zero_lt_of_lt less))] at ready
    generalize (s.remoteWatermarks.lookup session).getD (0, 0) = remote at known ready
    rcases of_decide_eq_true ready with _ | ⟨_, fits⟩
    · omega
    · rcases known with lower | ⟨_, le⟩
      · omega
      · exact disjoint_of_end_le (fits.trans le)

theorem run_safe (totalSize : Nat) (actions : List Action) : Safe (actions.foldl step (start totalSize)) := by
  have inv := inv_run totalSize actions
  refine ⟨fun session i a j b liveA liveB older ready => inv.ready_disjoint liveA liveB older ready, fun i a j b liveA liveB different same => ?_⟩
  rcases Nat.lt_or_gt_of_ne different with less | greater
  · exact (inv.allocator.apart i a j b liveA liveB less).disjoint same
  · exact ((inv.allocator.apart j b i a liveB liveA greater).disjoint same.symm).symm

-- The second region waits until the first is freed and the watermark has come through.
example : let s := [Action.assign 6, .assign 6].foldl step (start 10)
    let s' := [Action.free 0, .send "p", .deliver 0].foldl step s
    isWatermarkReady s.remoteWatermarks "p" 1 6 = false ∧ isWatermarkReady s'.remoteWatermarks "p" 1 6 = true := by
  decide +kernel

end Staging

end TriaxialKV.Disagg
