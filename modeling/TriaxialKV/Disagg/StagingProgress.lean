import TriaxialKV.Disagg.Staging
import TriaxialKV.Lib.Runs

/-!
# Progress of the staging ring

The watermark of an empty ring is where its head stood when the last region was freed.
-/

namespace TriaxialKV.Disagg.StagingAllocator

inductive Call where
  | assign (requiredBytes : Nat)
  | free (allocId : Nat)

def call (s : StagingAllocator) : Call → StagingAllocator
  | .assign requiredBytes => (s.assign requiredBytes).1
  | .free allocId => s.free allocId

def create (totalSize : Nat) : StagingAllocator := { totalSize := totalSize }

def Oldest (s : StagingAllocator) (id : Nat) (a : Allocation) : Prop := s.Live id a ∧ ∀ j b, s.Live j b → id ≤ j

def writable (s : StagingAllocator) (a : Allocation) : Bool :=
  isWatermarkReady (receiveWatermark ∅ "session" s.getWatermark) "session" a.round a.end_

def Progresses (s : StagingAllocator) : Prop := ∀ id a, s.Oldest id a → s.writable a = true

def Idle (s : StagingAllocator) : Prop := s.allocations.keys = []

/-- A region for an idle ring fits behind the head, or before it. -/
def Fitting (s : StagingAllocator) : Call → Prop
  | .assign requiredBytes => requiredBytes ≤ s.totalSize → s.Idle → requiredBytes ≤ s.totalSize - s.head ∨ requiredBytes ≤ s.head
  | .free _ => True

section
variable {s : StagingAllocator} {a : Allocation}

theorem writable_iff : s.writable a = true ↔ a.round ≤ s.watermarkRound ∨ a.round = s.watermarkRound + 1 ∧ a.end_ ≤ s.watermarkTail := by
  have known : ((receiveWatermark ∅ "session" s.getWatermark).lookup "session").getD (0, 0) = (s.watermarkRound, s.watermarkTail) := by
    unfold receiveWatermark
    dsimp only
    split
    · rw [AList.lookup_insert]
      rfl
    · next least =>
      -- Nothing is below the watermark that the writer starts with.
      have zero : s.getWatermark = (0, 0) := by
        have le := Prod.Lex.toLex_le_toLex.mp (not_lt.mp least)
        rw [AList.lookup_empty] at le
        unfold getWatermark at le ⊢
        rw [Prod.mk.injEq]
        dsimp only [Option.getD_none] at le
        omega
      rw [AList.lookup_empty]
      exact zero.symm
  unfold writable isWatermarkReady
  rw [known]
  split
  · next zero =>
    rw [zero]
    exact ⟨fun _ => .inl (Nat.zero_le _), fun _ => rfl⟩
  · next _ =>
    rw [decide_eq_true_eq]
    constructor
    · rintro (past | ⟨previous, fits⟩)
      · exact .inl (by omega)
      · exact .inr ⟨by omega, fits⟩
    · rintro (past | ⟨previous, fits⟩)
      · exact .inl (by omega)
      · exact .inr ⟨by omega, fits⟩

theorem idle_iff : s.Idle ↔ ∀ id a, ¬ s.Live id a := by
  constructor
  · intro idle id a here
    have key : id ∈ s.allocations.keys := AList.mem_keys.mp (AList.lookup_isSome.mp (Option.isSome_of_eq_some here))
    rw [idle] at key
    cases key
  · intro none
    refine List.eq_nil_iff_forall_not_mem.mpr (fun id key => ?_)
    obtain ⟨a, here⟩ := Option.isSome_iff_exists.mp (AList.lookup_isSome.mpr (AList.mem_keys.mpr key))
    exact none id a here

structure Marked (s : StagingAllocator) : Prop where
  inv : s.Inv
  idle : s.Idle → s.watermarkRound = s.round ∧ s.watermarkTail = s.head

theorem live_insert {allocations : AList (fun _ : Nat => Allocation)} {new : Nat} {added : Allocation} {id : Nat}
    (here : (allocations.insert new added).lookup id = some a) : id = new ∧ a = added ∨ allocations.lookup id = some a := by
  by_cases same : id = new
  · rw [same, AList.lookup_insert] at here
    exact .inl ⟨same, (Option.some.inj here).symm⟩
  · rw [AList.lookup_insert_ne same] at here
    exact .inr here

section
variable (marked : s.Marked)
include marked

theorem Marked.assign_idle (idle : s.Idle) {requiredBytes : Nat} (small : requiredBytes ≤ s.totalSize) :
    (s.assign requiredBytes).1.Progresses ↔ requiredBytes ≤ s.totalSize - s.head ∨ requiredBytes ≤ s.head := by
  obtain ⟨round, _⟩ := marked.idle idle
  have none := idle_iff.mp idle
  -- The new region is the only one.
  have only {added : Allocation} {head : Nat} {s' : StagingAllocator}
      (after : s' = { s with
        head := head
        round := added.round
        nextAllocId := s.nextAllocId + 1
        allocations := s.allocations.insert s.nextAllocId added
        allocOrder := s.allocOrder ++ [s.nextAllocId] }) : s'.Progresses ↔ s'.writable added = true := by
    subst after
    constructor
    · refine fun progresses => progresses s.nextAllocId added ⟨AList.lookup_insert _, fun j b here => ?_⟩
      rcases live_insert here with ⟨rfl, _⟩ | old
      · exact le_refl _
      · exact absurd old (none j b)
    · rintro writable id b ⟨here, _⟩
      rcases live_insert here with ⟨_, rfl⟩ | old
      · exact writable
      · exact absurd old (none id b)
  unfold assign
  rw [if_neg (Nat.not_lt.mpr small)]
  dsimp only
  split
  · next fits =>
    have new := @only ⟨s.head, requiredBytes, s.round⟩ (s.head + requiredBytes) _ rfl
    refine new.trans ?_
    rw [writable_iff]
    exact ⟨fun _ => .inl fits, fun _ => .inl round.ge⟩
  · next _ =>
    have new := @only ⟨0, requiredBytes, s.round + 1⟩ requiredBytes _ rfl
    refine new.trans ?_
    rw [writable_iff]
    change s.round + 1 ≤ s.watermarkRound ∨ s.round + 1 = s.watermarkRound + 1 ∧ 0 + requiredBytes ≤ s.watermarkTail ↔ _
    omega

theorem Marked.assign_busy (busy : ¬ s.Idle) (progresses : s.Progresses) (requiredBytes : Nat) : (s.assign requiredBytes).1.Progresses := by
  rcases assign_cases s requiredBytes with same | ⟨added, _, after⟩
  · rw [same]
    exact progresses
  · rw [after]
    obtain ⟨j, b, old⟩ : ∃ j b, s.Live j b := by
      by_contra none
      exact busy (idle_iff.mpr (fun j b here => none ⟨j, b, here⟩))
    have known := marked.inv.known
    have still {i : Nat} {c : Allocation} (here : s.Live i c) : (s.allocations.insert s.nextAllocId added).lookup i = some c := by
      rw [AList.lookup_insert_ne (known i c here).1.ne]
      exact here
    rintro id a ⟨here, first⟩
    rcases live_insert here with ⟨rfl, _⟩ | here'
    · have := first j b (still old)
      have := (known j b old).1
      omega
    · exact progresses id a ⟨here', fun i c live => first i c (still live)⟩

theorem Marked.free (allocId : Nat) : (s.free allocId).Marked ∧ (s.Progresses → (s.free allocId).Progresses) := by
  have inv := (marked.inv.free allocId).1
  rcases free_cases marked.inv allocId with same | ⟨_, _, after, moved⟩
  · rw [same]
    exact ⟨marked, fun progresses => progresses⟩
  · rw [after] at inv ⊢
    rcases moved with ⟨none, top⟩ | ⟨oldest, a, here, place, first⟩
    · obtain ⟨same, same'⟩ := Prod.mk.inj (toLex.injective top)
      exact ⟨⟨inv, fun _ => ⟨same, same'⟩⟩, fun _ id a oldest => absurd oldest.1 (none id a)⟩
    · obtain ⟨same, _⟩ := Prod.mk.inj (toLex.injective place)
      refine ⟨⟨inv, fun idle => absurd here (idle_iff.mp idle oldest a)⟩, fun _ id b live => ?_⟩
      have eq : id = oldest := le_antisymm (live.2 oldest a here) (first id b live.1)
      obtain rfl := Option.some.inj (here.symm.trans (eq ▸ live.1))
      rw [writable_iff]
      exact .inl same.ge

theorem Marked.call (c : Call) : (s.call c).Marked := by
  cases c with
  | free allocId => exact (marked.free allocId).1
  | assign requiredBytes =>
    refine ⟨(marked.inv.assign requiredBytes).1, fun idle => ?_⟩
    rcases assign_cases s requiredBytes with same | ⟨added, _, after⟩
    · have same' : s.call (.assign requiredBytes) = s := same
      rw [same'] at idle ⊢
      exact marked.idle idle
    · have here : (s.call (.assign requiredBytes)).Live s.nextAllocId added := by
        change (s.assign requiredBytes).1.Live s.nextAllocId added
        rw [after]
        exact AList.lookup_insert _
      exact absurd here (idle_iff.mp idle s.nextAllocId added)

theorem Marked.progresses_call (progresses : s.Progresses) (c : Call) : (s.call c).Progresses ↔ s.Fitting c := by
  cases c with
  | free allocId => exact ⟨fun _ => trivial, fun _ => (marked.free allocId).2 progresses⟩
  | assign requiredBytes =>
    change (s.assign requiredBytes).1.Progresses ↔ (requiredBytes ≤ s.totalSize → s.Idle → _)
    by_cases small : requiredBytes ≤ s.totalSize
    · by_cases idle : s.Idle
      · rw [marked.assign_idle idle small]
        exact ⟨fun fits _ _ => fits, fun fits => fits small idle⟩
      · exact ⟨fun _ _ idle' => absurd idle' idle, fun _ => marked.assign_busy idle progresses requiredBytes⟩
    · have same : (s.assign requiredBytes).1 = s := by
        unfold assign
        rw [if_pos (Nat.lt_of_not_le small)]
      rw [same]
      exact ⟨fun _ small' => absurd small' small, fun _ => progresses⟩

end

end

theorem create_marked (totalSize : Nat) : (create totalSize).Marked := ⟨inv_start totalSize, fun _ => ⟨rfl, rfl⟩⟩

theorem create_progresses (totalSize : Nat) : (create totalSize).Progresses := by
  rintro _ a ⟨here, _⟩
  cases here

/-- The ring goes on after every call exactly if every region assigned to an idle ring fits behind its head or before it. -/
theorem progresses_iff (totalSize : Nat) (calls : List Call) :
    (∀ k, ((calls.take k).foldl call (create totalSize)).Progresses) ↔ Runs.Guarded call Fitting (create totalSize) calls := by
  have general (s : StagingAllocator) (marked : s.Marked) (progresses : s.Progresses) :
      (∀ k, ((calls.take k).foldl call s).Progresses) ↔ Runs.Guarded call Fitting s calls := by
    induction calls generalizing s with
    | nil => exact ⟨fun _ => trivial, fun _ k => by rw [List.take_nil]; exact progresses⟩
    | cons c calls ih =>
      constructor
      · intro all
        have first : (s.call c).Progresses := all 1
        exact ⟨(marked.progresses_call progresses c).mp first, (ih _ (marked.call c) first).mp (fun k => all (k + 1))⟩
      · rintro ⟨fits, rest⟩ k
        have first := (marked.progresses_call progresses c).mpr fits
        cases k with
        | zero => exact progresses
        | succ k => exact (ih _ (marked.call c) first).mpr rest k
  exact general _ (create_marked totalSize) (create_progresses totalSize)

/-- In a ring of ten bytes a region of eight after a freed one of four waits for ever. -/
theorem ring_stuck : ∃ a, ([Call.assign 4, .free 0, .assign 8].foldl call (create 10)).Oldest 1 a ∧
      ([Call.assign 4, .free 0, .assign 8].foldl call (create 10)).writable a = false := by
  refine ⟨⟨0, 8, 1⟩, ⟨by rfl, fun j b here => ?_⟩, by decide +kernel⟩
  rcases @live_insert _ _ 1 _ _ here with ⟨rfl, _⟩ | old
  · exact le_refl _
  · cases old

end TriaxialKV.Disagg.StagingAllocator
