import Mathlib.Data.Nat.ModEq

/-!
# Future token ids

The places of an allocation start behind a counter that wraps at the limit and may run past it.
-/

namespace TriaxialKV
open List

structure FutureIndices where
  indices : List Nat
  start : Nat
  stop : Nat

structure FutureMap where
  futureCt : Nat
  futureLimit : Nat
  futureBufferLen : Nat
  tokenIdsBuf : Nat → Int

namespace FutureMap

/-- Without chunked prefill the chunk size is 0. -/
def create (maxRunningRequests chunkedPrefillSize contextLen : Nat) (empty : Nat → Int) : FutureMap :=
  let maxNumChunks := if chunkedPrefillSize ≠ 0 then (contextLen + chunkedPrefillSize - 1) / chunkedPrefillSize else 0
  let futureLimit := maxRunningRequests * (3 + maxNumChunks)
  ⟨0, futureLimit, futureLimit + 2 * maxRunningRequests, empty⟩

def allocFutureIndices (m : FutureMap) (bs : Nat) : FutureIndices × FutureMap :=
  let start := m.futureCt + 1
  (⟨range' start bs, start, start + bs⟩, { m with futureCt := (m.futureCt + bs) % m.futureLimit })

def storeToMap (m : FutureMap) (f : FutureIndices) (nextTokenIds : List Int) : FutureMap :=
  { m with tokenIdsBuf := fun i => if f.start ≤ i ∧ i < f.stop then nextTokenIds[i - f.start]! else m.tokenIdsBuf i }

def resolveFuture (m : FutureMap) (inputIds : List Int) : List Int :=
  inputIds.map (fun id => if id < 0 then m.tokenIdsBuf (max (-id) 0).toNat else id)

def storeAll (m : FutureMap) (stores : List (FutureIndices × List Int)) : FutureMap := stores.foldl (fun m store => m.storeToMap store.1 store.2) m

/-- The allocation of `bs` places after those of the sizes `before`. -/
def allocation (m : FutureMap) (before : List Nat) (bs : Nat) : FutureIndices :=
  ((before.foldl (fun m bs => (m.allocFutureIndices bs).2) m).allocFutureIndices bs).1

def Allocated (m : FutureMap) (f : FutureIndices) : Prop := ∃ before bs, f = m.allocation before bs

/-- Two allocations that, with those between them, take at most as many places as the limit. -/
def Near (m : FutureMap) (f g : FutureIndices) : Prop :=
  ∃ before bs between bs', bs + between.sum + bs' ≤ m.futureLimit ∧
    (f = m.allocation before bs ∧ g = m.allocation (before ++ bs :: between) bs' ∨ g = m.allocation before bs ∧
      f = m.allocation (before ++ bs :: between) bs')

variable {m : FutureMap} {before between : List Nat} {bs bs' i : Nat} {f g : FutureIndices}

theorem futureCt_after (small : m.futureCt < m.futureLimit) :
    before.foldl (fun m bs => (m.allocFutureIndices bs).2) m = { m with futureCt := (m.futureCt + before.sum) % m.futureLimit } := by
  induction before generalizing m with
  | nil => rw [foldl_nil, sum_nil, Nat.add_zero, Nat.mod_eq_of_lt small]
  | cons bs before ih =>
    rw [foldl_cons, ih (Nat.mod_lt _ (Nat.zero_lt_of_lt small)), sum_cons]
    simp only [allocFutureIndices, Nat.mod_add_mod, Nat.add_assoc]

theorem mem_indices (allocated : m.Allocated f) : i ∈ f.indices ↔ f.start ≤ i ∧ i < f.stop := by
  obtain ⟨before, bs, rfl⟩ := allocated
  exact mem_range'_1

theorem Near.allocated (near : m.Near f g) : m.Allocated g := by
  obtain ⟨before, bs, between, bs', _, ⟨_, there⟩ | ⟨there, _⟩⟩ := near
  · exact ⟨before ++ bs :: between, bs', there⟩
  · exact ⟨before, bs, there⟩

theorem tokenIdsBuf_storeAll (stores : List (FutureIndices × List Int)) (apart : ∀ store ∈ stores, ¬ (store.1.start ≤ i ∧ i < store.1.stop)) :
    (m.storeAll stores).tokenIdsBuf i = m.tokenIdsBuf i := by
  induction stores generalizing m with
  | nil => rfl
  | cons store stores ih =>
    obtain ⟨here, later⟩ := forall_mem_cons.mp apart
    exact (ih later).trans (if_neg here)

section
variable (new : m.futureCt = 0) (pos : 0 < m.futureLimit)
include new pos

theorem allocation_eq : m.allocation before bs =
    ⟨range' (before.sum % m.futureLimit + 1) bs, before.sum % m.futureLimit + 1, before.sum % m.futureLimit + 1 + bs⟩ := by
  unfold allocation
  rw [futureCt_after (by omega), new, Nat.zero_add]
  rfl

theorem allocation_disjoint (window : bs + between.sum + bs' ≤ m.futureLimit) :
    (m.allocation before bs).indices.Disjoint (m.allocation (before ++ bs :: between) bs').indices := by
  rw [allocation_eq new pos, allocation_eq new pos]
  intro i here there
  -- the absolute places differ by less than the limit
  obtain ⟨low, high⟩ := mem_range'_1.mp here
  obtain ⟨low', high'⟩ := mem_range'_1.mp there
  rw [sum_append, sum_cons] at low' high'
  have first := Nat.mod_add_div before.sum m.futureLimit
  have second := Nat.mod_add_div (before.sum + (bs + between.sum)) m.futureLimit
  rcases Nat.lt_or_ge (before.sum / m.futureLimit) ((before.sum + (bs + between.sum)) / m.futureLimit) with more | same
  · have round := Nat.mul_le_mul_left m.futureLimit (Nat.succ_le_of_lt more)
    rw [Nat.mul_succ] at round
    omega
  · have round := Nat.mul_le_mul_left m.futureLimit same
    omega

theorem Near.disjoint (near : m.Near f g) : f.indices.Disjoint g.indices := by
  obtain ⟨before, bs, between, bs', window, ⟨rfl, rfl⟩ | ⟨rfl, rfl⟩⟩ := near
  · exact allocation_disjoint new pos window
  · exact fun i there here => allocation_disjoint new pos window here there

theorem resolved_stored {old : FutureMap} {tokens : List Int} {newer : List (FutureIndices × List Int)}
    (allocated : m.Allocated f) (near : ∀ store ∈ newer, m.Near f store.1) (mem : i ∈ f.indices) :
    ((old.storeToMap f tokens).storeAll newer).tokenIdsBuf i = tokens[i - f.start]! := by
  rw [tokenIdsBuf_storeAll newer]
  · exact if_pos ((mem_indices allocated).mp mem)
  · intro store listed inside
    exact (near store listed).disjoint new pos mem ((mem_indices (near store listed).allocated).mpr inside)

end

/-- Allocations keep to the buffer, near ones are disjoint, and an id is resolved to its token if only near allocations were stored since. -/
theorem future_slots (maxRunningRequests chunkedPrefillSize contextLen : Nat) (empty : Nat → Int) (some_ : 1 ≤ maxRunningRequests) :
    let m := create maxRunningRequests chunkedPrefillSize contextLen empty
    (∀ before bs, bs ≤ 2 * maxRunningRequests → ∀ i ∈ (m.allocation before bs).indices, 1 ≤ i ∧ i < m.futureBufferLen) ∧
    (∀ f g, m.Near f g → f.indices.Disjoint g.indices) ∧
    ∀ (now : FutureMap) (inputIds : List Int) (k : Nat) (id : Int), inputIds[k]? = some id →
      (0 ≤ id → (now.resolveFuture inputIds)[k]? = some id) ∧
      ∀ (old : FutureMap) f tokens newer, m.Allocated f → now = (old.storeToMap f tokens).storeAll newer → (∀ store ∈ newer, m.Near f store.1) →
        ∀ i ∈ f.indices, id = -(i : Int) → (now.resolveFuture inputIds)[k]? = some tokens[i - f.start]! := by
  intro m
  have pos : 0 < m.futureLimit := Nat.mul_pos some_ (by omega)
  refine ⟨fun before bs small i mem => ?_, fun f g near => near.disjoint rfl pos, ?_⟩
  · rw [allocation_eq rfl pos] at mem
    have low := Nat.mod_lt before.sum pos
    have size : m.futureBufferLen = m.futureLimit + 2 * maxRunningRequests := rfl
    obtain ⟨first, last⟩ := mem_range'_1.mp mem
    omega
  · intro now inputIds k id here
    unfold resolveFuture
    rw [getElem?_map, here, Option.map_some]
    refine ⟨fun nonneg => by rw [if_neg (by omega)], ?_⟩
    rintro old f tokens newer allocated rfl near i mem rfl
    have start : 0 < i := by
      have := ((mem_indices allocated).mp mem).1
      obtain ⟨before, bs, rfl⟩ := allocated
      exact Nat.lt_of_lt_of_le (Nat.succ_pos _) this
    rw [if_pos (by omega), show (max (-(-(i : Int))) 0).toNat = i by omega, resolved_stored rfl pos allocated near mem]

theorem future_slots_wrapped : let m := create 1 0 0 (fun _ => 0)
    1 ≤ 1 ∧ (m.allocation [2] 2).indices = [3, 4] ∧ (m.allocation [2, 2] 1).indices = [2] ∧
      (m.allocation [2] 2).indices.Disjoint (m.allocation [2, 2] 1).indices :=
  ⟨by decide, rfl, rfl, (future_slots 1 0 0 _ (by decide)).2.1 _ _ ⟨[2], 2, [], 1, by decide, .inl ⟨rfl, rfl⟩⟩⟩

end FutureMap

end TriaxialKV
