import Mathlib.Data.List.Rotate
import Mathlib.Data.List.Sort
import TriaxialKV.Gateway.WorkerRegistry

/-!
# Consistent hashing

The ring of some workers is the ring of all of them without the others.
-/

namespace TriaxialKV.Gateway.Registry
open List

/-- The walk over the places `is` behind `start`; `checkedUrls` are not asked again. -/
def walkRing (entries : List (Nat × String)) (start : Nat) (isHealthy : String → Bool) : List Nat → List String → Option String
  | [], _ => none
  | i :: is, checkedUrls =>
    let url := entries[(start + i) % entries.length]!.2
    if url ∈ checkedUrls then walkRing entries start isHealthy is checkedUrls
    else if isHealthy url then some url
    else walkRing entries start isHealthy is (url :: checkedUrls)

/-- `keyPos` is the position of the key; the search for `start` is `partition_point`. -/
def findHealthyUrl (entries : List (Nat × String)) (keyPos : Nat) (isHealthy : String → Bool) : Option String :=
  if entries = [] then none
  else walkRing entries (entries.takeWhile (·.1 < keyPos)).length isHealthy (range entries.length) []

section
variable {entries : List (Nat × String)} {isHealthy : String → Bool} {keyPos start : Nat}

theorem walkRing_eq_find? (is : List Nat) {checkedUrls : List String} (unhealthy : ∀ url ∈ checkedUrls, isHealthy url = false) :
    walkRing entries start isHealthy is checkedUrls = (is.map (fun i => entries[(start + i) % entries.length]!.2)).find? isHealthy := by
  induction is generalizing checkedUrls with
  | nil => rfl
  | cons i is ih =>
    unfold walkRing
    dsimp only
    rw [map_cons]
    split
    · next checked => rw [find?_cons_of_neg (by rw [unhealthy _ checked]; exact Bool.false_ne_true), ih unhealthy]
    · split
      · next healthy => rw [find?_cons_of_pos healthy]
      · next ill =>
        rw [find?_cons_of_neg ill]
        exact ih (forall_mem_cons.mpr ⟨Bool.eq_false_iff.mpr ill, unhealthy⟩)

theorem map_walk : (range entries.length).map (fun i => entries[(start + i) % entries.length]!) = entries.rotate start := by
  refine ext_getElem (by simp) (fun i lt lt' => ?_)
  rw [length_rotate] at lt'
  rw [getElem_map, getElem_range, getElem_rotate, getElem!_pos entries _ (Nat.mod_lt _ (by omega))]
  simp only [Nat.add_comm]

/-- The entries from the position of the key on, and then those before it. -/
def clockwise (keyPos : Nat) (entries : List (Nat × String)) : List (Nat × String) :=
  entries.filter (¬ ·.1 < keyPos) ++ entries.filter (·.1 < keyPos)

theorem rotate_eq_clockwise (sorted : entries.Pairwise (·.1 ≤ ·.1)) :
    entries.rotate (entries.takeWhile (·.1 < keyPos)).length = clockwise keyPos entries := by
  have parts : entries.takeWhile (·.1 < keyPos) = entries.filter (·.1 < keyPos) ∧
      entries.dropWhile (·.1 < keyPos) = entries.filter (¬ ·.1 < keyPos) := by
    induction entries with
    | nil => exact ⟨rfl, rfl⟩
    | cons entry entries ih =>
      obtain ⟨le, sorted⟩ := pairwise_cons.mp sorted
      by_cases less : entry.1 < keyPos
      · simpa [less] using ih sorted
      · have beyond : ∀ later ∈ entries, ¬ later.1 < keyPos := fun later mem => by have := le later mem; omega
        rw [takeWhile_cons_of_neg (by simpa using less), dropWhile_cons_of_neg (by simpa using less), filter_cons_of_neg (by simpa using less),
          filter_cons_of_pos (by simpa using less), filter_eq_nil_iff.mpr (by simpa using beyond), filter_eq_self.mpr (by simpa using beyond)]
        exact ⟨rfl, rfl⟩
  have whole := takeWhile_append_dropWhile (p := fun entry : Nat × String => decide (entry.1 < keyPos)) (l := entries)
  rw [rotate_eq_drop_append_take (IsPrefix.length_le <| takeWhile_prefix _), clockwise, ← parts.1, ← parts.2]
  generalize entries.takeWhile (·.1 < keyPos) = front, entries.dropWhile (·.1 < keyPos) = back at whole ⊢
  rw [← whole, drop_left, take_left]

theorem findHealthyUrl_eq (sorted : entries.Pairwise (·.1 ≤ ·.1)) :
    findHealthyUrl entries keyPos isHealthy = ((clockwise keyPos entries).map (·.2)).find? isHealthy := by
  rw [← rotate_eq_clockwise sorted, ← map_walk, map_map]
  unfold findHealthyUrl
  split
  · next none =>
    rw [none]
    rfl
  · exact walkRing_eq_find? _ nofun

end

variable {hash : String → Nat → Nat} {workers : List Worker}

theorem sorted_hashRing : (hashRing hash workers).Pairwise (·.1 ≤ ·.1) := by
  have sorted := @pairwise_mergeSort _ (fun a b : Nat × String => decide (a.1 ≤ b.1)) (fun a b c => by simpa using Nat.le_trans)
    (fun a b => by simpa using Nat.le_total a.1 b.1) (workers.flatMap (fun w => (range 150).map (fun vnode => (hash w.url vnode, w.url))))
  exact sorted.imp of_decide_eq_true

theorem hashRing_filter (distinct : ((hashRing hash workers).map (·.1)).Nodup) (keep : String → Bool) :
    hashRing hash (workers.filter (keep ·.url)) = (hashRing hash workers).filter (keep ·.2) := by
  have perm : (hashRing hash (workers.filter (keep ·.url))).Perm ((hashRing hash workers).filter (keep ·.2)) := by
    refine (mergeSort_perm _ _).trans (.trans (.of_eq ?_) ((mergeSort_perm _ _).filter _).symm)
    clear distinct
    induction workers with
    | nil => rfl
    | cons w workers ih => by_cases kept : keep w.url = true <;> simp [kept, filter_append, filter_map, Function.comp_def, ih]
  refine perm.eq_of_pairwise (fun a b here there le ge => ?_) sorted_hashRing (sorted_hashRing.filter _)
  have here := (mem_filter.mp (perm.mem_iff.mp here)).1
  exact inj_on_of_nodup_map distinct here (mem_filter.mp there).1 (Nat.le_antisymm le ge)

/-- The walk on the ring of the kept workers skips what the walk on the whole ring refuses. -/
theorem findHealthyUrl_filter (distinct : ((hashRing hash workers).map (·.1)).Nodup) (keep isHealthy : String → Bool) (keyPos : Nat) :
    findHealthyUrl (hashRing hash (workers.filter (keep ·.url))) keyPos isHealthy =
      findHealthyUrl (hashRing hash workers) keyPos (fun url => keep url && isHealthy url) := by
  have rings : (clockwise keyPos ((hashRing hash workers).filter (keep ·.2))).map (·.2) =
      ((clockwise keyPos (hashRing hash workers)).map (·.2)).filter keep := by
    simp [clockwise, filter_map, Function.comp_def, Bool.and_comm]
  rw [findHealthyUrl_eq sorted_hashRing, findHealthyUrl_eq sorted_hashRing, hashRing_filter distinct, rings, find?_filter]
  simp only [Bool.decide_and, Bool.decide_eq_true]

end TriaxialKV.Gateway.Registry
