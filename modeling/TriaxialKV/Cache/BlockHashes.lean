import TriaxialKV.Cache.RadixTree
import TriaxialKV.Lib.Rows
import Mathlib.Data.Finset.Basic
import Mathlib.Logic.Equiv.List

/-! # Block hashes -/

namespace TriaxialKV
open List

section
variable {pageSize : Nat} {tokens front back : List Nat}

section
variable (pos : 0 < pageSize)
include pos

theorem keyPages_length (whole : pageSize ∣ tokens.length) : (keyPages tokens pageSize).length = tokens.length / pageSize := by
  obtain ⟨_, size⟩ := whole
  rw [keyPages, length_map, length_range, size, Nat.add_sub_assoc pos, Nat.mul_add_div pos,
    Nat.div_eq_of_lt (by omega), Nat.mul_div_cancel_left _ pos, add_zero]

theorem keyPages_append (whole : pageSize ∣ front.length) :
    keyPages (front ++ back) pageSize = keyPages front pageSize ++ keyPages back pageSize := by
  have first := keyPages_length pos whole
  obtain ⟨pages, size⟩ := whole
  have count : ((front ++ back).length + pageSize - 1) / pageSize = pages + (back.length + pageSize - 1) / pageSize := by
    rw [length_append, size, add_assoc, Nat.add_sub_assoc (by omega), Nat.mul_add_div pos]
  have count' : (front.length + pageSize - 1) / pageSize = pages := by
    rwa [keyPages, length_map, length_range, size, Nat.mul_div_cancel_left _ pos, ← size] at first
  unfold keyPages
  rw [count, count', range_add, map_append, map_map]
  congr 1
  · refine map_congr_left (fun i lt => ?_)
    have room : i * pageSize + pageSize ≤ front.length := by
      rw [size, ← Nat.succ_mul, mul_comm pageSize]
      exact Nat.mul_le_mul_right _ (mem_range.mp lt)
    rw [drop_append_of_le_length (by omega), take_append_of_le_length (by rw [length_drop]; omega)]
  · refine map_congr_left (fun i _ => ?_)
    rw [Function.comp_apply, add_mul, mul_comm pages, ← size, drop_append, Nat.add_sub_cancel_left, drop_eq_nil_of_le (by omega), nil_append]

theorem keyPages_flatten (tokens : List Nat) : (keyPages tokens pageSize).flatten = tokens := by
  let total := tokens.length + pageSize - 1
  have cut := Rows.flatMap_take_drop (fun _ => pageSize) tokens (total / pageSize)
  simp only [Rows.start_const] at cut
  have enough : tokens.length ≤ total / pageSize * pageSize := by
    have := Nat.div_add_mod' total pageSize
    have := Nat.mod_lt total pos
    omega
  rw [take_of_length_le enough] at cut
  exact cut

theorem keyPages_eq_nil : keyPages tokens pageSize = [] ↔ tokens = [] := by
  constructor
  · intro none
    rw [← keyPages_flatten pos tokens, none]
    rfl
  · rintro rfl
    rw [keyPages, length_nil, Nat.div_eq_of_lt (by omega)]
    rfl

theorem keyPages_page (one : tokens.length = pageSize) : keyPages tokens pageSize = [tokens] := by
  rw [keyPages, one, Nat.add_sub_assoc pos, Nat.add_div_left _ pos, Nat.div_eq_of_lt (by omega)]
  simp [one.symm]

theorem keyPages_cut {len : Nat} (pages : pageSize ∣ len) (room : len + pageSize ≤ tokens.length) : keyPages tokens pageSize =
      keyPages (tokens.take len) pageSize ++ (tokens.drop len).take pageSize :: keyPages (tokens.drop (len + pageSize)) pageSize := by
  have size : ((tokens.drop len).take pageSize).length = pageSize := by
    rw [length_take, length_drop]
    omega
  conv_lhs => rw [← take_append_drop len tokens]
  rw [keyPages_append pos (by rwa [length_take, min_eq_left (by omega)])]
  conv_lhs => rw [← take_append_drop pageSize (tokens.drop len), keyPages_append pos (by rw [size]), keyPages_page pos size]
  rw [drop_drop, singleton_append]

theorem keyPages_split (whole : pageSize ∣ tokens.length) {before after : List (List Nat)} {page : List Nat}
    (split : keyPages tokens pageSize = before ++ page :: after) :
    ∃ len, pageSize ∣ len ∧ len + pageSize ≤ tokens.length ∧ before = keyPages (tokens.take len) pageSize ∧
      page = (tokens.drop len).take pageSize := by
  have count := keyPages_length pos whole
  rw [split, length_append, length_cons] at count
  have room : (before.length + 1) * pageSize ≤ tokens.length := (Nat.le_div_iff_mul_le pos).mp (by omega)
  rw [Nat.succ_mul] at room
  have pages : pageSize ∣ before.length * pageSize := Nat.dvd_mul_left _ _
  have front : (keyPages (tokens.take (before.length * pageSize)) pageSize).length = before.length := by
    have size : (tokens.take (before.length * pageSize)).length = before.length * pageSize := by
      rw [length_take]
      omega
    rw [keyPages_length pos (by rw [size]; exact pages), size, Nat.mul_div_cancel _ pos]
  rw [keyPages_cut pos pages room] at split
  obtain ⟨same, rest⟩ := append_inj split front
  exact ⟨before.length * pageSize, pages, room, same.symm, (List.cons.inj rest).1.symm⟩

end

end

namespace BlockHash
variable (hasher : BlockHash)

def digestFrom (prior : Option Nat) (pages : List (List Nat)) : Option Nat := (hasher.chain prior pages).getLast?.or prior

def digest (pageSize : Nat) (tokens : List Nat) : Option Nat := hasher.digestFrom none (keyPages tokens pageSize)

def blockHash (pageSize : Nat) (tokens : List Nat) : Option Int := (hasher.digest pageSize tokens).map hasher.hashStrToInt64

/-- No two pages share a hash unless they have the same tokens behind the same digest. -/
def Injective : Prop :=
  ∀ page page' prior prior', hasher.hashStrToInt64 (hasher.getHashStr page prior) = hasher.hashStrToInt64 (hasher.getHashStr page' prior') →
    page = page' ∧ prior = prior'

def pairing : BlockHash := ⟨fun page prior => Encodable.encode (page, prior), Int.ofNat⟩

theorem pairing_injective : pairing.Injective := by
  intro _ _ _ _ same
  exact Prod.mk.inj (Encodable.encode_injective (Int.ofNat.inj same))

section
variable {hasher} {prior : Option Nat} {page : List Nat} {pages pages' : List (List Nat)}

theorem digest_cons : hasher.digestFrom prior (page :: pages) = hasher.digestFrom (some (hasher.getHashStr page prior)) pages := by
  unfold digestFrom
  rw [chain, getLast?_cons, Option.some_or, Option.or_some]

theorem chain_length : (hasher.chain prior pages).length = pages.length := by
  induction pages generalizing prior with
  | nil => rfl
  | cons page pages ih => rw [chain, length_cons, length_cons, ih]

theorem chain_append : hasher.chain prior (pages ++ pages') = hasher.chain prior pages ++ hasher.chain (hasher.digestFrom prior pages) pages' := by
  induction pages generalizing prior with
  | nil => rfl
  | cons page pages ih => rw [cons_append, chain, chain, ih, digest_cons, cons_append]

theorem digestFrom_append : hasher.digestFrom prior (pages ++ pages') = hasher.digestFrom (hasher.digestFrom prior pages) pages' := by
  induction pages generalizing prior with
  | nil => rfl
  | cons page pages ih => rw [cons_append, digest_cons, ih, digest_cons]

theorem digest_concat : hasher.digestFrom prior (pages ++ [page]) = some (hasher.getHashStr page (hasher.digestFrom prior pages)) := by
  rw [digestFrom_append, digest_cons]
  rfl

theorem mem_chain {digest : Nat} : digest ∈ hasher.chain prior pages ↔
      ∃ before page after, pages = before ++ page :: after ∧ digest = hasher.getHashStr page (hasher.digestFrom prior before) := by
  constructor
  · intro listed
    induction pages generalizing prior with
    | nil => cases listed
    | cons page pages ih =>
      rcases mem_cons.mp listed with rfl | later
      · exact ⟨[], page, pages, rfl, rfl⟩
      · obtain ⟨before, page', after, rfl, rfl⟩ := ih later
        exact ⟨page :: before, page', after, rfl, by rw [digest_cons]⟩
  · rintro ⟨before, page, after, rfl, rfl⟩
    rw [chain_append, chain]
    exact mem_append_right _ mem_cons_self

theorem Injective.digestFrom (injective : hasher.Injective) (same : hasher.digestFrom none pages = hasher.digestFrom none pages') :
    pages = pages' := by
  induction pages using reverseRecOn generalizing pages' with
  | nil =>
    cases pages' using reverseRecOn with
    | nil => rfl
    | append_singleton => rw [digest_concat] at same; cases same
  | append_singleton pages page ih =>
    cases pages' using reverseRecOn with
    | nil => rw [digest_concat] at same; cases same
    | append_singleton pages' page' =>
      rw [digest_concat, digest_concat, Option.some.injEq] at same
      obtain ⟨rfl, before⟩ := injective _ _ _ _ (congrArg hasher.hashStrToInt64 same)
      rw [ih before]

end

section
variable {hasher} {pageSize : Nat} {tokens tokens' front : List Nat}

theorem digest_append (pos : 0 < pageSize) (whole : pageSize ∣ front.length) :
    hasher.digest pageSize (front ++ tokens) = hasher.digestFrom (hasher.digest pageSize front) (keyPages tokens pageSize) := by
  unfold digest
  rw [keyPages_append pos whole, digestFrom_append]

theorem Injective.digest (injective : hasher.Injective) (pos : 0 < pageSize) (same : hasher.digest pageSize tokens = hasher.digest pageSize tokens') :
    tokens = tokens' := by
  rw [← keyPages_flatten pos tokens, injective.digestFrom same, keyPages_flatten pos]

theorem Injective.blockHash (injective : hasher.Injective) (pos : 0 < pageSize) {hash : Int} (left : hasher.blockHash pageSize tokens = some hash)
    (right : hasher.blockHash pageSize tokens' = some hash) : tokens = tokens' := by
  have last {tokens : List Nat} (found : hasher.blockHash pageSize tokens = some hash) :
      ∃ page prior, hasher.digest pageSize tokens = some (hasher.getHashStr page prior) ∧
        hasher.hashStrToInt64 (hasher.getHashStr page prior) = hash := by
    obtain ⟨_, digest, same⟩ := Option.map_eq_some_iff.mp found
    unfold BlockHash.digest at digest ⊢
    rcases eq_nil_or_concat (keyPages tokens pageSize) with none | ⟨_, page, split⟩
    · rw [none] at digest
      cases digest
    · rw [split, concat_eq_append, digest_concat] at digest ⊢
      cases digest
      exact ⟨_, _, rfl, same⟩
  obtain ⟨page, prior, digest, rfl⟩ := last left
  obtain ⟨_, _, digest', same⟩ := last right
  obtain ⟨rfl, rfl⟩ := injective _ _ _ _ same
  exact injective.digest pos (digest.trans digest'.symm)

section
variable (pos : 0 < pageSize) (whole : pageSize ∣ front.length)
include pos whole

theorem digest_page (one : tokens.length = pageSize) :
    hasher.digest pageSize (front ++ tokens) = some (hasher.getHashStr tokens (hasher.digest pageSize front)) := by
  rw [digest_append pos whole, keyPages_page pos one, digest_cons]
  rfl

theorem digest_cut {len : Nat} (pages : pageSize ∣ len) (room : len + pageSize ≤ tokens.length) :
    hasher.digest pageSize (front ++ tokens.take (len + pageSize)) =
      some (hasher.getHashStr ((tokens.drop len).take pageSize) (hasher.digest pageSize (front ++ tokens.take len))) := by
  rw [take_add, ← append_assoc, digest_page pos]
  · rw [length_append, length_take, min_eq_left (by omega)]
    exact Nat.dvd_add whole pages
  · rw [length_take, length_drop]
    omega

theorem mem_chain_run (whole' : pageSize ∣ tokens.length) {digest : Nat} :
    digest ∈ hasher.chain (hasher.digest pageSize front) (keyPages tokens pageSize) ↔
      ∃ len, pageSize ∣ len ∧ len + pageSize ≤ tokens.length ∧ hasher.digest pageSize (front ++ tokens.take (len + pageSize)) = some digest := by
  rw [mem_chain]
  constructor
  · rintro ⟨_, _, _, split, rfl⟩
    obtain ⟨len, pages, room, rfl, rfl⟩ := keyPages_split pos whole' split
    exact ⟨len, pages, room, by rw [digest_cut pos whole pages room, digest_append pos whole]⟩
  · rintro ⟨len, pages, room, found⟩
    rw [digest_cut pos whole pages room, digest_append pos whole] at found
    exact ⟨_, _, _, keyPages_cut pos pages room, (Option.some.inj found).symm⟩

end

end

end BlockHash

namespace RadixTree
variable {hasher : BlockHash} {prior : Option Nat} {pages : List (List Nat)} {event : KvEvent}

theorem mem_storeEvents (prior : Option Nat) : event ∈ storeEvents hasher (prior.map hasher.hashStrToInt64) pages (hasher.chain prior pages) ↔
      ∃ before page after, pages = before ++ page :: after ∧
        event = .blockStored (hasher.hashStrToInt64 (hasher.getHashStr page (hasher.digestFrom prior before)))
          ((hasher.digestFrom prior before).map hasher.hashStrToInt64) page page.length := by
  induction pages generalizing prior with
  | nil => simp [storeEvents]
  | cons page pages ih =>
    have rest := ih (some (hasher.getHashStr page prior))
    rw [Option.map_some] at rest
    rw [BlockHash.chain, storeEvents, mem_cons, rest]
    constructor
    · rintro (rfl | ⟨before, page', after, rfl, rfl⟩)
      · exact ⟨[], page, pages, rfl, rfl⟩
      · exact ⟨page :: before, page', after, rfl, by rw [BlockHash.digest_cons]⟩
    · rintro ⟨before, page', after, split, rfl⟩
      cases before with
      | nil =>
        obtain ⟨rfl, rfl⟩ := List.cons.inj split
        exact .inl rfl
      | cons first before =>
        obtain ⟨rfl, rfl⟩ := List.cons.inj split
        exact .inr ⟨before, page', after, rfl, by rw [BlockHash.digest_cons]⟩

theorem mem_storeEvents_run {pageSize : Nat} {front tokens : List Nat} (pos : 0 < pageSize) (whole : pageSize ∣ front.length)
    (whole' : pageSize ∣ tokens.length) :
    event ∈ storeEvents hasher (hasher.blockHash pageSize front) (keyPages tokens pageSize)
        (hasher.chain (hasher.digest pageSize front) (keyPages tokens pageSize)) ↔
      ∃ len hash, pageSize ∣ len ∧ len + pageSize ≤ tokens.length ∧ hasher.blockHash pageSize (front ++ tokens.take (len + pageSize)) = some hash ∧
        event = .blockStored hash (hasher.blockHash pageSize (front ++ tokens.take len)) ((tokens.drop len).take pageSize) pageSize := by
  have size {len : Nat} (room : len + pageSize ≤ tokens.length) : ((tokens.drop len).take pageSize).length = pageSize := by
    rw [length_take, length_drop]
    omega
  unfold BlockHash.blockHash
  rw [mem_storeEvents]
  constructor
  · rintro ⟨_, _, _, split, rfl⟩
    obtain ⟨len, pages, room, rfl, rfl⟩ := keyPages_split pos whole' split
    rw [← BlockHash.digest_append pos whole]
    exact ⟨len, _, pages, room, by rw [BlockHash.digest_cut pos whole pages room, Option.map_some], by rw [size room]⟩
  · rintro ⟨len, hash, pages, room, found, rfl⟩
    rw [BlockHash.digest_cut pos whole pages room, Option.map_some, Option.some.injEq] at found
    refine ⟨_, _, _, keyPages_cut pos pages room, ?_⟩
    rw [← BlockHash.digest_append pos whole, found, size room]

end RadixTree

def KvEvent.apply (blocks : Finset Int) : KvEvent → Finset Int
  | .blockStored blockHash _ _ _ => insert blockHash blocks
  | .blockRemoved blockHash => blocks.erase blockHash
  | .allBlocksCleared => ∅

/-- The hashes that a reader of the events has. -/
def replay (events : List KvEvent) : Finset Int := events.foldl KvEvent.apply ∅

theorem replay_append_stored {events new : List KvEvent} (stored : ∀ event ∈ new, ∃ hash parent page size, event = .blockStored hash parent page size)
    (hash : Int) : hash ∈ replay (events ++ new) ↔ hash ∈ replay events ∨ ∃ parent page size, .blockStored hash parent page size ∈ new := by
  unfold replay
  rw [foldl_append]
  generalize events.foldl KvEvent.apply ∅ = blocks
  induction new generalizing blocks with
  | nil => simp
  | cons event new ih =>
    obtain ⟨_, parent, page, size, rfl⟩ := stored _ mem_cons_self
    rw [foldl_cons, ih (fun event later => stored event (mem_cons_of_mem _ later))]
    simp only [KvEvent.apply, Finset.mem_insert, mem_cons, KvEvent.blockStored.injEq]
    grind

theorem replay_append_removed (events : List KvEvent) (gone : List Int) (hash : Int) :
    hash ∈ replay (events ++ gone.map .blockRemoved) ↔ hash ∈ replay events ∧ hash ∉ gone := by
  unfold replay
  rw [foldl_append]
  generalize events.foldl KvEvent.apply ∅ = blocks
  induction gone generalizing blocks with
  | nil => simp
  | cons hash' gone ih =>
    rw [map_cons, foldl_cons, ih]
    simp only [KvEvent.apply, Finset.mem_erase, mem_cons]
    grind

end TriaxialKV
