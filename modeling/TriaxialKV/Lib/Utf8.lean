import Mathlib.Data.List.Basic
import Mathlib.Data.List.TakeWhile
import Mathlib.Tactic.Common

/-! # Texts and their bytes -/

namespace TriaxialKV
open List

section
variable {α : Type} [DecidableEq α]

def commonLen : List α → List α → Nat
  | a :: as, b :: bs => if a = b then commonLen as bs + 1 else 0
  | _, _ => 0

variable {as bs : List α}

theorem commonLen_le (as bs : List α) : commonLen as bs ≤ as.length ∧ commonLen as bs ≤ bs.length := by
  induction as generalizing bs with
  | nil => exact ⟨Nat.le_refl 0, Nat.zero_le _⟩
  | cons a as ih =>
    cases bs with
    | nil => exact ⟨Nat.zero_le _, Nat.le_refl 0⟩
    | cons b bs =>
      rw [commonLen]
      split
      · have := ih bs
        rw [length_cons, length_cons]
        omega
      · exact ⟨Nat.zero_le _, Nat.zero_le _⟩

theorem take_commonLen (as bs : List α) : as.take (commonLen as bs) = bs.take (commonLen as bs) := by
  induction as generalizing bs with
  | nil => cases bs <;> rfl
  | cons a as ih =>
    cases bs with
    | nil => rfl
    | cons b bs =>
      rw [commonLen]
      split
      · next same => rw [take_succ_cons, take_succ_cons, same, ih bs]
      · rfl

theorem le_commonLen {n : Nat} (le : n ≤ as.length) (same : as.take n = bs.take n) (le' : n ≤ bs.length) : n ≤ commonLen as bs := by
  induction n generalizing as bs with
  | zero => exact Nat.zero_le _
  | succ n ih =>
    obtain ⟨a, as, rfl⟩ := exists_cons_of_length_pos (Nat.lt_of_lt_of_le (Nat.succ_pos n) le)
    obtain ⟨b, bs, rfl⟩ := exists_cons_of_length_pos (Nat.lt_of_lt_of_le (Nat.succ_pos n) le')
    rw [take_succ_cons, take_succ_cons] at same
    obtain ⟨rfl, later⟩ := List.cons.inj same
    rw [commonLen, if_pos rfl]
    exact Nat.succ_le_succ (ih (Nat.le_of_succ_le_succ le) later (Nat.le_of_succ_le_succ le'))

theorem commonLen_position (as bs : List α) :
    ((as.zip bs).findIdx? (fun pair => pair.1 ≠ pair.2)).getD (min as.length bs.length) = commonLen as bs := by
  induction as generalizing bs with
  | nil => cases bs <;> rfl
  | cons a as ih =>
    cases bs with
    | nil => rfl
    | cons b bs =>
      rw [commonLen, zip_cons_cons, findIdx?_cons]
      by_cases same : a = b
      · have later := ih bs
        rw [if_neg (by simpa using same), if_pos same, ← later, length_cons, length_cons, Nat.succ_min_succ]
        cases (as.zip bs).findIdx? (fun pair => pair.1 ≠ pair.2) <;> rfl
      · rw [if_pos (by simpa using same), if_neg same]
        rfl

theorem commonLen_takeWhile (as bs : List α) : ((as.zip bs).takeWhile (fun pair => pair.1 = pair.2)).length = commonLen as bs := by
  induction as generalizing bs with
  | nil => cases bs <;> rfl
  | cons a as ih =>
    cases bs with
    | nil => rfl
    | cons b bs =>
      rw [commonLen, zip_cons_cons, takeWhile_cons]
      by_cases same : a = b
      · rw [if_pos (by simpa using same), if_pos same, length_cons, ih]
      · rw [if_neg (by simpa using same), if_neg same]
        rfl

end

namespace Utf8

def encode (text : List Char) : List UInt8 := text.flatMap String.utf8EncodeChar

def isAscii (bytes : List UInt8) : Bool := bytes.all (fun byte => byte < 128)

/-- The characters with the byte positions they begin at, from `offset` on. -/
def charIndices (offset : Nat) : List Char → List (Nat × Char)
  | [] => []
  | c :: text => (offset, c) :: charIndices (offset + c.utf8Size) text

/-- `&s[n..]`; there is no such slice inside a character. -/
def sliceFrom : List Char → Nat → Option (List Char)
  | text, 0 => some text
  | [], _ + 1 => none
  | c :: text, n + 1 => if c.utf8Size ≤ n + 1 then sliceFrom text (n + 1 - c.utf8Size) else none

/-- `&s[..n]` -/
def sliceTo : List Char → Nat → Option (List Char)
  | _, 0 => some []
  | [], _ + 1 => none
  | c :: text, n + 1 => if c.utf8Size ≤ n + 1 then (sliceTo text (n + 1 - c.utf8Size)).map (c :: ·) else none

section
variable {c : Char} {text : List Char}

theorem encode_cons (c : Char) (text : List Char) : encode (c :: text) = String.utf8EncodeChar c ++ encode text := rfl

theorem length_encode_cons (c : Char) (text : List Char) : (encode (c :: text)).length = c.utf8Size + (encode text).length := by
  rw [encode_cons, length_append, String.length_utf8EncodeChar]

theorem length_le (text : List Char) : text.length ≤ (encode text).length := by
  induction text with
  | nil => exact Nat.le_refl 0
  | cons c text ih =>
    have := Char.utf8Size_pos c
    rw [length_encode_cons, length_cons]
    omega

theorem encode_char (c : Char) : (∃ byte, String.utf8EncodeChar c = [byte] ∧ byte < 128 ∧ byte.toNat = c.toNat) ∨
    ∃ byte bytes, String.utf8EncodeChar c = byte :: bytes ∧ ¬ byte < 128 := by
  have first {n k : Nat} (low : 128 ≤ k) (high : n + k < 256) : ¬ UInt8.ofNat (n + k) < 128 := by
    rw [UInt8.lt_iff_toNat_lt, UInt8.toNat_ofNat', Nat.mod_eq_of_lt high]
    exact Nat.not_lt.mpr (Nat.le_trans low (Nat.le_add_left k n))
  unfold String.utf8EncodeChar
  dsimp only
  split
  · next ascii =>
    have small : (UInt8.ofNat c.val.toNat).toNat = c.val.toNat := by
      rw [UInt8.toNat_ofNat']
      exact Nat.mod_eq_of_lt (by omega)
    refine .inl ⟨_, rfl, ?_, small⟩
    rw [UInt8.lt_iff_toNat_lt, small]
    exact Nat.lt_succ_of_le ascii
  right
  split
  · exact ⟨_, _, rfl, first (by omega) (by omega)⟩
  split
  · exact ⟨_, _, rfl, first (by omega) (by omega)⟩
  · exact ⟨_, _, rfl, first (by omega) (by omega)⟩

theorem sliceFrom_take (text : List Char) (n : Nat) : sliceFrom text (encode (text.take n)).length = some (text.drop n) := by
  induction text generalizing n with
  | nil => rw [take_nil, drop_nil]; rfl
  | cons c text ih =>
    cases n with
    | zero => rfl
    | succ n =>
      obtain ⟨_, same⟩ := Nat.exists_eq_succ_of_ne_zero (Nat.ne_of_gt (Char.utf8Size_pos c))
      rw [take_succ_cons, length_encode_cons, drop_succ_cons, same, Nat.succ_add, sliceFrom, if_pos (by omega), ← ih n]
      congr 1
      omega

theorem sliceTo_take (text : List Char) (n : Nat) : sliceTo text (encode (text.take n)).length = some (text.take n) := by
  induction text generalizing n with
  | nil => rw [take_nil]; rfl
  | cons c text ih =>
    cases n with
    | zero => rfl
    | succ n =>
      obtain ⟨size, same⟩ := Nat.exists_eq_succ_of_ne_zero (Nat.ne_of_gt (Char.utf8Size_pos c))
      rw [take_succ_cons, length_encode_cons, same, Nat.succ_add, sliceTo, if_pos (by omega),
        show size + (encode (text.take n)).length + 1 - c.utf8Size = (encode (text.take n)).length by omega, ih n]
      rfl

theorem charIndices_getElem? (offset : Nat) (text : List Char) (n : Nat) :
    ((charIndices offset text)[n]?).map Prod.fst = if n < text.length then some (offset + (encode (text.take n)).length) else none := by
  induction text generalizing offset n with
  | nil => rfl
  | cons c text ih =>
    cases n with
    | zero => rfl
    | succ n =>
      rw [charIndices, getElem?_cons_succ, ih, take_succ_cons, length_encode_cons, length_cons, ← Nat.add_assoc]
      simp only [Nat.succ_lt_succ_iff]

theorem length_take_of_ascii {n : Nat} (ascii : isAscii ((encode text).take n)) (le : n ≤ (encode text).length) :
    (encode (text.take n)).length = n := by
  induction text generalizing n with
  | nil =>
    rw [take_nil]
    exact (Nat.le_zero.mp le).symm
  | cons c text ih =>
    cases n with
    | zero => rfl
    | succ n =>
      unfold isAscii at ascii
      rw [take_succ_cons, encode_cons, length_append]
      rw [encode_cons] at ascii le
      rcases encode_char c with ⟨byte, same, _, _⟩ | ⟨byte, _, same, other⟩
      · rw [same, singleton_append] at ascii le
        rw [take_succ_cons, all_cons, Bool.and_eq_true] at ascii
        rw [same, length_singleton, ih ascii.2 (Nat.le_of_succ_le_succ le), Nat.add_comm]
      · rw [same, cons_append, take_succ_cons, all_cons, Bool.and_eq_true, decide_eq_true_iff] at ascii
        exact absurd ascii.1 other

theorem commonLen_encode (left right : List Char) (ascii : isAscii ((encode left).take (commonLen (encode left) (encode right)))) :
    commonLen (encode left) (encode right) = commonLen left right := by
  unfold isAscii at ascii
  induction left generalizing right with
  | nil => cases right <;> rfl
  | cons c left ih =>
    cases right with
    | nil =>
      rw [show encode [] = [] from rfl]
      cases encode (c :: left) <;> rfl
    | cons d right =>
      have later := ih right
      rw [encode_cons, encode_cons] at ascii ⊢
      rw [commonLen]
      obtain ⟨byte', bytes', same'⟩ : ∃ byte' bytes', String.utf8EncodeChar d = byte' :: bytes' := by
        rcases encode_char d with ⟨byte', same', _, _⟩ | ⟨byte', bytes', same', _⟩
        · exact ⟨byte', [], same'⟩
        · exact ⟨byte', bytes', same'⟩
      rcases encode_char c with ⟨byte, same, small, value⟩ | ⟨byte, _, same, other⟩
      · by_cases eq : c = d
        · rw [if_pos eq, ← eq, same, singleton_append, singleton_append, commonLen, if_pos rfl]
          rw [← eq, same, singleton_append, singleton_append, commonLen, if_pos rfl, take_succ_cons, all_cons, Bool.and_eq_true] at ascii
          rw [later ascii.2]
        · have differ : byte ≠ byte' := by
            rintro rfl
            rcases encode_char d with ⟨byte', single, _, value'⟩ | ⟨byte', bytes', more, other⟩
            · obtain ⟨rfl, _⟩ := List.cons.inj (same'.symm.trans single)
              exact eq (Char.toNat_inj.mp (value.symm.trans value'))
            · obtain ⟨rfl, _⟩ := List.cons.inj (same'.symm.trans more)
              exact other small
          rw [if_neg eq, same, same', singleton_append, cons_append, commonLen, if_neg differ]
      · have differ : byte ≠ byte' := by
          rintro rfl
          rw [same, same', cons_append, cons_append, commonLen, if_pos rfl, take_succ_cons, all_cons, Bool.and_eq_true, decide_eq_true_iff] at ascii
          exact other ascii.1
        have unequal : c ≠ d := by
          rintro rfl
          exact differ (List.cons.inj (same.symm.trans same')).1
        rw [if_neg unequal, same, same', cons_append, cons_append, commonLen, if_neg differ]

end

end Utf8

end TriaxialKV
