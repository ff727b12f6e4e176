import Mathlib.Data.List.Basic
import Mathlib.Data.List.DropRight
import Mathlib.Data.List.Infix
import Mathlib.Data.List.TakeWhile
import Mathlib.Tactic.Common

/-! # Reading bytes as text with replacement -/

namespace TriaxialKV.Utf8
open List

def replacement : Char := Char.ofNat 0xFFFD

def isContinuation (byte : UInt8) : Bool := decide (0x80 ≤ byte) && decide (byte < 0xC0)

def following (lead : UInt8) : Nat :=
  if 0xC2 ≤ lead ∧ lead < 0xE0 then 1
  else if 0xE0 ≤ lead ∧ lead < 0xF0 then 2
  else if 0xF0 ≤ lead ∧ lead ≤ 0xF4 then 3
  else 0

/-- The second byte: it may not make an overlong form, a surrogate or a code past the last one. -/
def second (lead byte : UInt8) : Bool :=
  isContinuation byte && !(decide (lead = 0xE0) && decide (byte < 0xA0)) && !(decide (lead = 0xED) && decide (0xA0 ≤ byte)) &&
    !(decide (lead = 0xF0) && decide (byte < 0x90)) && !(decide (lead = 0xF4) && decide (0x90 ≤ byte))

def wellFormed (lead : UInt8) : List UInt8 → Nat
  | [] => 0
  | byte :: rest => if second lead byte then ((rest.take (following lead - 1)).takeWhile isContinuation).length + 1 else 0

def code (lead : UInt8) (rest : List UInt8) : Nat :=
  rest.foldl (fun code byte => code * 64 + (byte.toNat - 0x80))
    (lead.toNat - match rest.length with
      | 1 => 0xC0
      | 2 => 0xE0
      | _ => 0xF0)

def nextChar (lead : UInt8) (rest : List UInt8) : Char × Nat :=
  if lead < 0x80 then (Char.ofNat lead.toNat, 1)
  else if following lead = 0 then (replacement, 1)
  else if wellFormed lead rest = following lead then (Char.ofNat (code lead (rest.take (following lead))), following lead + 1)
  else (replacement, wellFormed lead rest + 1)

def unitsFrom : Nat → List UInt8 → List (Char × Nat)
  | _, [] => []
  | 0, _ => []
  | fuel + 1, lead :: rest => nextChar lead rest :: unitsFrom fuel (rest.drop ((nextChar lead rest).2 - 1))

def units (bytes : List UInt8) : List (Char × Nat) := unitsFrom bytes.length bytes

/-- `bytes.decode("utf-8", errors="replace")` -/
def lossy (bytes : List UInt8) : List Char := (units bytes).map Prod.fst

def size : List (Char × Nat) → Nat
  | [] => 0
  | u :: us => u.2 + size us

theorem size_append (us vs : List (Char × Nat)) : size (us ++ vs) = size us + size vs := by
  induction us with
  | nil => rw [nil_append, size, Nat.zero_add]
  | cons u us ih => rw [cons_append, size, size, ih, Nat.add_assoc]

section
variable {lead : UInt8} {rest bytes : List UInt8}

theorem wellFormed_le (lead : UInt8) (rest : List UInt8) : wellFormed lead rest ≤ rest.length := by
  cases rest with
  | nil => exact Nat.le_refl 0
  | cons byte rest =>
    rw [wellFormed]
    split
    · have kept := (takeWhile_sublist (l := rest.take (following lead - 1)) isContinuation).length_le
      have taken := length_take_le' (following lead - 1) rest
      exact Nat.succ_le_succ (kept.trans taken)
    · exact Nat.zero_le _

theorem wellFormed_continuation {byte : UInt8} (inside : byte ∈ rest.take (wellFormed lead rest)) : isContinuation byte = true := by
  cases rest with
  | nil => cases inside
  | cons first rest =>
    rw [wellFormed] at inside
    split at inside
    · next ok =>
      rw [take_succ_cons] at inside
      rcases mem_cons.mp inside with rfl | later
      · simp only [second, Bool.and_eq_true] at ok
        exact ok.1.1.1.1
      · have beginning := (List.takeWhile_prefix isContinuation (l := rest.take (following lead - 1))).trans (List.take_prefix _ rest)
        rw [← List.prefix_iff_eq_take.mp beginning] at later
        exact mem_takeWhile_imp later
    · cases inside

theorem nextChar_size (lead : UInt8) (rest : List UInt8) :
    ∃ n ≤ rest.length, (nextChar lead rest).2 = n + 1 ∧ ∀ byte ∈ rest.take n, isContinuation byte = true := by
  have none : ∃ n ≤ rest.length, 1 = n + 1 ∧ ∀ byte ∈ rest.take n, isContinuation byte = true :=
    ⟨0, Nat.zero_le _, rfl, fun byte lt => absurd lt not_mem_nil⟩
  have some : wellFormed lead rest ≤ rest.length ∧ ∀ byte ∈ rest.take (wellFormed lead rest), isContinuation byte = true :=
    ⟨wellFormed_le lead rest, fun byte lt => wellFormed_continuation lt⟩
  unfold nextChar
  split
  · exact none
  · split
    · exact none
    · split
      · next whole => exact ⟨following lead, whole ▸ some.1, rfl, whole ▸ some.2⟩
      · exact ⟨wellFormed lead rest, some.1, rfl, some.2⟩

theorem nextChar_continuation {byte : UInt8} (continuation : isContinuation byte = true) (rest : List UInt8) :
    nextChar byte rest = (replacement, 1) := by
  obtain ⟨low, high⟩ := Bool.and_eq_true_iff.mp continuation
  have low := UInt8.le_iff_toNat_le.mp (of_decide_eq_true low)
  have high := UInt8.lt_iff_toNat_lt.mp (of_decide_eq_true high)
  have notAscii : ¬ byte < 0x80 := fun less => absurd (UInt8.lt_iff_toNat_lt.mp less) (Nat.not_lt.mpr low)
  have alone : following byte = 0 := by
    have below {bound : UInt8} (le : (0xC0 : UInt8).toNat ≤ bound.toNat) : ¬ bound ≤ byte := fun reach =>
      absurd (Nat.lt_of_lt_of_le high (le.trans (UInt8.le_iff_toNat_le.mp reach))) (Nat.lt_irrefl _)
    unfold following
    rw [if_neg (fun reach => below (by decide) reach.1), if_neg (fun reach => below (by decide) reach.1),
      if_neg (fun reach => below (by decide) reach.1)]
  unfold nextChar
  rw [if_neg notAscii, if_pos alone]

theorem unitsFrom_enough {fuel fuel' : Nat} (enough : bytes.length ≤ fuel) (enough' : bytes.length ≤ fuel') :
    unitsFrom fuel bytes = unitsFrom fuel' bytes := by
  induction fuel generalizing fuel' bytes with
  | zero =>
    rw [length_eq_zero_iff.mp (Nat.le_zero.mp enough)]
    cases fuel' <;> rfl
  | succ fuel ih =>
    cases bytes with
    | nil => cases fuel' <;> rfl
    | cons lead rest =>
      cases fuel' with
      | zero => cases enough'
      | succ fuel' =>
        have shorter : (rest.drop ((nextChar lead rest).2 - 1)).length ≤ rest.length := by
          rw [length_drop]
          exact Nat.sub_le _ _
        rw [unitsFrom, unitsFrom, ih (shorter.trans (Nat.le_of_succ_le_succ enough)) (shorter.trans (Nat.le_of_succ_le_succ enough'))]

theorem units_cons (lead : UInt8) (rest : List UInt8) :
    units (lead :: rest) = nextChar lead rest :: units (rest.drop ((nextChar lead rest).2 - 1)) := by
  have shorter : (rest.drop ((nextChar lead rest).2 - 1)).length ≤ rest.length := by
    rw [length_drop]
    exact Nat.sub_le _ _
  unfold units
  rw [length_cons, unitsFrom, unitsFrom_enough shorter (Nat.le_refl _)]

theorem units_continuations {front : List UInt8} (continuations : ∀ byte ∈ front, isContinuation byte = true) (rest : List UInt8) :
    units (front ++ rest) = replicate front.length (replacement, 1) ++ units rest := by
  induction front with
  | nil => rfl
  | cons byte front ih =>
    rw [cons_append, units_cons, nextChar_continuation (continuations byte mem_cons_self)]
    exact congrArg _ (ih (fun other mem => continuations other (mem_cons_of_mem byte mem)))

theorem units_drop (bytes : List UInt8) (skip : Nat) (le : skip ≤ bytes.length) :
    ∃ before after m, units bytes = before ++ after ∧ units (bytes.drop skip) = replicate m (replacement, 1) ++ after ∧
      size before = skip + m ∧ ∀ before' after', units bytes = before' ++ after' → skip ≤ size before' → before <+: before' := by
  induction length : bytes.length using Nat.strong_induction_on generalizing bytes skip with
  | _ n ih =>
    cases skip with
    | zero => exact ⟨[], units bytes, 0, rfl, rfl, rfl, fun before' _ _ _ => List.nil_prefix⟩
    | succ skip =>
      cases bytes with
      | nil => cases le
      | cons lead rest =>
        obtain ⟨k, fits, length', continuations⟩ := nextChar_size lead rest
        have split := units_cons lead rest
        rw [length', Nat.add_sub_cancel] at split
        -- every beginning that reaches past `skip` has the first character
        have first {before' after' : List (Char × Nat)} (same : units (lead :: rest) = before' ++ after') (reach : skip + 1 ≤ size before') :
            ∃ more, before' = nextChar lead rest :: more ∧ units (rest.drop k) = more ++ after' := by
          cases before' with
          | nil => cases reach
          | cons u more =>
            rw [split, cons_append] at same
            obtain ⟨rfl, later⟩ := List.cons.inj same
            exact ⟨more, rfl, later⟩
        rw [drop_succ_cons]
        by_cases lt : skip < k
        · refine ⟨[nextChar lead rest], units (rest.drop k), k - skip, split, ?_, ?_, fun before' after' same reach => ?_⟩
          · have cut : rest.drop skip = (rest.take k).drop skip ++ rest.drop k := by
              have later : rest.drop k = (rest.drop skip).drop (k - skip) := by rw [drop_drop, Nat.add_sub_cancel' lt.le]
              rw [drop_take, later, take_append_drop]
            rw [cut, units_continuations (fun byte mem => continuations byte (mem_of_mem_drop mem)), length_drop, length_take, Nat.min_eq_left fits]
          · simp only [size, length']
            omega
          · obtain ⟨more, rfl, _⟩ := first same reach
            exact prefix_append [nextChar lead rest] more
        · have shorter : (rest.drop k).length < n := by
            rw [length_drop, ← length, length_cons]
            omega
          obtain ⟨before, after, m, whole, later, reach, least⟩ := ih _ shorter (rest.drop k) (skip - k) (by
            rw [length_drop]
            exact Nat.sub_le_sub_right (Nat.le_of_succ_le_succ le) k) rfl
          refine ⟨nextChar lead rest :: before, after, m, ?_, ?_, ?_, fun before' after' same reach' => ?_⟩
          · rw [split, whole, cons_append]
          · rw [← later, drop_drop, Nat.add_sub_cancel' (Nat.le_of_not_lt lt)]
          · simp only [size, length'] at reach ⊢
            omega
          · obtain ⟨more, rfl, same'⟩ := first same reach'
            simp only [size, length'] at reach' least
            exact (prefix_cons_inj _).mpr (least more after' same' (by omega))

end

section
variable {lead : UInt8} {rest more bytes : List UInt8}

theorem wellFormed_append (settled : wellFormed lead rest = following lead ∨ wellFormed lead rest < rest.length) (more : List UInt8) :
    wellFormed lead (rest ++ more) = wellFormed lead rest ∨ following lead = 0 := by
  cases rest with
  | nil =>
    rcases settled with none | less
    · exact .inr none.symm
    · cases less
  | cons byte rest =>
    left
    rw [cons_append, wellFormed, wellFormed]
    by_cases ok : second lead byte
    · rw [wellFormed, if_pos ok] at settled
      rw [if_pos ok, if_pos ok, take_append]
      by_cases enough : following lead - 1 ≤ rest.length
      · rw [Nat.sub_eq_zero_of_le enough, take_zero, append_nil]
      · rw [take_of_length_le (Nat.le_of_not_le enough)] at settled ⊢
        have stops : (rest.takeWhile isContinuation).length ≠ rest.length := by
          rw [length_cons] at settled
          omega
        rw [takeWhile_append, if_neg stops]
    · rw [if_neg ok, if_neg ok]

theorem nextChar_append (settled : (nextChar lead rest).1 ≠ replacement ∨ (nextChar lead rest).2 ≤ rest.length) (more : List UInt8) :
    nextChar lead (rest ++ more) = nextChar lead rest := by
  unfold nextChar at settled ⊢
  by_cases ascii : lead < 0x80
  · rw [if_pos ascii, if_pos ascii]
  rw [if_neg ascii] at settled
  rw [if_neg ascii, if_neg ascii]
  by_cases alone : following lead = 0
  · rw [if_pos alone, if_pos alone]
  rw [if_neg alone] at settled
  rw [if_neg alone, if_neg alone]
  by_cases whole : wellFormed lead rest = following lead
  · have fits := wellFormed_le lead rest
    rw [(wellFormed_append (.inl whole) more).resolve_right alone, if_pos whole, if_pos whole, take_append_of_le_length (whole ▸ fits)]
  · rw [if_neg whole] at settled
    have less : wellFormed lead rest < rest.length := settled.resolve_left (fun other => other rfl)
    rw [(wellFormed_append (.inr less) more).resolve_right alone, if_neg whole, if_neg whole]

theorem units_append (bytes more : List UInt8) :
    units (bytes ++ more) = units bytes ++ units more ∨ ∃ us k, units bytes = us ++ [(replacement, k)] ∧ us <+: units (bytes ++ more) := by
  induction length : bytes.length using Nat.strong_induction_on generalizing bytes with
  | _ n ih =>
    cases bytes with
    | nil => exact .inl rfl
    | cons lead rest =>
      obtain ⟨k, fits, size, _⟩ := nextChar_size lead rest
      have split := units_cons lead rest
      rw [size, Nat.add_sub_cancel] at split
      by_cases cut : (nextChar lead rest).1 = replacement ∧ k = rest.length
      · refine .inr ⟨[], k + 1, ?_, List.nil_prefix⟩
        have first : nextChar lead rest = (replacement, k + 1) := Prod.ext cut.1 size
        rw [split, first, cut.2, drop_length]
        rfl
      · have settled : (nextChar lead rest).1 ≠ replacement ∨ (nextChar lead rest).2 ≤ rest.length := by
          by_cases other : (nextChar lead rest).1 = replacement
          · have : k ≠ rest.length := fun eq => cut ⟨other, eq⟩
            omega
          · exact .inl other
        have split' := units_cons lead (rest ++ more)
        rw [nextChar_append settled, size, Nat.add_sub_cancel, drop_append_of_le_length fits] at split'
        have shorter : (rest.drop k).length < n := by
          rw [length_drop, ← length, length_cons]
          omega
        rw [cons_append, split', split]
        rcases ih _ shorter (rest.drop k) rfl with joins | ⟨us, k', whole, start⟩
        · exact .inl (by rw [joins, cons_append])
        · refine .inr ⟨nextChar lead rest :: us, k', by rw [whole, cons_append], ?_⟩
          exact (prefix_cons_inj _).mpr start

/-- The text without the replacement characters at its end. -/
def stem (text : List Char) : List Char := text.rdropWhile (fun c => c = replacement)

theorem lossy_settled {bytes : List UInt8} (settled : (lossy bytes).getLast? ≠ some replacement) (more : List UInt8) :
    lossy (bytes ++ more) = lossy bytes ++ lossy more := by
  rcases units_append bytes more with joins | ⟨_, k, whole, _⟩
  · rw [lossy, joins, map_append]
    rfl
  · unfold lossy at settled
    rw [whole, map_append, map_singleton, getLast?_concat] at settled
    exact absurd rfl settled

theorem stem_lossy (bytes more : List UInt8) : stem (lossy bytes) <+: lossy (bytes ++ more) := by
  rcases units_append bytes more with joins | ⟨_, k, whole, start⟩
  · rw [lossy, lossy, joins, map_append]
    exact (List.rdropWhile_prefix _ _).trans (prefix_append _ _)
  · rw [lossy, whole, map_append, map_singleton, stem, rdropWhile_concat_pos _ _ _ (by simp)]
    exact (List.rdropWhile_prefix _ _).trans (start.map Prod.fst)

end

end TriaxialKV.Utf8
