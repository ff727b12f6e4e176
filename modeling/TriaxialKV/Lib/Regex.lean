import Mathlib.Data.List.Infix
import Mathlib.Tactic.Common

/-! # Leftmost matching of expressions with one group -/

namespace TriaxialKV.Regex
open List

/-- What a match at the front of a text leaves of it. -/
abbrev Pattern := List Char → Option (List Char)

def lit (word : List Char) : Pattern := fun text => if word <+: text then some (text.drop word.length) else none

/-- `(?=word)` -/
def look (word : List Char) : Pattern := fun text => if word <+: text then some text else none

/-- `$` -/
def atEnd : Pattern := fun text => if text = [] ∨ text = ['\n'] then some text else none

/-- `left|right` -/
def either (left right : Pattern) : Pattern := fun text => left text <|> right text

/-- `(.*?)` and then `stop`: the group and what is left. -/
def lazily (stop : Pattern) : List Char → Option (List Char × List Char)
  | [] => (stop []).map (fun rest => ([], rest))
  | c :: text =>
    match stop (c :: text) with
    | some rest => some ([], rest)
    | none => (lazily stop text).map (fun found => (c :: found.1, found.2))

def findallFrom (start : List Char) (group : List Char → Option (List Char × List Char)) : Nat → List Char → List (List Char)
  | 0, _ => []
  | _ + 1, [] => []
  | fuel + 1, c :: text =>
    if start <+: c :: text then
      match group ((c :: text).drop start.length) with
      | some (found, rest) => found :: findallFrom start group fuel rest
      | none => findallFrom start group fuel text
    else findallFrom start group fuel text

def findall (start : List Char) (group : List Char → Option (List Char × List Char)) (text : List Char) : List (List Char) :=
  findallFrom start group text.length text

section
variable {stop : Pattern} {front text rest : List Char}

theorem lit_append (word text : List Char) : lit word (word ++ text) = some text := by
  unfold lit
  rw [if_pos (prefix_append word text), drop_left]

theorem lazily_here (ends : stop text = some rest) : lazily stop text = some ([], rest) := by
  cases text with
  | nil =>
    unfold lazily
    rw [ends]
    rfl
  | cons c text =>
    unfold lazily
    rw [ends]

theorem lazily_skip (quiet : ∀ tail, tail ≠ [] → tail <:+ front → stop (tail ++ text) = none) (ends : stop text = some rest) :
    lazily stop (front ++ text) = some (front, rest) := by
  induction front with
  | nil => exact lazily_here ends
  | cons c front ih =>
    have later := ih (fun tail nonempty lt => quiet tail nonempty (lt.trans (suffix_cons c front)))
    rw [cons_append]
    unfold lazily
    rw [← cons_append, quiet (c :: front) (cons_ne_nil c front) suffix_rfl, later]
    rfl

def Within (stop : Pattern) : Prop := ∀ text rest, stop text = some rest → rest.length ≤ text.length

theorem within_lit (word : List Char) : Within (lit word) := by
  intro _ _ matched
  unfold lit at matched
  split at matched
  · cases matched
    rw [length_drop]
    exact Nat.sub_le _ _
  · cases matched

theorem within_look (word : List Char) : Within (look word) := by
  intro _ _ matched
  unfold look at matched
  split at matched
  · cases matched
    exact Nat.le_refl _
  · cases matched

theorem within_atEnd : Within atEnd := by
  intro _ _ matched
  unfold atEnd at matched
  split at matched
  · cases matched
    exact Nat.le_refl _
  · cases matched

theorem Within.either {left right : Pattern} (within : Within left) (within' : Within right) : Within (either left right) := by
  intro text rest matched
  unfold Regex.either at matched
  cases first : left text with
  | none =>
    rw [first] at matched
    exact within' text rest matched
  | some rest' =>
    rw [first] at matched
    cases matched
    exact within text rest first

def Shrinks (group : List Char → Option (List Char × List Char)) : Prop :=
  ∀ text found rest, group text = some (found, rest) → rest.length ≤ text.length

theorem Within.lazily (within : Within stop) : Shrinks (lazily stop) := by
  intro text found _ ends
  induction text generalizing found with
  | nil =>
    unfold Regex.lazily at ends
    obtain ⟨rest', here, same⟩ := Option.map_eq_some_iff.mp ends
    cases same
    exact within _ _ here
  | cons c text ih =>
    unfold Regex.lazily at ends
    split at ends
    · next rest' here =>
      cases ends
      exact within _ _ here
    · obtain ⟨later, here, same⟩ := Option.map_eq_some_iff.mp ends
      cases same
      exact Nat.le_succ_of_le (ih later.1 here)

end

section
variable {start text : List Char} {group : List Char → Option (List Char × List Char)}

theorem findall_skip {front : List Char} (quiet : ∀ tail, tail ≠ [] → tail <:+ front → ¬ start <+: tail ++ text) :
    findall start group (front ++ text) = findall start group text := by
  induction front with
  | nil => rfl
  | cons c front ih =>
    have later := ih (fun tail nonempty lt => quiet tail nonempty (lt.trans (suffix_cons c front)))
    rw [← later]
    unfold findall
    rw [cons_append, length_cons]
    conv_lhs => unfold findallFrom
    rw [← cons_append, if_neg (quiet (c :: front) (cons_ne_nil c front) suffix_rfl)]

variable (nonempty : start ≠ []) (shrinks : Shrinks group)
include nonempty shrinks

theorem findallFrom_congr {fuel fuel' : Nat} (enough : text.length ≤ fuel) (enough' : text.length ≤ fuel') :
    findallFrom start group fuel text = findallFrom start group fuel' text := by
  induction fuel generalizing fuel' text with
  | zero =>
    obtain rfl := eq_nil_of_length_eq_zero (Nat.le_zero.mp enough)
    cases fuel' <;> rfl
  | succ fuel ih =>
    cases text with
    | nil => cases fuel' <;> rfl
    | cons c text =>
      rw [length_cons] at enough enough'
      obtain ⟨fuel', rfl⟩ := Nat.exists_eq_succ_of_ne_zero (show fuel' ≠ 0 by omega)
      have later : findallFrom start group fuel text = findallFrom start group fuel' text := ih (by omega) (by omega)
      unfold findallFrom
      split
      · cases matched : group ((c :: text).drop start.length) with
        | none => exact later
        | some parts =>
          have less := shrinks _ _ _ matched
          have pos := length_pos_of_ne_nil nonempty
          rw [length_drop, length_cons] at less
          have rest : findallFrom start group fuel parts.2 = findallFrom start group fuel' parts.2 := ih (by omega) (by omega)
          dsimp only
          rw [rest]
      · exact later

theorem findall_here {found rest : List Char} (matched : group text = some (found, rest)) :
    findall start group (start ++ text) = found :: findall start group rest := by
  obtain ⟨c, word, rfl⟩ := exists_cons_of_ne_nil nonempty
  have less := shrinks _ _ _ matched
  unfold findall
  rw [cons_append, length_cons]
  conv_lhs => unfold findallFrom
  rw [← cons_append, if_pos (prefix_append _ _), drop_left, matched]
  have enough : rest.length ≤ (word ++ text).length := by
    rw [length_append]
    omega
  exact congrArg (found :: ·) (findallFrom_congr (cons_ne_nil c word) shrinks enough (Nat.le_refl _))

end

end TriaxialKV.Regex
