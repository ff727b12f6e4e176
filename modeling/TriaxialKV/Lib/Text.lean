import Mathlib.Data.List.DropRight
import Mathlib.Data.List.Infix
import Mathlib.Data.List.MinMax

/-!
# Words in texts

`cut` is the search for the first occurrence of a word.
-/

namespace TriaxialKV.Text
open List

variable {α : Type} [DecidableEq α]

/-! ### The first occurrence -/

def cut (word : List α) : List α → Option (List α × List α)
  | [] => if word = [] then some ([], []) else none
  | c :: rest =>
    if word <+: c :: rest then some ([], (c :: rest).drop word.length)
    else (cut word rest).map (fun parts => (c :: parts.1, parts.2))

section
variable {word text front back : List α}

theorem cut_eq_none : cut word text = none ↔ ¬ word <:+: text := by
  induction text with
  | nil =>
    unfold cut
    split
    · next empty => simp [empty]
    · next nonempty => simp [nonempty]
  | cons c rest ih =>
    unfold cut
    split
    · next here => simp [here.isInfix]
    · next elsewhere => rw [Option.map_eq_none_iff, ih, infix_cons_iff, not_or, and_iff_right elsewhere]

theorem cut_sound (found : cut word text = some (front, back)) :
    text = front ++ word ++ back ∧ ∀ front' back', text = front' ++ word ++ back' → front.length ≤ front'.length := by
  induction text generalizing front back with
  | nil =>
    unfold cut at found
    split at found
    · next empty =>
      cases found
      exact ⟨by rw [empty]; rfl, fun _ _ _ => Nat.zero_le _⟩
    · cases found
  | cons c rest ih =>
    unfold cut at found
    split at found
    · next here =>
      cases found
      exact ⟨(List.prefix_iff_eq_append.mp here).symm, fun _ _ _ => Nat.zero_le _⟩
    · next elsewhere =>
      obtain ⟨⟨_, _⟩, found₁, same⟩ := Option.map_eq_some_iff.mp found
      cases same
      obtain ⟨rfl, first⟩ := ih found₁
      refine ⟨rfl, fun front' back' split => ?_⟩
      cases front' with
      | nil => exact absurd ⟨back', split.symm⟩ elsewhere
      | cons c' front' =>
        obtain ⟨rfl, rest⟩ := List.cons.inj split
        exact Nat.succ_le_succ (first front' back' rest)

theorem cut_of_first (split : text = front ++ word ++ back) (first : ∀ front' back', text = front' ++ word ++ back' → front.length ≤ front'.length) :
    cut word text = some (front, back) := by
  cases found : cut word text with
  | none => exact absurd ⟨front, back, split.symm⟩ (cut_eq_none.mp found)
  | some parts =>
    obtain ⟨front₁, _⟩ := parts
    obtain ⟨split₁, first₁⟩ := cut_sound found
    have same : front₁.length = front.length := Nat.le_antisymm (first₁ _ _ split) (first _ _ split₁)
    rw [split, append_assoc, append_assoc] at split₁
    obtain ⟨rfl, rest⟩ := append_inj split₁ same.symm
    rw [append_cancel_left rest]

def find (word text : List α) : Option Nat := (cut word text).map (·.1.length)

theorem find_eq_some_iff {p : Nat} : find word text = some p ↔ p ≤ text.length ∧ word <+: text.drop p ∧ ∀ q < p, ¬ word <+: text.drop q := by
  unfold find
  rw [Option.map_eq_some_iff]
  constructor
  · rintro ⟨⟨front, back⟩, found, rfl⟩
    obtain ⟨rfl, first⟩ := cut_sound found
    refine ⟨by simp, by simp, fun q less occurs => ?_⟩
    obtain ⟨back', same⟩ := occurs
    have split := first ((front ++ word ++ back).take q) back' (by rw [append_assoc _ word back', same, take_append_drop])
    rw [length_take] at split
    simp only [length_append] at split
    dsimp only at less
    omega
  · rintro ⟨_, ⟨back, here⟩, first⟩
    refine ⟨(text.take p, back), cut_of_first (by rw [append_assoc, here, take_append_drop]) (fun front' back' same => ?_), ?_⟩
    · by_contra shorter
      rw [length_take] at shorter
      refine first front'.length (by omega) ⟨back', ?_⟩
      rw [same, append_assoc, drop_left]
    · rw [length_take]
      omega

theorem find_eq_none_iff : find word text = none ↔ ¬ word <:+: text := by
  unfold find
  rw [Option.map_eq_none_iff, cut_eq_none]

omit [DecidableEq α] in
theorem prefix_of_append {more : List α} (occurs : word <+: text ++ more) (short : word.length ≤ text.length) : word <+: text :=
  prefix_of_prefix_length_le occurs (prefix_append text more) short

theorem find_append {p : Nat} (found : find word text = some p) (more : List α) : find word (text ++ more) = some p := by
  obtain ⟨lt, here, first⟩ := find_eq_some_iff.mp found
  refine find_eq_some_iff.mpr ⟨by rw [length_append]; omega, ?_, fun q less occurs => ?_⟩
  · rw [drop_append_of_le_length lt]
    exact here.trans (prefix_append _ _)
  · rw [drop_append_of_le_length (by omega)] at occurs
    have length := here.length_le
    rw [length_drop] at length
    exact first q less (prefix_of_append occurs (by rw [length_drop]; omega))

theorem find_letter_none {c : α} : find [c] text = none ↔ c ∉ text := by
  rw [find_eq_none_iff, not_iff_not]
  constructor
  · exact fun occurs => occurs.subset (mem_singleton_self c)
  · intro mem
    obtain ⟨front, back, rfl⟩ := append_of_mem mem
    exact ⟨front, back, by simp⟩

theorem find_letter_append {c : α} (absent : c ∉ front) (text : List α) : find [c] (front ++ text) = (find [c] text).map (front.length + ·) := by
  cases found : find [c] text with
  | none =>
    rw [Option.map_none, find_letter_none, mem_append]
    exact fun mem => mem.elim absent (find_letter_none.mp found)
  | some p =>
    obtain ⟨_, here, first⟩ := find_eq_some_iff.mp found
    rw [Option.map_some]
    refine find_eq_some_iff.mpr ⟨by rw [length_append]; omega, ?_, fun q less occurs => ?_⟩
    · rw [drop_append, drop_eq_nil_of_le (by omega), nil_append, Nat.add_sub_cancel_left]
      exact here
    · by_cases early : q < front.length
      · rw [drop_append_of_le_length (by omega)] at occurs
        refine absent (mem_of_mem_drop (i := q) ((prefix_of_append occurs ?_).subset (mem_singleton_self c)))
        rw [length_singleton, length_drop]
        omega
      · rw [drop_append, drop_eq_nil_of_le (by omega), nil_append] at occurs
        exact first (q - front.length) (by omega) occurs

theorem find_letter_at {c : α} (absent : c ∉ front) (back : List α) : find [c] (front ++ c :: back) = some front.length := by
  have first : find [c] (c :: back) = some 0 := find_eq_some_iff.mpr ⟨Nat.zero_le _, ⟨back, rfl⟩, fun q less => absurd less (Nat.not_lt_zero q)⟩
  rw [find_letter_append absent, first]
  rfl

omit [DecidableEq α] in
theorem drop_past {c : α} (front back : List α) (k : Nat) : (front ++ c :: back).drop (front.length + 1 + k) = back.drop k := by
  rw [drop_append, drop_eq_nil_of_le (by omega), nil_append, show front.length + 1 + k - front.length = k + 1 by omega, drop_succ_cons]

theorem find_letter_split {c : α} {p : Nat} (found : find [c] text = some p) : c ∉ text.take p ∧ ∃ rest, text.drop p = c :: rest := by
  obtain ⟨_, ⟨rest, here⟩, first⟩ := find_eq_some_iff.mp found
  refine ⟨fun mem => ?_, rest, here.symm⟩
  obtain ⟨q, below, same⟩ := getElem_of_mem mem
  rw [length_take] at below
  refine first q (by omega) ⟨text.drop (q + 1), ?_⟩
  rw [getElem_take] at same
  rw [← same, singleton_append, getElem_cons_drop]

end

/-! ### The earliest of several words -/

def earliest {β : Type} (words : List (List α × β)) (text : List α) : Option (Nat × β) :=
  (words.filterMap (fun word => (find word.1 text).map (fun p => (p, word.2)))).argmin Prod.fst

section
variable {β : Type} {words : List (List α × β)} {text : List α} {p : Nat} {tag : β}

/-- No word is the beginning of another. -/
def PrefixFree (words : List (List α × β)) : Prop := ∀ word ∈ words, ∀ other ∈ words, word.1 <+: other.1 → word = other

theorem earliest_eq_some_iff (code : PrefixFree words) : earliest words text = some (p, tag) ↔
    p ≤ text.length ∧ (∃ word, (word, tag) ∈ words ∧ word <+: text.drop p) ∧ ∀ q < p, ∀ other ∈ words, ¬ other.1 <+: text.drop q := by
  have listed {r : Nat × β} : r ∈ words.filterMap (fun word => (find word.1 text).map (fun p => (p, word.2))) ↔
      ∃ word, (word, r.2) ∈ words ∧ find word text = some r.1 := by
    rw [mem_filterMap]
    constructor
    · rintro ⟨word, mem, tagged⟩
      obtain ⟨p, found, rfl⟩ := Option.map_eq_some_iff.mp tagged
      exact ⟨word.1, mem, found⟩
    · rintro ⟨word, mem, found⟩
      exact ⟨(word, r.2), mem, Option.map_eq_some_iff.mpr ⟨r.1, found, rfl⟩⟩
  have absent {q : Nat} (below : q < p) {other : List α × β} (mem : other ∈ words) (occurs : other.1 <+: text.drop q)
      (least : ∀ r ∈ words.filterMap (fun word => (find word.1 text).map (fun p => (p, word.2))), p ≤ r.1) (inside : p ≤ text.length) : False := by
    cases found : find other.1 text with
    | none =>
      refine find_eq_none_iff.mp found (occurs.isInfix.trans (drop_suffix q text).isInfix)
    | some first =>
      obtain ⟨_, _, before⟩ := find_eq_some_iff.mp found
      have late := least (first, other.2) (listed.mpr ⟨other.1, mem, found⟩)
      exact before q (by dsimp only at late; omega) occurs
  constructor
  · intro found
    have here := argmin_mem found
    obtain ⟨word, mem, first⟩ := listed.mp here
    obtain ⟨inside, occurs, _⟩ := find_eq_some_iff.mp first
    refine ⟨inside, ⟨word, mem, occurs⟩, fun q less other mem' occurs' => ?_⟩
    exact absent less mem' occurs' (fun r there => le_of_mem_argmin there found) inside
  · rintro ⟨inside, ⟨word, mem, occurs⟩, first⟩
    have here : find word text = some p := find_eq_some_iff.mpr ⟨inside, occurs, fun q less => first q less _ mem⟩
    have candidate : (p, tag) ∈ words.filterMap (fun word => (find word.1 text).map (fun p => (p, word.2))) := listed.mpr ⟨word, mem, here⟩
    cases least : earliest words text with
    | none =>
      rw [argmin_eq_none.mp least] at candidate
      cases candidate
    | some r =>
      obtain ⟨word', mem', found⟩ := listed.mp (argmin_mem least)
      obtain ⟨_, occurs', _⟩ := find_eq_some_iff.mp found
      have le : r.1 ≤ p := le_of_mem_argmin candidate least
      have same : r.1 = p := by
        by_contra other
        exact first r.1 (by omega) _ mem' occurs'
      rw [same] at occurs'
      have eq : (word', r.2) = (word, tag) := by
        rcases prefix_or_prefix_of_prefix occurs' occurs with longer | longer
        · exact code _ mem' _ mem longer
        · exact (code _ mem _ mem' longer).symm
      rw [← same, ← (Prod.mk.inj eq).2]

theorem earliest_append {c : α} (code : PrefixFree words) (headed : ∀ word ∈ words, ∃ rest, word.1 = c :: rest ∧ c ∉ rest)
    (found : earliest words text = some (p, tag)) (more : List α) : earliest words (text ++ more) = some (p, tag) := by
  obtain ⟨lt, ⟨word, mem, occurs⟩, first⟩ := (earliest_eq_some_iff code).mp found
  refine (earliest_eq_some_iff code).mpr ⟨by rw [length_append]; omega, ⟨word, mem, ?_⟩, fun q less other mem' occurs' => ?_⟩
  · rw [drop_append_of_le_length lt]
    exact occurs.trans (prefix_append _ _)
  · rw [drop_append_of_le_length (by omega)] at occurs'
    by_cases short : other.1.length ≤ (text.drop q).length
    · exact first q less other mem' (prefix_of_append occurs' short)
    · -- the head letter at `p` would be lt the other word
      obtain ⟨rest, same, once⟩ := headed other mem'
      obtain ⟨_, same', _⟩ := headed _ mem
      dsimp only at same'
      rw [same'] at occurs
      have head : (text.drop q ++ more)[p - q]? = some c := by
        have length := occurs.length_le
        rw [length_cons, length_drop] at length
        rw [getElem?_append_left (by rw [length_drop]; omega), getElem?_drop, show q + (p - q) = p + 0 by omega, ← getElem?_drop]
        obtain ⟨tail, split⟩ := occurs
        rw [← split]
        rfl
      obtain ⟨tail, split⟩ := occurs'
      rw [length_drop] at short
      rw [← split, same, getElem?_append_left (by rw [← same]; omega), show p - q = p - q - 1 + 1 by omega, getElem?_cons_succ] at head
      exact once (mem_of_getElem? head)

end

/-! ### Words with a head letter that they do not repeat -/

section
variable {c : α} {word tail front back : List α}

omit [DecidableEq α] in
theorem prefix_of_headed (headed : ∃ rest, word = c :: rest ∧ c ∉ rest) (nonempty : tail ≠ []) (boundary : ∀ d ∈ back.head?, d = c)
    (here : word <+: tail ++ back) : word <+: tail := by
  obtain ⟨rest, rfl, once⟩ := headed
  obtain ⟨d, tail, rfl⟩ := exists_cons_of_ne_nil nonempty
  rcases prefix_or_prefix_of_prefix here (prefix_append (d :: tail) back) with lt | ⟨more, longer⟩
  · exact lt
  · cases more with
    | nil => rw [append_nil] at longer; exact longer ▸ prefix_rfl
    | cons e more =>
      -- the letter behind the tail is one of the word's and the first of `back`
      obtain ⟨_, same⟩ := List.cons.inj longer
      rw [← longer, prefix_append_right_inj] at here
      obtain ⟨_, split⟩ := here
      have head : e = c := boundary e (by rw [← split]; rfl)
      refine absurd ?_ once
      rw [← same, head]
      exact mem_append_right _ mem_cons_self

omit [DecidableEq α] in
theorem infix_of_headed (headed : ∃ rest, word = c :: rest ∧ c ∉ rest) (boundary : ∀ d ∈ back.head?, d = c) (occurs : word <:+: front ++ back) :
    word <:+: front ∨ word <:+: back := by
  induction front with
  | nil => exact .inr occurs
  | cons d front ih =>
    rcases List.infix_cons_iff.mp occurs with here | later
    · exact .inl (prefix_of_headed headed (cons_ne_nil d front) boundary here).isInfix
    · exact (ih later).imp (fun lt => lt.trans (suffix_cons d front).isInfix) id

end

section
variable {word front back left right : List α}

omit [DecidableEq α] in
theorem append_cases (same : left ++ right = front ++ (word ++ back)) :
    (∃ more, front = left ++ more ∧ right = more ++ (word ++ back)) ∨ (∃ more, left = front ++ word ++ more ∧ back = more ++ right) ∨
      ∃ head tail, head ≠ [] ∧ tail ≠ [] ∧ word = head ++ tail ∧ left = front ++ head ∧ right = tail ++ back := by
  rcases append_eq_append_iff.mp same with ⟨more, rfl, rest⟩ | ⟨head, rfl, rest⟩
  · exact .inl ⟨more, rfl, rest⟩
  · rcases append_eq_append_iff.mp rest.symm with ⟨tail, rfl, behind⟩ | ⟨more, rfl, behind⟩
    · by_cases none : head = []
      · subst none
        exact .inl ⟨[], by rw [append_nil, append_nil], behind⟩
      · by_cases all : tail = []
        · subst all
          exact .inr (.inl ⟨[], by rw [append_nil, append_nil], behind.symm⟩)
        · exact .inr (.inr ⟨head, tail, none, all, rfl, rfl, behind⟩)
    · exact .inr (.inl ⟨more, (append_assoc ..).symm, behind⟩)

end

section
variable {β : Type} {p : β → Bool} {front text : List β}

theorem prefix_rdropWhile (begins : front <+: text) (last : ∀ c, front.getLast? = some c → p c = false) : front <+: text.rdropWhile p := by
  induction text using reverseRecOn with
  | nil => exact begins
  | append_singleton text c ih =>
    rcases List.prefix_concat_iff.mp begins with whole | shorter
    · have kept : p c = false := last c (by rw [whole, getLast?_concat])
      rw [rdropWhile_concat_neg _ _ _ (by rw [kept]; exact Bool.false_ne_true)]
      exact begins
    · by_cases drops : p c = true
      · rw [rdropWhile_concat_pos _ _ _ drops]
        exact ih shorter
      · rw [rdropWhile_concat_neg _ _ _ drops]
        exact begins

end

end TriaxialKV.Text
