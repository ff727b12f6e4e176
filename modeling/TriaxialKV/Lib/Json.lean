import Mathlib.Data.List.Basic
import Mathlib.Data.Char
import Mathlib.Tactic.Common

/-! # JSON texts -/

namespace TriaxialKV
open List

def isDigit (c : Char) : Bool := '0' ≤ c && c ≤ '9'

/-- `-`, an integer part without leading zeros, a fraction and an exponent. -/
def IsJsonNumber (text : List Char) : Prop :=
  ∃ sign whole fraction exponent, text = sign ++ whole ++ fraction ++ exponent ∧ (sign = [] ∨ sign = ['-']) ∧
    (whole = ['0'] ∨ ∃ first digits, whole = first :: digits ∧ first ≠ '0' ∧ isDigit first ∧ digits.all isDigit) ∧
    (fraction = [] ∨ ∃ digits, fraction = '.' :: digits ∧ digits ≠ [] ∧ digits.all isDigit) ∧
    (exponent = [] ∨ ∃ letter sign digits, exponent = letter :: sign ++ digits ∧ (letter = 'e' ∨ letter = 'E') ∧
      (sign = [] ∨ sign = ['+'] ∨ sign = ['-']) ∧ digits ≠ [] ∧ digits.all isDigit)

/-- A number, given by the text that `json.dumps` prints for it. -/
structure JsonNumber where
  text : List Char
  valid : IsJsonNumber text

inductive Json where
  | null
  | bool (b : Bool)
  | number (n : JsonNumber)
  | string (s : List Char)
  | array (items : List Json)
  | object (members : List (List Char × Json))

namespace Json

def hexValue (c : Char) : Option Nat :=
  if isDigit c then some (c.toNat - '0'.toNat)
  else if 'a' ≤ c ∧ c ≤ 'f' then some (c.toNat - 'a'.toNat + 10)
  else if 'A' ≤ c ∧ c ≤ 'F' then some (c.toNat - 'A'.toNat + 10)
  else none

def Hex4 (digits : List Char) (n : Nat) : Prop :=
  ∃ a b c d, digits.map hexValue = [some a, some b, some c, some d] ∧ n = ((a * 16 + b) * 16 + c) * 16 + d

def shortEscapes : List (Char × Char) := [('"', '"'), ('\\', '\\'), ('/', '/'), ('b', '\x08'), ('f', '\x0c'), ('n', '\n'), ('r', '\r'), ('t', '\t')]

/-- What the inside of a string literal denotes. -/
inductive Chars : List Char → List Char → Prop where
  | nil : Chars [] []
  | plain {c : Char} {text s : List Char} (quote : c ≠ '"') (backslash : c ≠ '\\') (printable : 0x20 ≤ c.toNat) (rest : Chars text s) :
    Chars (c :: text) (c :: s)
  | escape {e c : Char} {text s : List Char} (known : (e, c) ∈ shortEscapes) (rest : Chars text s) : Chars ('\\' :: e :: text) (c :: s)
  | unit {digits text s : List Char} {c : Char} (hex : Hex4 digits c.toNat) (rest : Chars text s) : Chars ('\\' :: 'u' :: digits ++ text) (c :: s)
  | pair {digits digits' text s : List Char} {high low : Nat} {c : Char} (hex : Hex4 digits (0xd800 + high)) (hex' : Hex4 digits' (0xdc00 + low))
    (high_lt : high < 0x400) (low_lt : low < 0x400) (value : c.toNat = 0x10000 + high * 0x400 + low) (rest : Chars text s) :
    Chars ('\\' :: 'u' :: digits ++ ('\\' :: 'u' :: digits' ++ text)) (c :: s)

def Literal (text s : List Char) : Prop := ∃ inside, text = '"' :: inside ++ ['"'] ∧ Chars inside s

def Blank (text : List Char) : Prop := ∀ c ∈ text, c = ' ' ∨ c = '\t' ∨ c = '\n' ∨ c = '\r'

mutual

/-- The texts of a value that have its numbers as `json.dumps` prints them. -/
inductive Denotes : List Char → Json → Prop where
  | null : Denotes ['n', 'u', 'l', 'l'] .null
  | true : Denotes ['t', 'r', 'u', 'e'] (.bool true)
  | false : Denotes ['f', 'a', 'l', 's', 'e'] (.bool false)
  | number (n : JsonNumber) : Denotes n.text (.number n)
  | string {text s : List Char} (literal : Literal text s) : Denotes text (.string s)
  | array {text : List Char} {items : List Json} (inside : Items text items) : Denotes ('[' :: text ++ [']']) (.array items)
  | object {text : List Char} {members : List (List Char × Json)} (inside : Members text members) : Denotes ('{' :: text ++ ['}']) (.object members)

inductive Items : List Char → List Json → Prop where
  | none {text : List Char} (blank : Blank text) : Items text []
  | one {left text right : List Char} {value : Json} (before : Blank left) (behind : Blank right) (item : Denotes text value) :
    Items (left ++ text ++ right) [value]
  | more {left text right rest : List Char} {value next : Json} {values : List Json} (before : Blank left) (behind : Blank right)
    (item : Denotes text value) (later : Items rest (next :: values)) :
    Items (left ++ text ++ right ++ ',' :: rest) (value :: next :: values)

inductive Members : List Char → List (List Char × Json) → Prop where
  | none {text : List Char} (blank : Blank text) : Members text []
  | one {left key middle middle' text right name : List Char} {value : Json} (before : Blank left) (inner : Blank middle) (inner' : Blank middle')
    (behind : Blank right) (literal : Literal key name) (item : Denotes text value) :
    Members (left ++ key ++ middle ++ ':' :: middle' ++ text ++ right) [(name, value)]
  | more {left key middle middle' text right rest name : List Char} {value : Json} {next : List Char × Json}
    {members : List (List Char × Json)} (before : Blank left) (inner : Blank middle) (inner' : Blank middle') (behind : Blank right)
    (literal : Literal key name) (item : Denotes text value) (later : Members rest (next :: members)) :
    Members (left ++ key ++ middle ++ ':' :: middle' ++ text ++ right ++ ',' :: rest) ((name, value) :: next :: members)

end

def hexDigit (n : Nat) : Char := if n < 10 then Char.ofNat ('0'.toNat + n) else Char.ofNat ('a'.toNat + (n - 10))

/-- `\uXXXX` -/
def unicodeEscape (n : Nat) : List Char := ['\\', 'u', hexDigit (n / 4096 % 16), hexDigit (n / 256 % 16), hexDigit (n / 16 % 16), hexDigit (n % 16)]

def escapeChar (ensureAscii : Bool) (c : Char) : List Char :=
  if c = '"' then ['\\', '"']
  else if c = '\\' then ['\\', '\\']
  else if c = '\n' then ['\\', 'n']
  else if c = '\r' then ['\\', 'r']
  else if c = '\t' then ['\\', 't']
  else if c = '\x0c' then ['\\', 'f']
  else if c = '\x08' then ['\\', 'b']
  else if c.toNat < 0x20 then unicodeEscape c.toNat
  else if ensureAscii = true ∧ 0x7e < c.toNat then
    if c.toNat < 0x10000 then unicodeEscape c.toNat
    else unicodeEscape (0xd800 + (c.toNat - 0x10000) / 0x400) ++ unicodeEscape (0xdc00 + (c.toNat - 0x10000) % 0x400)
  else [c]

def dumpsString (ensureAscii : Bool) (s : List Char) : List Char := '"' :: s.flatMap (escapeChar ensureAscii) ++ ['"']

mutual

def dumps (ensureAscii : Bool) : Json → List Char
  | .null => ['n', 'u', 'l', 'l']
  | .bool true => ['t', 'r', 'u', 'e']
  | .bool false => ['f', 'a', 'l', 's', 'e']
  | .number n => n.text
  | .string s => dumpsString ensureAscii s
  | .array items => '[' :: dumpsItems ensureAscii items ++ [']']
  | .object members => '{' :: dumpsMembers ensureAscii members ++ ['}']

def dumpsItems (ensureAscii : Bool) : List Json → List Char
  | [] => []
  | [item] => dumps ensureAscii item
  | item :: items => dumps ensureAscii item ++ ',' :: ' ' :: dumpsItems ensureAscii items

def dumpsMembers (ensureAscii : Bool) : List (List Char × Json) → List Char
  | [] => []
  | [(key, value)] => dumpsString ensureAscii key ++ ':' :: ' ' :: dumps ensureAscii value
  | (key, value) :: members =>
    dumpsString ensureAscii key ++ ':' :: ' ' :: dumps ensureAscii value ++ ',' :: ' ' :: dumpsMembers ensureAscii members

end

theorem hexValue_hexDigit {n : Nat} (small : n < 16) : hexValue (hexDigit n) = some n := by
  revert n
  decide

theorem hex4_unicodeEscape {n : Nat} (small : n < 0x10000) : ∃ digits, unicodeEscape n = '\\' :: 'u' :: digits ∧ Hex4 digits n := by
  refine ⟨_, rfl, n / 4096 % 16, n / 256 % 16, n / 16 % 16, n % 16, ?_, by omega⟩
  simp only [map_cons, map_nil, hexValue_hexDigit (Nat.mod_lt _ (by decide : 0 < 16))]

theorem Chars.unicodeEscape {c : Char} {text s : List Char} (small : c.toNat < 0x10000) (rest : Chars text s) :
    Chars (unicodeEscape c.toNat ++ text) (c :: s) := by
  obtain ⟨_, written, hex⟩ := hex4_unicodeEscape small
  rw [written]
  exact .unit hex rest

theorem toNat_lt (c : Char) : c.toNat < 0x110000 := by
  rcases c.valid with small | ⟨_, large⟩
  · exact Nat.lt_trans small (by decide)
  · exact large

theorem Chars.escapeChar (ensureAscii : Bool) (c : Char) {text s : List Char} (rest : Chars text s) :
    Chars (escapeChar ensureAscii c ++ text) (c :: s) := by
  unfold Json.escapeChar
  by_cases quote : c = '"'
  · rw [if_pos quote, quote]
    exact .escape (by decide) rest
  rw [if_neg quote]
  by_cases backslash : c = '\\'
  · rw [if_pos backslash, backslash]
    exact .escape (by decide) rest
  rw [if_neg backslash]
  by_cases newline : c = '\n'
  · rw [if_pos newline, newline]
    exact .escape (by decide) rest
  rw [if_neg newline]
  by_cases carriage : c = '\r'
  · rw [if_pos carriage, carriage]
    exact .escape (by decide) rest
  rw [if_neg carriage]
  by_cases tab : c = '\t'
  · rw [if_pos tab, tab]
    exact .escape (by decide) rest
  rw [if_neg tab]
  by_cases feed : c = '\x0c'
  · rw [if_pos feed, feed]
    exact .escape (by decide) rest
  rw [if_neg feed]
  by_cases back : c = '\x08'
  · rw [if_pos back, back]
    exact .escape (by decide) rest
  rw [if_neg back]
  by_cases control : c.toNat < 0x20
  · rw [if_pos control]
    exact .unicodeEscape (by omega) rest
  rw [if_neg control]
  split
  · split
    · next small => exact .unicodeEscape small rest
    · next _ =>
      have bound := toNat_lt c
      obtain ⟨_, written, hex⟩ := hex4_unicodeEscape (n := 0xd800 + (c.toNat - 0x10000) / 0x400) (by omega)
      obtain ⟨_, written', hex'⟩ := hex4_unicodeEscape (n := 0xdc00 + (c.toNat - 0x10000) % 0x400) (by omega)
      rw [written, written', append_assoc]
      exact .pair hex hex' (by omega) (by omega) (by omega) rest
  · exact .plain quote backslash (by omega) rest

theorem literal_dumps (ensureAscii : Bool) (s : List Char) : Literal (dumpsString ensureAscii s) s := by
  refine ⟨_, rfl, ?_⟩
  induction s with
  | nil => exact .nil
  | cons c s ih => exact ih.escapeChar ensureAscii c

theorem blank_nil : Blank [] := nofun

theorem blank_space : Blank [' '] := fun _ mem => .inl (mem_singleton.mp mem)

theorem Members.cons (ensureAscii : Bool) (key : List Char) {left text rest : List Char} {value : Json}
    {members : List (List Char × Json)} (before : Blank left)
    (item : Denotes text value) (later : members = [] ∧ rest = [] ∨ ∃ more, rest = ',' :: more ∧ members ≠ [] ∧ Members more members) :
    Members (left ++ (dumpsString ensureAscii key ++ (':' :: ' ' :: text ++ rest))) ((key, value) :: members) := by
  rcases later with ⟨rfl, rfl⟩ | ⟨more, rfl, some, later⟩
  · have one := Members.one before blank_nil blank_space blank_nil (literal_dumps ensureAscii key) item
    simpa using one
  · obtain ⟨_, members, rfl⟩ := exists_cons_of_ne_nil some
    have several := Members.more before blank_nil blank_space blank_nil (literal_dumps ensureAscii key) item later
    simpa using several

mutual

theorem denotes_dumps (ensureAscii : Bool) : ∀ value : Json, Denotes (dumps ensureAscii value) value
  | .null => .null
  | .bool true => .true
  | .bool false => .false
  | .number n => .number n
  | .string s => .string (literal_dumps ensureAscii s)
  | .array items => .array (items_dumps ensureAscii blank_nil items)
  | .object members => .object (members_dumps ensureAscii blank_nil members)

theorem items_dumps (ensureAscii : Bool) {left : List Char} (before : Blank left) :
    ∀ items : List Json, Items (left ++ dumpsItems ensureAscii items) items
  | [] => by
    rw [dumpsItems, append_nil]
    exact .none before
  | [item] => by
    have one := Items.one before blank_nil (denotes_dumps ensureAscii item)
    rw [append_nil] at one
    exact one
  | item :: next :: items => by
    have later := items_dumps ensureAscii blank_space (next :: items)
    have several := Items.more before blank_nil (denotes_dumps ensureAscii item) later
    rw [append_nil, append_assoc] at several
    exact several

theorem members_dumps (ensureAscii : Bool) {left : List Char} (before : Blank left) :
    ∀ members : List (List Char × Json), Members (left ++ dumpsMembers ensureAscii members) members
  | [] => by
    rw [dumpsMembers, append_nil]
    exact .none before
  | [(key, value)] => by
    have one := Members.cons ensureAscii key before (denotes_dumps ensureAscii value) (.inl ⟨rfl, rfl⟩)
    rw [append_nil] at one
    exact one
  | (key, value) :: next :: members => by
    have later := members_dumps ensureAscii blank_space (next :: members)
    have several := Members.cons ensureAscii key before (denotes_dumps ensureAscii value) (.inr ⟨_, rfl, cons_ne_nil _ _, later⟩)
    rw [← append_assoc (dumpsString ensureAscii key)] at several
    exact several

end

end Json

end TriaxialKV
