import PluginHost.Config.Value
import PluginHost.Decimal.Numeral
import PluginHost.Text.Blank
import PluginHost.Text.Reader
import PluginHost.Toml.Reading

/-! # Settings in environment variables

A variable whose name starts with `GAUNTLET_` sets a value: what follows names
the key, and the text is read by `ConfigVariable.valueOf`.  Numbers, truth
values, lists between brackets and tables between braces have a notation of
their own; what is none of these is a text. -/
namespace PluginHost

/-- Environment variables: names and texts, in their order. -/
abbrev Environment := List (String × String)

namespace ConfigVariable

/-! ## Values -/

/-- White space of ASCII. -/
def isSpace (c : Char) : Bool :=
  c == ' ' || c == '\t' || c == '\n' || c == '\x0c' || c == '\r'

/-- The text without the white space it starts with. -/
def skipSpaces (cs : List Char) : List Char := cs.dropWhile isSpace

theorem length_skipSpaces (cs : List Char) : (skipSpaces cs).length ≤ cs.length :=
  (List.dropWhile_sublist isSpace).length_le

/-- The characters of text without quotes. -/
def isBare (c : Char) : Bool :=
  !(c == ',' || c == '\x7b' || c == '\x7d' || c == '[' || c == ']')

/-- Digits, and nothing else. -/
def isNumber (cs : List Char) : Bool := !cs.isEmpty && cs.all Char.isDigit

/-- A number with a point, in front of which or behind which digits may be
missing. -/
def float? (cs : List Char) : Option Float :=
  let n := Numeral.ofChars cs
  match n.fraction with
  | none => none
  | some fraction =>
    if isNumber (n.whole ++ fraction) && n.exponent.all (isNumber ·.2) then some n.toFloat
    else none

/-- A number without a sign, or with a plus, that fits 64 bits. -/
def unsigned? (cs : List Char) : Option Nat :=
  let (negative, digits) := Numeral.sign cs
  let value := Numeral.value digits
  if !negative && isNumber digits && value < Nat.pow 2 64 then some value else none

/-- A negative number that fits 64 bits. -/
def signed? (cs : List Char) : Option Int :=
  let (negative, digits) := Numeral.sign cs
  let value := Numeral.value digits
  if negative && isNumber digits && value ≤ Nat.pow 2 63 then some (-value) else none

/-- What a text without quotes stands for. -/
def bare (cs : List Char) : ConfigValue :=
  match float? cs, unsigned? cs, signed? cs with
  | some x, _, _ => .float x
  | none, some n, _ => .unsigned n
  | none, none, some n => .signed n
  | none, none, none => .string (String.ofList cs)

/-- The name of a member of a table, and what follows it. -/
def name? : List Char → Option (List Char × List Char)
  | '"' :: rest => TomlText.basic? rest
  | cs => TomlText.bareName? cs

/-- The name of a member and what follows the mark `=` behind it. -/
def memberName? (cs : List Char) : Option (List Char × List Char) :=
  match name? (skipSpaces cs) with
  | none => none
  | some (name, rest) =>
    match skipSpaces rest with
    | '=' :: rest => some (name, rest)
    | _ => none

theorem length_memberName? {cs name rest : List Char} (h : memberName? cs = some (name, rest)) :
    rest.length < cs.length := by
  have h₁ := length_skipSpaces cs
  unfold memberName? at h
  split at h
  · simp at h
  · rename_i n back hn
    have h₂ := length_skipSpaces back
    have h₃ : back.length < (skipSpaces cs).length := by
      unfold name? at hn
      split at hn
      · rename_i heq
        rw [heq]
        exact Nat.lt_succ_of_lt (TomlText.length_basic? hn)
      · exact TomlText.length_bareName? hn
    split at h
    · rename_i heq
      obtain ⟨-, rfl⟩ := Prod.mk.inj (Option.some.inj h)
      rw [heq] at h₂
      simp only [List.length_cons] at h₂
      omega
    · simp at h

/-- A member of a table. -/
def member (value : Reader ConfigValue) : Reader (String × ConfigValue) where
  read cs := do
    let (name, rest) ← memberName? cs
    let (v, rest) ← value.read rest
    return ((String.ofList name, v), rest)
  length_le h := by
    obtain ⟨⟨name, back⟩, hn, h⟩ := Option.bind_eq_some_iff.mp h
    obtain ⟨⟨v, r⟩, hv, h⟩ := Option.bind_eq_some_iff.mp h
    obtain ⟨-, rfl⟩ := Prod.mk.inj (Option.some.inj h)
    exact Nat.le_trans (value.length_le hv) (Nat.le_of_lt (length_memberName? hn))

/-- How lists are written. -/
def listForm : ListForm := ⟨']', true, id, fun _ => Nat.le_refl _⟩

/-- How tables are written. -/
def tableForm : ListForm := ⟨'\x7d', true, id, fun _ => Nat.le_refl _⟩

/-- A table in which the last of several members of one name counts. -/
def tableOf (members : List (String × ConfigValue)) : ConfigTable :=
  members.foldl (fun t (name, value) => ConfigTable.put name none value t) []

/-- The value that a text starts with, whose parts `part` reads.  Without that it
has none. -/
def first? (part : Option (Reader ConfigValue)) :
    List Char → Option (ConfigValue × List Char)
  | 't' :: 'r' :: 'u' :: 'e' :: rest => some (.boolean true, rest)
  | 'f' :: 'a' :: 'l' :: 's' :: 'e' :: rest => some (.boolean false, rest)
  | '{' :: rest => do
    let (members, rest) ← tableForm.read (member (← part)) true rest
    return (.table (tableOf members), rest)
  | '[' :: rest => do
    let (items, rest) ← listForm.read (← part) true rest
    return (.sequence items, rest)
  | '"' :: rest =>
    (TomlText.basic? rest).map fun (text, rest) => (.string (String.ofList text), rest)
  | '\'' :: c :: '\'' :: rest => some (.string (String.singleton c), rest)
  -- A single quote opens nothing but a character.
  | '\'' :: _ => none
  | cs => some (bare (Text.trim (cs.takeWhile isBare)), cs.dropWhile isBare)

theorem length_first? {part : Option (Reader ConfigValue)} {cs rest : List Char}
    {v : ConfigValue} (h : first? part cs = some (v, rest)) : rest.length ≤ cs.length := by
  unfold first? at h
  split at h
  · obtain ⟨-, rfl⟩ := Prod.mk.inj (Option.some.inj h)
    simp only [List.length_cons]; omega
  · obtain ⟨-, rfl⟩ := Prod.mk.inj (Option.some.inj h)
    simp only [List.length_cons]; omega
  · obtain ⟨part, -, h⟩ := Option.bind_eq_some_iff.mp h
    obtain ⟨⟨members, r⟩, hm, h⟩ := Option.bind_eq_some_iff.mp h
    obtain ⟨-, rfl⟩ := Prod.mk.inj (Option.some.inj h)
    exact Nat.le_succ_of_le (tableForm.length_read (member part) hm)
  · obtain ⟨part, -, h⟩ := Option.bind_eq_some_iff.mp h
    obtain ⟨⟨items, r⟩, hi, h⟩ := Option.bind_eq_some_iff.mp h
    obtain ⟨-, rfl⟩ := Prod.mk.inj (Option.some.inj h)
    exact Nat.le_succ_of_le (listForm.length_read part hi)
  · obtain ⟨⟨text, r⟩, ht, h⟩ := Option.map_eq_some_iff.mp h
    obtain ⟨-, rfl⟩ := Prod.mk.inj h
    exact Nat.le_of_lt (Nat.lt_succ_of_lt (TomlText.length_basic? ht))
  · obtain ⟨-, rfl⟩ := Prod.mk.inj (Option.some.inj h)
    simp only [List.length_cons]; omega
  · simp at h
  · obtain ⟨-, rfl⟩ := Prod.mk.inj (Option.some.inj h)
    exact (List.dropWhile_sublist isBare).length_le

/-- A value between white space. -/
def readerOf (part : Option (Reader ConfigValue)) : Reader ConfigValue where
  read cs := (first? part (skipSpaces cs)).map fun (v, rest) => (v, skipSpaces rest)
  length_le {cs _ _} h := by
    obtain ⟨⟨v, r⟩, hv, h⟩ := Option.map_eq_some_iff.mp h
    obtain ⟨-, rfl⟩ := Prod.mk.inj h
    exact Nat.le_trans (length_skipSpaces r)
      (Nat.le_trans (length_first? hv) (length_skipSpaces cs))

/-- A value with so many levels of parts at most. -/
def reader : (depth : Nat) → Reader ConfigValue
  | 0 => readerOf none
  | depth + 1 => readerOf (some (reader depth))

/-- What a text stands for.  One that is not written as a value to its end is a
text.  No value has more levels than its text has characters. -/
def valueOf (text : String) : ConfigValue :=
  match (reader text.length).read text.toList with
  | some (value, []) => value
  | _ => .string text

/-! ## Keys -/

/-- What the names of all variables start with, in any case. -/
def nameStart : List Char := "gauntlet_".toList

/-- The sections that a name leads into. -/
def sections : List String := ["host", "discovery", "log"]

/-- The key that a name stands for.  The underscore behind the name of a section
leads into it, and all others belong to the name of the key. -/
def keyOf (name : List Char) : List Char :=
  let inSection? := sections.findSome? fun s =>
    let start := s.toList ++ ['_']
    if start.isPrefixOf name then some (s.toList ++ '.' :: name.drop start.length) else none
  inSection?.getD name

/-- The names on the way to the key that a variable sets, if it sets one.  Blanks
at the ends of the variable's name and of the whole key do not count. -/
def pathOf? (name : String) : Option (List String) :=
  let lower := (Text.trim name.toList).map Char.toLower
  if nameStart.isPrefixOf lower then
    let path := (Text.trim (keyOf (lower.drop nameStart.length))).splitOn '.'
    if path.any List.isEmpty then none else some (path.map String.ofList)
  else none

/-- The table with a value at a path, and nothing else. -/
def nest (value : ConfigValue) : (path : List String) → ConfigTable
  | [] => []
  | [name] => [(name, none, value)]
  | name :: path => [(name, none, .table (nest value path))]

end ConfigVariable

/-- What environment variables set, of which later ones are laid onto earlier
ones. -/
def ConfigTable.ofEnvironment (environment : Environment) : ConfigTable :=
  environment.foldl (fun t (name, text) =>
    match ConfigVariable.pathOf? name with
    | some path => (ConfigVariable.nest (ConfigVariable.valueOf text) path : ConfigTable).onto t
    | none => t) []

end PluginHost
