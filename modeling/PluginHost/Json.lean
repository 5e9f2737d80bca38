/-! # Writing JSON

Reports and module metadata are written as JSON, either on one line
(`Json.compact`) or over several lines (`Json.pretty`).  Neither holds numbers,
so the type of values has none. -/
namespace PluginHost

/-- A value to be written as JSON. -/
inductive Json where
  | null
  | boolean (value : Bool)
  | string (text : String)
  | array (items : List Json)
  | object (members : List (String × Json))

namespace Json

/-- The text, or `null` when there is none. -/
def ofText? : Option String → Json
  | none => .null
  | some s => .string s

/-! ## Strings -/

/-- A digit of a number below sixteen. -/
def hexDigit (n : Nat) : Char := Nat.digitChar n

/-- A character as it stands in a string: only quotes, backslashes and control
characters are escaped. -/
def escape (c : Char) : List Char :=
  if c = '"' then ['\\', '"']
  else if c = '\\' then ['\\', '\\']
  else if c = '\x08' then ['\\', 'b']
  else if c = '\t' then ['\\', 't']
  else if c = '\n' then ['\\', 'n']
  else if c = '\x0c' then ['\\', 'f']
  else if c = '\r' then ['\\', 'r']
  else if c.toNat < 0x20 then
    ['\\', 'u', '0', '0', hexDigit (c.toNat / 16), hexDigit (c.toNat % 16)]
  else [c]

/-- A string in quotes. -/
def quoted (s : String) : List Char := '"' :: s.toList.flatMap escape ++ ['"']

/-- The spelling of a truth value. -/
def spelling : Bool → List Char
  | true => "true".toList
  | false => "false".toList

/-! ## One line -/

mutual
/-- The text of a value without any white space. -/
def compactChars : Json → List Char
  | .null => "null".toList
  | .boolean b => spelling b
  | .string s => quoted s
  | .array [] => ['[', ']']
  | .array (item :: items) => '[' :: compactChars item ++ compactItems items
  | .object [] => ['{', '}']
  | .object ((name, value) :: members) =>
    '{' :: quoted name ++ ':' :: compactChars value ++ compactMembers members

/-- The items behind the first, and the end of the array. -/
def compactItems : List Json → List Char
  | [] => [']']
  | item :: items => ',' :: compactChars item ++ compactItems items

/-- The members behind the first, and the end of the object. -/
def compactMembers : List (String × Json) → List Char
  | [] => ['}']
  | (name, value) :: members =>
    ',' :: quoted name ++ ':' :: compactChars value ++ compactMembers members
end

/-- A value on one line. -/
def compact (v : Json) : String := String.ofList v.compactChars

/-! ## Several lines -/

/-- A new line at a depth of nesting: two blanks a level. -/
def newline (depth : Nat) : List Char := '\n' :: List.replicate (2 * depth) ' '

mutual
/-- The text of a value that stands at a depth, with a line for each item and
each member. -/
def prettyChars (depth : Nat) : Json → List Char
  | .null => "null".toList
  | .boolean b => spelling b
  | .string s => quoted s
  | .array [] => ['[', ']']
  | .array (item :: items) =>
    '[' :: newline (depth + 1) ++ prettyChars (depth + 1) item ++ prettyItems depth items
  | .object [] => ['{', '}']
  | .object ((name, value) :: members) =>
    '{' :: newline (depth + 1) ++ quoted name ++ ':' :: ' ' :: prettyChars (depth + 1) value
      ++ prettyMembers depth members

/-- The items behind the first, and the end of the array. -/
def prettyItems (depth : Nat) : List Json → List Char
  | [] => newline depth ++ [']']
  | item :: items =>
    ',' :: newline (depth + 1) ++ prettyChars (depth + 1) item ++ prettyItems depth items

/-- The members behind the first, and the end of the object. -/
def prettyMembers (depth : Nat) : List (String × Json) → List Char
  | [] => newline depth ++ ['}']
  | (name, value) :: members =>
    ',' :: newline (depth + 1) ++ quoted name ++ ':' :: ' ' :: prettyChars (depth + 1) value
      ++ prettyMembers depth members
end

/-- A value over several lines. -/
def pretty (v : Json) : String := String.ofList (v.prettyChars 0)

end Json
end PluginHost
