import PluginHost.Version
import PluginHost.Text.Blank

/-! # Reading versions

`Version.ofStrict?` reads the notation of `Version.chars` and nothing else.
`Version.ofText?` is what metadata and configuration are read with: blanks at
the ends do not count, and one to three plain numbers stand for a release whose
missing numbers are zero, with leading zeros allowed. -/
namespace PluginHost
namespace Version

/-- A number of at least one digit, below 2^64. -/
def number? (cs : List Char) : Option UInt64 :=
  let n := Nat.ofDigitChars 10 cs 0
  if !cs.isEmpty && cs.all Char.isDigit && n < UInt64.size then some (UInt64.ofNat n) else none

/-- Digits that start with `0` only when they are `0`. -/
def isPlain (cs : List Char) : Bool := cs.head? != some '0' || cs.length == 1

/-- A number without leading zeros. -/
def strictNumber? (cs : List Char) : Option UInt64 :=
  if isPlain cs then number? cs else none

/-- The word of these characters, if they are one. -/
def Word.of? (cs : List Char) : Option Word :=
  if h : (cs.all isIdentifierChar && cs.any (!·.isDigit)) = true then some ⟨cs, h⟩ else none

/-- Digits make a number, which takes no leading zeros; other characters of
identifiers make a word. -/
def PreIdentifier.of? (cs : List Char) : Option PreIdentifier :=
  if !cs.isEmpty && cs.all Char.isDigit then
    if isPlain cs then some (.number (Nat.ofDigitChars 10 cs 0)) else none
  else (Word.of? cs).map .word

/-- Digits make a number with the zeros that lead it, the last digit apart;
other characters of identifiers make a word. -/
def BuildIdentifier.of? (cs : List Char) : Option BuildIdentifier :=
  if !cs.isEmpty && cs.all Char.isDigit then
    let value := Nat.ofDigitChars 10 cs 0
    some (.number (cs.length - (digits value).length) value)
  else (Word.of? cs).map .word

/-- The text before the first `sep`, and the text after it if there is one. -/
def cut (sep : Char) (cs : List Char) : List Char × Option (List Char) :=
  (cs.takeWhile (· != sep), (cs.dropWhile (· != sep)).tail?)

/-- A list of identifiers, none of them empty, that a sign announces: no sign
means no identifiers. -/
def identifiers? {α : Type} (read : List Char → Option α) :
    Option (List Char) → Option (List α)
  | none => some []
  | some cs => (cs.splitOn '.').mapM read

/-- Reads the notation of a version. -/
def ofStrict? (cs : List Char) : Option Version := do
  let (front, buildPart) := cut '+' cs
  let (numbers, prePart) := cut '-' front
  let build ← identifiers? BuildIdentifier.of? buildPart
  let pre ← identifiers? PreIdentifier.of? prePart
  match numbers.splitOn '.' with
  | [a, b, c] => return ⟨← strictNumber? a, ← strictNumber? b, ← strictNumber? c, pre, build⟩
  | _ => none

/-- Reads one to three numbers as a release. -/
def ofShort? (cs : List Char) : Option Version :=
  match (cs.splitOn '.').mapM number? with
  | some [a] => some (release a 0 0)
  | some [a, b] => some (release a b 0)
  | some [a, b, c] => some (release a b c)
  | _ => none

/-- Reads a version as metadata and configuration write it. -/
def ofText? (s : String) : Option Version :=
  let cs := Text.trim s.toList
  ofStrict? cs <|> ofShort? cs

end Version
end PluginHost
