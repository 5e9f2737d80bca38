import PluginHost.Text.Escape
import PluginHost.Text.Search

/-! # Strings in TOML

A string is written on one line or on several, and with escapes or literally.
`TomlText.read?` reads all four forms, and `TomlText.write` chooses one: the first
of them in which the text can stand as it is, and escapes only where there is
none. -/
namespace PluginHost
namespace TomlText

/-- Characters that stand in comments and strings: a tab, and what is no control
character of ASCII. -/
def isPlain (c : Char) : Bool := c == '\t' || (0x20 ≤ c.toNat && c.toNat != 0x7F)

/-- A blank within a line. -/
def isSpace (c : Char) : Bool := c == ' ' || c == '\t'

/-! ## Reading -/

/-- What follows a backslash at the end of a line: the text behind all blanks
and line ends, of which there is at least one line end. -/
def afterFold? (cs : List Char) : Option (List Char) :=
  match cs.dropWhile isSpace with
  | '\n' :: rest => some (skipBreaks rest)
  | '\r' :: '\n' :: rest => some (skipBreaks rest)
  | _ => none
where
  /-- What follows blanks and line ends. -/
  skipBreaks : List Char → List Char
    | ' ' :: rest => skipBreaks rest
    | '\t' :: rest => skipBreaks rest
    | '\n' :: rest => skipBreaks rest
    | '\r' :: '\n' :: rest => skipBreaks rest
    | cs => cs

theorem length_skipBreaks (cs : List Char) : (afterFold?.skipBreaks cs).length ≤ cs.length := by
  fun_induction afterFold?.skipBreaks cs <;> grind

theorem length_afterFold? {cs rest : List Char} (h : afterFold? cs = some rest) :
    rest.length < cs.length := by
  have hle := (List.dropWhile_sublist (l := cs) isSpace).length_le
  unfold afterFold? at h
  split at h
  · rename_i r heq
    obtain rfl := Option.some.inj h
    have := length_skipBreaks r
    rw [heq] at hle
    simp only [List.length_cons] at hle
    omega
  · rename_i r heq
    obtain rfl := Option.some.inj h
    have := length_skipBreaks r
    rw [heq] at hle
    simp only [List.length_cons] at hle
    omega
  · simp at h

/-- A text with one more character in front, and what is left behind it. -/
def push (c : Char) (read : List Char × List Char) : List Char × List Char :=
  (c :: read.1, read.2)

/-- A string with escapes on one line, behind its first quote. -/
def basic? (cs : List Char) : Option (List Char × List Char) :=
  match cs with
  | [] => none
  | '"' :: rest => some ([], rest)
  | '\\' :: rest =>
    match h : Text.escape? rest with
    | none => none
    | some (c, rest) =>
      have := Text.length_escape? h
      (basic? rest).map (push c)
  | c :: rest =>
    if isPlain c then (basic? rest).map (push c) else none
termination_by cs.length

/-- A literal string on one line, behind its first quote. -/
def literal? : List Char → Option (List Char × List Char)
  | [] => none
  | '\'' :: rest => some ([], rest)
  | c :: rest =>
    if isPlain c then (literal? rest).map (push c) else none

/-- The quotes behind the first three of a run that ends a string: up to two of
them belong to the text. -/
def closingRun (quote : Char) : List Char → List Char × List Char
  | a :: b :: rest =>
    if a == quote && b == quote then ([a, b], rest)
    else if a == quote then ([a], b :: rest)
    else ([], a :: b :: rest)
  | a :: rest => if a == quote then ([a], rest) else ([], a :: rest)
  | [] => ([], [])

/-- A string with escapes on several lines, behind its first quotes. -/
def multiBasic? (cs : List Char) : Option (List Char × List Char) :=
  match cs with
  | [] => none
  | '"' :: '"' :: '"' :: rest => some (closingRun '"' rest)
  | '\\' :: rest =>
    match h : Text.escape? rest with
    | some (c, rest) =>
      have := Text.length_escape? h
      (multiBasic? rest).map (push c)
    | none =>
      match h : afterFold? rest with
      | none => none
      | some rest =>
        have := length_afterFold? h
        multiBasic? rest
  | '\n' :: rest => (multiBasic? rest).map (push '\n')
  | '\r' :: '\n' :: rest => (multiBasic? rest).map (push '\n')
  | c :: rest =>
    if isPlain c then (multiBasic? rest).map (push c) else none
termination_by cs.length

/-- A literal string on several lines, behind its first quotes. -/
def multiLiteral? : List Char → Option (List Char × List Char)
  | [] => none
  | '\'' :: '\'' :: '\'' :: rest => some (closingRun '\'' rest)
  | '\n' :: rest => (multiLiteral? rest).map (push '\n')
  | '\r' :: '\n' :: rest => (multiLiteral? rest).map (push '\n')
  | c :: rest =>
    if isPlain c then (multiLiteral? rest).map (push c) else none

/-- The text without the line end it starts with, which does not count behind
three quotes. -/
def skipFirstBreak : List Char → List Char
  | '\n' :: rest => rest
  | '\r' :: '\n' :: rest => rest
  | cs => cs

/-- The string that a text starts with, and what is left. -/
def read? : List Char → Option (List Char × List Char)
  | '"' :: '"' :: '"' :: rest => multiBasic? (skipFirstBreak rest)
  | '"' :: rest => basic? rest
  | '\'' :: '\'' :: '\'' :: rest => multiLiteral? (skipFirstBreak rest)
  | '\'' :: rest => literal? rest
  | _ => none

@[grind →] theorem exists_of_map_push {c : Char} {read : Option (List Char × List Char)}
    {text rest : List Char} (h : read.map (push c) = some (text, rest)) :
    ∃ t, read = some (t, rest) := by
  obtain ⟨⟨t, r⟩, hr, h⟩ := Option.map_eq_some_iff.mp h
  obtain ⟨-, rfl⟩ := Prod.mk.inj h
  exact ⟨t, hr⟩

theorem length_closingRun (quote : Char) (cs : List Char) :
    (closingRun quote cs).2.length ≤ cs.length := by
  unfold closingRun
  repeat' split
  all_goals (simp only [List.length_cons]; omega)

theorem length_basic? {cs text rest : List Char} (h : basic? cs = some (text, rest)) :
    rest.length < cs.length := by
  fun_induction basic? cs generalizing text rest <;> grind

theorem length_literal? {cs text rest : List Char} (h : literal? cs = some (text, rest)) :
    rest.length < cs.length := by
  fun_induction literal? cs generalizing text rest <;> grind

theorem length_multiBasic? {cs text rest : List Char} (h : multiBasic? cs = some (text, rest)) :
    rest.length < cs.length := by
  fun_induction multiBasic? cs generalizing text rest <;> grind [length_closingRun]

theorem length_multiLiteral? {cs text rest : List Char}
    (h : multiLiteral? cs = some (text, rest)) : rest.length < cs.length := by
  fun_induction multiLiteral? cs generalizing text rest <;> grind [length_closingRun]

theorem length_skipFirstBreak (cs : List Char) : (skipFirstBreak cs).length ≤ cs.length := by
  fun_cases skipFirstBreak cs <;> grind

theorem length_read? {cs text rest : List Char} (h : read? cs = some (text, rest)) :
    rest.length < cs.length := by
  unfold read? at h
  split at h
  · rename_i r
    have h₁ := length_multiBasic? h
    have h₂ := length_skipFirstBreak r
    simp only [List.length_cons]; omega
  · exact Nat.lt_succ_of_lt (length_basic? h)
  · rename_i r
    have h₁ := length_multiLiteral? h
    have h₂ := length_skipFirstBreak r
    simp only [List.length_cons]; omega
  · exact Nat.lt_succ_of_lt (length_literal? h)
  · simp at h

/-! ## Writing -/

/-- How a string is written. -/
inductive Form where
  | basic
  | multiBasic
  | literal
  | multiLiteral
deriving DecidableEq, Repr

/-- Whether a text has characters, line feeds apart, that only an escape can
stand for. -/
def needsEscapes (cs : List Char) : Bool := cs.any fun c => !isPlain c && c != '\n'

/-- Whether a text has three of a quote in a row, which would end a string on
several lines. -/
def hasTriple (quote : Char) (cs : List Char) : Bool := Text.occursIn [quote, quote, quote] cs

/-- Whether the text can stand between double quotes without escapes. -/
def fitsBasic (cs : List Char) : Bool :=
  !(needsEscapes cs || cs.contains '\n' || cs.contains '"' || cs.contains '\\')

/-- Whether the text can stand between single quotes. -/
def fitsLiteral (cs : List Char) : Bool :=
  !(needsEscapes cs || cs.contains '\n' || cs.contains '\'')

/-- Whether the text can stand between three double quotes without escapes. -/
def fitsMultiBasic (cs : List Char) : Bool :=
  !(needsEscapes cs || cs.contains '\\' || hasTriple '"' cs)

/-- Whether the text can stand between three single quotes. -/
def fitsMultiLiteral (cs : List Char) : Bool := !(needsEscapes cs || hasTriple '\'' cs)

/-- The form of a text: the first that it fits, or else one with escapes. -/
def formOf (cs : List Char) : Form :=
  if fitsBasic cs then .basic
  else if fitsLiteral cs then .literal
  else if fitsMultiBasic cs then .multiBasic
  else if fitsMultiLiteral cs then .multiLiteral
  else if cs.contains '\n' then .multiBasic
  else .basic

/-- The upper-case digit of a value below sixteen. -/
def hexDigit (n : Nat) : Char := (Nat.digitChar n).toUpper

/-- A character other than a quote between double quotes, where line feeds are
escaped only in strings on one line. -/
def escaped (multi : Bool) (c : Char) : List Char :=
  if c = '\x08' then ['\\', 'b']
  else if c = '\t' then ['\\', 't']
  else if c = '\n' then if multi then ['\n'] else ['\\', 'n']
  else if c = '\x0c' then ['\\', 'f']
  else if c = '\r' then ['\\', 'r']
  else if c = '\\' then ['\\', '\\']
  else if isPlain c then [c]
  else ['\\', 'u', '0', '0', hexDigit (c.toNat / 16), hexDigit (c.toNat % 16)]

/-- A text between double quotes, behind a run of `run` of them.  Up to two in a
row stand as they are in strings on several lines, and all others are escaped. -/
def escapedText (multi : Bool) (run : Nat) : List Char → List Char
  | [] => []
  | '"' :: cs =>
    if multi && run < 2 then '"' :: escapedText multi (run + 1) cs
    else '\\' :: '"' :: escapedText multi 0 cs
  | c :: cs => escaped multi c ++ escapedText multi 0 cs

/-- A line feed behind the opening quotes, where the text has any: it is no part
of the text. -/
def openingBreak (cs : List Char) : List Char := if cs.contains '\n' then ['\n'] else []

/-- A text in one of the forms. -/
def writeAs (form : Form) (cs : List Char) : List Char :=
  match form with
  -- No run of quotes has been begun behind the opening ones.
  | .basic => '"' :: escapedText false 0 cs ++ ['"']
  | .multiBasic => ['"', '"', '"'] ++ openingBreak cs ++ escapedText true 0 cs ++ ['"', '"', '"']
  | .literal => '\'' :: cs ++ ['\'']
  | .multiLiteral => ['\'', '\'', '\''] ++ openingBreak cs ++ cs ++ ['\'', '\'', '\'']

/-- A text as a string. -/
def write (cs : List Char) : List Char := writeAs (formOf cs) cs

end TomlText
end PluginHost
