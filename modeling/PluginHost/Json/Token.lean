import PluginHost.Json.Number
import PluginHost.Text.Escape
import PluginHost.Text.Utf8

/-! # The tokens of JSON

A payload is a sequence of bytes that nobody has checked.  All punctuation of
JSON is ASCII, so the payload is read as the characters 0 to 255, one a byte,
and only the content of a string is looked at as bytes again.

`JsonToken.ofPayload` yields the tokens up to the end or up to the first place
where none starts, and marks that place as `broken`. -/
namespace PluginHost

/-- A value without parts. -/
inductive JsonScalar where
  | null
  | boolean (value : Bool)
  | number (n : JsonNumber)
  /-- A string, and its text if it is the spelling of one. -/
  | string (text : Option String)
deriving DecidableEq, Repr

/-- A token of JSON. -/
inductive JsonToken where
  | scalar (s : JsonScalar)
  | openArray
  | closeArray
  | openObject
  | closeObject
  | comma
  | colon
  /-- A place where no token starts. -/
  | broken
deriving DecidableEq, Repr

namespace JsonToken

/-- The characters 0 to 255 that stand for bytes. -/
def charsOfBytes (bytes : List UInt8) : List Char := bytes.map fun b => Char.ofNat b.toNat

/-! ## Strings -/

/-- A part of the content of a string. -/
inductive Piece where
  | byte (b : UInt8)
  /-- A code unit of UTF-16, spelled by its number. -/
  | unit (value : Nat)
deriving DecidableEq, Repr

/-- The value of four digits. -/
def unit? (a b c d : Char) : Option Nat := do
  let digits ← [a, b, c, d].mapM Text.hexValue?
  return digits.foldl (fun n d => n * 16 + d) 0

/-- The character that a short escape stands for. -/
def shortEscape? : Char → Option Char
  | '"' => some '"'
  | '\\' => some '\\'
  | '/' => some '/'
  | 'b' => some '\x08'
  | 'f' => some '\x0c'
  | 'n' => some '\n'
  | 'r' => some '\r'
  | 't' => some '\t'
  | _ => none

/-- The content of a string up to its closing quote, and what follows. -/
def stringBody : List Char → Option (List Piece × List Char)
  | [] => none
  | '"' :: rest => some ([], rest)
  | '\\' :: 'u' :: a :: b :: c :: d :: rest => do
    let (pieces, rest) ← stringBody rest
    return (.unit (← unit? a b c d) :: pieces, rest)
  | '\\' :: e :: rest => do
    let (pieces, rest) ← stringBody rest
    return (.byte (← shortEscape? e).toUInt8 :: pieces, rest)
  | c :: rest => do
    let (pieces, rest) ← stringBody rest
    -- Control characters stand in no string.
    if c.toNat < 0x20 then none
    else return (.byte c.toUInt8 :: pieces, rest)

/-- The first unit of a pair. -/
def isLead (u : Nat) : Bool := 0xD800 ≤ u && u < 0xDC00

/-- The second unit of a pair. -/
def isTrail (u : Nat) : Bool := 0xDC00 ≤ u && u < 0xE000

/-- The bytes of a content.  A unit of a pair that stands alone has none. -/
def bytesOf : List Piece → Option (List UInt8)
  | [] => some []
  | .byte b :: rest => (b :: ·) <$> bytesOf rest
  | .unit u :: .unit v :: rest =>
    if isLead u && isTrail v then
      (Utf8.encode (String.singleton (Char.ofNat (0x10000 + (u - 0xD800) * 0x400 + (v - 0xDC00))))
        ++ ·) <$> bytesOf rest
    else if isLead u || isTrail u then none
    else (Utf8.encode (String.singleton (Char.ofNat u)) ++ ·) <$> bytesOf (.unit v :: rest)
  | .unit u :: rest =>
    if isLead u || isTrail u then none
    else (Utf8.encode (String.singleton (Char.ofNat u)) ++ ·) <$> bytesOf rest

/-- The text of a content. -/
def textOf? (pieces : List Piece) : Option String := (bytesOf pieces).bind Utf8.decode?

/-! ## Numbers -/

/-- The digits a text starts with, and the rest. -/
def digitRun (cs : List Char) : List Nat × List Char :=
  ((cs.takeWhile Char.isDigit).map fun c => c.toNat - '0'.toNat, cs.dropWhile Char.isDigit)

/-- At least one digit. -/
def digitRun? (cs : List Char) : Option (List Nat × List Char) :=
  if (digitRun cs).1.isEmpty then none else some (digitRun cs)

/-- The digits before the point: they start with zero only if there is no other. -/
def wholePart? (cs : List Char) : Option (List Nat × List Char) := do
  let (digits, rest) ← digitRun? cs
  if digits.head? == some 0 && digits.length != 1 then none else some (digits, rest)

/-- The digits behind the point, if there is a point. -/
def fractionPart? : List Char → Option (List Nat × List Char)
  | '.' :: rest => digitRun? rest
  | cs => some ([], cs)

/-- The power of ten, if one is written. -/
def exponentPart? : List Char → Option (Option Int × List Char)
  | c :: rest =>
    if c == 'e' || c == 'E' then do
      let (negative, rest) := match rest with
        | '-' :: rest => (true, rest)
        | '+' :: rest => (false, rest)
        | rest => (false, rest)
      let (digits, rest) ← digitRun? rest
      let value := digits.foldl (fun n d => n * 10 + d) 0
      return (some (if negative then -Int.ofNat value else Int.ofNat value), rest)
    else some (none, c :: rest)
  | [] => some (none, [])

/-- A number behind its sign, and what follows. -/
def number? (negative : Bool) (cs : List Char) : Option (JsonNumber × List Char) := do
  let (whole, cs) ← wholePart? cs
  let (fraction, cs) ← fractionPart? cs
  let (exponent, cs) ← exponentPart? cs
  return (⟨negative, whole, fraction, exponent⟩, cs)

/-! ## Tokens -/

/-- What follows if the text starts with these characters. -/
def after? : (expected text : List Char) → Option (List Char)
  | [], cs => some cs
  | e :: es, c :: cs => if e == c then after? es cs else none
  | _ :: _, [] => none

/-- The first token of a text that does not start with white space, and what
follows it. -/
def first? (cs : List Char) : Option (JsonToken × List Char) :=
  match cs with
  | '[' :: rest => some (.openArray, rest)
  | ']' :: rest => some (.closeArray, rest)
  | '{' :: rest => some (.openObject, rest)
  | '}' :: rest => some (.closeObject, rest)
  | ',' :: rest => some (.comma, rest)
  | ':' :: rest => some (.colon, rest)
  | '"' :: rest => (stringBody rest).map fun (p, r) => (.scalar (.string (textOf? p)), r)
  | 'n' :: rest => (after? ['u', 'l', 'l'] rest).map fun r => (.scalar .null, r)
  | 't' :: rest => (after? ['r', 'u', 'e'] rest).map fun r => (.scalar (.boolean true), r)
  | 'f' :: rest => (after? ['a', 'l', 's', 'e'] rest).map fun r => (.scalar (.boolean false), r)
  | '-' :: rest => (number? true rest).map fun (n, r) => (.scalar (.number n), r)
  | cs => (number? false cs).map fun (n, r) => (.scalar (.number n), r)

/-- White space between tokens. -/
def isSpace (c : Char) : Bool := c == ' ' || c == '\n' || c == '\t' || c == '\r'

theorem length_stringBody {cs rest : List Char} {pieces : List Piece}
    (h : stringBody cs = some (pieces, rest)) : rest.length < cs.length := by
  fun_induction stringBody cs generalizing pieces rest with
  | case1 => simp at h
  | case2 r => simp only [Option.some.injEq, Prod.mk.injEq] at h; simp [← h.2]
  | case3 a b c d r ih =>
    obtain ⟨⟨p, r'⟩, hp, h⟩ := Option.bind_eq_some_iff.mp h
    obtain ⟨u, -, h⟩ := Option.bind_eq_some_iff.mp h
    obtain ⟨-, rfl⟩ := Prod.mk.inj (Option.some.inj h)
    have := ih hp
    simp only [List.length_cons]; omega
  | case4 e r _ ih =>
    obtain ⟨⟨p, r'⟩, hp, h⟩ := Option.bind_eq_some_iff.mp h
    obtain ⟨u, -, h⟩ := Option.bind_eq_some_iff.mp h
    obtain ⟨-, rfl⟩ := Prod.mk.inj (Option.some.inj h)
    have := ih hp
    simp only [List.length_cons]; omega
  | case5 c r _ _ _ ih =>
    obtain ⟨⟨p, r'⟩, hp, h⟩ := Option.bind_eq_some_iff.mp h
    dsimp only at h
    split at h
    · simp at h
    · obtain ⟨-, rfl⟩ := Prod.mk.inj (Option.some.inj h)
      have := ih hp
      simp only [List.length_cons]; omega

theorem length_digitRun (cs : List Char) : (digitRun cs).2.length ≤ cs.length := by
  simpa [digitRun] using (List.dropWhile_sublist Char.isDigit).length_le

theorem length_digitRun? {cs rest : List Char} {digits : List Nat}
    (h : digitRun? cs = some (digits, rest)) : rest.length < cs.length := by
  rw [digitRun?] at h
  split at h
  · simp at h
  · rename_i hne
    obtain rfl : (digitRun cs).2 = rest := by rw [Option.some.inj h]
    cases cs with
    | nil => simp [digitRun] at hne
    | cons c cs =>
      by_cases hc : c.isDigit
      · simpa [digitRun, hc] using Nat.lt_succ_of_le (length_digitRun cs)
      · simp [digitRun, hc] at hne

theorem length_fractionPart? {cs rest : List Char} {digits : List Nat}
    (h : fractionPart? cs = some (digits, rest)) : rest.length ≤ cs.length := by
  unfold fractionPart? at h
  split at h
  · have := length_digitRun? h
    simp only [List.length_cons]; omega
  · simp_all

theorem length_exponentPart? {cs rest : List Char} {e : Option Int}
    (h : exponentPart? cs = some (e, rest)) : rest.length ≤ cs.length := by
  unfold exponentPart? at h
  split at h
  · rename_i c r
    split at h
    · obtain ⟨⟨digits, r'⟩, hd, h⟩ := Option.bind_eq_some_iff.mp h
      obtain ⟨-, rfl⟩ := Prod.mk.inj (Option.some.inj h)
      have := length_digitRun? hd
      split at this <;> simp only [List.length_cons] at * <;> omega
    · simp_all
  · simp_all

theorem length_number? {negative : Bool} {cs rest : List Char} {n : JsonNumber}
    (h : number? negative cs = some (n, rest)) : rest.length < cs.length := by
  obtain ⟨⟨whole, r⟩, hw, h⟩ := Option.bind_eq_some_iff.mp h
  obtain ⟨⟨fraction, r'⟩, hf, h⟩ := Option.bind_eq_some_iff.mp h
  obtain ⟨⟨exponent, r''⟩, he, h⟩ := Option.bind_eq_some_iff.mp h
  obtain ⟨-, rfl⟩ := Prod.mk.inj (Option.some.inj h)
  have hr : r.length < cs.length := by
    obtain ⟨⟨digits, s⟩, hd, hw⟩ := Option.bind_eq_some_iff.mp hw
    dsimp only at hw
    split at hw
    · simp at hw
    · obtain ⟨-, rfl⟩ := Prod.mk.inj (Option.some.inj hw)
      exact length_digitRun? hd
  have := length_fractionPart? hf
  have := length_exponentPart? he
  omega

theorem length_after? {expected cs rest : List Char} (h : after? expected cs = some rest) :
    rest.length ≤ cs.length := by
  fun_induction after? expected cs with
  | case1 => simp_all
  | case2 e es c cs _ ih => have := ih h; simp only [List.length_cons]; omega
  | case3 => simp at h
  | case4 => simp at h

theorem length_first? {cs rest : List Char} {t : JsonToken} (h : first? cs = some (t, rest)) :
    rest.length < cs.length := by
  unfold first? at h
  split at h
  case h_7 =>
    obtain ⟨⟨p, r⟩, hp, h⟩ := Option.map_eq_some_iff.mp h
    obtain ⟨-, rfl⟩ := Prod.mk.inj h
    have := length_stringBody hp
    simp only [List.length_cons]; omega
  case h_11 =>
    obtain ⟨⟨n, r⟩, hn, h⟩ := Option.map_eq_some_iff.mp h
    obtain ⟨-, rfl⟩ := Prod.mk.inj h
    have := length_number? hn
    simp only [List.length_cons]; omega
  case h_12 =>
    obtain ⟨⟨n, r⟩, hn, h⟩ := Option.map_eq_some_iff.mp h
    obtain ⟨-, rfl⟩ := Prod.mk.inj h
    exact length_number? hn
  all_goals first
    | (obtain ⟨-, rfl⟩ := Prod.mk.inj (Option.some.inj h); simp)
    | (obtain ⟨r, hr, h⟩ := Option.map_eq_some_iff.mp h
       obtain ⟨-, rfl⟩ := Prod.mk.inj h
       have := length_after? hr
       simp only [List.length_cons]; omega)

/-- The tokens of a text. -/
def ofChars : List Char → List JsonToken
  | [] => []
  | c :: rest =>
    if isSpace c then ofChars rest
    else match h : first? (c :: rest) with
      | none => [.broken]
      | some (token, rest') =>
        have := length_first? h
        token :: ofChars rest'
termination_by cs => cs.length
decreasing_by
  · exact Nat.lt_succ_self _
  · exact this

/-- The tokens of a payload. -/
def ofPayload (bytes : List UInt8) : List JsonToken := ofChars (charsOfBytes bytes)

end JsonToken
end PluginHost
