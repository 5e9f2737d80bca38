/-! # Semantic versions

A version is three 64-bit numbers, a list of pre-release identifiers and a list
of build identifiers.  The invariants of the notation are in the types: a word
holds at least one character that is no digit, a pre-release number has no
leading zeros, and a build number keeps count of its own.  So every value of
`Version` has a notation, and only one.

`Version.cmp` is the total order by number, then pre-release, then build. -/
namespace PluginHost

namespace Version

/-- The characters of an identifier: ASCII letters, ASCII digits and `-`. -/
def isIdentifierChar (c : Char) : Bool := c.isAlphanum || c == '-'

/-- An identifier with a character that is no digit. -/
structure Word where
  chars : List Char
  valid : (chars.all isIdentifierChar && chars.any (!·.isDigit)) = true
deriving DecidableEq

/-- An identifier of a pre-release. -/
inductive PreIdentifier where
  | number (value : Nat)
  | word (w : Word)
deriving DecidableEq

/-- An identifier of the build metadata: a number may be written with leading
zeros, and they are part of it. -/
inductive BuildIdentifier where
  | number (zeros value : Nat)
  | word (w : Word)
deriving DecidableEq

end Version

/-- A semantic version. -/
structure Version where
  major : UInt64
  minor : UInt64
  patch : UInt64
  pre : List Version.PreIdentifier
  build : List Version.BuildIdentifier
deriving DecidableEq

namespace Version

/-- The release `major.minor.patch`. -/
def release (major minor patch : UInt64) : Version := ⟨major, minor, patch, [], []⟩

/-! ## Notation -/

/-- The decimal digits of a number. -/
def digits (n : Nat) : List Char := Nat.toDigits 10 n

/-- The notation of a pre-release identifier. -/
def PreIdentifier.chars : PreIdentifier → List Char
  | .number n => digits n
  | .word w => w.chars

/-- The notation of a build identifier. -/
def BuildIdentifier.chars : BuildIdentifier → List Char
  | .number zeros value => List.replicate zeros '0' ++ digits value
  | .word w => w.chars

/-- The pre-release identifiers, joined by dots. -/
def preChars (v : Version) : List Char := ['.'].intercalate (v.pre.map (·.chars))

/-- The build identifiers, joined by dots. -/
def buildChars (v : Version) : List Char := ['.'].intercalate (v.build.map (·.chars))

/-- The notation of a version. -/
def chars (v : Version) : List Char :=
  digits v.major.toNat ++ '.' :: digits v.minor.toNat ++ '.' :: digits v.patch.toNat
    ++ (if v.pre.isEmpty then [] else '-' :: v.preChars)
    ++ (if v.build.isEmpty then [] else '+' :: v.buildChars)

/-- The notation of a version, as a string. -/
def text (v : Version) : String := String.ofList v.chars

/-! ## Order -/

/-- A number is smaller than a word; words go by their characters. -/
def PreIdentifier.cmp : PreIdentifier → PreIdentifier → Ordering
  | .number m, .number n => compare m n
  | .number _, .word _ => .lt
  | .word _, .number _ => .gt
  | .word u, .word w => List.compareLex compare u.chars w.chars

/-- A number is smaller than a word; equal numbers go by their leading zeros;
words go by their characters. -/
def BuildIdentifier.cmp : BuildIdentifier → BuildIdentifier → Ordering
  | .number y m, .number z n => (compare m n).then (compare y z)
  | .number _ _, .word _ => .lt
  | .word _, .number _ _ => .gt
  | .word u, .word w => List.compareLex compare u.chars w.chars

/-- A release is greater than each of its pre-releases. -/
def preCmp (p q : List PreIdentifier) : Ordering :=
  (compare p.isEmpty q.isEmpty).then (List.compareLex PreIdentifier.cmp p q)

/-- The order of versions: the numbers, then the pre-release, then the build,
where no build is smaller than any. -/
def cmp (a b : Version) : Ordering :=
  (compare a.major b.major).then <|
  (compare a.minor b.minor).then <|
  (compare a.patch b.patch).then <|
  (preCmp a.pre b.pre).then (List.compareLex BuildIdentifier.cmp a.build b.build)

end Version
end PluginHost
