import PluginHost.Decimal

/-! # Numerals

A `Numeral` is a number taken apart into what is written before the point,
behind it and in the exponent.  Which parts may be missing and how digits are
grouped is for the format to say that is being read; `Numeral.toFloat` is what
the digits stand for. -/
namespace PluginHost
namespace Decimal

/-- Infinity. -/
def infinity : Float := 1 / 0

/-- The double nearest to a decimal. -/
def toFloat (d : Decimal) : Float :=
  let place : Int := (Nat.toDigits 10 d.significand).length + d.exponent
  if d.significand = 0 || place < -330 then 0
  else if 310 < place then infinity
  else Float.ofScientific d.significand (d.exponent < 0) d.exponent.natAbs

end Decimal

/-- A number as it is written. -/
structure Numeral where
  negative : Bool
  whole : List Char
  /-- What follows a point. -/
  fraction : Option (List Char)
  /-- What follows the mark of an exponent: whether it is negative, and digits. -/
  exponent : Option (Bool × List Char)
deriving DecidableEq, Repr

namespace Numeral

/-- Whether a number is negative, and what follows its sign. -/
def sign : List Char → Bool × List Char
  | '+' :: cs => (false, cs)
  | '-' :: cs => (true, cs)
  | cs => (false, cs)

/-- The characters before the first that `p` admits, and those behind it. -/
def cut (p : Char → Bool) (cs : List Char) : List Char × Option (List Char) :=
  (cs.takeWhile (!p ·), (cs.dropWhile (!p ·)).tail?)

/-- Takes a number apart. -/
def ofChars (cs : List Char) : Numeral :=
  let (negative, cs) := sign cs
  let (mantissa, exponent) := cut (fun c => c == 'e' || c == 'E') cs
  let (whole, fraction) := cut (· == '.') mantissa
  ⟨negative, whole, fraction, exponent.map sign⟩

/-- The numeral without underscores among its digits. -/
def withoutGroups (n : Numeral) : Numeral :=
  let plain := List.filter (· != '_')
  ⟨n.negative, plain n.whole, n.fraction.map plain, n.exponent.map fun (s, ds) => (s, plain ds)⟩

/-- The value of digits. -/
def value (digits : List Char) : Nat := Nat.ofDigitChars 10 digits 0

/-- The integer that the part before the point stands for. -/
def toInt (n : Numeral) : Int := if n.negative then -(value n.whole : Int) else value n.whole

/-- The double nearest to a number whose parts are digits. -/
def toFloat (n : Numeral) : Float :=
  let fraction := n.fraction.getD []
  let shift : Int := match n.exponent with
    | none => 0
    | some (negative, digits) => if negative then -(value digits : Int) else value digits
  let x := Decimal.toFloat ⟨value (n.whole ++ fraction), shift - fraction.length⟩
  if n.negative then -x else x

end Numeral
end PluginHost
