import PluginHost.Decimal

/-! # Numbers in JSON

`JsonNumber` is a number as it is spelled, and `JsonNumber.value?` is what it
stands for: an integer when it has neither a fraction nor an exponent and fits
64 bits, and else a double.  The double is found in floating-point arithmetic
from the leading digits and one power of ten, so it is not always the nearest. -/
namespace PluginHost

/-- A number as it is spelled. -/
structure JsonNumber where
  negative : Bool
  /-- The digits before the point. -/
  whole : List Nat
  /-- The digits behind the point. -/
  fraction : List Nat
  /-- The power of ten, if the number is written with one. -/
  exponent : Option Int
deriving DecidableEq, Repr

/-- What a number stands for. -/
inductive JsonNumber.Value where
  | integer (value : Int)
  | float (value : Float)

namespace JsonNumber

/-- The digits that have been used: their value, the power of ten that it is to
be multiplied with, and whether digits are left out from here on. -/
structure Digits where
  significand : Nat
  exponent : Int
  full : Bool

namespace Digits

/-- Whether one more digit fits 64 bits. -/
def fits (d : Digits) (digit : Nat) : Bool := !d.full && d.significand * 10 + digit < Nat.pow 2 64

/-- One more digit before the point. -/
def addWhole (d : Digits) (digit : Nat) : Digits :=
  if d.fits digit then { d with significand := d.significand * 10 + digit }
  else { d with exponent := d.exponent + 1, full := true }

/-- One more digit behind the point. -/
def addFraction (d : Digits) (digit : Nat) : Digits :=
  if d.fits digit then ⟨d.significand * 10 + digit, d.exponent - 1, false⟩
  else { d with full := true }

end Digits

/-- The digits before the point. -/
def wholeDigits (n : JsonNumber) : Digits := n.whole.foldl .addWhole ⟨0, 0, false⟩

/-- All digits, with the power of ten that the number is written with. -/
def digits (n : JsonNumber) : Digits :=
  let d := n.fraction.foldl .addFraction { n.wholeDigits with full := false }
  { d with exponent := d.exponent + n.exponent.getD 0 }

/-- The double nearest to `10^k`. -/
def powerOfTen (k : Nat) : Float := Float.ofScientific 1 false k

/-- `significand · 10^exponent` in floating-point arithmetic, unless that is
greater than every double. -/
def scaled? (significand : Nat) (exponent : Int) : Option Float :=
  let x := Float.ofNat significand
  if significand = 0 then some x
  else if 308 < exponent then none
  else if 0 ≤ exponent then
    let y := x * powerOfTen exponent.toNat
    if y.isInf then none else some y
  else if -308 ≤ exponent then some (x / powerOfTen (-exponent).toNat)
  else if -616 ≤ exponent then some (x / powerOfTen 308 / powerOfTen (-exponent - 308).toNat)
  else some 0

/-- What the number stands for, if doubles reach that far.  A zero with a sign is
a double, and so is what does not fit 64 bits. -/
def value? (n : JsonNumber) : Option Value :=
  let w := n.wholeDigits
  let plain := n.fraction.isEmpty && n.exponent.isNone && !w.full
  if plain && !n.negative then some (.integer w.significand)
  else if plain && 0 < w.significand && w.significand ≤ Nat.pow 2 63 then
    some (.integer (-w.significand))
  else
    let d := n.digits
    (scaled? d.significand d.exponent).map fun x => .float (if n.negative then -x else x)

/-- Doubles in messages about JSON always show that they are no integers. -/
def floatStyle : Decimal.Style where
  tie := .even
  positional place := -5 < place && place ≤ 16
  wholeMark := ".0"

end JsonNumber
end PluginHost
