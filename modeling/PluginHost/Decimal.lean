/-! # The shortest decimal of a floating-point number

A double stands for every real number that rounds to it.  `shortest` finds,
among the decimals in that interval, one with the fewest digits, and of those
the nearest to the double.  It works on the number `m · 2^q` in exact
arithmetic: a decimal with `k` digits lies on the grid of the multiples of one
power of ten, so for each `k` only the two neighbours of the number on that grid
have to be tried.

`Style` holds what formats decide for themselves: which of two equally near
decimals is taken, when the point is written in place, and what marks a whole
number. -/
namespace PluginHost

/-- The number `significand · 10^exponent`. -/
structure Decimal where
  significand : Nat
  exponent : Int
deriving DecidableEq, Repr

namespace Decimal

/-- The number `m · 2^q`, where `m` is odd or even as it stands in the format. -/
structure Binary where
  m : Nat
  q : Int
  /-- Whether the next smaller double is half as far away as the next greater. -/
  narrow : Bool
deriving DecidableEq, Repr

namespace Binary

/-- The absolute value of a finite double. -/
def ofFloat (x : Float) : Binary :=
  let bits := x.toBits.toNat
  let exponent : Nat := bits / Nat.pow 2 52 % Nat.pow 2 11
  let fraction := bits % Nat.pow 2 52
  if exponent = 0 then ⟨fraction, -1074, false⟩
  else ⟨fraction + Nat.pow 2 52, Int.ofNat exponent - 1075, fraction = 0 && exponent != 1⟩

end Binary

/-- A fraction of natural numbers, scaled by `4`, with the ends of the interval
that rounds to it over the same denominator. -/
structure Interval where
  low : Nat
  middle : Nat
  high : Nat
  denominator : Nat
  closed : Bool
deriving DecidableEq, Repr

namespace Interval

/-- The interval of the numbers that round to `b`: its ends belong to it when `b`
is even. -/
def ofBinary (b : Binary) : Interval :=
  let unit := Nat.pow 2 (b.q - 2).toNat
  ⟨(4 * b.m - if b.narrow then 1 else 2) * unit, 4 * b.m * unit, (4 * b.m + 2) * unit,
    Nat.pow 2 (2 - b.q).toNat, b.m % 2 = 0⟩

/-- The interval divided by `10^e`. -/
def scale (i : Interval) (e : Int) : Interval :=
  let up := Nat.pow 10 (-e).toNat
  ⟨i.low * up, i.middle * up, i.high * up, i.denominator * Nat.pow 10 e.toNat, i.closed⟩

/-- Whether a natural number lies in the interval. -/
def holds (i : Interval) (n : Nat) : Bool :=
  let x := n * i.denominator
  if i.closed then i.low ≤ x && x ≤ i.high else i.low < x && x < i.high

/-- The place of the first digit of the middle: the least `e` for which the
middle is below `10^e`. -/
def magnitude (i : Interval) : Int :=
  -- No positive double is below `10 ^ -400`, so there is a digit to count.
  (Nat.toDigits 10 (i.middle * Nat.pow 10 400 / i.denominator)).length - 400

end Interval

/-- Which of two equally near numbers is taken. -/
inductive Tie where
  | greater
  | even
deriving DecidableEq, Repr

/-- The natural number of the interval that is nearest to its middle, if the two
neighbours of the middle hold one. -/
def Interval.nearest? (i : Interval) (tie : Tie) : Option Nat :=
  let below := i.middle / i.denominator
  match i.holds below, i.holds (below + 1) with
  | false, false => none
  | true, false => some below
  | false, true => some (below + 1)
  | true, true =>
    match compare (2 * (i.middle % i.denominator)) i.denominator with
    | .lt => some below
    | .gt => some (below + 1)
    | .eq => some (if tie = .even ∧ below % 2 = 0 then below else below + 1)

/-- The number without the zeros it ends with. -/
def strip : (places : Nat) → Decimal → Decimal
  | 0, d => d
  | places + 1, d =>
    if d.significand % 10 = 0 then strip places ⟨d.significand / 10, d.exponent + 1⟩ else d

/-- The shortest decimal that rounds to a positive double.  Seventeen digits
always suffice. -/
def shortest (tie : Tie) (b : Binary) : Decimal :=
  let i := Interval.ofBinary b
  let found := (List.range 17).findSome? fun (k : Nat) =>
    -- The grid on which the number has `k + 1` digits.
    let e : Int := i.magnitude - (k + 1 : Nat)
    ((i.scale e).nearest? tie).map fun n => strip 17 ⟨n, e⟩
  found.getD ⟨0, 0⟩

/-- How a format writes numbers. -/
structure Style where
  tie : Tie
  /-- The places of the decimal point for which no power of ten is written. -/
  positional : Int → Bool
  /-- What follows a whole number that is written without a power of ten. -/
  wholeMark : String

namespace Style

/-- The digits with the decimal point at `place` among them, and zeros where the
point lies outside. -/
def pointed (style : Style) (digits : List Char) (place : Int) : String :=
  if place ≤ 0 then
    String.ofList ('0' :: '.' :: (List.replicate (-place).toNat '0' ++ digits))
  else if digits.length ≤ place.toNat then
    String.ofList (digits ++ List.replicate (place.toNat - digits.length) '0') ++ style.wholeMark
  else
    String.ofList (digits.take place.toNat ++ '.' :: digits.drop place.toNat)

/-- The digits with the point behind the first, and the power of ten with its
sign. -/
def scientific (digits : List Char) (place : Int) : String :=
  let front := match digits with
    | d :: e :: rest => d :: '.' :: e :: rest
    | digits => digits
  let power := place - 1
  String.ofList front ++ (if power < 0 then "e" else "e+") ++ toString power

/-- The text of a decimal. -/
def decimalText (style : Style) (d : Decimal) : String :=
  let digits := Nat.toDigits 10 d.significand
  let place : Int := digits.length + d.exponent
  if style.positional place then style.pointed digits place else scientific digits place

/-- The text of a double. -/
def text (style : Style) (x : Float) : String :=
  if x.isNaN then "NaN"
  else
    let magnitude :=
      if x.isInf then "inf"
      else if x == 0 then "0" ++ style.wholeMark
      else style.decimalText (shortest style.tie (.ofFloat x))
    if x.toBits.toNat / Nat.pow 2 63 = 1 then "-" ++ magnitude else magnitude

end Style
end Decimal
end PluginHost
