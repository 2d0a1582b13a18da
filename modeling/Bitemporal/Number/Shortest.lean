import Bitemporal.Number.Binary64

/-!
# Shortest decimal text of a double

The text of a double has the fewest digits that read back as the same double, and of those the
digits nearest to it. The search runs over the decimal grids of 1 to 17 digits in exact arithmetic:
on each grid only the two neighbours of the value can be the nearest.

## Main definitions

* `Binary64.shortestDigits`: the digits and the power of ten of the last of them.
* `Binary64.DecimalLayout`: where positional notation ends and how an exponent is written.
* `Binary64.render`: the text.
-/

namespace Bitemporal.Binary64

/-- The numbers that round to a double lie between two midpoints; both are given in quarters of a
unit, and they belong to the interval exactly when the significand is even. -/
structure Interval where
  /-- Lower midpoint, in quarters of a unit. -/
  lower : Nat
  /-- Upper midpoint, in quarters of a unit. -/
  upper : Nat
  /-- Whether the midpoints themselves round to the double. -/
  closed : Bool

/-- The interval of numbers that round to the positive double of `units` units. The gap below a
power of two is half the gap above it. -/
def roundingInterval (units : Nat) : Interval :=
  let shift := droppedBits units
  let gap := Nat.pow 2 shift
  let significand := units / gap
  let below := if shift > 0 && significand == Nat.pow 2 52 then gap else 2 * gap
  { lower := 4 * units - below, upper := 4 * units + 2 * gap, closed := significand % 2 == 0 }

/-- A decimal `digits * 10 ^ exponent`. -/
structure Decimal where
  /-- The digits as one number. -/
  digits : Nat
  /-- The power of ten that they count. -/
  exponent : Int
deriving DecidableEq, Repr

namespace Decimal

/-- The decimal as a quotient of natural numbers. -/
def fraction (d : Decimal) : Nat × Nat :=
  if d.exponent ≥ 0 then (d.digits * Nat.pow 10 d.exponent.toNat, 1)
  else (d.digits, Nat.pow 10 (-d.exponent).toNat)

end Decimal

/-- Whether the decimal lies in the interval. -/
def Interval.holds (i : Interval) (d : Decimal) : Bool :=
  let (num, den) := d.fraction
  let quarters := num * (4 * one)
  let low := i.lower * den
  let high := i.upper * den
  if i.closed then low ≤ quarters && quarters ≤ high else low < quarters && quarters < high

/-- The distance between a decimal and `units` units, scaled by the decimal's denominator. -/
def distance (units : Nat) (d : Decimal) : Nat :=
  let (num, den) := d.fraction
  ((num * one : Nat) - (units * den : Nat) : Int).natAbs

/-- The power of ten of the leading digit of a positive double. -/
def leadingExponent (units : Nat) : Int :=
  if one ≤ units then ((Nat.toDigits 10 (units / one)).length : Int) - 1
  else -((Nat.toDigits 10 (one / units)).length : Int)

/-- The nearest decimal of `count` digits that reads back, if one of the two neighbours does. -/
def onGrid (units : Nat) (count : Nat) : Option Decimal :=
  let exponent := leadingExponent units - (count : Int) + 1
  let floor :=
    if exponent ≥ 0 then units / (one * Nat.pow 10 exponent.toNat)
    else units * Nat.pow 10 (-exponent).toNat / one
  let below : Decimal := ⟨floor, exponent⟩
  let above : Decimal := ⟨floor + 1, exponent⟩
  let interval := roundingInterval units
  match interval.holds below, interval.holds above with
  | true, true =>
    let db := distance units below
    let da := distance units above
    if db < da || (db == da && floor % 2 == 0) then some below else some above
  | true, false => some below
  | false, true => some above
  | false, false => none

/-- The shortest decimal of a positive double. Seventeen digits always suffice. -/
def shortestDigits (units : Nat) : Decimal :=
  ((List.range 17).findSome? fun i => onGrid units (i + 1)).getD ⟨0, 0⟩

/-- How the text of a double is laid out. -/
structure DecimalLayout where
  /-- The least power of ten of the leading digit that is written without an exponent. -/
  leastPositional : Int
  /-- The greatest such power. -/
  greatestPositional : Int

/-- The digits of a number without its trailing zeros, most significant first. -/
def significantDigits (n : Nat) : List Char :=
  ((Nat.toDigits 10 n).reverse.dropWhile (· == '0')).reverse

/-- Positional text of `0.ddd` or `ddd.ddd`, with at least one digit on each side of the point;
`lead` is the power of ten of the first digit. -/
def positional (digits : List Char) (lead : Int) : List Char :=
  if lead < 0 then
    ['0', '.'] ++ List.replicate ((-lead).toNat - 1) '0' ++ digits
  else
    let whole := lead.toNat + 1
    let fraction := digits.drop whole
    digits.take whole ++ List.replicate (whole - digits.length) '0' ++ ['.'] ++
      (if fraction.isEmpty then ['0'] else fraction)

/-- Text with one digit before the point and a signed exponent. -/
def scientific (digits : List Char) (lead : Int) : List Char :=
  let fraction := digits.drop 1
  digits.take 1 ++ (if fraction.isEmpty then [] else '.' :: fraction) ++ ['e'] ++
    [if lead < 0 then '-' else '+'] ++ Nat.toDigits 10 lead.natAbs

/-- The shortest text of a double. -/
def render (layout : DecimalLayout) (x : Binary64) : String :=
  let sign := if x.negative then ['-'] else []
  if x.units = 0 then String.ofList (sign ++ ['0', '.', '0'])
  else
    let d := shortestDigits x.units
    let all := Nat.toDigits 10 d.digits
    let lead := d.exponent + (all.length : Int) - 1
    let digits := significantDigits d.digits
    String.ofList <| sign ++
      if layout.leastPositional ≤ lead ∧ lead ≤ layout.greatestPositional then
        positional digits lead
      else scientific digits lead

end Bitemporal.Binary64
