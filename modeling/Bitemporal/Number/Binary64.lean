/-!
# Finite binary64 numbers

A finite double is kept as a sign and a natural number of units of `2 ^ -1074`, the spacing of the
smallest doubles. Every finite double is a whole number of these units, so comparison is
comparison of integers and each arithmetic operation is one exact quotient followed by one rounding.

## Main definitions

* `Binary64.round`: the nearest double to a quotient, a tie going to the even significand.
* `Binary64.ofInt`: the nearest double to an integer.
* `Binary64.mul`, `Binary64.div`: correctly rounded product and quotient.
-/

namespace Bitemporal

/-- The finite double `± units * 2 ^ -1074`. Both zeros exist and count as equal numbers. -/
structure Binary64 where
  /-- Whether the sign is a minus. -/
  negative : Bool
  /-- The absolute value in units of `2 ^ -1074`. -/
  units : Nat
deriving DecidableEq, Repr, Inhabited

namespace Binary64

/-- Number of units in one. -/
def one : Nat := Nat.pow 2 1074

/-- Absolute values from here on are too large for a double. -/
def unitLimit : Nat := Nat.pow 2 (1024 + 1074)

/-- The quotient rounded to the nearest natural number, a half going to the even neighbour. -/
def divHalfEven (num den : Nat) : Nat :=
  let q := num / den
  let twice := 2 * (num % den)
  if twice < den then q
  else if twice = den then q + q % 2
  else q + 1

/-- Number of low bits that a magnitude of this many units cannot keep: a double has 53
significant bits. -/
def droppedBits (units : Nat) : Nat := units.log2 - 52

/-- `num / den` units rounded to 53 significant bits. -/
def roundUnits (num den : Nat) : Nat :=
  let shift := droppedBits (num / den)
  divHalfEven num (den * Nat.pow 2 shift) * Nat.pow 2 shift

/-- The double nearest to `± num / den` units, or none when that is past the largest double. -/
def round (negative : Bool) (num den : Nat) : Option Binary64 :=
  let units := roundUnits num den
  if units < unitLimit then some ⟨negative, units⟩ else none

/-- The double nearest to an integer; meant for integers of at most 64 bits, all of which are
within range. -/
def ofInt (i : Int) : Binary64 :=
  ⟨decide (i < 0), roundUnits (i.natAbs * one) 1⟩

/-- The value in units of `2 ^ -1074`, with its sign. -/
def signedUnits (x : Binary64) : Int := if x.negative then -(x.units : Int) else x.units

/-- Equality of numbers: the two zeros are equal. -/
def same (x y : Binary64) : Bool := x.signedUnits == y.signedUnits

/-- Order of numbers. -/
def compare (x y : Binary64) : Ordering := Ord.compare x.signedUnits y.signedUnits

/-- Whether `x` is at most `y`. -/
def le (x y : Binary64) : Bool := x.signedUnits ≤ y.signedUnits

/-- Whether `x` is below `y`. -/
def lt (x y : Binary64) : Bool := x.signedUnits < y.signedUnits

/-- The smaller of two numbers; of the two zeros the second. -/
def min (x y : Binary64) : Binary64 := if x.lt y then x else y

/-- The larger of two numbers; of the two zeros the second. -/
def max (x y : Binary64) : Binary64 := if y.lt x then x else y

/-- The rounded product. -/
def mul (x y : Binary64) : Option Binary64 :=
  round (x.negative != y.negative) (x.units * y.units) one

/-- The rounded quotient by a number other than zero. -/
def div (x y : Binary64) : Option Binary64 :=
  round (x.negative != y.negative) (x.units * one) y.units

/-- The same magnitude with the given sign. -/
def withSign (x : Binary64) (negative : Bool) : Binary64 := { x with negative }

/-- Zero, with a plus sign. -/
def zero : Binary64 := ⟨false, 0⟩

end Binary64

end Bitemporal
