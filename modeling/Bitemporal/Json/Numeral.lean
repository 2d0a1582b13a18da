import Bitemporal.Json.Basic

/-!
# Written numbers

The parts of a number as it is written, and the number that they stand for. An integer that fits
64 bits stays exact. Any other number is a double, computed from at most 64 bits of its leading
digits by products and quotients with powers of ten, each of which is rounded. Further digits are
dropped, so the double of a long numeral need not be the nearest one.

## Main definitions

* `Numeral.ofChars?`: the parts of a numeral, if the text is one.
* `Numeral.value?`: the number, none if it is past the largest double.
-/

namespace Bitemporal

/-- The parts of a written number. Digits are kept most significant first. -/
structure Numeral where
  /-- Whether a minus stands in front. -/
  negative : Bool
  /-- The digits before the point. -/
  whole : List Nat
  /-- The digits after the point, if there is one. -/
  fraction : Option (List Nat)
  /-- The exponent, if there is one: whether it is negative, and its digits. -/
  exponent : Option (Bool × List Nat)
deriving DecidableEq, Repr

namespace Numeral

/-- The decimal digits at the front of a text, and the rest of it. -/
def spanDigits (cs : List Char) : List Nat × List Char :=
  ((cs.takeWhile Char.isDigit).map fun c => c.toNat - 48, cs.dropWhile Char.isDigit)

/-- The fraction at the front of a text: none if no point stands there, a failure if no digit
follows the point. -/
def takeFraction? : List Char → Option (Option (List Nat) × List Char)
  | '.' :: cs =>
    let (digits, rest) := spanDigits cs
    if digits.isEmpty then none else some (some digits, rest)
  | cs => some (none, cs)

/-- The exponent at the front of a text, with the same convention. -/
def takeExponent? : List Char → Option (Option (Bool × List Nat) × List Char)
  | [] => some (none, [])
  | c :: cs =>
    if c = 'e' ∨ c = 'E' then
      let (negative, cs) := match cs with
        | '+' :: r => (false, r)
        | '-' :: r => (true, r)
        | r => (false, r)
      let (digits, rest) := spanDigits cs
      if digits.isEmpty then none else some (some (negative, digits), rest)
    else some (none, c :: cs)

/-- The numeral that a text is: no leading zeros, no plus in front, digits on both sides of a
point. -/
def ofChars? (cs : List Char) : Option Numeral := do
  let (negative, cs) := match cs with
    | '-' :: r => (true, r)
    | r => (false, r)
  let (whole, cs) := spanDigits cs
  if whole.isEmpty then none
  if whole.head? = some 0 ∧ whole.length > 1 then none
  let (fraction, cs) ← takeFraction? cs
  let (exponent, cs) ← takeExponent? cs
  if cs.isEmpty then some { negative, whole, fraction, exponent } else none

/-- Digits collected so far: their value and the power of ten that it counts. -/
structure Collected where
  /-- The value of the digits, below `2 ^ 64`. -/
  significand : Nat
  /-- The power of ten. -/
  exponent : Int

/-- The first limit of a significand that does not fit 64 bits. -/
def significandLimit : Nat := Nat.pow 2 64

/-- Takes digits before the point while the significand fits; each further digit only counts as
a power of ten. -/
def collectWhole (c : Collected) : List Nat → Collected
  | [] => c
  | d :: ds =>
    let s := c.significand * 10 + d
    if s < significandLimit then collectWhole { c with significand := s } ds
    else { c with exponent := c.exponent + ((d :: ds).length : Int) }

/-- Takes digits after the point while the significand fits and drops the others. -/
def collectFraction (c : Collected) : List Nat → Collected
  | [] => c
  | d :: ds =>
    let s := c.significand * 10 + d
    if s < significandLimit then collectFraction ⟨s, c.exponent - 1⟩ ds else c

/-- A double scaled by a power of ten in rounded steps: one product, or quotients by at most
`10 ^ 308` each. -/
def scale? (x : Binary64) (exponent : Int) : Option Binary64 :=
  if exponent > 308 then if x.units = 0 then some x else none
  else if exponent ≥ 0 then x.mul (.ofInt (Nat.pow 10 exponent.toNat))
  else if exponent ≥ -308 then x.div (.ofInt (Nat.pow 10 (-exponent).toNat))
  else do
    let y ← x.div (.ofInt (Nat.pow 10 308))
    if y.units = 0 then some y else scale? y (exponent + 308)
termination_by (-exponent).toNat
decreasing_by omega

/-- The natural number of a list of digits. -/
def digitsValue (ds : List Nat) : Nat := ds.foldl (fun n d => n * 10 + d) 0

/-- Exponents from here on are past every double, whatever the significand's digits. -/
def exponentLimit : Nat := Nat.pow 2 31

/-- The double of a numeral. -/
def float? (n : Numeral) : Option Binary64 := do
  let c := collectWhole ⟨0, 0⟩ n.whole
  let c := collectFraction c (n.fraction.getD [])
  let x ← match n.exponent with
    | none => scale? (.ofInt c.significand) c.exponent
    | some (negative, digits) =>
      let e := digitsValue digits
      if e < exponentLimit then
        scale? (.ofInt c.significand) (if negative then c.exponent - e else c.exponent + e)
      else if c.significand ≠ 0 ∧ negative = false then none
      else some .zero
  return x.withSign n.negative

/-- The number that a numeral stands for. An integer of 64 bits is exact, except that a zero
with a minus is a double. -/
def value? (n : Numeral) : Option Number :=
  match n.fraction, n.exponent with
  | none, none =>
    let m := digitsValue n.whole
    if n.negative then
      if 0 < m ∧ m ≤ Nat.pow 2 63 then some (.int (-m)) else n.float?.map .float
    else if m < significandLimit then some (.int m) else n.float?.map .float
  | _, _ => n.float?.map .float

end Numeral

end Bitemporal
