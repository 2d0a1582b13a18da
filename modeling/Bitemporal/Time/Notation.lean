import Bitemporal.Text.Blank
import Bitemporal.Time.Calendar
import Bitemporal.Time.Instant

/-!
# Written instants

An instant is written as a number of microseconds, as an RFC 3339 timestamp with an offset, or as a
date, which means its midnight. It is printed as a timestamp in UTC.

## Main definitions

* `Instant.parse?`: reads any of the three forms.
* `Instant.format?`: the timestamp of an instant, none for the two ends of time and for instants
  past the years of the calendar.
-/

namespace Bitemporal.Instant

/-- Microseconds in a second. -/
def perSecond : Int := 1000000

/-- Microseconds in a day. -/
def perDay : Int := 86400 * perSecond

/-- The years that dates may have. -/
def firstYear : Int := -262143

/-- The last year that dates may have. -/
def lastYear : Int := 262142

/-- The date as an instant at its midnight, if it exists. -/
def midnight? (d : Date) : Option Int :=
  if d.IsValid ∧ firstYear ≤ d.year ∧ d.year ≤ lastYear then some (d.toDays * perDay) else none

/-- The value of a list of decimal digits. -/
def decimal (cs : List Char) : Nat := cs.foldl (fun n c => n * 10 + (c.toNat - 48)) 0

/-- An integer with an optional sign, in the range of instants. -/
def parseInteger? (cs : List Char) : Option Instant :=
  let (negative, digits) := match cs with
    | '-' :: r => (true, r)
    | '+' :: r => (false, r)
    | r => (false, r)
  if digits.isEmpty ∨ ¬ digits.all Char.isDigit then none
  else ofInt? (if negative then -(decimal digits : Int) else decimal digits)

/-- Exactly two digits at the front of a text. -/
def twoDigits? : List Char → Option (Nat × List Char)
  | a :: b :: rest => if a.isDigit ∧ b.isDigit then some (decimal [a, b], rest) else none
  | _ => none

/-- Exactly four digits at the front of a text. -/
def fourDigits? (cs : List Char) : Option (Nat × List Char) := do
  let (a, cs) ← twoDigits? cs
  let (b, cs) ← twoDigits? cs
  return (100 * a + b, cs)

/-- The rest of a text that starts with a character. -/
def skip? (c : Char) : List Char → Option (List Char)
  | d :: rest => if d = c then some rest else none
  | [] => none

/-- Microseconds of a fraction of a second, if there is one; digits past the sixth are cut. -/
def fraction? : List Char → Option (Nat × List Char)
  | '.' :: cs =>
    let digits := cs.takeWhile Char.isDigit
    if digits.isEmpty then none
    else
      let six := (digits ++ List.replicate 6 '0').take 6
      some (decimal six, cs.dropWhile Char.isDigit)
  | cs => some (0, cs)

/-- The seconds by which an offset lies ahead of UTC. The sign may be the minus sign proper. -/
def offset? : List Char → Option (Int × List Char)
  | [] => none
  | c :: cs =>
    if c = 'Z' ∨ c = 'z' then some (0, cs)
    else if c = '+' ∨ c = '-' ∨ c.toNat = 0x2212 then do
      let (hours, cs) ← twoDigits? cs
      let cs ← skip? ':' cs
      let (minutes, cs) ← twoDigits? cs
      if hours ≤ 23 ∧ minutes ≤ 59 then
        let seconds : Int := hours * 3600 + minutes * 60
        some (if c = '+' then seconds else -seconds, cs)
      else none
    else none

/-- A timestamp, in microseconds. The second 60 is one past the second 59. -/
def parseTimestamp? (cs : List Char) : Option Int := do
  let (year, cs) ← fourDigits? cs
  let cs ← skip? '-' cs
  let (month, cs) ← twoDigits? cs
  let cs ← skip? '-' cs
  let (day, cs) ← twoDigits? cs
  let cs ← match cs with
    | c :: rest => if c = 'T' ∨ c = 't' ∨ c = ' ' then some rest else none
    | [] => none
  let (hour, cs) ← twoDigits? cs
  let cs ← skip? ':' cs
  let (minute, cs) ← twoDigits? cs
  let cs ← skip? ':' cs
  let (second, cs) ← twoDigits? cs
  let (micros, cs) ← fraction? cs
  let (ahead, cs) ← offset? cs
  let day ← midnight? ⟨year, month, day⟩
  if cs.isEmpty ∧ hour ≤ 23 ∧ minute ≤ 59 ∧ second ≤ 60 then
    some (day + ((hour * 3600 + minute * 60 + second : Nat) - ahead) * perSecond + micros)
  else none

/-- A number of at most `width` digits, after blanks. -/
def shortNumber? (width : Nat) (cs : List Char) : Option (Nat × List Char) :=
  let digits := (cs.takeWhile Char.isDigit).take width
  if digits.isEmpty then none else some (decimal digits, cs.drop digits.length)

/-- A year: any number of digits after a sign, at most four without one. -/
def year? : List Char → Option (Int × List Char)
  | '-' :: cs => (shortNumber? cs.length cs).map fun (y, rest) => (-(y : Int), rest)
  | '+' :: cs => (shortNumber? cs.length cs).map fun (y, rest) => ((y : Int), rest)
  | cs => (shortNumber? 4 cs).map fun (y, rest) => ((y : Int), rest)

/-- A date, in microseconds at its midnight. Blanks may stand before each of its numbers. -/
def parseDate? (cs : List Char) : Option Int := do
  let (year, cs) ← year? (Text.trimLeft cs)
  let cs ← skip? '-' cs
  let (month, cs) ← shortNumber? 2 (Text.trimLeft cs)
  let cs ← skip? '-' cs
  let (day, cs) ← shortNumber? 2 (Text.trimLeft cs)
  if cs.isEmpty then midnight? ⟨year, month, day⟩ else none

/-- The instant that a text names: an integer, a timestamp or a date, blanks around it aside. -/
def parse? (s : String) : Option Instant :=
  let cs := Text.trimChars s.toList
  match parseInteger? cs with
  | some t => some t
  | none =>
    match parseTimestamp? cs with
    | some micros => ofInt? micros
    | none => (parseDate? cs).bind ofInt?

/-- A number with zeros in front up to a width. -/
def padded (width n : Nat) : List Char :=
  let digits := Nat.toDigits 10 n
  List.replicate (width - digits.length) '0' ++ digits

/-- A year of four digits, or with a sign where it has more digits or is before year zero. -/
def formatYear (year : Int) : List Char :=
  if year < 0 then '-' :: padded 4 year.natAbs
  else if year ≤ 9999 then padded 4 year.toNat
  else '+' :: padded 4 year.toNat

/-- The fraction of a second in milliseconds or microseconds, whichever suffices. -/
def formatFraction (micros : Nat) : List Char :=
  if micros = 0 then []
  else if micros % 1000 = 0 then '.' :: padded 3 (micros / 1000)
  else '.' :: padded 6 micros

/-- The timestamp of a number of microseconds. -/
def formatMicros (micros : Int) : List Char :=
  let date := Date.ofDays (micros / perDay)
  let rest := (micros % perDay).toNat
  let seconds := rest / 1000000
  formatYear date.year ++ '-' :: padded 2 date.month ++ '-' :: padded 2 date.day ++
    'T' :: padded 2 (seconds / 3600) ++ ':' :: padded 2 (seconds / 60 % 60) ++
    ':' :: padded 2 (seconds % 60) ++ formatFraction (rest % 1000000) ++
    ['+', '0', '0', ':', '0', '0']

/-- The timestamp of an instant; the ends of time and instants past the calendar have none. -/
def format? (t : Instant) : Option String :=
  let year := (Date.ofDays (t.toInt / perDay)).year
  if t = start ∨ t = never then none
  else if firstYear ≤ year ∧ year ≤ lastYear then some (String.ofList (formatMicros t.toInt))
  else none

end Bitemporal.Instant
