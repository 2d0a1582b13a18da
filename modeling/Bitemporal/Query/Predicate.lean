import Bitemporal.Error
import Bitemporal.Json.Printer
import Bitemporal.Json.Source
import Bitemporal.Page.Summary
import Bitemporal.Text.Blank

/-!
# Predicates on columns

A predicate compares one column of a document with a bound. Nothing is converted: numbers compare
with numbers, strings with strings, and a column that is missing or null never satisfies a
predicate. A page can be tested by the range of numbers in its column before any of its rows is
read.

## Main definitions

* `Predicate`, `Predicate.text`, `Predicate.parse`: the predicate and its written form.
* `Predicate.holds`: whether a document satisfies it.
* `Predicate.mayHold`: whether some row of a page may.
-/

namespace Bitemporal

/-- How a column is compared with a bound. -/
inductive Comparison where
  | eq
  | ge
  | gt
  | le
  | lt
deriving DecidableEq, Repr, Inhabited

namespace Comparison

/-- The sign of a comparison. -/
def symbol : Comparison → String
  | eq => "="
  | ge => ">="
  | gt => ">"
  | le => "<="
  | lt => "<"

/-- The comparison of a sign. -/
def ofSymbol? (s : String) : Option Comparison :=
  if s = "=" then some eq
  else if s = ">=" then some ge
  else if s = ">" then some gt
  else if s = "<=" then some le
  else if s = "<" then some lt
  else none

end Comparison

/-- A condition on one column. -/
structure Predicate where
  /-- The column. -/
  column : String
  /-- How it is compared. -/
  comparison : Comparison
  /-- What it is compared with. -/
  bound : Json
deriving Repr, Inhabited

namespace Predicate

/-- The predicate as text: column, sign and bound. -/
def text (p : Predicate) : String := p.column ++ p.comparison.symbol ++ p.bound.compact

/-- Whether a character begins a sign. -/
def isSign (c : Char) : Bool := c = '<' || c = '>' || c = '='

/-- The sign at the front of a text that begins with one, and what follows. -/
def splitSign : List Char → Option (Comparison × List Char)
  | '>' :: '=' :: rest => some (.ge, rest)
  | '<' :: '=' :: rest => some (.le, rest)
  | '>' :: rest => some (.gt, rest)
  | '<' :: rest => some (.lt, rest)
  | '=' :: rest => some (.eq, rest)
  | _ => none

/-- The predicate of a text. It is split at its first sign, and the blanks around both parts are
dropped. The bound is read as JSON if it is JSON and stands for itself as a string otherwise. -/
def parse (s : String) : Except Error Predicate :=
  let cs := s.toList
  match splitSign (cs.dropWhile fun c => ¬ isSign c) with
  | none => .error (.malformed s!"no operator in filter '{s}'")
  | some (comparison, rest) =>
    let column := Text.trimChars (cs.takeWhile fun c => ¬ isSign c)
    let raw := String.ofList (Text.trimChars rest)
    if column.isEmpty then .error (.malformed s!"no column in filter '{s}'")
    else .ok ⟨String.ofList column, comparison, (Json.ofString? raw).getD (.string raw)⟩

/-- The order of a value and a bound. Integers that fit 64 bits with a sign compare as integers,
other numbers as doubles, strings character by character; nothing else is ordered. -/
def order? : Json → Json → Option Ordering
  | .number a, .number b =>
    match a.toSigned?, b.toSigned? with
    | some i, some j => some (compare i j)
    | _, _ => some (a.toBinary64.compare b.toBinary64)
  | .string a, .string b => some (compare a b)
  | _, _ => none

/-- Whether a value other than null satisfies the predicate. -/
def accepts (p : Predicate) (v : Json) : Bool :=
  match p.comparison with
  | .eq => v.same p.bound
  | .ge => (order? v p.bound).any Ordering.isGE
  | .gt => (order? v p.bound).any Ordering.isGT
  | .le => (order? v p.bound).any Ordering.isLE
  | .lt => (order? v p.bound).any Ordering.isLT

/-- Whether a document satisfies the predicate. -/
def holds (p : Predicate) (doc : Document) : Bool :=
  match doc.get? p.column with
  | none | some .null => false
  | some v => p.accepts v

/-- Whether some row of a page may satisfy the predicate. Only numeric bounds are tested: the range
of a column covers its numbers, and a page without a range has none that could satisfy it. -/
def mayHold (p : Predicate) (s : PageSummary) : Bool :=
  match p.bound.toBinary64? with
  | none => true
  | some x =>
    match s.range? p.column with
    | none => false
    | some r =>
      match p.comparison with
      | .eq => r.least.le x && x.le r.greatest
      | .ge => x.le r.greatest
      | .gt => x.lt r.greatest
      | .le => r.least.le x
      | .lt => r.least.lt x

end Predicate

end Bitemporal
