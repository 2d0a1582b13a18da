import Bitemporal.Number.Binary64

/-!
# JSON values

Integers and doubles are different numbers, and the fields of an object are sorted by name with no
name twice.

## Main definitions

* `Json`: a value.
* `Json.same`: equality of values, which sees the two zeros as one number.
* `Json.setField`: puts a field in its place among sorted fields.
-/

namespace Bitemporal

/-- A JSON number. The integers are those of 64 bits, signed or unsigned. -/
inductive Number where
  | int (value : Int)
  | float (value : Binary64)
deriving DecidableEq, Repr, Inhabited

namespace Number

/-- The nearest double. -/
def toBinary64 : Number → Binary64
  | .int i => .ofInt i
  | .float x => x

/-- The value as a signed integer of 64 bits, when it is an integer of that range. -/
def toSigned? : Number → Option Int
  | .int i => if i < Nat.pow 2 63 then some i else none
  | .float _ => none

/-- Equality: an integer never equals a double. -/
def same : Number → Number → Bool
  | .int i, .int j => i == j
  | .float x, .float y => x.same y
  | _, _ => false

end Number

/-- A JSON value. -/
inductive Json where
  | null
  | bool (value : Bool)
  | number (value : Number)
  | string (value : String)
  | array (items : List Json)
  | object (fields : List (String × Json))
deriving Repr, Inhabited

namespace Json

/-- An integer value. -/
def int (i : Int) : Json := .number (.int i)

/-- A value that is a natural number. -/
def nat (n : Nat) : Json := .int n

mutual

/-- Equality of values. -/
def same : Json → Json → Bool
  | .null, .null => true
  | .bool a, .bool b => a == b
  | .number a, .number b => a.same b
  | .string a, .string b => a == b
  | .array a, .array b => sameItems a b
  | .object a, .object b => sameFields a b
  | _, _ => false

/-- Equality of lists of values. -/
def sameItems : List Json → List Json → Bool
  | [], [] => true
  | a :: as, b :: bs => same a b && sameItems as bs
  | _, _ => false

/-- Equality of lists of fields. -/
def sameFields : List (String × Json) → List (String × Json) → Bool
  | [], [] => true
  | (k, a) :: as, (l, b) :: bs => k == l && same a b && sameFields as bs
  | _, _ => false

end

/-- Puts a field among fields sorted by name; an earlier value of that name is replaced. -/
def setField {α : Type} (name : String) (value : α) : List (String × α) → List (String × α)
  | [] => [(name, value)]
  | (k, v) :: rest =>
    if name < k then (name, value) :: (k, v) :: rest
    else if name = k then (name, value) :: rest
    else (k, v) :: setField name value rest

/-- Fields in the order given, sorted by name; of two fields of one name the later counts. -/
def sortFields {α : Type} (fields : List (String × α)) : List (String × α) :=
  fields.foldl (fun acc f => setField f.1 f.2 acc) []

/-- An object of the given fields, sorted. -/
def record (fields : List (String × Json)) : Json := .object (sortFields fields)

/-- The field of that name, if the value is an object that has it. -/
def field? (name : String) : Json → Option Json
  | .object fields => fields.lookup name
  | _ => none

/-- The nearest double of a number, none for anything else. -/
def toBinary64? : Json → Option Binary64
  | .number n => some n.toBinary64
  | _ => none

end Json

end Bitemporal
