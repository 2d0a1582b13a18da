import Bitemporal.Json.Source

/-!
# Records in JSON

A record of known fields is written as an object, or as a list of the fields in their order. An
object may not give a field twice; fields it does not know are passed over unless the record is
closed. A list may stop early, which leaves the remaining fields out.

## Main definitions

* `Source.record?`: the fields of a record, each present or not.
* `Source.text?`, `Source.integer?`, `Source.natural?`, `Source.double?`, `Source.items?`: plain
  values.
-/

namespace Bitemporal.Json.Source

/-- Assigns written fields to the known names. -/
def assign? (names : List String) (isClosed : Bool) (found : List (Option Source)) :
    List (Quoted × Source) → Option (List (Option Source))
  | [] => some found
  | (q, v) :: rest => do
    let name ← q.text?
    let i := names.idxOf name
    if i < names.length then
      match found.getD i none with
      | some _ => none
      | none => assign? names isClosed (found.set i (some v)) rest
    else if isClosed then none
    else assign? names isClosed found rest

/-- The fields of a record in the order of `names`. -/
def record? (names : List String) (isClosed : Bool) : Source → Option (List (Option Source))
  | .object fields => assign? names isClosed (names.map fun _ => none) fields
  | .list items =>
    if items.length ≤ names.length then
      some (items.map some ++ List.replicate (names.length - items.length) none)
    else none
  | _ => none

/-- A string. -/
def text? : Source → Option String
  | .string q => q.text?
  | _ => none

/-- An integer in a range. -/
def integer? (least greatest : Int) : Source → Option Int
  | .number n =>
    match n.value? with
    | some (.int i) => if least ≤ i ∧ i ≤ greatest then some i else none
    | _ => none
  | _ => none

/-- A natural number of at most that many bits. -/
def natural? (bits : Nat) (s : Source) : Option Nat :=
  (s.integer? 0 (Nat.pow 2 bits - 1)).map Int.toNat

/-- A number as a double. -/
def double? : Source → Option Binary64
  | .number n => n.value?.map Number.toBinary64
  | _ => none

/-- A boolean. -/
def boolean? : Source → Option Bool
  | .bool b => some b
  | _ => none

/-- The items of a list. -/
def items? : Source → Option (List Source)
  | .list items => some items
  | _ => none

/-- Whether the source is null. -/
def isNull : Source → Bool
  | .null => true
  | _ => false

/-- An optional value: null and absence mean none. -/
def optional? {α : Type} (read : Source → Option α) : Option Source → Option (Option α)
  | none => some none
  | some s => if s.isNull then some none else (read s).map some

/-- A value with a default for its absence. -/
def withDefault? {α : Type} (default : α) (read : Source → Option α) : Option Source → Option α
  | none => some default
  | some s => read s

/-- The constant of an enumeration by its name, or as an object of that name and null. -/
def constant? {α : Type} (ofName? : String → Option α) : Source → Option α
  | .string q => q.text?.bind ofName?
  | .object [(q, v)] => if v.isNull then q.text?.bind ofName? else none
  | _ => none

end Bitemporal.Json.Source
