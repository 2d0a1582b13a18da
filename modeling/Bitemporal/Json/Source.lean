import Bitemporal.Json.Lexer

/-!
# JSON as written

A source is a JSON text read as far as its brackets go: the fields of an object stand in the order
written, a name may stand twice, and numbers and strings are not yet interpreted. A reader of
records picks fields out of it and never looks into those it skips; a value takes all of it.

## Main definitions

* `Source.ofString?`: the source of a text.
* `Source.value?`: the value of a source.
* `Json.ofString?`: the value of a text.
-/

namespace Bitemporal.Json

/-- A JSON text by its structure. -/
inductive Source where
  | null
  | bool (value : Bool)
  | number (numeral : Numeral)
  | string (text : Quoted)
  | list (items : List Source)
  | object (fields : List (Quoted × Source))
deriving Repr, Inhabited

/-- An unfinished list or object, with what it holds so far, last first. -/
inductive Frame where
  | list (items : List Source)
  | object (fields : List (Quoted × Source))
  | field (fields : List (Quoted × Source)) (name : Quoted)

/-- What may come next. -/
inductive Expecting where
  | value
  | itemOrClose
  | nameOrClose
  | name
  | colon (name : Quoted)
  | afterValue (value : Source)

/-- The constant or number that a word is. -/
def Source.ofWord? (w : List Char) : Option Source :=
  if w = ['n', 'u', 'l', 'l'] then some .null
  else if w = ['t', 'r', 'u', 'e'] then some (.bool true)
  else if w = ['f', 'a', 'l', 's', 'e'] then some (.bool false)
  else (Numeral.ofChars? w).map .number

/-- A token where a value may start. -/
def beginValue? (frames : List Frame) : Token → Option (List Frame × Expecting)
  | .openList => some (.list [] :: frames, .itemOrClose)
  | .openObject => some (.object [] :: frames, .nameOrClose)
  | .word w => (Source.ofWord? w).map fun v => (frames, .afterValue v)
  | .quoted q => some (frames, .afterValue (.string q))
  | _ => none

/-- A token after a value inside the unfinished lists and objects `frames`. -/
def endValue? (v : Source) : List Frame → Token → Option (List Frame × Expecting)
  | .list items :: frames, .comma => some (.list (v :: items) :: frames, .value)
  | .list items :: frames, .closeList => some (frames, .afterValue (.list (v :: items).reverse))
  | .field fields name :: frames, .comma => some (.object ((name, v) :: fields) :: frames, .name)
  | .field fields name :: frames, .closeObject =>
    some (frames, .afterValue (.object ((name, v) :: fields).reverse))
  | _, _ => none

/-- One token of a text. -/
def feed? : List Frame × Expecting → Token → Option (List Frame × Expecting)
  | (frames, .value), t => beginValue? frames t
  | (.list [] :: frames, .itemOrClose), .closeList => some (frames, .afterValue (.list []))
  | (frames, .itemOrClose), t => beginValue? frames t
  | (.object [] :: frames, .nameOrClose), .closeObject => some (frames, .afterValue (.object []))
  | (frames, .nameOrClose), .quoted q => some (frames, .colon q)
  | (frames, .name), .quoted q => some (frames, .colon q)
  | (.object fields :: frames, .colon q), .colon => some (.field fields q :: frames, .value)
  | (frames, .afterValue v), t => endValue? v frames t
  | _, _ => none

namespace Source

/-- The source of a text: one value with nothing but blanks around it. -/
def ofString? (s : String) : Option Source := do
  let tokens ← Token.ofString? s
  match ← tokens.foldlM feed? ([], .value) with
  | ([], .afterValue v) => some v
  | _ => none

mutual

/-- The value of a source, none if lists and objects nest deeper than `room`, a number is past
the largest double, or a string holds half a surrogate pair. -/
def value? (room : Nat) : Source → Option Json
  | .null => some .null
  | .bool b => some (.bool b)
  | .number n => n.value?.map .number
  | .string q => q.text?.map .string
  | .list items =>
    match room with
    | 0 => none
    | room + 1 => (values? room items).map .array
  | .object fields =>
    match room with
    | 0 => none
    | room + 1 => (fieldValues? room fields).map .record

/-- The values of a list of sources. -/
def values? (room : Nat) : List Source → Option (List Json)
  | [] => some []
  | item :: rest => do
    let v ← value? room item
    let vs ← values? room rest
    return v :: vs

/-- The values of a list of fields. -/
def fieldValues? (room : Nat) : List (Quoted × Source) → Option (List (String × Json))
  | [] => some []
  | (name, item) :: rest => do
    let n ← name.text?
    let v ← value? room item
    let vs ← fieldValues? room rest
    return (n, v) :: vs

end

end Source

/-- Lists and objects nest at most this deep. -/
def maxNesting : Nat := 127

/-- The value of a JSON text. -/
def ofString? (s : String) : Option Json := do (← Source.ofString? s).value? maxNesting

end Bitemporal.Json
