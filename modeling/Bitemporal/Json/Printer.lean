import Bitemporal.Json.Basic
import Bitemporal.Number.Shortest
import Bitemporal.Text.Hex

/-!
# JSON text

Compact text has no blanks and leaves everything but quotes, backslashes and control characters
as it is. Indented text puts each member on its own line.

## Main definitions

* `Json.compact`: text without blanks.
* `Json.pretty`: text indented by two spaces a level.
-/

namespace Bitemporal.Json

/-- Doubles are positional from `0.00001` up to sixteen digits before the point. -/
def numberLayout : Binary64.DecimalLayout := { leastPositional := -5, greatestPositional := 15 }

/-- The text of a number. -/
def renderNumber : Number → String
  | .int i => toString i
  | .float x => x.render numberLayout

/-- What stands for a character inside quotes. -/
def escapeChar (c : Char) : List Char :=
  if c = '"' then ['\\', '"']
  else if c = '\\' then ['\\', '\\']
  else if c.toNat = 8 then ['\\', 'b']
  else if c.toNat = 9 then ['\\', 't']
  else if c.toNat = 10 then ['\\', 'n']
  else if c.toNat = 12 then ['\\', 'f']
  else if c.toNat = 13 then ['\\', 'r']
  else if c.toNat < 32 then
    ['\\', 'u', '0', '0', Hex.digit (c.toNat / 16), Hex.digit (c.toNat % 16)]
  else [c]

/-- A string in quotes. -/
def quote (s : String) : String :=
  String.ofList ('"' :: s.toList.flatMap escapeChar ++ ['"'])

mutual

/-- Text without blanks. -/
def compact : Json → String
  | .null => "null"
  | .bool true => "true"
  | .bool false => "false"
  | .number n => renderNumber n
  | .string s => quote s
  | .array items => "[" ++ ",".intercalate (compactItems items) ++ "]"
  | .object fields => "\x7b" ++ ",".intercalate (compactFields fields) ++ "\x7d"

/-- The texts of the members of a list. -/
def compactItems : List Json → List String
  | [] => []
  | item :: rest => compact item :: compactItems rest

/-- The texts of the members of an object. -/
def compactFields : List (String × Json) → List String
  | [] => []
  | (name, value) :: rest => (quote name ++ ":" ++ compact value) :: compactFields rest

end

/-- The start of a line at a level of indentation. -/
def indentation (level : Nat) : String := "\n" ++ String.ofList (List.replicate (2 * level) ' ')

/-- Members between brackets, one a line; brackets of nothing stand together. -/
def bracketed (opening closing : String) (level : Nat) (members : List String) : String :=
  if members.isEmpty then opening ++ closing
  else
    let inner := indentation (level + 1)
    opening ++ inner ++ ("," ++ inner).intercalate members ++ indentation level ++ closing

mutual

/-- Indented text of a value that stands at a level of indentation. -/
def prettyAt (level : Nat) : Json → String
  | .array items => bracketed "[" "]" level (prettyItems (level + 1) items)
  | .object fields => bracketed "\x7b" "\x7d" level (prettyFields (level + 1) fields)
  | .null => "null"
  | .bool true => "true"
  | .bool false => "false"
  | .number n => renderNumber n
  | .string s => quote s

/-- The indented texts of the members of a list. -/
def prettyItems (level : Nat) : List Json → List String
  | [] => []
  | item :: rest => prettyAt level item :: prettyItems level rest

/-- The indented texts of the members of an object. -/
def prettyFields (level : Nat) : List (String × Json) → List String
  | [] => []
  | (name, value) :: rest =>
    (quote name ++ ": " ++ prettyAt level value) :: prettyFields level rest

end

/-- Text indented by two spaces a level, with no final line end. -/
def pretty (v : Json) : String := prettyAt 0 v

end Bitemporal.Json
