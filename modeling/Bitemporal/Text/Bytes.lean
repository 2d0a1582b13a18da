import Bitemporal.Text.Hex

/-!
# Bytes

Byte strings, their hexadecimal text, their UTF-8 reading and their lines.

## Main definitions

* `Bytes.hex`, `Bytes.ofHex?`: lower-case hexadecimal text.
* `Bytes.ofString`, `Bytes.text?`: UTF-8.
* `Bytes.lines`: the lines of a text file.
-/

namespace Bitemporal

/-- A string of bytes. -/
abbrev Bytes := List UInt8

namespace Bytes

/-- Two hexadecimal digits for each byte. -/
def hexDigits (bs : Bytes) : List Char :=
  bs.flatMap fun b => [Hex.digit (b.toNat / 16), Hex.digit (b.toNat % 16)]

/-- Hexadecimal text, two digits a byte. -/
def hex (bs : Bytes) : String := String.ofList (hexDigits bs)

/-- The bytes that pairs of hexadecimal digits name. -/
def ofHexDigits? : List Char → Option Bytes
  | [] => some []
  | [_] => none
  | a :: b :: rest => do
    let x ← Hex.value? a
    let y ← Hex.value? b
    return UInt8.ofNat (16 * x + y) :: (← ofHexDigits? rest)

/-- The bytes of a hexadecimal text. -/
def ofHex? (s : String) : Option Bytes := ofHexDigits? s.toList

/-- The UTF-8 form of a text. -/
def ofString (s : String) : Bytes := s.toUTF8.toList

/-- The text whose UTF-8 form the bytes are. -/
def text? (bs : Bytes) : Option String := String.fromUTF8? ⟨bs.toArray⟩

/-- The bytes between line feeds. Bytes after the last line feed are a line unless there are
none; a line keeps its line feed out and says whether it had one. -/
def rawLines (bs : Bytes) : List (Bytes × Bool) :=
  let step := fun (b : UInt8) (acc : Bytes × List (Bytes × Bool)) =>
    if b = 10 then ([], (acc.1, true) :: acc.2) else (b :: acc.1, acc.2)
  let (last, done) := bs.foldl (fun acc b => step b acc) (([] : Bytes), ([] : List (Bytes × Bool)))
  let all := if last.isEmpty then done else (last, false) :: done
  all.reverse.map fun (line, ended) => (line.reverse, ended)

/-- A line without the carriage return that belongs to its line feed. -/
def dropReturn (line : Bytes × Bool) : Bytes :=
  if line.2 ∧ line.1.getLast? = some 13 then line.1.dropLast else line.1

/-- The texts of some lines behind those that were read, up to the first line that is not
UTF-8, and whether such a line stopped the reading. -/
def readLines (read : List String) : List (Bytes × Bool) → List String × Bool
  | [] => (read.reverse, false)
  | line :: rest =>
    match text? (dropReturn line) with
    | some s => readLines (s :: read) rest
    | none => (read.reverse, true)

/-- The lines of a text, up to the first that is not UTF-8, and whether such a line stopped the
reading. -/
def lines (bs : Bytes) : List String × Bool := readLines [] (rawLines bs)

end Bytes

end Bitemporal
