import Bitemporal.Json.Numeral
import Bitemporal.Text.Hex

/-!
# Words of a JSON text

A text is cut into brackets, commas, colons, quoted strings and words by a machine that sees one
character at a time. Whether a word is a number or a constant, and whether the escapes of a string
name characters, is settled later.

## Main definitions

* `Token.ofString?`: the tokens of a text, none if no JSON text has them.
* `Quoted.text?`: the string that stands in quotes.
-/

namespace Bitemporal.Json

/-- One element of a quoted string: a character as it stands, or a UTF-16 unit from an escape. -/
inductive Piece where
  | char (c : Char)
  | unit (value : Nat)
deriving DecidableEq, Repr

/-- The contents of a quoted string. -/
abbrev Quoted := List Piece

/-- The string that the pieces spell. A surrogate counts only as half of a pair of escapes, the
high half first; a surrogate alone spells nothing. -/
def Quoted.chars? : Quoted → Option (List Char)
  | [] => some []
  | .char c :: rest => (chars? rest).map (c :: ·)
  | .unit hi :: .unit lo :: rest =>
    if 0xD800 ≤ hi ∧ hi ≤ 0xDBFF then
      if 0xDC00 ≤ lo ∧ lo ≤ 0xDFFF then
        (chars? rest).map (Char.ofNat (0x10000 + (hi - 0xD800) * 0x400 + (lo - 0xDC00)) :: ·)
      else none
    else if 0xDC00 ≤ hi ∧ hi ≤ 0xDFFF then none
    else (chars? (.unit lo :: rest)).map (Char.ofNat hi :: ·)
  | .unit u :: rest =>
    if 0xD800 ≤ u ∧ u ≤ 0xDFFF then none else (chars? rest).map (Char.ofNat u :: ·)

/-- The string that the pieces spell. -/
def Quoted.text? (q : Quoted) : Option String := (Quoted.chars? q).map String.ofList

/-- A word of JSON text. -/
inductive Token where
  | openList
  | closeList
  | openObject
  | closeObject
  | comma
  | colon
  | word (chars : List Char)
  | quoted (pieces : Quoted)
deriving Repr

/-- Where the machine stands between two characters. What it has read of a token is kept last
character first. -/
inductive Scan where
  | between
  | word (read : List Char)
  | quoted (read : Quoted)
  | escape (read : Quoted)
  | hex (read : Quoted) (left : Nat) (value : Nat)

/-- The four blanks of JSON. -/
def isBlank (c : Char) : Bool := c = ' ' || c = '\t' || c = '\n' || c = '\r'

/-- The characters of numbers and constants. -/
def isWordChar (c : Char) : Bool := c.isAlphanum || c = '+' || c = '-' || c = '.'

/-- What the letter after a backslash stands for. -/
def escapeValue? : Char → Option Char
  | '"' => some '"'
  | '\\' => some '\\'
  | '/' => some '/'
  | 'b' => some (Char.ofNat 8)
  | 'f' => some (Char.ofNat 12)
  | 'n' => some '\n'
  | 'r' => some '\r'
  | 't' => some '\t'
  | _ => none

/-- A character that starts a token or stands between tokens: where the machine goes, and the
token, if the character is one by itself. -/
def Scan.start (c : Char) : Option (Scan × List Token) :=
  if isBlank c then some (.between, [])
  else if c = '[' then some (.between, [.openList])
  else if c = ']' then some (.between, [.closeList])
  else if c = '\x7b' then some (.between, [.openObject])
  else if c = '\x7d' then some (.between, [.closeObject])
  else if c = ',' then some (.between, [.comma])
  else if c = ':' then some (.between, [.colon])
  else if c = '"' then some (.quoted [], [])
  else if isWordChar c then some (.word [c], [])
  else none

/-- One character: where the machine goes, and the tokens that end here. -/
def Scan.step (c : Char) : Scan → Option (Scan × List Token)
  | .between => start c
  | .word read =>
    if isWordChar c then some (.word (c :: read), [])
    else (start c).map fun (next, tokens) => (next, .word read.reverse :: tokens)
  | .quoted read =>
    if c = '"' then some (.between, [.quoted read.reverse])
    else if c = '\\' then some (.escape read, [])
    else if c.toNat < 32 then none
    else some (.quoted (.char c :: read), [])
  | .escape read =>
    if c = 'u' then some (.hex read 4 0, [])
    else (escapeValue? c).map fun v => (.quoted (.char v :: read), [])
  | .hex read left value =>
    (Hex.value? c).map fun d =>
      let value := value * 16 + d
      (if left ≤ 1 then .quoted (.unit value :: read) else .hex read (left - 1) value, [])

/-- The tokens of a text, last first, from a state of the machine. -/
def scanFrom : Scan → List Token → List Char → Option (List Token)
  | .between, tokens, [] => some tokens
  | .word read, tokens, [] => some (.word read.reverse :: tokens)
  | .quoted _, _, [] | .escape _, _, [] | .hex _ _ _, _, [] => none
  | state, tokens, c :: cs =>
    match state.step c with
    | none => none
    | some (next, ended) => scanFrom next (ended.reverseAux tokens) cs

/-- The tokens of a text. -/
def Token.ofString? (s : String) : Option (List Token) :=
  (scanFrom .between [] s.toList).map List.reverse

end Bitemporal.Json
