import Bitemporal.Digest.Crc32
import Bitemporal.Json.Printer
import Bitemporal.Json.Source
import Bitemporal.Page.Basic

/-!
# Page records

A page is stored as one record of bytes, column after column: ids, the three times, the kinds, and
then each content column with a mark for every row that says whether it has a value. The record
starts with its length and its page number and ends with a checksum of everything before it.
Numbers are little-endian; counts and lengths take four bytes.

## Main definitions

* `PageColumns`: a page taken apart by columns.
* `Page.encode`: the record of a page.
* `PageColumns.decode`: the columns of a record, or what is wrong with it.
* `PageColumns.IsRectangular`: every column has an entry for every row.
-/

namespace Bitemporal

/-- The columns of a page. -/
structure PageColumns where
  /-- The entities of the rows. -/
  entities : List EntityId
  /-- Their starts in valid time. -/
  validFroms : List Instant
  /-- Their ends in valid time. -/
  validTos : List Instant
  /-- Their system times. -/
  systemFroms : List Instant
  /-- Their kinds. -/
  kinds : List FactKind
  /-- The content columns by name; a row without the column has no value there. -/
  content : List (String × List (Option Json))

namespace PageColumns

/-- Every column has an entry for each of `n` rows. -/
def IsRectangular (c : PageColumns) (n : Nat) : Prop :=
  c.entities.length = n ∧ c.validFroms.length = n ∧ c.validTos.length = n ∧
    c.systemFroms.length = n ∧ c.kinds.length = n ∧ ∀ col ∈ c.content, col.2.length = n

/-- The columns of a page. -/
def ofPage (p : Page) : PageColumns where
  entities := p.rows.map (·.entity)
  validFroms := p.rows.map (·.validFrom)
  validTos := p.rows.map (·.validTo)
  systemFroms := p.rows.map (·.systemFrom)
  kinds := p.rows.map (·.kind)
  content := p.columnNames.map fun name => (name, p.column name)

/-- The fields of `n` rows, from content columns over them. -/
def fieldsOf (n : Nat) (content : List (String × List (Option Json))) :
    List (List (String × Json)) :=
  content.foldr
    (fun (name, values) rows => values.zipWith (fun v row => (v.map (name, ·)).toList ++ row) rows)
    (List.replicate n [])

/-- The action of a row of some kind; only a put has content. -/
def actionOf (kind : FactKind) (fields : List (String × Json)) : Action :=
  match kind with
  | .put => .put (.ofFields fields)
  | .delete => .delete
  | .erase => .erase

/-- The actions of the rows. -/
def actions (c : PageColumns) : List Action :=
  c.kinds.zipWith actionOf (fieldsOf c.kinds.length c.content)

/-- The page of the columns, row by row. -/
def toPage (c : PageColumns) : Page :=
  let known := c.systemFroms.zip c.actions
  let spans := c.validFroms.zip c.validTos
  ⟨(c.entities.zip spans).zipWith (fun (e, span) (t, a) => ⟨e, span.1, span.2, t, a⟩) known⟩

end PageColumns

namespace Record

/-- The little-endian bytes of a number; what does not fit is dropped. -/
def littleEndian (count n : Nat) : Bytes :=
  (List.range count).map fun i => UInt8.ofNat (n / Nat.pow 256 i)

/-- The number of little-endian bytes. -/
def littleEndianValue : Bytes → Nat
  | [] => 0
  | b :: bs => b.toNat + 256 * littleEndianValue bs

/-- The four bytes of a count. -/
def count (n : Nat) : Bytes := littleEndian 4 n

/-- The eight bytes of an instant. -/
def instant (t : Instant) : Bytes := littleEndian 8 t.toUInt64.toNat

/-- The instant of eight bytes. -/
def instantValue (bytes : Bytes) : Instant :=
  (UInt64.ofNat (littleEndianValue bytes)).toInt64

/-- A byte string behind its length. -/
def counted (bytes : Bytes) : Bytes := count bytes.length ++ bytes

/-- An entry of a content column: a mark, and the value as compact JSON if there is one. -/
def entry : Option Json → Bytes
  | none => [0]
  | some v => 1 :: counted (Bytes.ofString v.compact)

/-- A content column. -/
def contentColumn (column : String × List (Option Json)) : Bytes :=
  counted (Bytes.ofString column.1) ++ column.2.flatMap entry

/-- What stands between the length and the checksum. -/
def body (index : Nat) (c : PageColumns) : Bytes :=
  count index ++ count c.entities.length ++
    c.entities.flatMap EntityId.toBytes ++
    c.validFroms.flatMap instant ++ c.validTos.flatMap instant ++ c.systemFroms.flatMap instant ++
    c.kinds.map FactKind.tag ++
    count c.content.length ++ c.content.flatMap contentColumn

/-- The bytes of the checksum of a byte string. -/
def checkBytes (bytes : Bytes) : Bytes := count (Crc32.checksum bytes).toNat

/-- A body with its length in front and the checksum of both behind. -/
def frame (body : Bytes) : Bytes :=
  let unsealed := count (4 + body.length + 4) ++ body
  unsealed ++ checkBytes unsealed

/-- The length of the shortest record. -/
def minLength : Nat := 20

/-- The bytes that each row takes at least. -/
def rowLength : Nat := 41

/-- What is wrong with a record. -/
inductive Defect where
  | tooShort (length : Nat)
  | wrongLength (stored actual : Nat)
  | wrongChecksum (computed stored : Nat)
  | wrongPage (expected found : Nat)
  | tooManyRows (count : Nat)
  | truncated
  | overrun (length left : Nat)
  | unknownKind (tag : UInt8)
  | invalidName
  | invalidValue (column : String)
  | invalidMark (mark : UInt8) (column : String)
  | trailing
deriving DecidableEq, Repr

namespace Defect

/-- The defect in words. -/
def message : Defect → String
  | tooShort length => s!"page record too short: {length} bytes"
  | wrongLength stored actual =>
    s!"page record length {stored} does not match the {actual} bytes read"
  | wrongChecksum computed stored =>
    s!"checksum mismatch: computed {Hex.padded 8 computed}, stored {Hex.padded 8 stored}"
  | wrongPage expected found => s!"expected page {expected}, found page {found}"
  | tooManyRows count => s!"row count {count} exceeds record"
  | truncated => "truncated page record: failed to fill whole buffer"
  | overrun length left => s!"field of {length} bytes overruns record ({left} left)"
  | unknownKind tag => s!"unknown op tag {tag.toNat}"
  | invalidName => "invalid column name: not valid UTF-8"
  | invalidValue column => s!"invalid value in '{column}': not valid JSON"
  | invalidMark mark column => s!"invalid presence flag {mark.toNat} in '{column}'"
  | trailing => "trailing bytes in page record"

end Defect

/-- A step of reading, which moves through the bytes. -/
abbrev Reading (α : Type) := StateT Bytes (Except Defect) α

/-- Gives a defect. -/
def fail {α : Type} (d : Defect) : Reading α := StateT.lift (.error d)

/-- That many bytes. -/
def take (n : Nat) : Reading Bytes := fun bytes =>
  let front := bytes.take n
  if front.length = n then .ok (front, bytes.drop n) else .error .truncated

/-- A count. -/
def takeCount : Reading Nat := do return littleEndianValue (← take 4)

/-- A byte string behind its length. -/
def takeCounted : Reading Bytes := do
  let n ← takeCount
  let left ← get
  if (left.take n).length < n then fail (.overrun n left.length) else take n

/-- As many items as asked for, one after the other. -/
def takeMany {α : Type} (item : Reading α) (n : Nat) : Reading (List α) :=
  (List.replicate n ()).mapM fun () => item

/-- An entity. -/
def takeEntity : Reading EntityId := do
  return .ofNat (EntityId.bigEndianValue (← take EntityId.byteCount))

/-- An instant. -/
def takeInstant : Reading Instant := do return instantValue (← take 8)

/-- The kind of a tag. -/
def kindOf (tag : UInt8) : Except Defect FactKind :=
  match FactKind.ofTag? tag with
  | none => .error (.unknownKind tag)
  | some k => .ok k

/-- An entry of the content column of that name. -/
def takeEntry (column : String) : Reading (Option Json) := do
  let mark := (← take 1).headD 0
  if mark = 0 then return none
  else if mark = 1 then
    match (Bytes.text? (← takeCounted)).bind Json.ofString? with
    | some v => return some v
    | none => fail (.invalidValue column)
  else fail (.invalidMark mark column)

/-- A content column over that many rows. -/
def takeColumn (rows : Nat) : Reading (String × List (Option Json)) := do
  match Bytes.text? (← takeCounted) with
  | none => fail .invalidName
  | some name => return (name, ← takeMany (takeEntry name) rows)

/-- The columns of a body whose record has `sealedLength` bytes before its checksum. -/
def takeColumns (index sealedLength : Nat) : Reading PageColumns := do
  let found ← takeCount
  if found ≠ index then fail (.wrongPage index found)
  else
    let n ← takeCount
    if n > sealedLength / rowLength then fail (.tooManyRows n)
    else
      let entities ← takeMany takeEntity n
      let validFroms ← takeMany takeInstant n
      let validTos ← takeMany takeInstant n
      let systemFroms ← takeMany takeInstant n
      let kinds ← StateT.lift ((← take n).mapM kindOf)
      let content ← takeMany (takeColumn n) (← takeCount)
      return ⟨entities, validFroms, validTos, systemFroms, kinds, Json.sortFields content⟩

end Record

/-- The record of a page under a number. Numbers that do not fit their four bytes lose their
higher bits. -/
def Page.encode (index : Nat) (p : Page) : Bytes := Record.frame (Record.body index (.ofPage p))

/-- The columns of a record that must have a given page number. -/
def PageColumns.decode (bytes : Bytes) (index : Nat) : Except Record.Defect PageColumns := do
  if bytes.length < Record.minLength then .error (.tooShort bytes.length)
  else
    let stored := Record.littleEndianValue (bytes.take 4)
    if stored ≠ bytes.length then .error (.wrongLength stored bytes.length)
    else
      let unsealed := bytes.take (bytes.length - 4)
      let checksum := Record.littleEndianValue (bytes.drop (bytes.length - 4))
      let computed := (Crc32.checksum unsealed).toNat
      if computed ≠ checksum then .error (.wrongChecksum computed checksum)
      else
        let (columns, rest) ← (Record.takeColumns index unsealed.length).run (unsealed.drop 4)
        if rest.isEmpty then .ok columns else .error .trailing

/-- The page of a record that must have a given page number. -/
def Page.decode (bytes : Bytes) (index : Nat) : Except Record.Defect Page :=
  (PageColumns.decode bytes index).map PageColumns.toPage

end Bitemporal
