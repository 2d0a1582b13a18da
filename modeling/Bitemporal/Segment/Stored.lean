import Bitemporal.Page.Record
import Bitemporal.Segment.Manifest

/-!
# Stored segments

A stored segment is a directory with a file of page records, one after the other, and a manifest.
A write first creates the directory and the file of records, then fills the file, and seals the
segment by moving the finished manifest into place.

## Main definitions

* `StoredSegment.prepare`, `StoredSegment.fill`, `StoredSegment.sealSegment`: the parts of a write.
* `StoredSegment.write`: writes ordered facts as a new segment.
* `StoredSegment.openDir`, `StoredSegment.openNamed`: opens a finished segment.
* `StoredSegment.page`: reads and checks a page.
-/

namespace Bitemporal.StoredSegment

/-- The file of page records. -/
def dataFile : String := "data.pages"

/-- The file of the manifest. -/
def manifestFile : String := "meta.json"

/-- Where the manifest stands until it is finished. -/
def draftFile : String := manifestFile ++ ".tmp"

/-- Creates the directory of a new segment with an empty file of records. Directories that were
created before a fault stay. -/
def prepare (settings : Settings) (name : String) (d : Disk) : Except Error Unit × Disk :=
  let directory := settings.segmentDir name
  if d.holds (Disk.join directory manifestFile) then
    (.error (.malformed s!"segment '{name}' already exists at {directory}"), d)
  else
    match d.makeAll directory with
    | (.error f, d) => (.error (.io s!"creating {directory}" f), d)
    | (.ok (), d) =>
      let file := Disk.join directory dataFile
      match d.write file [] with
      | .error f => (.error (.io s!"creating {file}" f), d)
      | .ok d => (.ok (), d)

/-- The records of pages with their summaries, from a page number and an offset on. -/
def recordsFrom (bloomBits index offset : Nat) : List Page → List (Bytes × PageSummary)
  | [] => []
  | p :: rest =>
    let record := p.encode index
    let summary := { p.summary bloomBits with offset, length := record.length }
    (record, summary) :: recordsFrom bloomBits (index + 1) (offset + record.length) rest

/-- The records of the pages of a segment with their summaries. -/
def records (settings : Settings) (pages : List Page) : List (Bytes × PageSummary) :=
  recordsFrom settings.bloomBits 0 0 pages

/-- Fills the file of records of a prepared segment. -/
def fill (settings : Settings) (name : String) (pages : List Page) (d : Disk) : Disk :=
  let file := Disk.join (settings.segmentDir name) dataFile
  match d.write file ((records settings pages).flatMap (·.1)) with
  | .ok d => d
  | .error _ => d

/-- Seals a filled segment under its trie: what became of it, and the files. -/
def sealSegment (settings : Settings) (name : String) (pages : List Page) (trie : HashTrie)
    (d : Disk) : Except Error StoredSegment × Disk :=
  let directory := settings.segmentDir name
  let draft := Disk.join directory draftFile
  let manifest := Manifest.ofTrie trie ((records settings pages).map (·.2))
  match d.write draft (Bytes.ofString manifest.toJson.pretty) with
  | .error f => (.error (.io s!"creating {draft}" f), d)
  | .ok d =>
    match d.rename draft (Disk.join directory manifestFile) with
    | .error f => (.error (.io s!"sealing segment '{name}'" f), d)
    | .ok d => (ofManifest name directory manifest, d)

/-- Writes a new segment from the pages and the trie that `produce` makes once the segment is
prepared. Pages made before a refusal stay in the file of records. -/
def writeWith (settings : Settings) (name : String) (d : Disk)
    (produce : Disk → Logged (List Page × Except Failure HashTrie)) :
    Logged (Except Failure StoredSegment × Disk) := do
  match prepare settings name d with
  | (.error e, d) => return (.error (.error e), d)
  | (.ok (), d) =>
    let (pages, trie) ← produce d
    let d := fill settings name pages d
    match trie with
    | .error f => return (.error f, d)
    | .ok trie =>
      let (result, d) := sealSegment settings name pages trie d
      return (result.mapError .error, d)

/-- Writes facts that must be in order as a new segment. -/
def write (settings : Settings) (name : String) (rows : List Fact) (d : Disk) :
    Logged (Except Failure StoredSegment × Disk) := do
  match Writer.ofSettings settings with
  | .error e => return (.error (.error e), d)
  | .ok w =>
    writeWith settings name d fun _ => do
      let out ← w.write rows
      return (out.pages, out.trie.mapError .error)

/-- The segment in a directory. -/
def openDir (name directory : String) (d : Disk) : Except Error StoredSegment := do
  let file := Disk.join directory manifestFile
  let text ← (d.readText file).mapError (.io s!"reading {file}")
  match (Json.Source.ofString? text).bind Manifest.ofSource? with
  | none => .error (.corruption s!"invalid {file}: not a manifest")
  | some m => ofManifest name directory m

/-- What is noted of an opened segment. -/
def openedEntry (s : StoredSegment) : LogEntry :=
  Event.segmentOpened.entry [("segment", s.name), ("pages", toString s.summaries.length)]

/-- Opens the segment in a directory. -/
def openLogged (name directory : String) (d : Disk) : Engine StoredSegment := do
  let s ← Engine.ofExcept (openDir name directory d)
  Engine.log [s.openedEntry]
  return s

/-- Opens a segment by its name. -/
def openNamed (settings : Settings) (name : String) (d : Disk) : Engine StoredSegment :=
  openLogged name (settings.segmentDir name) d

/-- The last offset that a file can be positioned at: the end of its last block of 4096 bytes. -/
def lastOffset : Nat := (Nat.pow 2 32 - 1) * 4096

/-- The bytes of a page record. -/
def readRecord (content : Option Bytes) (offset length : Nat) : Except DiskFault Bytes :=
  if lastOffset < offset then .error .invalidPosition
  else
    match content with
    | none => if length = 0 then .ok [] else .error .isDirectory
    | some content =>
      let record := (content.drop offset).take length
      if record.length = length then .ok record else .error .shortRead

/-- Reads a page and checks it against its summary. -/
def readPage (s : StoredSegment) (i : Nat) (d : Disk) : Except Error Page :=
  match s.summaries[i]? with
  | none => .error (noSuchPage i s.summaries.length)
  | some summary => do
    let file := Disk.join s.directory dataFile
    let content ← (d.openFile file).mapError (.io s!"opening {file}")
    let record ← (readRecord content summary.offset summary.length).mapError
      fun f => .corruption s!"reading page record: {f.message}"
    let page ← (Page.decode record i).mapError fun defect => .corruption defect.message
    if page.size = summary.rowCount then return page
    else .error (.corruption
      s!"page has {page.size} rows, metadata says {summary.rowCount}")

/-- A page of the segment. -/
def page (s : StoredSegment) (i : Nat) (d : Disk) : Except Error Page :=
  (s.readPage i d).mapError (.pageUnavailable s.name i)

/-- No record in memory has as many bytes as this. -/
def recordLimit : Nat := Nat.pow 2 63

/-- Whether memory cannot hold the record of a page, as long as its summary says it is. -/
def outgrows (s : StoredSegment) (i : Nat) (d : Disk) : Bool :=
  match s.summaries[i]?, d.openFile (Disk.join s.directory dataFile) with
  | some summary, .ok _ => recordLimit ≤ summary.length
  | _, _ => false

/-- What is noted of a page that cannot be read. -/
def loadFailedEntry (s : StoredSegment) (i : Nat) (reason : Error) : LogEntry :=
  Event.pageLoadFailed.entry
    [("segment", s.name), ("page", toString i), ("reason", reason.message)]

end Bitemporal.StoredSegment

namespace Bitemporal.Segment

/-- A page of a segment. -/
def page (d : Disk) : Segment → Nat → Except Error Page
  | memory s, i => s.page i
  | stored s, i => s.page i d

/-- What is noted of the error of a page: nothing unless the page is stored. -/
def pageEntries : Segment → Nat → Error → List LogEntry
  | stored s, i, .pageUnavailable _ _ reason => [s.loadFailedEntry i reason]
  | _, _, _ => []

/-- Whether memory cannot hold the record of a page. -/
def outgrows (d : Disk) : Segment → Nat → Bool
  | memory _, _ => false
  | stored s, i => s.outgrows i d

/-- Loads a page. -/
def loadPage (d : Disk) (s : Segment) (i : Nat) : Engine Page := do
  match s.page d i with
  | .ok p => return p
  | .error e =>
    if s.outgrows d i then Engine.ofResult (.error .outOfBounds)
    else
      Engine.log (s.pageEntries i e)
      Engine.ofExcept (.error e)

end Bitemporal.Segment
