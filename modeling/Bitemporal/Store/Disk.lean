import Bitemporal.Error
import Bitemporal.Text.Bytes

/-!
# Files

The files that the engine works on: directories and files around a working directory, kept as a
map from locations to entries. A path is followed part by part. Every part but the last must lead
to a directory, also when a dot comes after it, and a slash at the end asks for a directory.

## Main definitions

* `Disk`: the files and directories.
* `Disk.locate`: where a path leads.
* `Disk.read`, `Disk.write`, `Disk.makeAll`, `Disk.rename`: what the engine does with them.
* `Disk.join`: a path below another.
-/

namespace Bitemporal

/-- What a path leads to. -/
inductive DiskEntry where
  | file (content : Bytes)
  | directory
deriving Repr, Inhabited

/-- The names from the working directory on, behind two dots for each directory that it is left
to, or those from the root on, behind a slash. -/
abbrev Location := List String

/-- Files and directories by location; the working directory, those above it and the root always
exist. -/
structure Disk where
  /-- The entries, no location twice. -/
  entries : List (Location × DiskEntry)
deriving Repr, Inhabited

namespace Disk

/-- Nothing but the directories that always exist. -/
def empty : Disk := ⟨[]⟩

/-- The root. -/
def root : Location := ["/"]

/-- Whether a location is the working directory or one above it. -/
def isOutward (l : Location) : Bool := l.all (· = "..")

/-- The entry at a location. -/
def entry? (d : Disk) (l : Location) : Option DiskEntry :=
  if isOutward l ∨ l = root then some .directory else d.entries.lookup l

/-- Replaces or adds the entry at a location. -/
def setEntry (d : Disk) (l : Location) (e : DiskEntry) : Disk :=
  ⟨if d.entries.any fun x => x.1 = l then d.entries.map fun x => if x.1 = l then (l, e) else x
    else d.entries ++ [(l, e)]⟩

/-- Removes the entry at a location and all below it. -/
def dropEntry (d : Disk) (l : Location) : Disk :=
  ⟨d.entries.filter fun x => ¬ l.isPrefixOf x.1⟩

/-! ## Paths -/

/-- Whether a path starts with a slash. -/
def isAbsolute (path : String) : Bool := path.toList.head? = some '/'

/-- Whether a path ends with a slash. -/
def endsInSlash (path : String) : Bool := path.toList.getLast? = some '/'

/-- A path below a directory; an absolute path stands for itself. -/
def join (directory path : String) : String :=
  if isAbsolute path then path
  else if directory = "" ∨ endsInSlash directory then directory ++ path
  else directory ++ "/" ++ path

/-- What stands before the first slash of a text, and what between each slash and the next. -/
def stretches : List Char → List Char × List (List Char)
  | [] => ([], [])
  | c :: rest =>
    let (first, others) := stretches rest
    if c = '/' then ([], first :: others) else (c :: first, others)

/-- What stands between the slashes of a path. -/
def parts (path : String) : List String :=
  let (first, others) := stretches path.toList
  ((first :: others).map String.ofList).filter (· ≠ "")

/-- The parts of a path that name a way: a single dot counts only at the front of a path that is
not absolute. -/
def components (path : String) : List String :=
  match parts path with
  | [] => []
  | first :: rest =>
    let named := rest.filter (· ≠ ".")
    if first = "." ∧ isAbsolute path then named else first :: named

/-- The bytes that a name may have. -/
def nameLimit : Nat := 255

/-- A path has fewer bytes than this. -/
def pathLimit : Nat := 4096

/-- Refuses texts that are no path. -/
def checkPath (path : String) : Except DiskFault Unit :=
  if path.toList.contains (Char.ofNat 0) then .error .nulInPath
  else if path = "" then .error .notFound
  else if pathLimit ≤ path.utf8ByteSize then .error .nameTooLong
  else .ok ()

/-- Where a path begins. -/
def origin (path : String) : Location := if isAbsolute path then root else []

/-- The location one part further. -/
def stepTo (l : Location) (part : String) : Location :=
  if part = "." then l
  else if part ≠ ".." then l ++ [part]
  else if l = root then root
  else if isOutward l then l ++ [part]
  else l.dropLast

/-- Goes one part further, which takes a directory and a name that is not too long. -/
def enter (d : Disk) (l : Location) (part : String) : Except DiskFault Location :=
  match d.entry? l with
  | none => .error .notFound
  | some (.file _) => .error .notDirectory
  | some .directory =>
    if nameLimit < part.utf8ByteSize then .error .nameTooLong else .ok (stepTo l part)

/-- Where parts lead from a location; the last of them may lead to nothing. -/
def walk (d : Disk) (l : Location) (parts : List String) : Except DiskFault Location :=
  parts.foldlM d.enter l

/-- Where a path leads. -/
def locate (d : Disk) (path : String) : Except DiskFault Location := do
  checkPath path
  let l ← d.walk (origin path) (parts path)
  match d.entry? l with
  | some (.file _) => if endsInSlash path then .error .notDirectory else return l
  | _ => return l

/-- What a path leads to. -/
def find? (d : Disk) (path : String) : Option DiskEntry :=
  match d.locate path with
  | .ok l => d.entry? l
  | .error _ => none

/-- Whether a path leads to something. -/
def holds (d : Disk) (path : String) : Bool := (d.find? path).isSome

/-! ## Reading -/

/-- Opens a path for reading: the content of a file, nothing for a directory. -/
def openFile (d : Disk) (path : String) : Except DiskFault (Option Bytes) := do
  match d.entry? (← d.locate path) with
  | none => .error .notFound
  | some .directory => return none
  | some (.file content) => return some content

/-- The content of a file. -/
def read (d : Disk) (path : String) : Except DiskFault Bytes := do
  match ← d.openFile path with
  | none => .error .isDirectory
  | some content => return content

/-- The text of a file. -/
def readText (d : Disk) (path : String) : Except DiskFault String := do
  match Bytes.text? (← d.read path) with
  | some s => return s
  | none => .error .invalidText

/-! ## Changing -/

/-- Creates a file, or replaces the content of the one that is there. -/
def write (d : Disk) (path : String) (content : Bytes) : Except DiskFault Disk := do
  checkPath path
  let l ← d.walk (origin path) (parts path)
  match d.entry? l with
  | some .directory => .error .isDirectory
  | _ => if endsInSlash path then .error .isDirectory else return d.setEntry l (.file content)

/-- Creates a directory where nothing is yet. -/
def make (d : Disk) (start : Location) (parts : List String) : Except DiskFault Disk := do
  let l ← d.walk start parts
  if (d.entry? l).isSome then .error .alreadyExists else return d.setEntry l .directory

/-- Creates a directory unless it is there. -/
def ensure (d : Disk) (start : Location) (parts : List String) : Except DiskFault Disk :=
  match d.make start parts, (d.walk start parts).map d.entry? with
  | .error _, .ok (some .directory) => .ok d
  | result, _ => result

/-- What became of a change, and the files after it. -/
def settle (d : Disk) : Except DiskFault Disk → Except DiskFault Unit × Disk
  | .ok d => (.ok (), d)
  | .error f => (.error f, d)

/-- Creates a directory and the missing ones above it, which stay where it comes to a fault. The
way to the directory has its last name first. -/
def makeWay (d : Disk) (start : Location) : List String → Except DiskFault Unit × Disk
  | [] => (.ok (), d)
  | name :: above =>
    let way := (name :: above).reverse
    match d.make start way with
    | .error .notFound =>
      match d.makeWay start above with
      | (.ok (), d) => d.settle (d.ensure start way)
      | stopped => stopped
    | _ => d.settle (d.ensure start way)

/-- Creates the directory of a path and the missing ones above it, which stay where it comes to a
fault. Those above are found without the single dots of the path, so a dot at its end asks for a
directory that is there already. -/
def makeAll (d : Disk) (path : String) : Except DiskFault Unit × Disk :=
  if path = "" then (.ok (), d)
  else
    let start := origin path
    match checkPath path, d.make start (parts path) with
    | .error f, _ => (.error f, d)
    | .ok (), .error .notFound =>
      match d.makeWay start (components path).dropLast.reverse with
      | (.ok (), d) => d.settle (d.ensure start (parts path))
      | stopped => stopped
    | .ok (), _ => d.settle (d.ensure start (parts path))

/-- Moves a file, over a file that is there. -/
def rename (d : Disk) (source target : String) : Except DiskFault Disk := do
  let content ← d.read source
  let moved ← d.write target content
  return moved.dropEntry (← d.locate source)

end Disk

end Bitemporal
