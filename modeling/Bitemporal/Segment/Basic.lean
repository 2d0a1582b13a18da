import Bitemporal.Page.Summary
import Bitemporal.Segment.Layout
import Bitemporal.Trie.Table

/-!
# Segments

A segment is a named, unchanging run of facts: a trie whose leaves name its pages. A segment in
memory holds the pages themselves; a stored one knows a summary of each page and reads it when
asked.

## Main definitions

* `MemorySegment`, `StoredSegment`, `Segment`.
* `MemorySegment.ofParts`: a segment in memory, if its trie fits its pages.
* `MemorySegment.write`: a segment in memory from ordered facts.
-/

namespace Bitemporal

/-- A segment in memory. -/
structure MemorySegment where
  /-- The name. -/
  name : String
  /-- The trie of its pages. -/
  trie : HashTrie
  /-- The pages. -/
  pages : List Page

/-- A segment in files. -/
structure StoredSegment where
  /-- The name. -/
  name : String
  /-- The directory of its files. -/
  directory : String
  /-- The trie of its pages. -/
  trie : HashTrie
  /-- What is known of the pages. -/
  summaries : List PageSummary

/-- A segment. -/
inductive Segment where
  | memory (s : MemorySegment)
  | stored (s : StoredSegment)

namespace Segment

/-- The name. -/
def name : Segment → String
  | memory s => s.name
  | stored s => s.name

/-- The trie of its pages. -/
def trie : Segment → HashTrie
  | memory s => s.trie
  | stored s => s.trie

/-- The bits of a level of its trie. -/
def width (s : Segment) : BucketWidth := s.trie.width

/-- The number of pages. -/
def pageCount : Segment → Nat
  | memory s => s.pages.length
  | stored s => s.summaries.length

/-- What is known of a page without reading it; nothing of pages in memory. -/
def summary? : Segment → Nat → Option PageSummary
  | memory _, _ => none
  | stored s, i => s.summaries[i]?

end Segment

/-- The fault of asking for a page that a segment does not have. -/
def noSuchPage (page pageCount : Nat) : Error := .malformed s!"no page {page} of {pageCount}"

namespace MemorySegment

/-- A page, if the segment has it. -/
def page (s : MemorySegment) (i : Nat) : Except Error Page :=
  match s.pages[i]? with
  | some p => .ok p
  | none => .error (.pageUnavailable s.name i (noSuchPage i s.pages.length))

/-- The segment of a trie and its pages. Refused if a leaf lies deeper than an id has bits for or
names a page that is not there. -/
def ofParts (name : String) (trie : HashTrie) (pages : List Page) : Except Error MemorySegment :=
  let depth := trie.depth
  let maxDepth := trie.width.maxDepth
  if depth > maxDepth then
    .error (.malformed
      s!"segment '{name}': trie depth {depth} exceeds the maximum of {maxDepth}")
  else
    match trie.leaves.find? fun l => pages.length ≤ l.2 with
    | some (path, page) =>
      .error (.malformed
        s!"segment '{name}': leaf at {path.text} refers to page {page} of {pages.length}")
    | none => .ok ⟨name, trie, pages⟩

/-- The segment of a write. -/
def ofOutput (name : String) (out : Writer.Output) : Except Error MemorySegment := do
  ofParts name (← out.trie) out.pages

/-- Writes facts that must be in order. -/
def write (name : String) (rows : List Fact) (settings : Settings) :
    Logged (Except Error MemorySegment) := do
  match Writer.ofSettings settings with
  | .error e => return .error e
  | .ok w => return ofOutput name (← w.write rows)

end MemorySegment

end Bitemporal
