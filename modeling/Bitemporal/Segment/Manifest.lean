import Bitemporal.Page.SummaryText
import Bitemporal.Segment.Basic
import Bitemporal.Trie.TableText

/-!
# Manifests of stored segments

The manifest of a segment holds its node table and the summaries of its pages. It is written last,
so a directory without one holds no finished segment. Whatever a manifest says is checked before
it is used as a segment.

## Main definitions

* `Manifest`: the contents.
* `Manifest.toJson`, `Manifest.ofSource?`: writing and reading.
* `StoredSegment.ofManifest`: the segment, if the manifest is sound.
-/

namespace Bitemporal

/-- What a stored segment says of itself. -/
structure Manifest where
  /-- The version of the format. -/
  formatVersion : Nat
  /-- The bits of a level of the trie. -/
  levelBits : Nat
  /-- The nodes of the trie, children before their parent. -/
  nodes : NodeTable
  /-- The index of the root, if the segment has pages. -/
  root : Option Nat
  /-- The summaries of the pages. -/
  pages : List PageSummary
deriving DecidableEq, Repr

namespace Manifest

/-- The version that is written and read. -/
def currentVersion : Nat := 1

/-- The manifest of a trie and its pages. -/
def ofTrie (trie : HashTrie) (pages : List PageSummary) : Manifest :=
  let (nodes, root) := trie.root.toTable
  ⟨currentVersion, trie.width.bits, nodes, root, pages⟩

/-- The manifest as a record. -/
def toJson (m : Manifest) : Json :=
  .object
    [ ("format_version", .nat m.formatVersion)
    , ("level_bits", .nat m.levelBits)
    , ("nodes", m.nodes.toJson)
    , ("root", (m.root.map Json.nat).getD .null)
    , ("pages", .array (m.pages.map PageSummary.toJson)) ]

/-- The names of the fields, in their order. -/
def fieldNames : List String := ["format_version", "level_bits", "nodes", "root", "pages"]

/-- The manifest of a record. -/
def ofSource? (s : Json.Source) : Option Manifest := do
  match ← s.record? fieldNames false with
  | [some formatVersion, some levelBits, some nodes, root, some pages] =>
    return {
      formatVersion := ← formatVersion.natural? 32
      levelBits := ← levelBits.natural? 8
      nodes := ← NodeTable.ofSource? (Json.maxNesting - 2) nodes
      root := ← Json.Source.optional? (·.natural? 64) root
      pages := ← (← pages.items?).mapM PageSummary.ofSource? }
  | _ => none

end Manifest

/-- The segment of a manifest. -/
def StoredSegment.ofManifest (name directory : String) (m : Manifest) :
    Except Error StoredSegment :=
  if m.formatVersion ≠ Manifest.currentVersion then
    .error (.corruption (s!"segment '{name}' has format version {m.formatVersion}, " ++
      s!"expected {Manifest.currentVersion}"))
  else
    match BucketWidth.ofBits m.levelBits with
    | .error e => .error (.corruption s!"segment '{name}': {e.message}")
    | .ok w =>
      match m.nodes.build m.root w m.pages.length with
      | .error d => .error (.corruption d.message)
      | .ok trie => .ok ⟨name, directory, trie, m.pages⟩

end Bitemporal
