import Bitemporal.Error
import Bitemporal.Json.Record
import Bitemporal.Json.Printer
import Bitemporal.Store.Disk
import Bitemporal.Trie.Path

/-!
# Settings

Where segments are stored and how they are cut into pages. Every setting but the directory is
checked before it is used.

## Main definitions

* `Settings`: the settings, with their defaults.
* `Settings.check`: what may be wrong with them.
* `Settings.load`: reads them from a file.
-/

namespace Bitemporal

/-- What to do with a leaf over the row limit whose rows all belong to one entity. -/
inductive OversizedPolicy where
  /-- Write it. -/
  | allow
  /-- Refuse the whole write. -/
  | reject
deriving DecidableEq, Repr, Inhabited

namespace OversizedPolicy

/-- The name of a policy. -/
def name : OversizedPolicy → String
  | allow => "allow"
  | reject => "reject"

/-- The policy of a name. -/
def ofName? (s : String) : Option OversizedPolicy :=
  if s = "allow" then some allow else if s = "reject" then some reject else none

end OversizedPolicy

/-- How segments are stored. -/
structure Settings where
  /-- The directory of stored segments. -/
  dataDir : String := "./chrono-data"
  /-- The bits of an id that each level of a trie consumes. -/
  levelBits : Nat := 2
  /-- The greatest number of rows of a leaf. -/
  leafRowLimit : Nat := 1024
  /-- The bits of each page's filter of entities. -/
  bloomBits : Nat := 2048
  /-- What to do with an entity that has more rows than a leaf may hold. -/
  oversized : OversizedPolicy := .allow
deriving DecidableEq, Repr, Inhabited

/-- The level width of a number of bits, or the error that it is none. -/
def BucketWidth.ofBits (bits : Nat) : Except Error BucketWidth :=
  match BucketWidth.ofBits? bits with
  | some w => .ok w
  | none => .error (.config s!"level_bits must be 2, 4 or 8, got {bits}")

namespace Settings

/-- Whether a number is a power of two. -/
def isPowerOfTwo (n : Nat) : Bool := n ≠ 0 ∧ Nat.pow 2 n.log2 = n

/-- The level width. -/
def width (s : Settings) : Except Error BucketWidth := BucketWidth.ofBits s.levelBits

/-- The level width of settings that can be used. -/
def check (s : Settings) : Except Error BucketWidth := do
  let w ← s.width
  if s.leafRowLimit = 0 then .error (.config "leaf_row_limit must be > 0")
  else if s.bloomBits < 64 ∨ ¬ isPowerOfTwo s.bloomBits then
    .error (.config s!"bloom_bits must be a power of two >= 64, got {s.bloomBits}")
  else return w

/-- The directory of a segment. -/
def segmentDir (s : Settings) (name : String) : String := Disk.join s.dataDir name

/-- The names of the fields, in their order. -/
def fieldNames : List String :=
  ["data_dir", "level_bits", "leaf_row_limit", "bloom_bits", "oversized_leaf_policy"]

/-- The settings as a record. -/
def toJson (s : Settings) : Json :=
  .object
    [ ("data_dir", .string s.dataDir)
    , ("level_bits", .nat s.levelBits)
    , ("leaf_row_limit", .nat s.leafRowLimit)
    , ("bloom_bits", .nat s.bloomBits)
    , ("oversized_leaf_policy", .string s.oversized.name) ]

/-- The settings of a record; fields that are left out have their defaults. -/
def ofSource? (s : Json.Source) : Option Settings := do
  let default : Settings := {}
  match ← s.record? fieldNames false with
  | [dataDir, levelBits, leafRowLimit, bloomBits, oversized] =>
    return {
      dataDir := ← Json.Source.withDefault? default.dataDir (·.text?) dataDir
      levelBits := ← Json.Source.withDefault? default.levelBits (·.natural? 8) levelBits
      leafRowLimit := ← Json.Source.withDefault? default.leafRowLimit (·.natural? 64) leafRowLimit
      bloomBits := ← Json.Source.withDefault? default.bloomBits (·.natural? 64) bloomBits
      oversized := ← Json.Source.withDefault? default.oversized
        (Json.Source.constant? OversizedPolicy.ofName?) oversized }
  | _ => none

/-- The settings of a value, which has no field twice. -/
def ofJson? (v : Json) : Option Settings := do ofSource? (← Json.Source.ofString? v.compact)

/-- The settings of a file, checked. -/
def load (d : Disk) (path : String) : Except Error Settings := do
  let text ← (d.readText path).mapError (.io s!"reading config {path}")
  match (Json.Source.ofString? text).bind ofSource? with
  | none => .error (.config "invalid config JSON: not valid JSON")
  | some s =>
    let _ ← s.check
    return s

end Settings

end Bitemporal
