import Bitemporal.Digest.Sha256
import Bitemporal.Entity.Id
import Bitemporal.Json.Printer

/-!
# Keys of entities

A key that is a UUID is the id itself. Any other key is hashed: the id is the first half of the
SHA-256 digest of its text.

## Main definitions

* `EntityId.ofUuid?`: reads the three forms of a UUID.
* `EntityId.ofKey`: the id of a text key.
* `EntityId.ofJsonKey`: the id of any JSON value as a key.
-/

namespace Bitemporal.EntityId

/-- The id of 32 hexadecimal digits. -/
def ofDigits? (cs : List Char) : Option EntityId := do ofBytes? (← Bytes.ofHexDigits? cs)

/-- A text in groups of 8, 4, 4, 4 and 12 digits with hyphens between them, without the
hyphens. -/
def dropHyphens? (cs : List Char) : Option (List Char) :=
  let hyphenAt := fun i => cs[i]? = some '-'
  if cs.length = 36 ∧ hyphenAt 8 ∧ hyphenAt 13 ∧ hyphenAt 18 ∧ hyphenAt 23 then
    some (cs.take 8 ++ (cs.drop 9).take 4 ++ (cs.drop 14).take 4 ++ (cs.drop 19).take 4 ++
      cs.drop 24)
  else none

/-- The id of a UUID: 32 digits, or digits in groups, which may stand in braces or behind
`urn:uuid:` in any case. -/
def ofUuid? (s : String) : Option EntityId :=
  let cs := s.toList
  if cs.length = 32 then ofDigits? cs
  else if cs.length = 36 then (dropHyphens? cs).bind ofDigits?
  else if cs.length = 38 ∧ cs.head? = some '\x7b' ∧ cs.getLast? = some '\x7d' then
    (dropHyphens? ((cs.drop 1).take 36)).bind ofDigits?
  else if cs.length = 45 ∧ (cs.take 9).map Char.toLower = "urn:uuid:".toList then
    (dropHyphens? (cs.drop 9)).bind ofDigits?
  else none

/-- The first half of the digest of a text. -/
def ofHash (s : String) : EntityId := padded (Sha256.digest (Bytes.ofString s))

/-- The id of a text key. -/
def ofKey (s : String) : EntityId := (ofUuid? s).getD (ofHash s)

/-- The id of a JSON key: a string by itself, any other value by its compact text. -/
def ofJsonKey : Json → EntityId
  | .string s => ofKey s
  | v => ofHash v.compact

end Bitemporal.EntityId
