import Bitemporal.Json.Record
import Bitemporal.Trie.Table

/-!
# Written node tables

An entry is an object that names its kind, beside which a branch lists the indices of its children
and a leaf has the number of its page. It may also be a list that starts with the kind.

## Main definitions

* `TableNode.toJson`, `TableNode.ofSource?`: writing and reading an entry.
* `NodeTable.toJson`, `NodeTable.ofSource?`: writing and reading a table.
-/

namespace Bitemporal

namespace TableNode

/-- An entry as a record. -/
def toJson : TableNode → Json
  | absent => .object [("kind", .string "null")]
  | leaf page => .object [("kind", .string "leaf"), ("page", .nat page)]
  | branch children =>
    .object [("kind", .string "branch"), ("children", .array (children.map .nat))]

/-- The fields of a name among written fields. -/
def named (name : String) (fields : List (Json.Quoted × Json.Source)) : List Json.Source :=
  (fields.filter fun f => f.1.text? = some name).map (·.2)

/-- The indices of children. -/
def childrenOf? (s : Json.Source) : Option (List Nat) := do (← s.items?).mapM (·.natural? 64)

/-- An entry of a kind from its fields, each of which it may have once. -/
def ofFields? (kind : String) (fields : List (Json.Quoted × Json.Source)) : Option TableNode :=
  if kind = "null" then some absent
  else if kind = "leaf" then
    match named "page" fields with
    | [page] => (page.natural? 64).map leaf
    | _ => none
  else if kind = "branch" then
    match named "children" fields with
    | [children] => (childrenOf? children).map branch
    | _ => none
  else none

/-- An entry of a kind from the values behind it. -/
def ofItems? (kind : String) (items : List Json.Source) : Option TableNode :=
  match items with
  | [] => if kind = "null" then some absent else none
  | [item] =>
    if kind = "leaf" then (item.natural? 64).map leaf
    else if kind = "branch" then (childrenOf? item).map branch
    else none
  | _ => none

/-- The entry of a record, which must be a value that nests no deeper than `room`. -/
def ofSource? (room : Nat) (s : Json.Source) : Option TableNode := do
  let _ ← s.value? room
  match s with
  | .object fields =>
    match named "kind" fields with
    | [kind] => ofFields? (← kind.text?) fields
    | _ => none
  | .list (kind :: items) => ofItems? (← kind.text?) items
  | _ => none

end TableNode

namespace NodeTable

/-- A table as a list. -/
def toJson (table : NodeTable) : Json := .array (table.map TableNode.toJson)

/-- The table of a list whose entries nest no deeper than `room`. -/
def ofSource? (room : Nat) (s : Json.Source) : Option NodeTable := do
  (← s.items?).mapM (TableNode.ofSource? room)

end NodeTable

end Bitemporal
