import Bitemporal.Entity.Id
import Bitemporal.Fact.Document
import Bitemporal.Time.Instant

/-!
# Facts

A fact is one version of an entity: what it records, the valid time that it speaks of, and the
system time from which it is known. Segments keep facts by ascending entity, and the facts of an
entity newest first.

## Main definitions

* `Fact`: a version.
* `Fact.before`: whether one fact may stand before another.
* `Fact.sort`: the stable sort by this order.
* `Fact.firstDisorder?`: the first fact that stands where it may not.
-/

namespace Bitemporal

/-- What a version does, without its content. -/
inductive FactKind where
  | put
  | delete
  | erase
deriving DecidableEq, Repr, Inhabited

namespace FactKind

/-- The byte that stands for a kind. -/
def tag : FactKind → UInt8
  | put => 0
  | delete => 1
  | erase => 2

/-- The kind of a byte. -/
def ofTag? (tag : UInt8) : Option FactKind :=
  if tag = 0 then some put
  else if tag = 1 then some delete
  else if tag = 2 then some erase
  else none

/-- The name of a kind. -/
def name : FactKind → String
  | put => "put"
  | delete => "delete"
  | erase => "erase"

/-- The kind of a name. -/
def ofName? (s : String) : Option FactKind :=
  if s = "put" then some put
  else if s = "delete" then some delete
  else if s = "erase" then some erase
  else none

end FactKind

/-- What a version does. -/
inductive Action where
  /-- Asserts a document. -/
  | put (doc : Document)
  /-- Retracts the entity. -/
  | delete
  /-- Removes every trace of the entity, whatever the time. -/
  | erase
deriving Inhabited

/-- The kind of an action. -/
def Action.kind : Action → FactKind
  | .put _ => .put
  | .delete => .delete
  | .erase => .erase

/-- A version of an entity. -/
structure Fact where
  /-- The entity. -/
  entity : EntityId
  /-- The first valid time that the version speaks of. -/
  validFrom : Instant
  /-- The first valid time that it no longer speaks of. -/
  validTo : Instant
  /-- The system time from which it is known. -/
  systemFrom : Instant
  /-- What it does. -/
  action : Action
deriving Inhabited

namespace Fact

/-- The kind of a fact. -/
def kind (f : Fact) : FactKind := f.action.kind

/-- Whether the fact is an erase. -/
def isErase (f : Fact) : Bool := f.kind = .erase

/-- The document of a put; other facts have no content. -/
def doc (f : Fact) : Document :=
  match f.action with
  | .put doc => doc
  | _ => .empty

/-- An erase, which spans all of valid time. -/
def eraseOf (entity : EntityId) (systemFrom : Instant) : Fact :=
  ⟨entity, .start, .never, systemFrom, .erase⟩

/-- Whether `a` may stand before `b`: ascending entities, and newest first within one. -/
def before (a b : Fact) : Bool :=
  a.entity < b.entity || (a.entity = b.entity && a.systemFrom ≥ b.systemFrom)

/-- Each fact may stand before every later one. -/
def IsOrdered (rows : List Fact) : Prop := rows.Pairwise fun a b => before a b

/-- The facts in order; those of one entity and one system time keep their order. -/
def sort (rows : List Fact) : List Fact := rows.mergeSort before

/-- What places a fact among others, in words. -/
def place (f : Fact) : String := s!"({f.entity.text}, system_from {f.systemFrom})"

/-- A fact that stands after one that it should precede. -/
structure Disorder where
  /-- The position of the fact. -/
  index : Nat
  /-- The fact. -/
  row : Fact
  /-- The fact just before it. -/
  previous : Fact

/-- The first such fact, positions counted from `index`. -/
def disorderFrom? (index : Nat) : List Fact → Option Disorder
  | a :: b :: rest =>
    if before a b then disorderFrom? (index + 1) (b :: rest) else some ⟨index, b, a⟩
  | _ => none

/-- The first fact that stands where it may not. -/
def firstDisorder? (rows : List Fact) : Option Disorder := disorderFrom? 1 rows

/-- The fault in words. -/
def Disorder.message (d : Disorder) : String :=
  s!"row {d.index} {d.row.place} is out of order after {d.previous.place}; " ++
    "rows must be sorted by iid ascending then system_from descending"

end Fact

end Bitemporal
