import Bitemporal.Query.Predicate
import Bitemporal.Query.Selector

/-!
# Queries

A query asks for the versions of some entities within windows of both times, restricts their
documents by predicates, and shows some of their columns.

## Main definitions

* `Query`: the query.
* `Query.relevant?`: whether a page can hold rows that matter to it.
* `Query.contentMayHold`: whether a page can hold a document that satisfies its predicates.
-/

namespace Bitemporal

/-- What a scan asks for. -/
structure Query where
  /-- The windows of time. -/
  bounds : Bounds := {}
  /-- The entities, or all of them. -/
  selector : Option Selector := none
  /-- What documents must satisfy. -/
  predicates : List Predicate := []
  /-- The columns to show, or all of them. -/
  projection : Option (List String) := none
deriving Inhabited

namespace Query

/-- Whether an entity is asked for. -/
def selects (q : Query) (e : EntityId) : Bool :=
  match q.selector with
  | none => true
  | some s => s.selects e

/-- Whether a document satisfies every predicate. -/
def accepts (q : Query) (doc : Document) : Bool := q.predicates.all fun p => p.holds doc

/-- The columns of a document that are shown. -/
def project (q : Query) (doc : Document) : Document :=
  match q.projection with
  | none => doc
  | some names => doc.restrict names

/-- Whether a page can hold rows that matter. -/
def relevant? (q : Query) (s : PageSummary) : Option Bool :=
  if s.overlaps q.bounds then
    match q.selector with
    | none => some true
    | some selector => selector.mayMatch? s
  else some false

/-- Whether a page can hold a document that satisfies every predicate. -/
def contentMayHold (q : Query) (s : PageSummary) : Bool := q.predicates.all fun p => p.mayHold s

end Query

end Bitemporal
