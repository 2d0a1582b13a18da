import Mathlib
import Bitemporal.Proofs.Scan.Memory
import Bitemporal.Proofs.Scan.Visibility
import Bitemporal.Proofs.Segment.Written

/-!
# Selection, predicates and projection

The windows of a query decide what is left of each version. Its selector, predicates and projection
only decide which of the rows are shown, and how: a version that they leave out still caps the older
ones, and a predicate sees the whole document, whatever columns are shown of it.

## Main definitions

* `Query.windows`: a query without selector, predicates and projection.
* `Query.admits`: whether a row is left in.
* `Query.present`: a row with the columns that are shown.

## Main statements

* `Query.rowsAgainst_windows`: the rows of one version.
* `Query.shownFrom_windows`: the rows of a history.
* `Scan.collect_restrict`: the rows of a scan.
-/

namespace Bitemporal

open Ledger

variable {q : Query} {f : Fact} {e : EntityId} {rows : List Fact}

namespace Query

/-- The windows of a query, which restrict neither entities nor documents. -/
def windows (q : Query) : Query := { bounds := q.bounds }

/-- Whether the entity of a row is selected and its document satisfies the predicates. -/
def admits (q : Query) (r : OutputRow) : Bool := q.selects r.entity && q.accepts r.doc

/-- A row with the columns of its document that are shown. -/
def present (q : Query) (r : OutputRow) : OutputRow := { r with doc := q.project r.doc }

@[simp] theorem selects_windows (q : Query) (e : EntityId) : q.windows.selects e = true := rfl

@[simp] theorem accepts_windows (q : Query) (doc : Document) : q.windows.accepts doc = true := rfl

/-- The tiles of a version do not depend on its document, so the predicates can be tested on its
rows. -/
theorem rowsAgainst_windows (q : Query) (f : Fact) (steps : List Step) :
    q.rowsAgainst f steps =
      ((q.windows.rowsAgainst f steps).filter fun r => q.accepts r.doc).map q.present := by
  have hsees : q.windows.sees f.systemFrom = q.sees f.systemFrom := rfl
  have hrow (doc : Document) : q.present ∘ q.windows.rowOf f doc = q.rowOf f doc := rfl
  have hdoc (doc : Document) (r : Rectangle) : (q.windows.rowOf f doc r).doc = doc := rfl
  cases haction : f.action with
  | put doc =>
    by_cases hacc : q.accepts doc
    · simp [rowsAgainst, shownDoc?, haction, hacc, hsees, hrow, hdoc, List.filter_map,
        Function.comp_def]
    · simp [rowsAgainst, shownDoc?, haction, hacc, hdoc, List.filter_map, Function.comp_def]
  | delete => simp [rowsAgainst, shownDoc?, haction]
  | erase => simp [rowsAgainst, shownDoc?, haction]

/-- Every version is recorded, whether it is shown or not, so the steps below it are the same. -/
theorem shownFrom_windows (q : Query) (steps : List Step) (rows : List Fact) :
    q.shownFrom steps rows =
      ((q.windows.shownFrom steps rows).filter fun r => q.accepts r.doc).map q.present := by
  induction rows generalizing steps with
  | nil => rfl
  | cons f rest ih =>
    have hbounds : q.windows.bounds = q.bounds := rfl
    simp only [shownFrom, hbounds]
    split_ifs with herase hknows
    · rfl
    · rw [rowsAgainst_windows, ih, List.filter_append, List.map_append]
    · exact ih steps

/-- All rows of a history are of its entity, so they are left in or out with it. -/
theorem filter_admits_shown (q : Query) (e : EntityId) (rows : List Fact) :
    ((q.windows.shown (Fact.versions e rows)).filter q.admits).map q.present =
      if q.selects e then q.shown (Fact.versions e rows) else [] := by
  have hadmits : ∀ r ∈ q.windows.shown (Fact.versions e rows),
      q.admits r = (q.selects e && q.accepts r.doc) := by
    intro r hr
    have hentity : r.entity = e :=
      entity_of_mem_shownFrom hr fun f hf => (Fact.mem_versions.1 hf).2
    rw [admits, hentity]
  rw [List.filter_congr hadmits]
  cases q.selects e with
  | false => simp
  | true => simp [shown, ← shownFrom_windows]

/-- What histories show are the rows that the windows alone show of them, as far as they are left
in. -/
theorem answer_windows (q : Query) (ids : List EntityId) (rows : List Fact) :
    q.answer ids rows = ((q.windows.answer ids rows).filter q.admits).map q.present := by
  induction ids with
  | nil => rfl
  | cons e ids ih =>
    simp only [answer, List.flatMap_cons, List.filter_append, List.map_append, selects_windows,
      if_true, filter_admits_shown] at ih ⊢
    rw [ih]

end Query

/-! ## A value that is lowered -/

namespace Fact

/-- A large value. -/
def raised : Fact := ⟨.ofNat 1, 0, .never, 1, .put (.ofFields [("n", .int 100)])⟩

/-- A later, small value over the same span. -/
def lowered : Fact := ⟨.ofNat 1, 0, .never, 5, .put (.ofFields [("n", .int 1)])⟩

end Fact

/-- Asks for large values of an entity, and shows another column. -/
def Query.large : Query where
  selector := some (.ofList [.ofNat 1])
  predicates := [⟨"n", .ge, .int 50⟩]
  projection := some ["name"]

namespace Scan

variable {w : BucketWidth} {segs : List MemorySegment} {cut : List (List Fact)}

/-- Of segments in memory, a scan shows the rows that its windows alone show, in their order, whose
entity is selected and whose document satisfies the predicates, each with the columns asked for. -/
theorem collect_restrict
    (h : List.Forall₂ (fun rows s => MemorySegment.IsWriteOf w rows s) cut segs) (d : Disk)
    (q : Query) :
    ∃ out, (Scan.collect d (segs.map .memory) { bounds := q.bounds }).result = .ok out ∧
      (Scan.collect d (segs.map .memory) q).result =
        .ok ((out.filter fun r => q.selects r.entity && q.accepts r.doc).map
          fun r => { r with doc := q.project r.doc }) := by
  simp only [MemorySegment.isWriteOf_iff] at h
  refine ⟨_, collect_memory h d q.windows, ?_⟩
  rw [collect_memory h d q, Query.answerAll, Query.answer_windows]
  rfl

theorem collect_restrict_large :
    ∃ out, (Scan.collect .empty [.memory (.single .two Fact.lowered),
        .memory (.single .two Fact.raised)] {}).result = .ok out ∧
      (Scan.collect .empty [.memory (.single .two Fact.lowered),
        .memory (.single .two Fact.raised)] .large).result =
        .ok ((out.filter fun r => Query.large.selects r.entity && Query.large.accepts r.doc).map
          fun r => { r with doc := Query.large.project r.doc }) :=
  collect_restrict
    (.cons (MemorySegment.isWrittenFrom_single .two Fact.lowered).isWriteOf
      (.cons (MemorySegment.isWrittenFrom_single .two Fact.raised).isWriteOf .nil)) .empty .large

/-- The small value is left out, and the large one still ends where it was lowered. -/
example : (Query.large.shown [Fact.lowered, Fact.raised]).map
    (fun r => (r.validTo, r.systemFrom, r.systemTo, r.doc.fields.length)) =
      [(.never, 1, 5, 0)] := by decide

end Scan

end Bitemporal
