import Bitemporal.Scan.Row

/-!
# Replaying rows

The rows of a task are replayed entity by entity, newest first. Each version that the query knows
is resolved against the ledger of the newer ones and then recorded in it. An erase hides
everything older than itself, whatever the query asks. The ledger and the exposure are kept from
one task to the next and written over.

## Main definitions

* `Workspace`: what is kept between two tasks.
* `Replay`: what is kept between two rows.
* `Replay.step`: one row.
* `Replay.play`: all rows of a task.
* `Query.replay`: what they show.
-/

namespace Bitemporal

/-- What is kept between two tasks, as the last version that was resolved left it. -/
structure Workspace where
  /-- What is superseded of an entity. -/
  ledger : Ledger := .empty
  /-- What is left of a version. -/
  exposure : Exposure := .empty
deriving DecidableEq, Repr, Inhabited

/-- What is kept between two rows. -/
structure Replay extends Workspace where
  /-- The entity of the last row. -/
  current : Option EntityId := none
  /-- The system time of the last row. -/
  last : Instant := .never
  /-- Whether an erase of the entity was met. -/
  isErased : Bool := false
deriving Inhabited

/-- A row that comes after an older one of its entity. -/
structure ReplayFault where
  /-- The entity. -/
  entity : EntityId
  /-- What is wrong. -/
  rising : Rising

namespace Replay

/-- The state before the first row of a task, on the workspace that the task before it left. -/
def start (w : Workspace) : Replay := { w with }

/-- The state in which a row is met: a new entity starts from an empty ledger. -/
def enter (s : Replay) (f : Fact) : Replay :=
  if s.current = some f.entity then { s with last := f.systemFrom }
  else
    { s with current := some f.entity, last := f.systemFrom, isErased := false, ledger := .empty }

/-- The order of versions is checked on every row, also on those that a query passes over. -/
def checkOrder (s : Replay) (f : Fact) : Except Rising Unit :=
  if s.current = some f.entity ∧ f.systemFrom > s.last then .error ⟨f.systemFrom, s.last⟩
  else .ok ()

/-- Resolves a version that the query knows, and records it. -/
def resolve (q : Query) (s : Replay) (f : Fact) : Except Rising (Replay × List OutputRow) := do
  let exposure ← s.ledger.resolve f.systemFrom f.validFrom f.validTo
  let ledger ← s.ledger.record f.systemFrom f.validFrom f.validTo
  return ({ s with ledger, exposure }, q.rowsOf f exposure)

/-- One row: the state after it, and what it shows. -/
def step (q : Query) (s : Replay) (f : Fact) : Except Rising (Replay × List OutputRow) := do
  s.checkOrder f
  let s := s.enter f
  if s.isErased then return (s, [])
  else if ¬ q.selects f.entity then return (s, [])
  else if f.isErase then return ({ s with ledger := .empty, isErased := true }, [])
  else if ¬ q.bounds.knows f.systemFrom then return (s, [])
  else s.resolve q f

/-- What facts show from a state on, and the workspace after them. A fault leaves the workspace as
the row found it. -/
def play (q : Query) (s : Replay) : List Fact → Except ReplayFault (List OutputRow) × Workspace
  | [] => (.ok [], s.toWorkspace)
  | f :: rest =>
    match s.step q f with
    | .error rising => (.error ⟨f.entity, rising⟩, s.toWorkspace)
    | .ok (s, rows) =>
      let (shown, left) := play q s rest
      (shown.map (rows ++ ·), left)

/-- The rows that facts show from a state on. -/
def run (q : Query) (s : Replay) (facts : List Fact) : Except ReplayFault (List OutputRow) :=
  (play q s facts).1

end Replay

/-- The rows that the facts of a task show. -/
def Query.replay (q : Query) (facts : List Fact) : Except ReplayFault (List OutputRow) :=
  Replay.run q {} facts

end Bitemporal
