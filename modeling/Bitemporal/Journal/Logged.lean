import Bitemporal.Error
import Bitemporal.Journal.Log
import Bitemporal.Journal.Metrics

/-!
# Answers with a journal

The engine notes what it does: log entries in order, and counts. The journal never influences an
answer, which is why it is only ever added to: `Logged.value` forgets it and commutes with
sequencing.

## Main definitions

* `Logged`: a value with the journal of its computation.
* `Engine`: an answer or a failure, with the journal up to there.
* `Engine.result`: the answer or the failure alone.
-/

namespace Bitemporal

/-- A value with what was noted on the way to it. -/
structure Logged (α : Type) where
  /-- The value. -/
  value : α
  /-- What was logged, in order. -/
  entries : List LogEntry := []
  /-- What was counted. -/
  counts : Metrics := {}

namespace Logged

instance : Monad Logged where
  pure a := { value := a }
  bind x f :=
    let y := f x.value
    ⟨y.value, x.entries ++ y.entries, x.counts + y.counts⟩

@[simp] theorem value_pure {α : Type} (a : α) : (pure a : Logged α).value = a := rfl

@[simp] theorem value_bind {α β : Type} (x : Logged α) (f : α → Logged β) :
    (x >>= f).value = (f x.value).value := rfl

end Logged

/-- An answer or a failure, with what was noted on the way to it. -/
abbrev Engine (α : Type) := ExceptT Failure Logged α

namespace Engine

/-- The answer or the failure. -/
def result {α : Type} (x : Engine α) : Except Failure α := x.run.value

/-- An answer or a failure without anything to note. -/
def ofResult {α : Type} (x : Except Failure α) : Engine α := ExceptT.mk { value := x }

/-- An answer or an error without anything to note. -/
def ofExcept {α : Type} (x : Except Error α) : Engine α :=
  ofResult (x.mapError Failure.error)

/-- Notes log entries. -/
def log (entries : List LogEntry) : Engine Unit := ExceptT.mk { value := .ok (), entries }

/-- Notes counts. -/
def count (counts : Metrics) : Engine Unit := ExceptT.mk { value := .ok (), counts }

@[simp] theorem result_pure {α : Type} (a : α) : result (pure a : Engine α) = .ok a := rfl

@[simp] theorem result_ofResult {α : Type} (x : Except Failure α) : (ofResult x).result = x := rfl

@[simp] theorem result_log (entries : List LogEntry) : (log entries).result = .ok () := rfl

@[simp] theorem result_count (counts : Metrics) : (count counts).result = .ok () := rfl

@[simp] theorem result_bind {α β : Type} (x : Engine α) (f : α → Engine β) :
    (x >>= f).result = x.result >>= fun a => (f a).result := by
  simp only [result, ExceptT.run_bind, Logged.value_bind]
  cases x.run.value <;> rfl

end Engine

end Bitemporal
