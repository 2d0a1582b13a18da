import Mathlib
import Bitemporal.Scan.Cursor

/-!
# What tasks leave behind

A cursor runs its tasks on one workspace. Every entity starts from an empty ledger, and the exposure
of a version is written before it is read, so a task shows the same on every workspace.

## Main statements

* `Replay.run_start`: facts show the same on every workspace.
* `Scan.value_taskOn`: a task shows on every workspace what it shows by itself.
* `Scan.value_rowsOfTasks`: what tasks show up to the first failure.
* `Scan.result_collect_of_plan`: what a scan collects.
-/

namespace Bitemporal

variable {d : Disk} {segments : List Segment} {q : Query}

namespace Replay

@[simp] theorem run_nil (q : Query) (s : Replay) : run q s [] = .ok [] := rfl

theorem run_cons (q : Query) (s : Replay) (f : Fact) (rest : List Fact) :
    run q s (f :: rest) =
      match s.step q f with
      | .error rising => .error ⟨f.entity, rising⟩
      | .ok (s, rows) => (run q s rest).map (rows ++ ·) := by
  rw [run, play]
  cases s.step q f <;> rfl

/-- What a row shows does not depend on the exposure that it finds. -/
theorem step_exposure (s : Replay) (x : Exposure) (f : Fact) :
    ∃ y, { s with exposure := x }.step q f =
      (s.step q f).map fun r => ({ r.1 with exposure := y }, r.2) := by
  have horder : { s with exposure := x }.checkOrder f = s.checkOrder f := rfl
  have henter : { s with exposure := x }.enter f = { s.enter f with exposure := x } := by
    unfold enter
    split <;> rfl
  rw [step, step, horder, henter]
  cases s.checkOrder f with
  | error rising => exact ⟨x, rfl⟩
  | ok =>
    generalize s.enter f = s
    by_cases hpassed : s.isErased ∨ ¬ q.selects f.entity ∨ f.isErase ∨
        ¬ q.bounds.knows f.systemFrom
    · refine ⟨x, ?_⟩
      simp only [bind, Except.bind]
      split_ifs <;> first | rfl | simp_all
    · push Not at hpassed
      obtain ⟨herased, hselected, herase, hknows⟩ := hpassed
      simp only [bind, Except.bind, herased, hselected, herase, hknows, resolve]
      cases s.ledger.resolve f.systemFrom f.validFrom f.validTo with
      | error rising => exact ⟨x, rfl⟩
      | ok y =>
        refine ⟨y, ?_⟩
        cases s.ledger.record f.systemFrom f.validFrom f.validTo <;> rfl

theorem run_exposure (s : Replay) (x : Exposure) (facts : List Fact) :
    run q { s with exposure := x } facts = run q s facts := by
  induction facts generalizing s x with
  | nil => rfl
  | cons f rest ih =>
    obtain ⟨y, hy⟩ := step_exposure (q := q) s x f
    rw [run_cons, run_cons, hy]
    cases s.step q f with
    | error rising => rfl
    | ok r => simp only [Except.map, ih]

/-- Facts show the same on every workspace. -/
theorem run_start (w : Workspace) (facts : List Fact) : run q (start w) facts = run q {} facts := by
  cases facts with
  | nil => rfl
  | cons f rest =>
    have hstep : (start w).step q f = { start {} with exposure := w.exposure }.step q f := by
      simp [step, start, checkOrder, enter]
    rw [run_cons, hstep, ← run_cons, run_exposure]
    rfl

end Replay

/-! ## Tasks -/

/-- What succeeds at every point succeeds as a whole. -/
theorem mapM_eq_ok_iff {α β ε : Type} {f : α → Except ε β} {xs : List α} {ys : List β} :
    xs.mapM f = .ok ys ↔ List.Forall₂ (fun x y => f x = .ok y) xs ys := by
  induction xs generalizing ys with
  | nil => cases ys <;> simp [pure, Except.pure]
  | cons x xs ih =>
    rw [List.mapM_cons]
    cases hx : f x with
    | error e => cases ys <;> simp [bind, Except.bind, hx]
    | ok y =>
      cases hxs : xs.mapM f <;> cases ys <;>
        simp [bind, Except.bind, pure, Except.pure, ← ih, hxs, hx]

theorem exists_of_mapM_ok {α β ε : Type} {f : α → Except ε β} {xs : List α} {ys : List β}
    (h : xs.mapM f = .ok ys) : ∀ x ∈ xs, ∃ y, f x = .ok y := by
  have hall := mapM_eq_ok_iff.1 h
  induction hall with
  | nil => simp
  | cons hx hxs ih => exact List.forall_mem_cons.2 ⟨⟨_, hx⟩, ih (mapM_eq_ok_iff.2 hxs)⟩

theorem eq_map_of_mapM_ok {α β ε : Type} {f : α → Except ε β} {g : α → β} {xs : List α}
    {ys : List β} (h : xs.mapM f = .ok ys) (hg : ∀ x ∈ xs, f x = .ok (g x)) : ys = xs.map g := by
  have hall := mapM_eq_ok_iff.1 h
  induction hall with
  | nil => rfl
  | cons hx hxs ih =>
    rw [List.forall_mem_cons] at hg
    rw [List.map_cons, ih (mapM_eq_ok_iff.2 hxs) hg.2, Except.ok.inj (hx.symm.trans hg.1)]

/-- What fails as a whole fails at some point. -/
theorem exists_of_mapM_error {α β ε : Type} {f : α → Except ε β} {xs : List α} {e : ε}
    (h : xs.mapM f = .error e) : ∃ x ∈ xs, f x = .error e := by
  induction xs with
  | nil => cases h
  | cons x rest ih =>
    rw [List.mapM_cons] at h
    cases hx : f x with
    | error e' =>
      rw [hx] at h
      cases h
      exact ⟨x, .head rest, hx⟩
    | ok y =>
      rw [hx] at h
      cases hrest : rest.mapM f with
      | error e' =>
        rw [hrest] at h
        cases h
        obtain ⟨x', hx', hfails⟩ := ih hrest
        exact ⟨x', .tail x hx', hfails⟩
      | ok ys =>
        rw [hrest] at h
        cases h

namespace Scan

/-- A task shows its merged rows, or fails as the merge or the replay does. -/
theorem result_task_eq (t : MergeTask) : (task d segments q t).result =
    (merged d segments t >>= fun facts => report t (q.replay facts)).result := by
  rw [Engine.result_bind, task, Engine.result, ExceptT.run_mk, Logged.value_bind, taskOn,
    Logged.value_bind, Engine.result]
  cases (merged d segments t).run.value <;> rfl

/-- What is replayed is reported as rows or as malformed input. -/
theorem result_report (t : MergeTask) (x : Except ReplayFault (List OutputRow)) :
    (report t x).result = x.mapError fun fault => .error (.malformed fault.rising.message) := by
  cases x <;> rfl

theorem result_task_of_merged {t : MergeTask} {facts : List Fact}
    (h : (merged d segments t).result = .ok facts) : (task d segments q t).result =
      (q.replay facts).mapError fun fault => .error (.malformed fault.rising.message) := by
  rw [result_task_eq, Engine.result_bind, h]
  exact result_report t (q.replay facts)

/-- A task shows on every workspace what it shows by itself. -/
theorem value_taskOn (w : Workspace) (t : MergeTask) :
    (taskOn d segments q w t).value.1 = (task d segments q t).result := by
  rw [result_task_eq, Engine.result_bind, taskOn, Logged.value_bind, Engine.result]
  cases (merged d segments t).run.value with
  | error f => rfl
  | ok facts => exact congrArg (fun x => (report t x).result) (Replay.run_start w facts)

/-- The rows up to the first failure. -/
def upToFailure : List (Except Failure (List OutputRow)) → List OutputRow × Option Failure
  | [] => ([], none)
  | .error f :: _ => ([], some f)
  | .ok rows :: rest => (rows ++ (upToFailure rest).1, (upToFailure rest).2)

/-- Some tasks show what each of them shows by itself, up to the first failure. -/
theorem value_rowsOfTasks (w : Workspace) (tasks : List MergeTask) :
    (rowsOfTasks d segments q w tasks).value =
      upToFailure (tasks.map fun t => (task d segments q t).result) := by
  induction tasks generalizing w with
  | nil => rfl
  | cons t rest ih =>
    rw [List.map_cons, ← value_taskOn w, rowsOfTasks, Logged.value_bind]
    obtain ⟨shown, left⟩ := (taskOn d segments q w t).value
    cases shown with
    | error f => rfl
    | ok rows => simp [upToFailure, ih]

theorem mapM_eq_upToFailure (shown : List (Except Failure (List OutputRow))) :
    (shown.mapM id).map List.flatten =
      match upToFailure shown with
      | (rows, none) => .ok rows
      | (_, some f) => .error f := by
  induction shown with
  | nil => rfl
  | cons x rest ih =>
    rw [List.mapM_cons]
    cases x with
    | error f => rfl
    | ok rows =>
      rw [upToFailure]
      generalize upToFailure rest = more at ih ⊢
      obtain ⟨more, failure⟩ := more
      cases hrest : rest.mapM id <;> cases failure <;>
        simp_all [Except.map, bind, Except.bind, pure, Except.pure]

end Scan

/-- A cursor collects what each of its tasks shows by itself, whatever workspace it is on. -/
theorem Cursor.result_collect {c : Cursor} (h : c.isDone = false) :
    (c.collect d).result =
      (c.tasks.mapM fun t => (Scan.task d c.segments c.query t).result).map List.flatten := by
  have hmap : (c.tasks.mapM fun t => (Scan.task d c.segments c.query t).result) =
      (c.tasks.map fun t => (Scan.task d c.segments c.query t).result).mapM id := by
    rw [List.mapM_map]
    rfl
  rw [hmap, Scan.mapM_eq_upToFailure, ← Scan.value_rowsOfTasks c.workspace, collect, Engine.result,
    ExceptT.run_mk, drain, h, if_neg (by simp), Logged.value_bind]
  obtain ⟨rows, failure⟩ := (Scan.rowsOfTasks d c.segments c.query c.workspace c.tasks).value
  cases failure <;> rfl

/-- A scan collects what each task of its plan shows by itself. -/
theorem Scan.result_collect_of_plan {tasks : List MergeTask}
    (h : (Plan.ofQuery segments q).result = .ok tasks) : (Scan.collect d segments q).result =
      (tasks.mapM fun t => (Scan.task d segments q t).result).map List.flatten := by
  rw [Scan.collect, Cursor.ofQuery, Engine.result_bind, Engine.result_bind, h]
  exact Cursor.result_collect rfl

end Bitemporal
