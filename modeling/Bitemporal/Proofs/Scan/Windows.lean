import Mathlib
import Bitemporal.Proofs.Scan.Unambiguous

/-!
# Rows and the windows of a query

A row is a rectangle of a version, cut to the windows. A rectangle that is shown is proper, begins
before the end of each window and ends behind its start, so a window that holds some instant cuts it
to a proper rectangle again. A window that holds no instant is not refused: a rectangle that begins
before its end and ends behind its start is cut to the ends of the window, however these lie.

## Main definitions

* `Window.Encloses`: how a span that is cut to a window lies in it.
* `OutputRow.IsEnclosed`: how a row lies in the windows of a query.
* `Query.Shows`: a row may be shown of some version.

## Main statements

* `Window.encloses_clip`: a span is cut to a window.
* `Replay.shows_of_mem_run`: every row is one of a version.
* `Scan.isEnclosed_of_emitted`: the rows of a scan lie in the windows.
* `Scan.collect_empty_window`: a row without any instant.
-/

namespace Bitemporal

open scoped Linear

variable {d : Disk} {segments : List Segment} {q : Query} {f : Fact} {rows : List Fact}
  {r : OutputRow} {out : List OutputRow}

/-! ## Windows -/

/-- A span lies between the ends of a window. It holds an instant exactly if the window does; if
not, it goes from the first end of the window to the last. -/
structure Window.Encloses (w : Window) (lo hi : Instant) : Prop where
  lower : w.lower ≤ lo
  upper : hi ≤ w.upper
  lt_iff : lo < hi ↔ w.lower < w.upper
  of_isEmpty : w.isEmpty → lo = w.lower ∧ hi = w.upper

/-- A proper span that seems to overlap a window is cut to it. -/
theorem Window.encloses_clip {w : Window} {lo hi : Instant} (h : lo < hi)
    (hsees : w.intersects lo hi) : w.Encloses (w.clip lo hi).1 (w.clip lo hi).2 := by
  simp only [intersects, Bool.and_eq_true, decide_eq_true_eq] at hsees
  obtain ⟨hlo, hhi⟩ := hsees
  refine ⟨le_max_right _ _, min_le_right _ _, ?_, fun hempty => ?_⟩
  · simp only [clip, max_lt_iff, lt_min_iff]
    exact ⟨fun hlt => hlt.2.2, fun hlt => ⟨⟨h, hhi⟩, hlo, hlt⟩⟩
  · have hends : w.upper ≤ w.lower := of_decide_eq_true hempty
    exact ⟨max_eq_right (hlo.le.trans hends), min_eq_right (hends.trans hhi.le)⟩

/-- A row lies in both windows. -/
structure OutputRow.IsEnclosed (b : Bounds) (r : OutputRow) : Prop where
  valid : b.valid.Encloses r.validFrom r.validTo
  system : b.system.Encloses r.systemFrom r.systemTo

/-! ## The rows of versions -/

/-- A row is shown of some version, on some exposure. -/
def Query.Shows (q : Query) (r : OutputRow) : Prop := ∃ f x, r ∈ q.rowsOf f x

theorem Query.Shows.isEnclosed (h : q.Shows r) : r.IsEnclosed q.bounds := by
  obtain ⟨f, x, hr⟩ := h
  unfold rowsOf at hr
  split at hr
  next doc _ =>
    split at hr
    · cases hr
    · obtain ⟨rect, hrect, rfl⟩ := List.mem_map.1 hr
      have hsees := (List.mem_filter.1 hrect).2
      simp only [sees, Rectangle.isProper, Bounds.intersects, Bool.and_eq_true,
        decide_eq_true_eq] at hsees
      obtain ⟨⟨hvalid, hsystem⟩, hseesValid, hseesSystem⟩ := hsees
      exact ⟨Window.encloses_clip hvalid hseesValid, Window.encloses_clip hsystem hseesSystem⟩
  next => cases hr

namespace Replay

variable {s s' : Replay}

theorem shows_of_mem_step (h : s.step q f = .ok (s', out)) (hr : r ∈ out) : q.Shows r := by
  obtain ⟨-, -, -, rfl | ⟨exposure, rfl⟩⟩ := of_step h
  · cases hr
  · exact ⟨f, exposure, hr⟩

/-- Every row is one of a version. -/
theorem shows_of_mem_run (h : run q s rows = .ok out) (hr : r ∈ out) : q.Shows r := by
  induction rows generalizing s out with
  | nil =>
    cases h
    cases hr
  | cons f rest ih =>
    rw [run_cons] at h
    cases hstep : s.step q f with
    | error rising => simp [hstep] at h
    | ok x =>
      obtain ⟨s', shown⟩ := x
      simp only [hstep] at h
      cases hrest : run q s' rest with
      | error fault => simp [hrest, Except.map] at h
      | ok more =>
        simp only [hrest, Except.map, Except.ok.injEq] at h
        subst h
        rcases List.mem_append.1 hr with hr | hr
        · exact shows_of_mem_step hstep hr
        · exact ih hrest hr

end Replay

/-! ## Scans -/

namespace Scan

variable {t : MergeTask} {tasks : List MergeTask} {b : Batch}

theorem shows_of_mem_task (h : (task d segments q t).result = .ok out) (hr : r ∈ out) :
    q.Shows r := by
  rw [result_task_eq, Engine.result_bind] at h
  cases hmerged : (merged d segments t).result with
  | error failure => simp [hmerged, bind, Except.bind] at h
  | ok facts =>
    rw [hmerged] at h
    change (report t (q.replay facts)).result = .ok out at h
    rw [result_report] at h
    cases hreplay : q.replay facts with
    | error fault => simp [hreplay, Except.mapError] at h
    | ok shown =>
      simp only [hreplay, Except.mapError, Except.ok.injEq] at h
      exact Replay.shows_of_mem_run hreplay (h ▸ hr)

theorem exists_of_mem_upToFailure {shown : List (Except Failure (List OutputRow))}
    (hr : r ∈ (upToFailure shown).1) : ∃ out, .ok out ∈ shown ∧ r ∈ out := by
  induction shown with
  | nil => cases hr
  | cons x rest ih =>
    cases x with
    | error failure => cases hr
    | ok out =>
      rcases List.mem_append.1 hr with hr | hr
      · exact ⟨out, .head _, hr⟩
      · obtain ⟨more, hmore, hr⟩ := ih hr
        exact ⟨more, .tail _ hmore, hr⟩

theorem shows_of_mem_given (h : .ok (some b) ∈ given d segments q tasks) (hr : r ∈ b.rows) :
    q.Shows r := by
  induction tasks with
  | nil => cases h
  | cons t rest ih =>
    rw [given] at h
    split at h
    · simp at h
    next out hout =>
      split at h
      · exact ih h
      · rcases List.mem_cons.1 h with h | h
        · cases h
          exact shows_of_mem_task hout hr
        · exact ih h

end Scan

namespace Cursor

variable {c : Cursor} {b : Batch}

theorem shows_of_mem_advance (h : (c.advance d).value.1 = .ok (some b)) (hr : r ∈ b.rows) :
    c.query.Shows r := by
  cases hdone : c.isDone with
  | true => simp [advance, hdone] at h
  | false =>
    simp only [advance, hdone, Bool.false_eq_true, if_false, Logged.value_bind,
      Logged.value_pure] at h
    rcases Scan.nextBatch_cases d c.segments c.query c.workspace c.tasks with
      ⟨-, hnext⟩ | ⟨failure, -, hnext⟩ | ⟨b', left, rest, hgiven, hnext⟩
    · cases hnext.symm.trans h
    · cases hnext.symm.trans h
    · rw [hnext] at h
      obtain rfl := Option.some.inj (Except.ok.inj h)
      have hmem : .ok (some b') ∈ Scan.given d c.segments c.query c.tasks :=
        hgiven ▸ List.mem_cons_self
      exact Scan.shows_of_mem_given hmem hr

theorem shows_of_mem_drain (hr : r ∈ (c.drain d).value.1) : c.query.Shows r := by
  unfold drain at hr
  split at hr
  · cases hr
  · rw [Scan.value_rowsOfTasks] at hr
    obtain ⟨out, hout, hr⟩ := Scan.exists_of_mem_upToFailure hr
    obtain ⟨t, -, ht⟩ := List.mem_map.1 hout
    exact Scan.shows_of_mem_task ht hr

theorem shows_of_mem_collect (h : (c.collect d).result = .ok out) (hr : r ∈ out) :
    c.query.Shows r := by
  rw [collect, Engine.result, ExceptT.run_mk, Logged.value_bind] at h
  cases hdrain : (c.drain d).value with
  | mk rows failure =>
    rw [hdrain] at h
    cases failure with
    | some f => cases h
    | none =>
      obtain rfl : rows = out := Except.ok.inj h
      have hmem : r ∈ (c.drain d).value.1 := hdrain ▸ hr
      exact shows_of_mem_drain hmem

end Cursor

/-! ## What a scan gives -/

/-- A put over ten instants. -/
def Fact.brief : Fact := ⟨.ofNat 1, 0, 10, 5, .put .empty⟩

/-- Whatever a scan gives lies in the windows of its query: the batches of a cursor, the rows up to
the end or a failure, and the rows of an answer. -/
theorem Scan.isEnclosed_of_emitted (d : Disk) (segments : List Segment) (q : Query) :
    (∀ c : Cursor, c.query = q →
      (∀ b, (c.advance d).value.1 = .ok (some b) → ∀ r ∈ b.rows, r.IsEnclosed q.bounds) ∧
      ∀ r ∈ (c.drain d).value.1, r.IsEnclosed q.bounds) ∧
    ∀ rows, (Scan.collect d segments q).result = .ok rows → ∀ r ∈ rows, r.IsEnclosed q.bounds := by
  refine ⟨?_, fun rows hrows r hr => ?_⟩
  · rintro c rfl
    exact ⟨fun b hb r hr => (Cursor.shows_of_mem_advance hb hr).isEnclosed,
      fun r hr => (Cursor.shows_of_mem_drain hr).isEnclosed⟩
  · rw [collect, Engine.result_bind] at hrows
    cases hcursor : (Cursor.ofQuery segments q).result with
    | error failure => simp [hcursor, bind, Except.bind] at hrows
    | ok c =>
      rw [hcursor] at hrows
      obtain ⟨tasks, -, rfl⟩ := Cursor.ofQuery_eq_ok_iff.1 hcursor
      exact (Cursor.shows_of_mem_collect hrows hr).isEnclosed

/-- A put over ten instants, and a window that it reaches beyond on both sides. -/
theorem Scan.isEnclosed_of_emitted_onePage :
    let segments := [Segment.memory (.onePage "brief" .two [Fact.brief])]
    let q : Query := { bounds := { valid := ⟨2, 8⟩ } }
    let c := Cursor.ofTasks segments q [⟨[], [⟨0, 0⟩]⟩]
    (∃ b, (c.advance .empty).value.1 = .ok (some b) ∧ b.rows.length = 1 ∧
      ∀ r ∈ b.rows, r.IsEnclosed q.bounds) ∧
    (∀ r ∈ (c.drain .empty).value.1, r.IsEnclosed q.bounds) ∧
    ∃ rows, (Scan.collect .empty segments q).result = .ok rows ∧ rows.length = 1 ∧
      ∀ r ∈ rows, r.IsEnclosed q.bounds := by
  intro segments q c
  obtain ⟨hcursor, hcollect⟩ := isEnclosed_of_emitted .empty segments q
  obtain ⟨hadvance, hdrain⟩ := hcursor c rfl
  have hreplay : q.replay [Fact.brief] = .ok [⟨.ofNat 1, 2, 8, 5, .never, .empty⟩] := rfl
  have hnext := (Cursor.alone_eq (d := .empty) (c := c) rfl ⟨[], [⟨0, 0⟩]⟩).trans
    (congrArg _ (result_task_onePage .empty "brief" .two [Fact.brief] q))
  have hrows := collect_onePage_of_selector .empty "brief" .two [Fact.brief] (q := q) rfl
  rw [hreplay] at hnext hrows
  exact ⟨⟨_, hnext, rfl, hadvance _ hnext⟩, hdrain, _, hrows, rfl, hcollect _ hrows⟩

/-- A window without any instant. The scan gives a row over no instant. -/
theorem Scan.collect_empty_window :
    (MemorySegment.onePage "brief" .two [Fact.brief]).IsWrittenFrom .two [Fact.brief] ∧
      ∃ r, (Scan.collect .empty [.memory (.onePage "brief" .two [Fact.brief])]
        { bounds := { valid := ⟨5, 5⟩ } }).result = .ok [r] ∧ r.validFrom = 5 ∧ r.validTo = 5 := by
  have hwritten := MemorySegment.isWrittenFrom_onePage "brief" .two
    (Fact.isOrdered_singleton Fact.brief) (by simp) (by simp)
  exact ⟨hwritten, _, collect_onePage_of_selector .empty "brief" .two [Fact.brief] rfl, rfl, rfl⟩

end Bitemporal
