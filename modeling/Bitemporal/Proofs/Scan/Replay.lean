import Mathlib
import Bitemporal.Proofs.Fact.Sort
import Bitemporal.Proofs.Scan.History
import Bitemporal.Proofs.Scan.Workspace

/-!
# Replaying ordered rows

Ordered rows are replayed without a fault. What they show is what the histories of the selected
entities show, one after the other: nothing that is kept between two rows outlives an entity.

## Main definitions

* `Replay.IsReady`: a state that may meet a version of an entity.
* `Query.answer`, `Query.answerAll`: what the histories of some entities, or of all, show.

## Main statements

* `Replay.IsReady.step`: one row.
* `Replay.run_append`: the rows of one entity, and the rows after them.
* `Query.replay_eq`: the rows of an ordered list.
-/

namespace Bitemporal

open scoped Linear
open Ledger

variable {q : Query} {e : EntityId} {f : Fact} {rows : List Fact} {t : Instant}

namespace Replay

/-- A state that may meet a version of an entity recorded at a system time. -/
structure IsReady (s : Replay) (e : EntityId) (t : Instant) : Prop where
  current : s.current = some e
  last : t ≤ s.last
  recorded : t ≤ s.ledger.last
  spans : Spans s.ledger.steps

theorem IsReady.mono {s : Replay} {t' : Instant} (h : s.IsReady e t) (ht : t' ≤ t) :
    s.IsReady e t' := ⟨h.current, ht.trans h.last, ht.trans h.recorded, h.spans⟩

/-- The state in which the first version of an entity is met. -/
def first (e : EntityId) : Replay := { current := some e }

theorem isReady_first : (first e).IsReady e t :=
  ⟨rfl, Instant.le_never t, Instant.le_never t, spans_empty⟩

/-- What versions of the current entity show from a state on. -/
def pending (q : Query) (s : Replay) (e : EntityId) (rows : List Fact) : List OutputRow :=
  if s.isErased ∨ ¬ q.selects e then [] else q.shownFrom s.ledger.steps rows

/-- Resolving and recording a version succeed, and leave what shows later to the steps below it. -/
protected theorem IsReady.resolve {s : Replay} (h : s.IsReady e f.systemFrom) :
    ∃ s', s.resolve q f = .ok (s', q.rowsAgainst f s.ledger.steps) ∧
      s'.IsReady e (min f.systemFrom s.last) ∧ s'.isErased = s.isErased ∧
      s'.ledger.steps = supersede f s.ledger.steps := by
  obtain ⟨x, hx, htiles⟩ := resolve_eq (a := f.validFrom) (b := f.validTo) h.spans h.recorded
  have horder : s.ledger.checkOrder f.systemFrom = .ok () := if_neg (not_lt.2 h.recorded)
  rw [resolve, hx, record, horder, supersede]
  by_cases hspan : f.validFrom < f.validTo
  · rw [if_pos hspan, if_neg (not_le.2 hspan), ← Query.rowsOf_eq h.spans htiles]
    exact ⟨_, rfl, ⟨h.current, min_le_right _ _, min_le_left _ _, h.spans.overwrite hspan⟩,
      rfl, rfl⟩
  · rw [if_neg hspan, if_pos (not_lt.1 hspan), ← Query.rowsOf_eq h.spans htiles]
    exact ⟨_, rfl, ⟨h.current, min_le_right _ _, (min_le_left _ _).trans h.recorded, h.spans⟩,
      rfl, rfl⟩

/-- One row of the current entity: what it shows now is what the rows from it on show, less what
the rows after it do. -/
protected theorem IsReady.step {s : Replay} (h : s.IsReady f.entity f.systemFrom) :
    ∃ s' out, s.step q f = .ok (s', out) ∧ s'.IsReady f.entity f.systemFrom ∧
      ∀ rest, pending q s f.entity (f :: rest) = out ++ pending q s' f.entity rest := by
  have horder : s.checkOrder f = .ok () := if_neg fun hc => absurd hc.2 (not_lt.2 h.last)
  have henter : s.enter f = { s with last := f.systemFrom } := if_pos h.current
  have hready : ({ s with last := f.systemFrom } : Replay).IsReady f.entity f.systemFrom :=
    ⟨h.current, le_rfl, h.recorded, h.spans⟩
  rw [step, horder, henter]
  by_cases herased : s.isErased
  · exact ⟨_, [], by simp [herased], hready, fun rest => by simp [pending, herased]⟩
  by_cases hselected : q.selects f.entity
  · by_cases herase : f.isErase
    · refine ⟨{ s with last := f.systemFrom, ledger := .empty, isErased := true }, [], ?_, ?_, ?_⟩
      · simp [herased, hselected, herase]
      · exact ⟨h.current, le_rfl, Instant.le_never _, spans_empty⟩
      · intro rest
        simp [pending, Query.shownFrom, herase]
    · by_cases hknows : q.bounds.knows f.systemFrom
      · obtain ⟨s', hs', hready', herased', hsteps⟩ := hready.resolve (q := q)
        refine ⟨s', q.rowsAgainst f s.ledger.steps, ?_, hready'.mono (by simp), fun rest => ?_⟩
        · simpa [herased, hselected, herase, hknows, bind, Except.bind] using hs'
        · simp [pending, Query.shownFrom, herased, herased', hselected, herase, hknows, hsteps]
      · refine ⟨_, [], by simp [herased, hselected, herase, hknows], hready, fun rest => ?_⟩
        simp [pending, Query.shownFrom, herased, hselected, herase, hknows]
  · exact ⟨_, [], by simp [herased, hselected], hready, fun rest => by simp [pending, hselected]⟩

/-- A row of a new entity is met like any first row. -/
theorem run_cons_of_ne {s s' : Replay} (h : s.current ≠ some f.entity)
    (h' : s'.current = some f.entity → s' = first f.entity) (rest : List Fact) :
    run q s (f :: rest) = run q s' (f :: rest) := by
  have hstep : { s with exposure := s'.exposure }.step q f = s'.step q f := by
    have horder : { s with exposure := s'.exposure }.checkOrder f = .ok () :=
      if_neg fun hc => h hc.1
    have horder' : s'.checkOrder f = .ok () := by
      apply if_neg
      intro hc
      rw [h' hc.1] at hc
      exact absurd hc.2 (not_lt.2 (Instant.le_never _))
    have henter : { s with exposure := s'.exposure }.enter f = s'.enter f := by
      rw [enter, enter, if_neg h]
      split
      · rename_i hc
        rw [h' hc]
        rfl
      · rfl
    rw [step, step, horder, horder', henter]
  rw [← run_exposure s s'.exposure, run_cons, run_cons, hstep]

/-- The rows of one entity show what is pending of them, and leave nothing behind for the rows of
other entities. -/
theorem run_append {s : Replay} {others : List Fact}
    (hready : ∀ f ∈ rows, s.IsReady e f.systemFrom) (hcurrent : s.current = some e)
    (hrows : ∀ f ∈ rows, f.entity = e) (hothers : ∀ f ∈ others, f.entity ≠ e)
    (hsorted : rows.Pairwise fun f g => g.systemFrom ≤ f.systemFrom) :
    run q s (rows ++ others) = (run q {} others).map (pending q s e rows ++ ·) := by
  induction rows generalizing s with
  | nil =>
    have hnil : pending q s e [] = [] := by simp [pending, Query.shownFrom]
    have hothers : run q s others = run q {} others := by
      cases others with
      | nil => rfl
      | cons g rest =>
        have hg : s.current ≠ some g.entity := by
          rw [hcurrent]
          exact fun h => hothers g (.head _) (Option.some_inj.1 h).symm
        exact run_cons_of_ne hg (fun h => by simp at h) rest
    rw [List.nil_append, hothers, hnil]
    cases run q {} others <;> rfl
  | cons f rest ih =>
    rw [List.forall_mem_cons] at hready hrows
    rw [List.pairwise_cons] at hsorted
    obtain ⟨s', out, hstep, hready', hpending⟩ := (hrows.1 ▸ hready.1).step (q := q)
    have ih := ih (fun g hg => (hrows.1 ▸ hready').mono (hsorted.1 g hg))
      (hrows.1 ▸ hready'.current) hrows.2 hsorted.2
    rw [hrows.1] at hpending
    rw [List.cons_append, run_cons, hstep]
    simp only [ih, hpending]
    cases run q {} others <;> simp [Except.map]

end Replay

namespace Query

/-- What the histories of some entities show, among rows of any entities. -/
def answer (q : Query) (ids : List EntityId) (rows : List Fact) : List OutputRow :=
  ids.flatMap fun e => if q.selects e then q.shown (Fact.versions e rows) else []

theorem answer_eq_flatMap (q : Query) (ids : List EntityId) (rows : List Fact) :
    q.answer ids rows =
      (ids.filter q.selects).flatMap fun e => q.shown (Fact.versions e rows) := by
  induction ids with
  | nil => rfl
  | cons e ids ih =>
    rw [answer, List.flatMap_cons, ← answer, ih, List.filter_cons]
    split <;> simp

/-- Ordered rows are replayed without a fault, and show their histories in the order of their
entities. -/
theorem replay_eq (h : Fact.IsOrdered rows) {ids : List EntityId} (hids : ids.Pairwise (· < ·))
    (hmem : ∀ f ∈ rows, f.entity ∈ ids) : q.replay rows = .ok (q.answer ids rows) := by
  have hrun : Replay.run q {} (ids.flatMap fun e => Fact.versions e rows) =
      .ok (q.answer ids rows) := by
    clear hmem
    induction ids with
    | nil => rfl
    | cons e ids ih =>
      rw [List.pairwise_cons] at hids
      have hothers : ∀ f ∈ ids.flatMap fun e => Fact.versions e rows, f.entity ≠ e := by
        intro f hf
        obtain ⟨d, hd, hf⟩ := List.mem_flatMap.1 hf
        exact (Fact.mem_versions.1 hf).2 ▸ (hids.1 d hd).ne'
      have hblock := Replay.run_append (q := q) (s := Replay.first e)
        (fun f _ => Replay.isReady_first) rfl (fun f hf => (Fact.mem_versions.1 hf).2) hothers
        (h.pairwise_versions e)
      have hstart : Replay.run q {} (Fact.versions e rows ++ ids.flatMap (Fact.versions · rows)) =
          Replay.run q (Replay.first e)
            (Fact.versions e rows ++ ids.flatMap (Fact.versions · rows)) := by
        cases hrows : Fact.versions e rows ++ ids.flatMap (Fact.versions · rows) with
        | nil => rfl
        | cons f rest =>
          refine Replay.run_cons_of_ne (by simp) (fun hc => ?_) rest
          rw [Option.some_inj.1 hc]
      rw [List.flatMap_cons, hstart, hblock, ih hids.2]
      have hpending : Replay.pending q (Replay.first e) e (Fact.versions e rows) =
          if q.selects e then q.shown (Fact.versions e rows) else [] := by
        by_cases hselected : q.selects e <;> simp [Replay.pending, Replay.first, shown, hselected]
      simp [Except.map, answer, hpending]
  rwa [Fact.flatMap_versions h hids hmem] at hrun

/-- The answer depends on what the selected entities show. -/
theorem answer_congr {ids : List EntityId} {rows' : List Fact}
    (h : ∀ e ∈ ids, q.selects e →
      q.shown (Fact.versions e rows) = q.shown (Fact.versions e rows')) :
    q.answer ids rows = q.answer ids rows' := by
  apply List.flatMap_congr
  intro e he
  split
  · exact h e he ‹_›
  · rfl

/-- What facts in any order show: the histories of their entities in ascending order. -/
def answerAll (q : Query) (rows : List Fact) : List OutputRow :=
  q.answer (Fact.entities (Fact.sort rows)) (Fact.sort rows)

end Query

end Bitemporal
