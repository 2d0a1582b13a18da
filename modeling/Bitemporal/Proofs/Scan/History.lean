import Mathlib
import Bitemporal.Proofs.Ledger.Tiling
import Bitemporal.Scan.Row

/-!
# What a history shows

The versions of one entity, newest first, show their tiles against the steps that the newer versions
left. Only the steps inside the window of valid time matter, so a version that does not reach into
the windows of a query may be left out of the history without a trace.

## Main definitions

* `Query.shownDoc?`: the document of a version that satisfies the predicates.
* `Query.rowsAgainst`: the rows of a version against steps.
* `Query.rowsOn`: the rows of a version on the tiles of an exposure.
* `Query.shownFrom`: the rows of a history from steps on.
* `Query.passesOver`: a version that changes nothing a query can see.
* `Fact.covers`, `OutputRow.covers`: a point of both times inside a span.

## Main statements

* `Query.rowsOf_eq_rowsOn`: the test for staleness changes no rows.
* `Query.rowsOf_eq`: the rows of a version are read off the steps within its span.
* `Query.shownFrom_congr`: a history shows the same from steps that agree within the window.
* `Query.shownFrom_filter`: versions that are passed over may be left out.
* `Query.filter_covers_shownFrom`: at a point, a history shows the first version that covers it.
-/

namespace Bitemporal

open scoped Linear
open Ledger

variable {q : Query} {f : Fact} {steps : List Step} {rows : List Fact} {v t : Instant}

namespace Query

/-- The document of a version, if there is one that satisfies the predicates. -/
def shownDoc? (q : Query) (f : Fact) : Option Document :=
  match f.action with
  | .put doc => if q.accepts doc then some doc else none
  | _ => none

/-- The rows of a version against the steps that newer versions left. -/
def rowsAgainst (q : Query) (f : Fact) (steps : List Step) : List OutputRow :=
  match q.shownDoc? f with
  | none => []
  | some doc =>
    ((spanTiles f.validFrom f.validTo steps).filter (q.sees f.systemFrom)).map (q.rowOf f doc)

/-- The rows of a version on the tiles of an exposure, each of which is tested. -/
def rowsOn (q : Query) (f : Fact) (x : Exposure) : List OutputRow :=
  match q.shownDoc? f with
  | none => []
  | some doc => (x.rectangles.filter (q.sees f.systemFrom)).map (q.rowOf f doc)

/-- Staleness only saves work: a stale exposure has no tile inside the windows. -/
theorem rowsOf_eq_rowsOn {x : Exposure}
    (h : x.rectangles.Pairwise fun r r' => r.validTo ≤ r'.validTo) :
    q.rowsOf f x = q.rowsOn f x := by
  have hskip (hstale : x.isEmpty || x.isStale q.bounds.valid.lower q.bounds.system.lower) :
      x.rectangles.filter (q.sees f.systemFrom) = [] := by
    rcases Bool.or_eq_true _ _ ▸ hstale with hempty | hstale
    · rw [Exposure.rectangles, List.isEmpty_iff.1 hempty, Exposure.tiles]
      · rfl
      · simp
    · refine List.filter_eq_nil_iff.2 fun r hr => ?_
      simp [sees, Exposure.intersects_eq_false_of_isStale h hstale hr]
  rw [rowsOf, rowsOn, shownDoc?]
  cases f.action with
  | put doc =>
    by_cases hacc : q.accepts doc
    · by_cases hstale : x.isEmpty || x.isStale q.bounds.valid.lower q.bounds.system.lower
      · simp [hacc, hstale, hskip hstale]
      · simp [hacc, hstale]
    · simp [hacc]
  | delete => rfl
  | erase => rfl

/-- The rows of a version are read off the steps within its span. -/
theorem rowsOf_eq {x : Exposure} (h : Spans steps)
    (hx : x.rectangles = spanTiles f.validFrom f.validTo steps) :
    q.rowsOf f x = q.rowsAgainst f steps := by
  rw [rowsOf_eq_rowsOn (hx ▸ pairwise_spanTiles h), rowsOn, hx, rowsAgainst]

/-! ## Inside the window of valid time -/

/-- Whether a tile of a version holds some point of the window of system time. -/
def isOpen (q : Query) (systemFrom : Instant) (r : Rectangle) : Bool :=
  systemFrom < r.systemTo && q.bounds.system.intersects systemFrom r.systemTo

/-- Rows are clipped anyway, so the tiles may be clipped first. -/
theorem rowsAgainst_eq_clipped (hw : q.bounds.valid.lower < q.bounds.valid.upper)
    (h : Spans steps) : q.rowsAgainst f steps = match q.shownDoc? f with
      | none => []
      | some doc => ((spanTiles (max f.validFrom q.bounds.valid.lower)
          (min f.validTo q.bounds.valid.upper) steps).filter (q.isOpen f.systemFrom)).map
            (q.rowOf f doc) := by
  have hsees : (spanTiles f.validFrom f.validTo steps).filter (q.sees f.systemFrom) =
      ((spanTiles f.validFrom f.validTo steps).filter (Rectangle.meets q.bounds.valid)).filter
        (q.isOpen f.systemFrom) := by
    rw [List.filter_filter]
    apply List.filter_congr
    intro r hr
    have hproper := (bounds_of_mem_spanTiles h hr).2.1
    simp only [sees, Rectangle.isProper, Bounds.intersects, isOpen, Rectangle.meets, hproper,
      decide_true, Bool.true_and]
    grind
  rw [rowsAgainst]
  cases q.shownDoc? f with
  | none => rfl
  | some doc =>
    have hrow : q.rowOf f doc ∘ Rectangle.clip q.bounds.valid = q.rowOf f doc := by
      funext r
      simp [rowOf, Rectangle.clip, Window.clip]
    have hopen : q.isOpen f.systemFrom ∘ Rectangle.clip q.bounds.valid =
        q.isOpen f.systemFrom := rfl
    simp only [hsees]
    rw [← clip_spanTiles q.bounds.valid hw h, List.filter_map, hopen, List.map_map, hrow]

theorem rowsAgainst_congr {steps' : List Step} (hw : q.bounds.valid.lower < q.bounds.valid.upper)
    (h : Spans steps) (h' : Spans steps')
    (heq : within q.bounds.valid.lower q.bounds.valid.upper steps =
      within q.bounds.valid.lower q.bounds.valid.upper steps') :
    q.rowsAgainst f steps = q.rowsAgainst f steps' := by
  rw [rowsAgainst_eq_clipped hw h, rowsAgainst_eq_clipped hw h',
    spanTiles_congr heq (le_max_right _ _) (min_le_right _ _)]

/-- A version that does not meet the window shows nothing. -/
theorem rowsAgainst_eq_nil (hw : q.bounds.valid.lower < q.bounds.valid.upper) (h : Spans steps)
    (hf : ¬ q.bounds.valid.intersects f.validFrom f.validTo) : q.rowsAgainst f steps = [] := by
  have hempty : ¬ max f.validFrom q.bounds.valid.lower < min f.validTo q.bounds.valid.upper := by
    intro hlt
    rw [max_lt_iff, lt_min_iff, lt_min_iff] at hlt
    exact hf (by simp [Window.intersects, hlt.1.2, hlt.2.1])
  rw [rowsAgainst_eq_clipped hw h, spanTiles, if_neg hempty]
  cases q.shownDoc? f <;> rfl

end Query

/-! ## Superseding -/

/-- The steps after a version is recorded; an empty span changes nothing. -/
def supersede (f : Fact) (steps : List Step) : List Step :=
  if f.validFrom < f.validTo then overwrite steps f.systemFrom f.validFrom f.validTo else steps

theorem Ledger.Spans.supersede (h : Spans steps) : Spans (supersede f steps) := by
  rw [Bitemporal.supersede]
  split
  · exact h.overwrite ‹_›
  · exact h

theorem ceilingIn_supersede (h : Spans steps) (hv : v < .never) :
    ceilingIn (supersede f steps) v =
      if f.validFrom ≤ v ∧ v < f.validTo then f.systemFrom else ceilingIn steps v := by
  rw [supersede]
  split
  · exact ceilingIn_overwrite h.isSteps hv
  · rename_i hf
    rw [if_neg fun hc => hf (hc.1.trans_lt hc.2)]

theorem within_supersede_congr {steps' : List Step} {w : Window} (hw : w.lower < w.upper)
    (h : Spans steps) (h' : Spans steps')
    (heq : within w.lower w.upper steps = within w.lower w.upper steps') :
    within w.lower w.upper (supersede f steps) = within w.lower w.upper (supersede f steps') := by
  rw [supersede, supersede]
  split
  · exact within_overwrite_congr h.isSteps h'.isSteps ‹_› hw heq
  · exact heq

/-- A version that does not meet a window changes nothing inside of it. -/
theorem within_supersede {w : Window} (hw : w.lower < w.upper) (h : Spans steps)
    (hf : ¬ w.intersects f.validFrom f.validTo) :
    within w.lower w.upper (supersede f steps) = within w.lower w.upper steps := by
  simp only [Window.intersects, Bool.and_eq_true, decide_eq_true_eq, not_and_or, not_lt] at hf
  rw [supersede]
  split
  · rename_i hspan
    rcases hf with hf | hf
    · exact within_overwrite_of_le hspan hf
    · exact within_overwrite_of_ge (h.isSteps.reaches _) hf hw
  · rfl

namespace Query

/-- The rows that versions show, newest first, from steps on. An erase ends the history. -/
def shownFrom (q : Query) (steps : List Step) : List Fact → List OutputRow
  | [] => []
  | f :: rest =>
    if f.isErase then []
    else if ¬ q.bounds.knows f.systemFrom then shownFrom q steps rest
    else q.rowsAgainst f steps ++ shownFrom q (supersede f steps) rest

/-- The rows that the versions of an entity show. -/
def shown (q : Query) (rows : List Fact) : List OutputRow := q.shownFrom empty.steps rows

/-- What a history shows depends on the steps inside the window only. -/
theorem shownFrom_congr {steps' : List Step} (hw : q.bounds.valid.lower < q.bounds.valid.upper)
    (h : Spans steps) (h' : Spans steps')
    (heq : within q.bounds.valid.lower q.bounds.valid.upper steps =
      within q.bounds.valid.lower q.bounds.valid.upper steps') :
    q.shownFrom steps rows = q.shownFrom steps' rows := by
  induction rows generalizing steps steps' with
  | nil => rfl
  | cons f rest ih =>
    rw [shownFrom, shownFrom, rowsAgainst_congr hw h h' heq, ih h h' heq,
      ih h.supersede h'.supersede (within_supersede_congr hw h h' heq)]

/-- Whether a version changes nothing that a query can see: it is no erase, and either unknown to
the query or outside of its window of valid time. -/
def passesOver (q : Query) (f : Fact) : Bool :=
  !f.isErase && !(q.bounds.knows f.systemFrom && q.bounds.valid.intersects f.validFrom f.validTo)

theorem not_isErase_of_passesOver (h : q.passesOver f) : ¬ f.isErase := by
  simp only [passesOver, Bool.and_eq_true, Bool.not_eq_true'] at h
  simp [h.1]

theorem not_intersects_of_passesOver (h : q.passesOver f) (hknows : q.bounds.knows f.systemFrom) :
    ¬ q.bounds.valid.intersects f.validFrom f.validTo := by
  simp only [passesOver, hknows, Bool.true_and, Bool.and_eq_true, Bool.not_eq_true'] at h
  simp [h.2]

/-- Versions that are passed over may be left out of a history. -/
theorem shownFrom_filter {keep : Fact → Bool} (hw : q.bounds.valid.lower < q.bounds.valid.upper)
    (h : Spans steps) (hkeep : ∀ f ∈ rows, ¬ keep f → q.passesOver f) :
    q.shownFrom steps (rows.filter keep) = q.shownFrom steps rows := by
  induction rows generalizing steps with
  | nil => rfl
  | cons f rest ih =>
    rw [List.forall_mem_cons] at hkeep
    have ih {steps : List Step} (h : Spans steps) := ih h hkeep.2
    by_cases hf : keep f
    · rw [List.filter_cons_of_pos hf, shownFrom, shownFrom, ih h, ih h.supersede]
    · have hpass := hkeep.1 hf
      rw [List.filter_cons_of_neg hf, ih h, shownFrom, if_neg (not_isErase_of_passesOver hpass)]
      split
      · rfl
      · rename_i hknows
        have hout := not_intersects_of_passesOver hpass (not_not.1 hknows)
        rw [rowsAgainst_eq_nil hw h hout, List.nil_append,
          shownFrom_congr hw h.supersede h (within_supersede hw h hout)]

/-- A history without a document to show, or only with documents that are passed over, shows
nothing. -/
theorem shownFrom_eq_nil (hw : q.bounds.valid.lower < q.bounds.valid.upper) (h : Spans steps)
    (hnone : ∀ f ∈ rows, q.shownDoc? f = none ∨ q.passesOver f) : q.shownFrom steps rows = [] := by
  induction rows generalizing steps with
  | nil => rfl
  | cons f rest ih =>
    rw [List.forall_mem_cons] at hnone
    rw [shownFrom, ih h hnone.2, ih h.supersede hnone.2, List.append_nil]
    split
    · rfl
    split
    · rfl
    rename_i hknows
    rcases hnone.1 with hdoc | hpass
    · rw [rowsAgainst, hdoc]
    · exact rowsAgainst_eq_nil hw h (not_intersects_of_passesOver hpass (not_not.1 hknows))

end Query

/-! ## At a point -/

/-- Whether a version speaks of a valid time and is known at a system time. -/
def Fact.covers (v t : Instant) (f : Fact) : Bool :=
  f.validFrom ≤ v ∧ v < f.validTo ∧ f.systemFrom ≤ t

/-- Whether a row holds at a point of both times. -/
def OutputRow.covers (v t : Instant) (r : OutputRow) : Bool :=
  (r.validFrom ≤ v ∧ v < r.validTo) ∧ r.systemFrom ≤ t ∧ t < r.systemTo

/-- The newest version that covers a point, unless an erase comes before it. -/
def Fact.decisive? (v t : Instant) : List Fact → Option Fact
  | [] => none
  | f :: rest => if f.isErase then none else if f.covers v t then some f else decisive? v t rest

namespace Query

theorem filter_covers_rowsAgainst (h : Spans steps) (hv : q.bounds.valid.holds v)
    (ht : q.bounds.system.holds t) :
    ((q.rowsAgainst f steps).filter (OutputRow.covers v t)).map (·.doc) =
      if f.covers v t ∧ t < ceilingIn steps v then ((q.shownDoc? f).map q.project).toList
      else [] := by
  rw [rowsAgainst]
  cases q.shownDoc? f with
  | none => simp
  | some doc =>
    have hseen : ((spanTiles f.validFrom f.validTo steps).filter (q.sees f.systemFrom)).filter
        (OutputRow.covers v t ∘ q.rowOf f doc) =
        ((spanTiles f.validFrom f.validTo steps).filter fun r =>
          decide (r.validFrom ≤ v ∧ v < r.validTo)).filter fun r =>
            decide (f.systemFrom ≤ t ∧ t < r.systemTo) := by
      rw [List.filter_filter, List.filter_filter]
      apply List.filter_congr
      intro r hr
      have hproper := (bounds_of_mem_spanTiles h hr).2.1
      simp only [Window.holds] at hv ht
      simp only [Function.comp, OutputRow.covers, rowOf, Window.clip, sees, Rectangle.isProper,
        Bounds.intersects, Window.intersects]
      grind
    simp only [List.filter_map, hseen, List.map_map]
    by_cases hf : f.validFrom ≤ v ∧ v < f.validTo
    · obtain ⟨r, hr, hsystem⟩ := filter_spanTiles h hf.1 hf.2
      rw [hr, List.filter_singleton, hsystem]
      by_cases htf : f.systemFrom ≤ t ∧ t < ceilingIn steps v
      · simp [Fact.covers, hf, htf, rowOf]
      · simp [Fact.covers, hf, htf]
    · have hnone : ((spanTiles f.validFrom f.validTo steps).filter fun r =>
          decide (r.validFrom ≤ v ∧ v < r.validTo)) = [] := by
        refine List.filter_eq_nil_iff.2 fun r hr hrv => hf ?_
        obtain ⟨hlow, -, hup⟩ := bounds_of_mem_spanTiles h hr
        exact ⟨hlow.trans (of_decide_eq_true hrv).1, (of_decide_eq_true hrv).2.trans_le hup⟩
      have hcovers : ¬ f.covers v t := fun hc =>
        hf ⟨(of_decide_eq_true hc).1, (of_decide_eq_true hc).2.1⟩
      rw [hnone, if_neg fun hc => hcovers hc.1]
      rfl

/-- Nothing shows at a point whose ceiling the point has reached already: older versions stay below
it. -/
theorem filter_covers_shownFrom_of_le (h : Spans steps) (hv : q.bounds.valid.holds v)
    (ht : q.bounds.system.holds t) (hceiling : ceilingIn steps v ≤ t)
    (hold : ∀ f ∈ rows, f.systemFrom ≤ t) :
    (q.shownFrom steps rows).filter (OutputRow.covers v t) = [] := by
  induction rows generalizing steps with
  | nil => rfl
  | cons f rest ih =>
    rw [List.forall_mem_cons] at hold
    have hnow : (q.rowsAgainst f steps).filter (OutputRow.covers v t) = [] := by
      rw [← List.map_eq_nil_iff (f := (·.doc)), filter_covers_rowsAgainst h hv ht,
        if_neg fun hc => absurd hc.2 (not_lt.2 hceiling)]
    have hlater : ceilingIn (supersede f steps) v ≤ t := by
      rw [ceilingIn_supersede h (hv.2.trans_le (Instant.le_never _))]
      split
      · exact hold.1
      · exact hceiling
    rw [shownFrom]
    split
    · rfl
    split
    · exact ih h hceiling hold.2
    · rw [List.filter_append, hnow, ih h.supersede hlater hold.2, List.append_nil]

/-- At a point, a history shows the newest version that covers it, if that is a put whose document
satisfies the predicates and no erase comes before it. The ceiling stays above the point until that
version is met, and no higher than the point from then on. -/
theorem filter_covers_shownFrom (h : Spans steps) (hv : q.bounds.valid.holds v)
    (ht : q.bounds.system.holds t) (hceiling : t < ceilingIn steps v)
    (hrows : rows.Pairwise fun f g => g.systemFrom ≤ f.systemFrom) :
    ((q.shownFrom steps rows).filter (OutputRow.covers v t)).map (·.doc) =
      (((Fact.decisive? v t rows).bind q.shownDoc?).map q.project).toList := by
  induction rows generalizing steps with
  | nil => rfl
  | cons f rest ih =>
    rw [List.pairwise_cons] at hrows
    rw [shownFrom, Fact.decisive?]
    split
    · rfl
    split
    · rename_i hknows
      have hcovers : ¬ f.covers v t := fun hc =>
        hknows (decide_eq_true ((of_decide_eq_true hc).2.2.trans_lt ht.2))
      rw [if_neg hcovers]
      exact ih h hceiling hrows.2
    rw [List.filter_append, List.map_append, filter_covers_rowsAgainst h hv ht]
    have hnext := ceilingIn_supersede (f := f) h (hv.2.trans_le (Instant.le_never _))
    by_cases hcovers : f.covers v t
    · have hspan := of_decide_eq_true hcovers
      rw [if_pos ⟨hspan.1, hspan.2.1⟩] at hnext
      have hrest := @filter_covers_shownFrom_of_le q _ rest v t h.supersede hv ht
        (hnext ▸ hspan.2.2) fun g hg => (hrows.1 g hg).trans hspan.2.2
      rw [if_pos ⟨hcovers, hceiling⟩, if_pos hcovers, hrest]
      simp
    · have hlater : t < ceilingIn (supersede f steps) v := by
        rw [hnext]
        split
        · rename_i hspan
          by_contra hlt
          exact hcovers (decide_eq_true ⟨hspan.1, hspan.2, not_lt.1 hlt⟩)
        · exact hceiling
      rw [if_neg fun hc => hcovers hc.1, if_neg hcovers, ih h.supersede hlater hrows.2,
        List.nil_append]

theorem filter_covers_shown (hv : q.bounds.valid.holds v) (ht : q.bounds.system.holds t)
    (hrows : rows.Pairwise fun f g => g.systemFrom ≤ f.systemFrom) :
    ((q.shown rows).filter (OutputRow.covers v t)).map (·.doc) =
      (((Fact.decisive? v t rows).bind q.shownDoc?).map q.project).toList := by
  refine filter_covers_shownFrom spans_empty hv ht ?_ hrows
  have hnever : ceilingIn empty.steps v = .never := ceilingIn_cons_of_le (Instant.start_le v)
  exact hnever ▸ ht.2.trans_le (Instant.le_never _)

end Query

end Bitemporal
