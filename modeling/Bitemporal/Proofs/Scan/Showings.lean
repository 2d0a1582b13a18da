import Mathlib
import Bitemporal.Proofs.Ledger.Resolved
import Bitemporal.Proofs.Merge.Precedence
import Bitemporal.Proofs.Scan.Rising
import Bitemporal.Proofs.Segment.Loaded

/-!
# What each version shows

The rows of a task come from its versions, one after the other, and each version shows rows of its
own. A replay that keeps with the rows of every version where the version stands, gives the rows of
the task when this is forgotten. The rows of one version lie apart in valid time, in ascending
order.

## Main definitions

* `SourceRow`: a row of a page, and where it stands.
* `Showing`: such a row, and what it shows.
* `Replay.showings`, `Scan.showings`: what the rows of a replay, or of a task, show one by one.

## Main statements

* `Scan.result_task_eq_showings`: the rows of a task are those that its versions show.
* `Query.pairwise_rowsAgainst`: the rows of a version lie apart.
* `Scan.IsTold.of_showings`: the versions of a task, in order.
* `Scan.exists_of_showings_error`: a task fails only if one of its pages cannot be loaded.
* `Scan.result_collect_of_load_error`: a scan fails if its first page cannot be loaded.
-/

namespace Bitemporal

open scoped Linear
open Ledger

/-- A row of a page, and where it stands. -/
structure SourceRow where
  /-- The page. -/
  page : PageRef
  /-- The position in the page. -/
  index : Nat
  /-- The row. -/
  fact : Fact

/-- A row of a page, and what it shows. -/
structure Showing extends SourceRow where
  /-- The rows of the answer that stem from it. -/
  rows : List OutputRow

namespace SourceRow

/-- The place of the row. -/
def origin (r : SourceRow) : PageRef × Nat := (r.page, r.index)

/-- The page can be loaded and has the row at its position. -/
def Stands (d : Disk) (segments : List Segment) (r : SourceRow) : Prop :=
  ∃ page, (r.page.load d segments).result = .ok page ∧ page.rows[r.index]? = some r.fact

theorem Stands.fact_eq {d : Disk} {segments : List Segment} {r s : SourceRow}
    (hr : r.Stands d segments) (hs : s.Stands d segments) (h : r.origin = s.origin) :
    r.fact = s.fact := by
  obtain ⟨page, hload, hrow⟩ := hr
  obtain ⟨page', hload', hrow'⟩ := hs
  obtain ⟨hpage, hindex⟩ := Prod.mk.inj h
  rw [hpage, hload'] at hload
  obtain rfl := Except.ok.inj hload
  rw [hindex, hrow'] at hrow
  exact (Option.some.inj hrow).symm

end SourceRow

variable {d : Disk} {w : BucketWidth} {q : Query} {segments : List Segment} {t : MergeTask}
  {f : Fact} {steps : List Step} {out : List OutputRow} {rows : List SourceRow}
  {shown : List Showing}

/-! ## The rows of one version -/

/-- The tiles of a span lie apart, in ascending order. -/
theorem Ledger.pairwise_apart_spanTiles {a b : Instant} (h : Spans steps) :
    (spanTiles a b steps).Pairwise fun r r' => r.validTo ≤ r'.validFrom := by
  let follows (r r' : Rectangle) : Prop :=
    r.validTo ≤ r'.validFrom ∧ r'.validFrom < r'.validTo
  have htrans : IsTrans Rectangle follows :=
    ⟨fun r r' r'' h h' => ⟨h.1.trans (h.2.le.trans h'.1), h'.2⟩⟩
  have hchain : (spanTiles a b steps).IsChain follows := by
    refine .imp_of_mem_imp (fun r r' hr hr' heq => ?_) (isChain_spanTiles a b steps)
    exact ⟨heq.le, (bounds_of_mem_spanTiles h hr').2.1⟩
  exact (List.isChain_iff_pairwise.1 hchain).imp And.left

namespace Query

/-- The rows of a version lie apart in valid time, also where they are clipped. -/
theorem pairwise_rowsAgainst (h : Spans steps) :
    (q.rowsAgainst f steps).Pairwise fun r r' => r.validTo ≤ r'.validFrom := by
  rw [rowsAgainst]
  cases q.shownDoc? f with
  | none => exact .nil
  | some doc =>
    refine List.pairwise_map.2 (((pairwise_apart_spanTiles h).filter _).imp fun hapart => ?_)
    exact (min_le_left _ _).trans (hapart.trans (le_max_left _ _))

/-- The rows of a version have its entity, and its system time where it is inside the window. -/
theorem of_mem_rowsAgainst {r : OutputRow} (h : r ∈ q.rowsAgainst f steps) :
    r.entity = f.entity ∧ r.systemFrom = max f.systemFrom q.bounds.system.lower := by
  rw [rowsAgainst] at h
  cases hdoc : q.shownDoc? f with
  | none => simp [hdoc] at h
  | some doc =>
    rw [hdoc] at h
    obtain ⟨tile, -, rfl⟩ := List.mem_map.1 h
    exact ⟨rfl, rfl⟩

end Query

/-! ## Replaying -/

namespace Replay

variable {s s' : Replay}

theorem recorded_of_resolve (h : s.resolve q f = .ok (s', out)) : f.systemFrom ≤ s.ledger.last := by
  by_contra hlast
  have horder : s.ledger.checkOrder f.systemFrom = .error ⟨f.systemFrom, s.ledger.last⟩ :=
    if_pos (not_le.1 hlast)
  simp [resolve, Ledger.resolve, horder, bind, Except.bind] at h

/-- What a row shows is read off the steps of the ledger, which stay steps. -/
theorem spans_of_step (h : s.step q f = .ok (s', out)) (hs : Spans s.ledger.steps) :
    Spans s'.ledger.steps ∧ ∃ steps, Spans steps ∧ (out = [] ∨ out = q.rowsAgainst f steps) := by
  have henter : (s.enter f).current = some f.entity ∧ f.systemFrom ≤ (s.enter f).last ∧
      Spans (s.enter f).ledger.steps := by
    unfold enter
    split
    next hcurrent => exact ⟨hcurrent, le_rfl, hs⟩
    next => exact ⟨rfl, le_rfl, spans_empty⟩
  obtain ⟨hcurrent, hlast, hspans⟩ := henter
  have hnothing {s₁ : Replay} (hs₁ : Spans s₁.ledger.steps)
      (h : (Except.ok (s₁, []) : Except Rising (Replay × List OutputRow)) = .ok (s', out)) :
      Spans s'.ledger.steps ∧ ∃ steps, Spans steps ∧ (out = [] ∨ out = q.rowsAgainst f steps) := by
    obtain ⟨rfl, rfl⟩ := Prod.mk.inj (Except.ok.inj h)
    exact ⟨hs₁, _, spans_empty, .inl rfl⟩
  cases horder : s.checkOrder f with
  | error rising => simp [step, horder, bind, Except.bind] at h
  | ok _ =>
    simp only [step, horder, bind, Except.bind, pure, Except.pure] at h
    split_ifs at h
    · exact hnothing hspans h
    · exact hnothing spans_empty h
    · have hready : (s.enter f).IsReady f.entity f.systemFrom :=
        ⟨hcurrent, hlast, recorded_of_resolve h, hspans⟩
      obtain ⟨s₁, hresolve, hready', -, -⟩ := hready.resolve (q := q)
      obtain ⟨rfl, rfl⟩ := Prod.mk.inj (Except.ok.inj (hresolve.symm.trans h))
      exact ⟨hready'.spans, _, hspans, .inr rfl⟩
    · exact hnothing hspans h
    · exact hnothing hspans h

/-- What rows show from a state on, each by itself. -/
def showings (q : Query) (s : Replay) : List SourceRow → Except ReplayFault (List Showing)
  | [] => .ok []
  | r :: rest =>
    match s.step q r.fact with
    | .error rising => .error ⟨r.fact.entity, rising⟩
    | .ok (s, rows) => (showings q s rest).map ({ r with rows } :: ·)

/-- The rows of a replay are those that its versions show. -/
theorem run_eq_showings (q : Query) (s : Replay) (rows : List SourceRow) :
    run q s (rows.map (·.fact)) = (showings q s rows).map (List.flatMap (·.rows)) := by
  induction rows generalizing s with
  | nil => rfl
  | cons r rest ih =>
    rw [List.map_cons, run_cons, showings]
    cases s.step q r.fact with
    | error rising => rfl
    | ok x =>
      dsimp only
      rw [ih]
      cases showings q x.1 rest with
      | error fault => rfl
      | ok shown => rfl

/-- Each row shows something once, in the order of the rows: what is left of it by the steps over
the newer versions. -/
theorem of_showings (h : showings q s rows = .ok shown) (hs : Spans s.ledger.steps) :
    shown.map (·.toSourceRow) = rows ∧ ∀ x ∈ shown, ∃ steps, Spans steps ∧
      (x.rows = [] ∨ x.rows = q.rowsAgainst x.fact steps) := by
  induction rows generalizing s shown with
  | nil =>
    obtain rfl := Except.ok.inj h
    simp
  | cons r rest ih =>
    rw [showings] at h
    cases hstep : s.step q r.fact with
    | error rising => simp [hstep] at h
    | ok x =>
      obtain ⟨s', out⟩ := x
      obtain ⟨hs', hout⟩ := spans_of_step hstep hs
      simp only [hstep] at h
      cases hrest : showings q s' rest with
      | error fault => simp [hrest, Except.map] at h
      | ok more =>
        obtain ⟨hrows, hmore⟩ := ih hrest hs'
        rw [hrest] at h
        obtain rfl := Except.ok.inj h
        exact ⟨by rw [List.map_cons, hrows], List.forall_mem_cons.2 ⟨hout, hmore⟩⟩

end Replay

/-! ## Tasks -/

/-- One after the other, as the answers alone are. -/
theorem Engine.result_mapM {α β : Type} (f : α → Engine β) (xs : List α) :
    (xs.mapM f).result = xs.mapM fun x => (f x).result := by
  have hloop (acc : List β) : (List.mapM.loop f xs acc).result =
      List.mapM.loop (fun x => (f x).result) xs acc := by
    induction xs generalizing acc with
    | nil => rfl
    | cons x xs ih =>
      rw [List.mapM.loop, List.mapM.loop, Engine.result_bind]
      simp only [ih]
  exact hloop []

/-- The merged rows of ordered pages stand in the pages, under the path, in merge order, and no row
comes twice. -/
theorem of_mergeRows? {pages : List Page} {p : Path} {merged : List MergedRow}
    (hordered : ∀ page ∈ pages, Fact.IsOrdered page.rows) (hp : p.length ≤ w.maxDepth)
    (hmerged : mergeRows? w p pages = some merged) :
    merged.Pairwise MergedRow.Precedes ∧ (merged.map fun r => (r.page, r.index)).Nodup ∧
      ∀ r ∈ merged, ∃ page, pages[r.page]? = some page ∧ page.rows[r.index]? = some r.fact ∧
        r.fact.entity.isUnder w p := by
  obtain ⟨s, hs, rfl⟩ :=
    Option.map_eq_some_iff.1 ((TaskRows.mergeRows?_eq_map w p pages).symm.trans hmerged)
  obtain ⟨-, hpages, hstart⟩ := TaskRows.of_ofPages? hs
  have hmem : ∀ x ∈ s.pointers, Fact.IsOrdered x.page.rows := fun x hx =>
    hordered x.page (hpages ▸ List.mem_map_of_mem hx)
  have hprecedes := TaskRows.pairwise_merged hmem
  refine ⟨hprecedes, TaskRows.nodup_positions hprecedes, fun r hr => ?_⟩
  obtain ⟨x, hx, hle, hlt, hrow⟩ := TaskRows.mem_merged_iff.1 hr
  have hcovers := RowPointer.covers_of_ofPage? (hmem x (List.mem_of_getElem? hx)).isGrouped hp
    (hstart x (List.mem_of_getElem? hx))
  refine ⟨x.page, ?_, hrow, (hcovers.between_iff _ _ hrow).1 ⟨hle, hlt⟩⟩
  rw [← hpages, List.getElem?_map, hx, Option.map_some]

/-- A task that a plan over segments may have: its path fits an id, and its pages are of different
segments. -/
structure MergeTask.IsPlanned (w : BucketWidth) (segments : List Segment) (t : MergeTask) :
    Prop where
  length_le : t.path.length ≤ w.maxDepth
  nonempty : t.pages ≠ []
  pages : t.pages.Pairwise (·.segment < ·.segment)
  named : ∀ r ∈ t.pages, r.segment < segments.length

namespace Scan

theorem result_load (d : Disk) (segments : List Segment) (r : PageRef) :
    (load d segments r).result = (r.load d segments).result := by
  rw [load, Engine.result_bind]
  cases (r.load d segments).result <;> rfl

/-- The merged rows of a task, and where they stand. -/
def sourceRows (d : Disk) (segments : List Segment) (t : MergeTask) :
    Except Failure (List SourceRow) := do
  let pages ← (t.pages.mapM (load d segments)).result
  match mergeRows? (t.width segments) t.path pages with
  | some rows => return rows.map fun r => ⟨t.pages.getD r.page default, r.index, r.fact⟩
  | none => .error .outOfBounds

/-- What the rows of a task show, one by one. -/
def showings (d : Disk) (segments : List Segment) (q : Query) (t : MergeTask) :
    Except Failure (List Showing) := do
  let rows ← sourceRows d segments t
  (Replay.showings q {} rows).mapError fun fault => .error (.malformed fault.rising.message)

theorem result_merged (d : Disk) (segments : List Segment) (t : MergeTask) :
    (merged d segments t).result = (sourceRows d segments t).map (List.map (·.fact)) := by
  rw [merged, Engine.result_bind, sourceRows]
  cases (t.pages.mapM (load d segments)).result with
  | error f => rfl
  | ok pages =>
    simp only [bind, Except.bind, MergeTask.rows]
    cases mergeRows? (t.width segments) t.path pages with
    | none => rfl
    | some rows =>
      dsimp only
      rw [Engine.result_pure]
      simp [pure, Except.pure, Except.map]

/-- The rows of a task are those that its versions show. -/
theorem result_task_eq_showings (d : Disk) (segments : List Segment) (q : Query) (t : MergeTask) :
    (task d segments q t).result = (showings d segments q t).map (List.flatMap (·.rows)) := by
  have hmerged := result_merged d segments t
  rw [showings]
  cases hrows : sourceRows d segments t with
  | error f =>
    rw [result_task_eq, Engine.result_bind, hmerged, hrows]
    rfl
  | ok rows =>
    rw [hrows] at hmerged
    rw [result_task_of_merged hmerged, Query.replay, Replay.run_eq_showings]
    simp only [bind, Except.bind]
    cases Replay.showings q {} rows <;> rfl

/-! ## The rows of planned tasks -/

theorem isOrdered_of_load (h : ∀ s ∈ segments, s.IsOrderly d w) {r : PageRef} {page : Page}
    (hload : (r.load d segments).result = .ok page) : Fact.IsOrdered page.rows := by
  rw [PageRef.load] at hload
  cases hs : segments[r.segment]? with
  | none => simp [hs] at hload
  | some s =>
    rw [hs] at hload
    exact (h s (List.mem_of_getElem? hs)).ordered r.page page hload

/-- The rows of a task come from the pages that were loaded for it. -/
theorem exists_merged (h : ∀ s ∈ segments, s.IsOrderly d w) (ht : t.IsPlanned w segments)
    (hrows : sourceRows d segments t = .ok rows) :
    ∃ pages merged, mergeRows? w t.path pages = some merged ∧
      List.Forall₂ (fun r page => (r.load d segments).result = .ok page) t.pages pages ∧
      rows = merged.map fun r => ⟨t.pages.getD r.page default, r.index, r.fact⟩ := by
  have hwidth : t.width segments = w :=
    MergeTask.width_eq (fun s hs => (h s hs).width) ht.nonempty ht.named
  rw [sourceRows, hwidth, Engine.result_mapM] at hrows
  simp only [result_load] at hrows
  cases hpages : t.pages.mapM fun r => (r.load d segments).result with
  | error f => simp [hpages, bind, Except.bind] at hrows
  | ok pages =>
    obtain ⟨merged, hmerged⟩ := exists_mergeRows? pages ht.length_le
    simp only [hpages, hmerged, bind, Except.bind, pure, Except.pure, Except.ok.injEq] at hrows
    exact ⟨pages, merged, hmerged, mapM_eq_ok_iff.1 hpages, hrows.symm⟩

/-- Where the pages of a task are loaded, its rows stand on them, under its path, in merge order,
and no row comes twice. -/
theorem of_sourceRows (h : ∀ s ∈ segments, s.IsOrderly d w) (ht : t.IsPlanned w segments)
    (hrows : sourceRows d segments t = .ok rows) :
    (∀ r ∈ rows, r.Stands d segments ∧ r.fact.entity.isUnder w t.path) ∧
      Fact.IsOrdered (rows.map (·.fact)) ∧ (rows.map (·.origin)).Nodup := by
  obtain ⟨pages, merged, hmerged, hloaded, rfl⟩ := exists_merged h ht hrows
  have hload {i : Nat} {page : Page} (hpage : pages[i]? = some page) :
      ∃ r, t.pages[i]? = some r ∧ (r.load d segments).result = .ok page := by
    obtain ⟨hlt, rfl⟩ := List.getElem?_eq_some_iff.1 hpage
    have hlt' : i < t.pages.length := hloaded.length_eq ▸ hlt
    exact ⟨t.pages[i], List.getElem?_eq_getElem hlt', hloaded.get hlt' hlt⟩
  have hordered : ∀ page ∈ pages, Fact.IsOrdered page.rows := by
    intro page hpage
    obtain ⟨i, hi⟩ := List.mem_iff_getElem?.1 hpage
    obtain ⟨r, -, hr⟩ := hload hi
    exact isOrdered_of_load h hr
  obtain ⟨hprecedes, hnodup, hmem⟩ := of_mergeRows? hordered ht.length_le hmerged
  refine ⟨fun r hr => ?_, ?_, ?_⟩
  · obtain ⟨m, hm, rfl⟩ := List.mem_map.1 hr
    obtain ⟨page, hpage, hrow, hunder⟩ := hmem m hm
    obtain ⟨ref, href, hloads⟩ := hload hpage
    exact ⟨⟨page, by simpa [List.getD_eq_getElem?_getD, href] using hloads, hrow⟩, hunder⟩
  · rw [List.map_map, Fact.IsOrdered, List.pairwise_map]
    refine hprecedes.imp fun {a b} hab => ?_
    rw [Function.comp_apply, Function.comp_apply, Fact.before_iff]
    unfold MergedRow.Precedes at hab
    grind
  · -- the pages of a task are of different segments, so a page is told by its position
    have hpages : t.pages.Nodup := ht.pages.imp fun hlt heq => hlt.ne (congrArg _ heq)
    rw [List.map_map]
    refine List.Nodup.map_on (fun a ha b hb heq => ?_) hnodup.of_map
    obtain ⟨page, hpage, -⟩ := hmem a ha
    obtain ⟨page', hpage', -⟩ := hmem b hb
    obtain ⟨ref, href, -⟩ := hload hpage
    obtain ⟨ref', href', -⟩ := hload hpage'
    simp only [Function.comp_apply, SourceRow.origin, List.getD_eq_getElem?_getD, href, href',
      Option.getD_some, Prod.mk.injEq] at heq
    have hposition : a.page = b.page := by
      refine (List.getElem?_inj (List.getElem?_eq_some_iff.1 href).1 hpages).1 ?_
      rw [href, href', heq.1]
    exact List.inj_on_of_nodup_map hnodup ha hb (Prod.ext hposition heq.2)

/-- What is told of a task under a path: its versions stand on pages under the path, in merge order,
each of them once, and each shows what is left of it. -/
structure IsTold (d : Disk) (segments : List Segment) (q : Query) (w : BucketWidth) (p : Path)
    (shown : List Showing) : Prop where
  stands : ∀ x ∈ shown, x.Stands d segments
  under : ∀ x ∈ shown, x.fact.entity.isUnder w p
  ordered : shown.Pairwise fun x y => x.fact.before y.fact
  nodup : (shown.map (·.origin)).Nodup
  rows : ∀ x ∈ shown, ∃ steps, Spans steps ∧
    (x.rows = [] ∨ x.rows = q.rowsAgainst x.fact steps)

theorem IsTold.of_showings (h : ∀ s ∈ segments, s.IsOrderly d w) (ht : t.IsPlanned w segments)
    (hshown : showings d segments q t = .ok shown) : IsTold d segments q w t.path shown := by
  rw [showings] at hshown
  cases hrows : sourceRows d segments t with
  | error f => simp [hrows, bind, Except.bind] at hshown
  | ok rows =>
    cases hreplay : Replay.showings q {} rows with
    | error fault => simp [hrows, hreplay, bind, Except.bind, Except.mapError] at hshown
    | ok found =>
      simp only [hrows, hreplay, bind, Except.bind, Except.mapError, Except.ok.injEq] at hshown
      subst hshown
      obtain ⟨rfl, hsteps⟩ := Replay.of_showings hreplay spans_empty
      obtain ⟨hstands, hordered, hnodup⟩ := of_sourceRows h ht hrows
      rw [List.map_map] at hordered hnodup
      rw [List.forall_mem_map] at hstands
      exact ⟨fun x hx => (hstands x hx).1, fun x hx => (hstands x hx).2,
        List.pairwise_map.1 hordered, hnodup, hsteps⟩

/-- The rows of a version lie apart in valid time. -/
theorem IsTold.pairwise_validTimes {p : Path} (h : IsTold d segments q w p shown) :
    ∀ x ∈ shown, x.rows.Pairwise fun r r' => r.validTo ≤ r'.validFrom := by
  intro x hx
  obtain ⟨steps, hsteps, hnil | heq⟩ := h.rows x hx
  · rw [hnil]
    exact .nil
  · rw [heq]
    exact Query.pairwise_rowsAgainst hsteps

/-- A task over ordered pages fails only if one of its pages cannot be loaded. -/
theorem exists_of_showings_error (h : ∀ s ∈ segments, s.IsOrderly d w)
    (ht : t.IsPlanned w segments) {failure : Failure}
    (hfails : showings d segments q t = .error failure) :
    ∃ r ∈ t.pages, (r.load d segments).result = .error failure := by
  rw [showings] at hfails
  cases hrows : sourceRows d segments t with
  | error f =>
    obtain rfl : f = failure := by simpa [hrows, bind, Except.bind] using hfails
    rw [sourceRows, Engine.result_mapM] at hrows
    simp only [result_load] at hrows
    cases hpages : t.pages.mapM fun r => (r.load d segments).result with
    | error g =>
      rw [hpages] at hrows
      obtain rfl := Except.error.inj hrows
      exact exists_of_mapM_error hpages
    | ok pages =>
      obtain ⟨merged, hmerged⟩ :=
        exists_mergeRows? (w := t.width segments) (p := t.path) pages (by
          rw [MergeTask.width_eq (fun s hs => (h s hs).width) ht.nonempty ht.named]
          exact ht.length_le)
      simp [hpages, hmerged, bind, Except.bind, pure, Except.pure] at hrows
  | ok rows =>
    obtain ⟨-, hordered, -⟩ := of_sourceRows h ht hrows
    obtain ⟨out, hout⟩ := (Query.exists_replay_iff (q := q) hordered.isGrouped).2 hordered
    rw [Query.replay, Replay.run_eq_showings] at hout
    cases hreplay : Replay.showings q {} rows with
    | error fault => simp [hreplay, Except.map] at hout
    | ok found => simp [hrows, hreplay, bind, Except.bind, Except.mapError] at hfails

/-- A scan whose first page cannot be loaded fails as the load does. -/
theorem result_collect_of_load_error {refs : List PageRef} {tasks : List MergeTask} {r : PageRef}
    {p : Path} {failure : Failure}
    (hplan : (Plan.ofQuery segments q).result = .ok (⟨p, r :: refs⟩ :: tasks))
    (hload : (r.load d segments).result = .error failure) :
    (Scan.collect d segments q).result = .error failure := by
  have hrows : sourceRows d segments ⟨p, r :: refs⟩ = .error failure := by
    rw [sourceRows, Engine.result_mapM, List.mapM_cons, result_load, hload]
    rfl
  have htask : (task d segments q ⟨p, r :: refs⟩).result = .error failure := by
    rw [result_task_eq_showings, showings, hrows]
    rfl
  rw [result_collect_of_plan hplan, List.mapM_cons, htask]
  rfl

end Scan

end Bitemporal
