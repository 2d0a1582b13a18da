import Mathlib
import Bitemporal.Proofs.Merge.Rows
import Bitemporal.Proofs.Plan.Build
import Bitemporal.Proofs.Scan.Replay
import Bitemporal.Proofs.Segment.Holding
import Bitemporal.Scan.Cursor

/-!
# Collecting a scan

The tasks of a query cover the selected entities in ascending order, and each task merges the rows
that its pages have under its path. Whatever pages are left out, the rows of a scan are therefore
what the histories of all facts show, as long as what is left out does not show.

## Main definitions

* `Holding.mergedAt`: the merged rows of some pages under a path.
* `Holding.IsHarmless`: a choice of pages that does not show.

## Main statements

* `Holding.task_yields`: the rows of a task.
* `Holding.plan_yields`: the tasks of a query.
* `Holding.collect_yields`: the rows of a scan.
-/

namespace Bitemporal

open scoped Linear
open Plan (partsAt leavesAt taskFor)

variable {excuse : Prop} {d : Disk} {w : BucketWidth} {q : Query} {p : Path}
  {holdings : List Holding}

/-- The width of a task is that of the segments that its pages are from. -/
theorem MergeTask.width_eq {segments : List Segment} {t : MergeTask}
    (hwidth : ∀ s ∈ segments, s.width = w) (hne : t.pages ≠ [])
    (hnamed : ∀ r ∈ t.pages, r.segment < segments.length) : t.width segments = w := by
  have hlast := List.getLast?_eq_some_getLast hne
  have hlt := hnamed _ (List.getLast_mem hne)
  simp only [width, hlast, Option.bind_some, List.getElem?_eq_getElem hlt]
  exact hwidth _ (List.getElem_mem hlt)

namespace Holding

theorem width_eq (h : ∀ x ∈ holdings, IsSound excuse d w x) :
    ∀ s ∈ segments holdings, s.width = w := by
  intro s hs
  obtain ⟨x, hx, rfl⟩ := List.mem_map.1 hs
  exact (h x hx).width

/-! ## Tasks -/

/-- The merged rows of some pages under a path. -/
def mergedAt (holdings : List Holding) (w : BucketWidth) (p : Path) (refs : List PageRef) :
    List Fact :=
  Fact.sort (refs.flatMap fun r => Fact.under w p (rowsOf holdings r))

@[simp] theorem mergedAt_nil : mergedAt holdings w p [] = [] := by simp [mergedAt, Fact.sort]

theorem isUnder_of_mem_mergedAt {refs : List PageRef} {f : Fact}
    (hf : f ∈ mergedAt holdings w p refs) : f.entity.isUnder w p := by
  obtain ⟨r, -, hf⟩ := List.mem_flatMap.1 (Fact.mem_sort.1 hf)
  exact (List.mem_filter.1 hf).2

theorem mem_facts_of_mem_mergedAt (h : ∀ x ∈ holdings, IsSound excuse d w x)
    {refs : List PageRef} {f : Fact} (hf : f ∈ mergedAt holdings w p refs) :
    f ∈ facts holdings := by
  obtain ⟨r, -, hf⟩ := List.mem_flatMap.1 (Fact.mem_sort.1 hf)
  exact rowsOf_subset h (List.mem_filter.1 hf).1

/-- Loading the page of a leaf. -/
theorem load_yields (h : ∀ x ∈ holdings, IsSound excuse d w x) {r : PageRef}
    (hr : r ∈ leavesAt (segments holdings) p) :
    (r.load d (segments holdings)).Yields excuse ⟨rowsOf holdings r⟩ := by
  obtain ⟨x, page, hx, hpage, href⟩ := exists_page? h hr
  have hrows : (⟨rowsOf holdings r⟩ : Page) = page := by simp [rowsOf, href]
  rw [PageRef.load, segments, List.getElem?_map, hx, hrows]
  exact (h x (List.mem_of_getElem? hx)).loads _ _ hpage

/-- The rows of a task, from its pages. -/
theorem rows_yields (h : ∀ x ∈ holdings, IsSound excuse d w x) (hp : p.length ≤ w.maxDepth)
    {refs : List PageRef} (hne : refs ≠ [])
    (hrefs : ∀ r ∈ refs, r ∈ leavesAt (segments holdings) p) :
    (MergeTask.rows (segments holdings) ⟨p, refs⟩
      (refs.map fun r => ⟨rowsOf holdings r⟩)).Yields excuse (mergedAt holdings w p refs) := by
  have hwidth : MergeTask.width (segments holdings) ⟨p, refs⟩ = w := by
    refine MergeTask.width_eq (width_eq h) hne fun r hr => ?_
    obtain ⟨x, -, hx, -⟩ := exists_page? h (hrefs r hr)
    simpa [segments] using (List.getElem?_eq_some_iff.1 hx).1
  have hordered : ∀ page ∈ refs.map fun r => (⟨rowsOf holdings r⟩ : Page),
      Fact.IsOrdered page.rows := by
    intro page hpage
    obtain ⟨r, hr, rfl⟩ := List.mem_map.1 hpage
    obtain ⟨x, page, hx, hpage, href⟩ := exists_page? h (hrefs r hr)
    have hsound := h x (List.mem_of_getElem? hx)
    simpa [rowsOf, href] using hsound.divides.ordered hsound.ordered (List.mem_of_getElem? hpage)
  obtain ⟨merged, hmerged, hfacts⟩ := Option.map_eq_some_iff.1 (mergeRows?_eq hordered hp)
  refine .of_result ?_
  rw [MergeTask.rows, hwidth, hmerged, Engine.result_pure, hfacts, List.flatMap_map, mergedAt]

/-- A task shows what the histories of its merged rows show. -/
theorem task_yields (h : ∀ x ∈ holdings, IsSound excuse d w x) (hp : p.length ≤ w.maxDepth)
    {refs : List PageRef} (hne : refs ≠ [])
    (hrefs : ∀ r ∈ refs, r ∈ leavesAt (segments holdings) p) {ids : List EntityId}
    (hids : ids.Pairwise (· < ·))
    (hmem : ∀ f ∈ mergedAt holdings w p refs, f.entity ∈ ids) :
    (Scan.task d (segments holdings) q ⟨p, refs⟩).Yields excuse
      (q.answer ids (mergedAt holdings w p refs)) := by
  have hreplay := Query.replay_eq (q := q) (Fact.isOrdered_sort _) hids hmem
  have hload : ∀ r ∈ refs, (Scan.load d (segments holdings) r).Yields excuse ⟨rowsOf holdings r⟩ :=
    fun r hr => (load_yields h (hrefs r hr)).bind
      (.bind (.of_result (Engine.result_count _)) (.pure _))
  have hmerged : (Scan.merged d (segments holdings) ⟨p, refs⟩).Yields excuse
      (mergedAt holdings w p refs) := .bind (.mapM hload) (rows_yields h hp hne hrefs)
  have hreport : (Scan.report ⟨p, refs⟩ (q.replay (mergedAt holdings w p refs))).Yields excuse
      (q.answer ids (mergedAt holdings w p refs)) := by
    rw [mergedAt, hreplay]
    exact .of_result rfl
  exact (hmerged.bind hreport).congr (Scan.result_task_eq _)

/-! ## The walk -/

/-- The entities of all facts. -/
def entities (holdings : List Holding) : List EntityId :=
  Fact.entities (Fact.sort (facts holdings))

theorem pairwise_entities (holdings : List Holding) : (entities holdings).Pairwise (· < ·) :=
  (Fact.isOrdered_sort _).pairwise_entities

theorem mem_entities {e : EntityId} :
    e ∈ entities holdings ↔ ∃ f ∈ facts holdings, f.entity = e := by
  simp [entities, Fact.mem_entities, Fact.mem_sort]

theorem isRegular (h : ∀ x ∈ holdings, IsSound excuse d w x) :
    ∀ s ∈ segments holdings, s.trie.root.IsRegular w w.maxDepth := by
  intro s hs
  obtain ⟨x, hx, rfl⟩ := List.mem_map.1 hs
  have hregular := (h x hx).divides.regular
  rwa [HashTrie.IsRegular, show x.segment.trie.width = w from (h x hx).width] at hregular

theorem height_le (h : ∀ x ∈ holdings, IsSound excuse d w x) :
    ∀ s ∈ segments holdings, s.trie.root.height ≤ w.maxDepth :=
  fun s hs => (isRegular h s hs).height_le

theorem endsAt_of_mem_visits (h : ∀ x ∈ holdings, IsSound excuse d w x) {accept : Path → Bool}
    {v : Plan.Visit} (hv : v ∈ Plan.visits w (segments holdings) accept)
    (hpages : v.pages.isSome) : Plan.EndsAt w (segments holdings) v.path := by
  obtain ⟨pages, hpages⟩ := Option.isSome_iff_exists.1 hpages
  exact ((Plan.mem_visits (height_le h) hv).2 pages hpages).2

/-- The walk covers entities of the facts in order, if it goes on at all of their paths. -/
theorem flatMap_covered (h : ∀ x ∈ holdings, IsSound excuse d w x) {accept : Path → Bool}
    {ids : List EntityId} (hids : ids.Pairwise (· < ·)) (hmem : ∀ e ∈ ids, e ∈ entities holdings)
    (haccept : ∀ e ∈ ids, ∀ p, e.isUnder w p → accept p) :
    (Plan.visits w (segments holdings) accept).flatMap (Plan.Visit.covered w ids) = ids := by
  apply Plan.flatMap_covered_visits hids (isRegular h) haccept
  intro e he p hp hnone
  obtain ⟨f, hf, rfl⟩ := mem_entities.1 (hmem e he)
  exact Fact.under_eq_nil_iff.1 (under_facts_eq_nil h hnone) f hf hp

/-! ## The plan of a query -/

/-- The plan keeps some of the pages where its walk ends, and leaving out the others does not
show. -/
structure IsHarmless (q : Query) (w : BucketWidth) (holdings : List Holding)
    (kept : Path → List PageRef) : Prop where
  chosen : ∀ p, Plan.EndsAt w (segments holdings) p →
    ∃ c, (Plan.choosePages (segments holdings) q (leavesAt (segments holdings) p)).result = .ok c ∧
      c.getD [] = kept p
  subset : ∀ p, ∀ r ∈ kept p, r ∈ leavesAt (segments holdings) p
  shown : ∀ p, Plan.EndsAt w (segments holdings) p → ∀ e, e.isUnder w p → q.selects e →
    q.shown (Fact.versions e (mergedAt holdings w p (kept p))) =
      q.shown (Fact.versions e (Fact.sort (facts holdings)))

/-- Whether the plan of a query goes on at a path. -/
def goesOn (q : Query) (holdings : List Holding) (p : Path) : Bool :=
  (Plan.asksUnder (segments holdings) q p).getD true

theorem segments_ne_nil (hne : holdings ≠ []) : segments holdings ≠ [] := by
  simpa [segments] using hne

/-- The plan goes on at every path of a selected entity. -/
theorem goesOn_of_selects (h : ∀ x ∈ holdings, IsSound excuse d w x) (hne : holdings ≠ [])
    {e : EntityId} (he : q.selects e) (hp : e.isUnder w p) : goesOn q holdings p := by
  rw [goesOn, Plan.asksUnder, Plan.width_head (width_eq h) (segments_ne_nil hne)]
  rw [Query.selects] at he
  cases hselector : q.selector with
  | none => rfl
  | some s =>
    rw [hselector] at he
    simp only [Selector.under?_of_selects he hp, Option.getD_some]

/-- The tasks of a query are those of the walk, each with the pages that are kept. -/
theorem plan_yields (h : ∀ x ∈ holdings, IsSound excuse d w x) (hne : holdings ≠ [])
    {kept : Path → List PageRef} (hkept : IsHarmless q w holdings kept) :
    (Plan.ofQuery (segments holdings) q).Yields excuse
      ((Plan.visits w (segments holdings) (goesOn q holdings)).filterMap (taskFor kept)) := by
  refine .bind (Plan.build_yields (width_eq h) (height_le h)
    (fun _ => Plan.exists_asksUnder_eq (width_eq h) (segments_ne_nil hne) q) hkept.chosen) ?_
  exact .bind (.of_result (Engine.result_count _)) (.pure _)

/-! ## The scan -/

/-- What some tasks show, from what each of them shows by itself. -/
theorem mapM_task_yields {segments : List Segment} {tasks : List MergeTask}
    {g : MergeTask → List OutputRow}
    (h : ∀ t ∈ tasks, (Scan.task d segments q t).Yields excuse (g t)) :
    (tasks.mapM fun t => (Scan.task d segments q t).result) = .ok (tasks.map g) ∨
      excuse ∧ ∃ f, (tasks.mapM fun t => (Scan.task d segments q t).result) = .error f := by
  induction tasks with
  | nil => exact .inl rfl
  | cons t rest ih =>
    rw [List.forall_mem_cons] at h
    rw [List.mapM_cons]
    rcases h.1 with ht | ⟨hexcuse, f, ht⟩ <;> rw [ht]
    · rcases ih h.2 with hrest | ⟨hexcuse, f, hrest⟩ <;> rw [hrest]
      · exact .inl rfl
      · exact .inr ⟨hexcuse, f, rfl⟩
    · exact .inr ⟨hexcuse, f, rfl⟩

/-- What a task is to show: the histories of the entities under its path. -/
def taskAnswer (q : Query) (w : BucketWidth) (holdings : List Holding) (t : MergeTask) :
    List OutputRow :=
  q.answer ((entities holdings).filter (EntityId.isUnder w t.path))
    (mergedAt holdings w t.path t.pages)

/-- A visit shows what the histories of the entities that it covers show. -/
theorem flatMap_taskAnswer {kept : Path → List PageRef} (hkept : IsHarmless q w holdings kept)
    {v : Plan.Visit} (hv : v.pages.isSome → Plan.EndsAt w (segments holdings) v.path) :
    (taskFor kept v).toList.flatMap (taskAnswer q w holdings) =
      (v.covered w ((entities holdings).filter q.selects)).flatMap fun e =>
        q.shown (Fact.versions e (Fact.sort (facts holdings))) := by
  rw [taskFor, Plan.Visit.covered]
  by_cases hpages : v.pages.isSome
  swap
  · simp [hpages]
  have hshown := hkept.shown v.path (hv hpages)
  have hselected {e : EntityId} (he : e ∈ ((entities holdings).filter q.selects).filter
      (EntityId.isUnder w v.path)) : e.isUnder w v.path ∧ q.selects e := by
    simp only [List.mem_filter] at he
    exact ⟨he.2, he.1.2⟩
  rw [if_pos hpages]
  by_cases hnone : kept v.path = []
  · rw [if_neg fun hc => hc.2 hnone, Option.toList_none, List.flatMap_nil, eq_comm,
      List.flatMap_eq_nil_iff]
    intro e he
    have := hshown e (hselected he).1 (hselected he).2
    rw [hnone, mergedAt_nil] at this
    exact this.symm
  · rw [if_pos ⟨hpages, hnone⟩, Option.toList_some, List.flatMap_singleton, taskAnswer,
      Query.answer_eq_flatMap, List.filter_comm]
    exact List.flatMap_congr fun e he => hshown e (hselected he).1 (hselected he).2

/-- The rows of a scan are what the histories of all facts show, if the pages that are left out do
not show. -/
theorem collect_yields (h : ∀ x ∈ holdings, IsSound excuse d w x) {kept : Path → List PageRef}
    (hkept : IsHarmless q w holdings kept) :
    (Scan.collect d (segments holdings) q).Yields excuse (q.answerAll (facts holdings)) := by
  by_cases hne : holdings = []
  · subst hne
    have hanswer : q.answerAll (facts []) = [] := by
      simp [Query.answerAll, facts, Fact.sort, Fact.entities, Query.answer]
    rw [hanswer]
    exact .of_result rfl
  have htasks : ∀ t ∈ (Plan.visits w (segments holdings) (goesOn q holdings)).filterMap
      (taskFor kept), (Scan.task d (segments holdings) q t).Yields excuse
        (taskAnswer q w holdings t) := by
    intro t ht
    obtain ⟨hends, htask, hkeeps⟩ := Plan.of_mem_tasks (height_le h) ht
    rw [htask]
    refine task_yields h hends.length_le hkeeps (hkept.subset _)
      ((pairwise_entities holdings).filter _) fun f hf => ?_
    exact List.mem_filter.2 ⟨mem_entities.2 ⟨f, mem_facts_of_mem_mergedAt h hf, rfl⟩,
      isUnder_of_mem_mergedAt hf⟩
  have hcover := flatMap_covered h ((pairwise_entities holdings).filter q.selects)
    (fun e he => (List.mem_filter.1 he).1)
    fun e he p hp => goesOn_of_selects h hne (List.mem_filter.1 he).2 hp
  have hanswer : ((Plan.visits w (segments holdings) (goesOn q holdings)).filterMap
      (taskFor kept)).flatMap (taskAnswer q w holdings) = q.answerAll (facts holdings) := by
    rw [Query.answerAll, Query.answer_eq_flatMap, ← entities, ← hcover, List.flatMap_assoc,
      List.filterMap_eq_flatMap_toList, List.flatMap_assoc]
    exact List.flatMap_congr fun v hv => flatMap_taskAnswer hkept (endsAt_of_mem_visits h hv)
  refine .bind (.bind (plan_yields h hne hkept) (.pure _)) ?_
  rw [Engine.Yields, Cursor.result_collect (by rfl)]
  rcases mapM_task_yields htasks with hrows | ⟨hexcuse, f, hrows⟩
  · rw [← hanswer, List.flatMap_def]
    exact .inl (congrArg (Except.map List.flatten) hrows)
  · exact .inr ⟨hexcuse, f, congrArg (Except.map List.flatten) hrows⟩

/-! ## Keeping every page -/

/-- All pages of the leaves that a path leads to show what all facts do. -/
theorem versions_mergedAt_leavesAt (h : ∀ x ∈ holdings, IsSound excuse d w x)
    (hp : Plan.EndsAt w (segments holdings) p) {e : EntityId} (he : e.isUnder w p) :
    Fact.versions e (mergedAt holdings w p (leavesAt (segments holdings) p)) =
      Fact.versions e (Fact.sort (facts holdings)) := by
  rw [mergedAt, ← under_facts h hp.isLeaf, Fact.versions_sort, Fact.versions_sort, Fact.versions,
    Fact.under, List.filter_filter, Fact.versions]
  congr 1
  apply List.filter_congr
  intro f _
  by_cases hf : f.entity = e
  · simp [hf, he]
  · simp [hf]

end Holding

end Bitemporal
