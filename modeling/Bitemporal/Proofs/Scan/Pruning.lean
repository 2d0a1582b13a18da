import Mathlib
import Bitemporal.Proofs.Page.Summary
import Bitemporal.Proofs.Plan.Choice
import Bitemporal.Proofs.Scan.Collect

/-!
# Pruning by summaries

A page is left out for its bounds only if its versions are passed over, and for its content only if
it shares no entity with a page that stays. An entity without a version on a page that is relevant
has no document to show, so nothing is lost when its pages stay out.

## Main definitions

* `PageSummary.Guards`: a summary that a query may judge a page by.
* `Holding.IsGuarded`: all summaries of a segment are of this kind.

## Main statements

* `Holding.shown_filter`: pages whose versions of an entity are passed over may be left out.
* `Holding.isHarmless_chosen`: the choice of a plan does not show.
-/

namespace Bitemporal

open scoped Linear
open Plan (leavesAt verdictOf relevantOf stays mayShare)

variable {excuse : Prop} {d : Disk} {w : BucketWidth} {q : Query} {p : Path} {e : EntityId}

/-! ## Summaries -/

/-- The summary covers the rows of a page, and lets the page pass if one of its documents satisfies
the predicates. -/
structure PageSummary.Guards (q : Query) (s : PageSummary) (pg : Page) : Prop where
  words : s.entities.words ≠ []
  covers : ∀ f ∈ pg.rows, s.Covers f
  content : ∀ f ∈ pg.rows, (q.shownDoc? f).isSome → q.contentMayHold s

theorem PageSummary.Covers.passesOver {s : PageSummary} {f : Fact} (h : s.Covers f)
    (hout : s.overlaps q.bounds = false) : q.passesOver f := by
  have hsystem := h.systemFrom
  have hfrom := h.validFrom
  have hto := h.validTo
  simp only [overlaps, Bounds.knows, Window.intersects, Bool.or_eq_false_iff,
    Bool.and_eq_false_iff, decide_eq_false_iff_not, not_lt] at hout
  have herase : f.isErase = false := by
    by_contra hf
    simp [h.erase (by simpa using hf)] at hout
  simp only [Query.passesOver, herase, Bool.not_false, Bool.true_and, Bool.not_eq_true',
    Bounds.knows, Window.intersects, Bool.and_eq_false_iff, decide_eq_false_iff_not, not_lt]
  rcases hout.2 with hout | hout | hout
  · exact .inl (hout.trans hsystem)
  · exact .inr (.inl (hout.trans hfrom))
  · exact .inr (.inr (hto.trans hout))

theorem Selector.anyContained?_ne_false {b : Bloom} (he : b.Holds e) {ids : List EntityId}
    (hmem : e ∈ ids) : Selector.anyContained? b ids ≠ some false := by
  induction ids with
  | nil => cases hmem
  | cons x rest ih =>
    rw [anyContained?]
    rcases List.mem_cons.1 hmem with rfl | hmem
    · simp [show b.mightContain? e = some true from he]
    · split
      · simp
      · simp
      · exact ih hmem

theorem Query.relevant?_ne_false {s : PageSummary} (he : s.entities.Holds e) (h : q.selects e)
    (hoverlaps : s.overlaps q.bounds) : q.relevant? s ≠ some false := by
  rw [relevant?, if_pos hoverlaps]
  rw [selects] at h
  cases hselector : q.selector with
  | none => simp
  | some selector =>
    rw [hselector] at h
    exact Selector.anyContained?_ne_false he (by simpa [Selector.selects] using h)

/-- A page whose summary has a filter can be judged. -/
theorem Plan.isSome_judge? {segments : List Segment} {r : PageRef}
    (hwords : ∀ s, summary? segments r = some s → s.entities.words ≠ []) :
    (judge? segments q r).isSome := by
  rw [Option.isSome_iff_ne_none, Ne, judge?_eq_none_iff]
  rintro ⟨s, hs, -, hnil⟩
  exact hwords s hs hnil

namespace Holding

variable {holdings : List Holding} {refs : List PageRef}

/-- The summaries of a segment guard its pages. -/
def IsGuarded (q : Query) (x : Holding) : Prop :=
  ∀ i page s, x.pages[i]? = some page → x.segment.summary? i = some s → s.Guards q page

/-! ## Leaving pages out -/

/-- Parts that are empty may be left out of a concatenation. -/
theorem flatMap_filter_of_eq_nil {g : PageRef → List Fact} {k : PageRef → Bool}
    (h : ∀ r ∈ refs, ¬ k r → g r = []) : (refs.filter k).flatMap g = refs.flatMap g := by
  induction refs with
  | nil => rfl
  | cons r rest ih =>
    rw [List.forall_mem_cons] at h
    rw [List.flatMap_cons, ← ih h.2, List.filter_cons]
    split
    · rw [List.flatMap_cons]
    · rename_i hr
      rw [h.1 hr, List.nil_append]

/-- Pages whose versions of an entity are passed over may be left out. -/
theorem shown_filter (hw : q.bounds.valid.lower < q.bounds.valid.upper) {k : PageRef → Bool}
    (hk : ∀ r ∈ refs, ¬ k r → ∀ f ∈ rowsOf holdings r, f.entity = e → q.passesOver f) :
    q.shown (Fact.versions e (mergedAt holdings w p (refs.filter k))) =
      q.shown (Fact.versions e (mergedAt holdings w p refs)) := by
  have hfilter (rows : List Fact) : q.shown (rows.filter fun f => !q.passesOver f) =
      q.shown rows := by
    apply Query.shownFrom_filter hw Ledger.spans_empty
    intro f _ hf
    simpa using hf
  have hpage : ∀ r ∈ refs, ¬ k r → (Fact.versions e (Fact.under w p (rowsOf holdings r))).filter
      (fun f => !q.passesOver f) = [] := by
    intro r hr hout
    apply List.filter_eq_nil_iff.2
    intro f hf
    obtain ⟨hf, hentity⟩ := Fact.mem_versions.1 hf
    simpa using hk r hr hout f (List.mem_filter.1 hf).1 hentity
  have hsorted (rs : List PageRef) :
      (Fact.versions e (mergedAt holdings w p rs)).filter (fun f => !q.passesOver f) =
        Fact.sort (rs.flatMap fun r => (Fact.versions e (Fact.under w p
          (rowsOf holdings r))).filter fun f => !q.passesOver f) := by
    rw [mergedAt, Fact.versions_sort, Fact.filter_sort, Fact.versions, List.filter_flatMap,
      List.filter_flatMap]
    rfl
  rw [← hfilter, hsorted, flatMap_filter_of_eq_nil hpage, ← hsorted, hfilter]

/-- Pages without a version to show show nothing. -/
theorem shown_eq_nil (hw : q.bounds.valid.lower < q.bounds.valid.upper)
    (hnone : ∀ r ∈ refs, ∀ f ∈ rowsOf holdings r, f.entity = e →
      q.shownDoc? f = none ∨ q.passesOver f) :
    q.shown (Fact.versions e (mergedAt holdings w p refs)) = [] := by
  apply Query.shownFrom_eq_nil hw Ledger.spans_empty
  intro f hf
  obtain ⟨hf, hentity⟩ := Fact.mem_versions.1 hf
  obtain ⟨r, hr, hf⟩ := List.mem_flatMap.1 (Fact.mem_sort.1 hf)
  exact hnone r hr f (List.mem_filter.1 hf).1 hentity

/-! ## The choice of a plan -/

section

variable (h : ∀ x ∈ holdings, IsSound excuse d w x) (hguarded : ∀ x ∈ holdings, IsGuarded q x)
include h hguarded

/-- The summary of a page guards its rows. -/
theorem guards_of_mem {r : PageRef} (hr : r ∈ leavesAt (segments holdings) p) {s : PageSummary}
    (hs : Plan.summary? (segments holdings) r = some s) : s.Guards q ⟨rowsOf holdings r⟩ := by
  obtain ⟨x, page, hx, hpage, href⟩ := exists_page? h hr
  have hrows : (⟨rowsOf holdings r⟩ : Page) = page := by simp [rowsOf, href]
  rw [hrows]
  refine hguarded x (List.mem_of_getElem? hx) r.page page s hpage ?_
  simpa [Plan.summary?, segments, hx] using hs

/-- Every page can be judged. -/
theorem isSome_judge? {r : PageRef} (hr : r ∈ leavesAt (segments holdings) p) :
    (Plan.judge? (segments holdings) q r).isSome :=
  Plan.isSome_judge? fun _ hs => (guards_of_mem h hguarded hr hs).words

/-- On a page that is not relevant, the versions of a selected entity have no document to show or
are passed over. -/
theorem shownDoc?_or_passesOver {r : PageRef} (hr : r ∈ leavesAt (segments holdings) p)
    (hverdict : verdictOf (segments holdings) q r ≠ .relevant) (he : q.selects e) {f : Fact}
    (hf : f ∈ rowsOf holdings r) (hentity : f.entity = e) :
    (verdictOf (segments holdings) q r = .contentOnly ∧ q.shownDoc? f = none) ∨
      q.passesOver f := by
  rcases Plan.verdictOf_cases (segments holdings) q r with hrelevant | ⟨s, hs, hout⟩
  · exact absurd hrelevant hverdict
  have hguards := guards_of_mem h hguarded hr hs
  rcases hout with ⟨-, hirrelevant⟩ | ⟨hcontent, hfails⟩
  · refine .inr ((hguards.covers f hf).passesOver ?_)
    by_contra hoverlaps
    have hholds : s.entities.Holds e := hentity ▸ (hguards.covers f hf).entity
    exact Query.relevant?_ne_false hholds he (by simpa using hoverlaps) hirrelevant
  · refine .inl ⟨hcontent, ?_⟩
    by_contra hdoc
    rw [← Ne, ← Option.isSome_iff_ne_none] at hdoc
    simp [hguards.content f hf hdoc] at hfails

/-- A page that stays out for its content shares no entity with a relevant page. -/
theorem entity_ne_of_not_mayShare {relevant : List PageRef} {r r' : PageRef}
    (hr : r ∈ relevant) (hleaf : r ∈ leavesAt (segments holdings) p)
    (hleaf' : r' ∈ leavesAt (segments holdings) p)
    (hverdict : verdictOf (segments holdings) q r' = .contentOnly)
    (hout : mayShare (segments holdings) relevant r' = false) {f f' : Fact}
    (hf : f ∈ rowsOf holdings r) (hf' : f' ∈ rowsOf holdings r') : f.entity ≠ f'.entity := by
  intro hentity
  rcases Plan.verdictOf_cases (segments holdings) q r' with hrelevant | ⟨s, hs, -⟩
  · simp [hrelevant] at hverdict
  obtain ⟨o, ho, hapart⟩ := Plan.exists_of_not_mayShare hout hs hr
  have hholds := ((guards_of_mem h hguarded hleaf ho).covers f hf).entity
  have hholds' := ((guards_of_mem h hguarded hleaf' hs).covers f' hf').entity
  rw [← hentity] at hholds'
  simp [hholds.intersects hholds'] at hapart

/-- The choice of a plan does not show. -/
theorem isHarmless_chosen (hw : q.bounds.valid.lower < q.bounds.valid.upper) :
    IsHarmless q w holdings fun p =>
      Plan.chosen (segments holdings) q (leavesAt (segments holdings) p) where
  chosen p _ := Plan.choosePages_result fun _ hr => isSome_judge? h hguarded hr
  subset p _ hr := Plan.chosen_subset (Plan.pairwise_leavesAt _ _) hr
  shown p hp e he hselected := by
    rw [← versions_mergedAt_leavesAt h hp he]
    have hrefs := Plan.pairwise_leavesAt (segments holdings) p
    by_cases hshared : ∃ r ∈ relevantOf (segments holdings) q (leavesAt (segments holdings) p),
        ∃ f ∈ rowsOf holdings r, f.entity = e
    · obtain ⟨r, hr, f, hf, hentity⟩ := hshared
      rw [Plan.chosen_eq hrefs (List.ne_nil_of_mem hr)]
      apply shown_filter hw
      intro r' hr' hout f' hf' hentity'
      simp only [stays, Bool.or_eq_true, decide_eq_true_eq, Bool.and_eq_true, not_or, not_and,
        Bool.not_eq_true] at hout
      rcases shownDoc?_or_passesOver h hguarded hr' hout.1 hselected hf' hentity' with
        ⟨hcontent, -⟩ | hpasses
      · exact absurd (hentity.trans hentity'.symm) (entity_ne_of_not_mayShare h hguarded hr
          (List.mem_filter.1 hr).1 hr' hcontent (hout.2 hcontent) hf hf')
      · exact hpasses
    · have hnone : ∀ r ∈ leavesAt (segments holdings) p, ∀ f ∈ rowsOf holdings r, f.entity = e →
          q.shownDoc? f = none ∨ q.passesOver f := by
        intro r hr f hf hentity
        have hverdict : verdictOf (segments holdings) q r ≠ .relevant := fun hrelevant =>
          hshared ⟨r, List.mem_filter.2 ⟨hr, by simpa using hrelevant⟩, f, hf, hentity⟩
        exact (shownDoc?_or_passesOver h hguarded hr hverdict hselected hf hentity).imp_left
          And.right
      rw [shown_eq_nil hw hnone]
      exact shown_eq_nil hw fun r hr => hnone r (Plan.chosen_subset hrefs hr)

end

end Holding

end Bitemporal
