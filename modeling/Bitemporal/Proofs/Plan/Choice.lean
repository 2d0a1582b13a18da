import Mathlib
import Bitemporal.Plan.Pruning
import Bitemporal.Proofs.Journal.Yields
import Bitemporal.Proofs.Page.Probes
import Bitemporal.Proofs.Plan.Walk

/-!
# The choice among the pages of a task

Every page has a verdict. The pages that stay are, in the order of their segments, those that are
relevant and those that may share an entity with one of these.

## Main definitions

* `Plan.verdictOf`: the verdict on a page.
* `Plan.chosen`: the pages that stay.

## Main statements

* `Plan.choosePages_result`: the choice of a plan.
* `Plan.chosen_eq`: which pages stay.
* `Plan.choosePages_relevant`, `Plan.choosePages_memory`: relevant pages, and pages in memory, all
  stay.
-/

namespace Bitemporal.Plan

variable {segments : List Segment} {q : Query} {refs : List PageRef} {p : Path}

theorem pairwise_leavesAt (segments : List Segment) (p : Path) :
    (leavesAt segments p).Pairwise (·.segment < ·.segment) := by
  have hparts : (partsAt segments p).Pairwise (·.segment < ·.segment) := by
    refine List.Pairwise.filter _ (List.pairwise_map.2 ?_)
    rw [← List.pairwise_map (f := Prod.snd), List.zipIdx_map_snd]
    exact List.pairwise_lt_range'
  have hpage {part : Part} {r : PageRef} (h : part.page? = some r) : r.segment = part.segment := by
    rw [Part.page?] at h
    split at h
    · exact (Option.some_inj.1 h) ▸ rfl
    · cases h
  refine List.Pairwise.filterMap _ ?_ hparts
  intro a b hab r hr r' hr'
  rwa [hpage hr, hpage hr']

/-- Nothing is known of pages in memory. -/
theorem summary?_eq_none (h : ∀ s ∈ segments, ∃ m, s = .memory m) (r : PageRef) :
    summary? segments r = none := by
  rw [summary?]
  cases hs : segments[r.segment]? with
  | none => rfl
  | some s =>
    obtain ⟨m, rfl⟩ := h s (List.mem_of_getElem? hs)
    rfl

/-- There is no verdict on a page exactly if it has a filter without words that is asked. -/
theorem judge?_eq_none_iff {r : PageRef} : judge? segments q r = none ↔
    ∃ s, summary? segments r = some s ∧ q.Asks s ∧ s.entities.words = [] := by
  rw [judge?]
  cases summary? segments r with
  | none => simp
  | some s => simp [Query.relevant?_eq_none_iff]

/-- The verdict on a page. -/
def verdictOf (segments : List Segment) (q : Query) (r : PageRef) : Verdict :=
  (judge? segments q r).getD .relevant

theorem verdictOf_cases (segments : List Segment) (q : Query) (r : PageRef) :
    verdictOf segments q r = .relevant ∨
      ∃ s, summary? segments r = some s ∧
        (verdictOf segments q r = .irrelevant ∧ q.relevant? s = some false ∨
          verdictOf segments q r = .contentOnly ∧ q.contentMayHold s = false) := by
  rw [verdictOf, judge?]
  cases summary? segments r with
  | none => exact .inl rfl
  | some s =>
    cases hrelevant : q.relevant? s with
    | none => exact .inl (by simp [hrelevant])
    | some b =>
      cases b with
      | false => exact .inr ⟨s, rfl, .inl ⟨by simp [hrelevant], hrelevant⟩⟩
      | true =>
        cases hcontent : q.contentMayHold s with
        | false => exact .inr ⟨s, rfl, .inr ⟨by simp [hrelevant, hcontent], hcontent⟩⟩
        | true => exact .inl (by simp [hrelevant, hcontent])

/-- The pages that are relevant. -/
def relevantOf (segments : List Segment) (q : Query) (refs : List PageRef) : List PageRef :=
  refs.filter fun r => verdictOf segments q r = .relevant

/-- The pages that stay. -/
def chosen (segments : List Segment) (q : Query) (refs : List PageRef) : List PageRef :=
  ((choiceOf segments (refs.map fun r => (r, verdictOf segments q r))).1).getD []

theorem leaveOut_yields (reason : PruneReason) (r : PageRef) :
    (leaveOut segments reason r).Yields False () :=
  .bind (.of_result (Engine.result_log _)) (.of_result (Engine.result_count _))

theorem forM_leaveOut_yields (reason : PruneReason) (refs : List PageRef) :
    (refs.forM (leaveOut segments reason)).Yields False () := by
  induction refs with
  | nil => exact .pure _
  | cons r refs ih => exact .bind (leaveOut_yields _ r) ih

/-- Where every page can be judged, there is a choice. -/
theorem choosePages_result (h : ∀ r ∈ refs, (judge? segments q r).isSome) :
    ∃ c, (choosePages segments q refs).result = .ok c ∧ c.getD [] = chosen segments q refs := by
  have hjudge : ∀ r ∈ refs, (judge segments q r).Yields False (r, verdictOf segments q r) := by
    intro r hr
    obtain ⟨v, hv⟩ := Option.isSome_iff_exists.1 (h r hr)
    rw [judge, verdictOf, hv]
    dsimp only [Option.getD_some]
    split
    · exact .bind (leaveOut_yields _ r) (.pure _)
    · exact .pure _
  refine ⟨(choiceOf segments (refs.map fun r => (r, verdictOf segments q r))).1, ?_, rfl⟩
  refine Engine.Yields.result (.bind (.mapM hjudge) ?_)
  exact .bind (forM_leaveOut_yields _ _) (.pure _)

theorem judged_map (v : Verdict) : judged v (refs.map fun r => (r, verdictOf segments q r)) =
    refs.filter fun r => verdictOf segments q r = v := by
  simp [judged, List.filter_map, Function.comp_def]

/-- Whether a page stays beside relevant ones. -/
def stays (segments : List Segment) (q : Query) (relevant : List PageRef) (r : PageRef) : Bool :=
  verdictOf segments q r = .relevant ||
    (verdictOf segments q r = .contentOnly && mayShare segments relevant r)

/-- A page that shares no entity with relevant ones has a filter apart from each of theirs. -/
theorem exists_of_not_mayShare {relevant : List PageRef} {r r' : PageRef} {s : PageSummary}
    (h : mayShare segments relevant r = false) (hs : summary? segments r = some s)
    (hr' : r' ∈ relevant) :
    ∃ o, summary? segments r' = some o ∧ o.entities.intersects s.entities = false := by
  have hmem {others : List PageSummary}
      (hothers : relevant.mapM (summary? segments) = some others) :
      ∃ o ∈ others, summary? segments r' = some o := by
    clear h
    induction relevant generalizing others with
    | nil => cases hr'
    | cons x rest ih =>
      simp only [List.mapM_cons, bind, Option.bind_eq_some_iff, pure, Option.some_inj] at hothers
      obtain ⟨o, ho, os, hos, rfl⟩ := hothers
      rcases List.mem_cons.1 hr' with rfl | hr'
      · exact ⟨o, .head _, ho⟩
      · obtain ⟨o', ho', heq⟩ := ih hr' hos
        exact ⟨o', .tail _ ho', heq⟩
  rw [mayShare, hs] at h
  cases hothers : relevant.mapM (summary? segments) with
  | none => simp [hothers] at h
  | some others =>
    obtain ⟨o, ho, heq⟩ := hmem hothers
    simp only [hothers, List.any_eq_false] at h
    exact ⟨o, heq, by simpa using h o ho⟩

theorem filter_contentOnly (relevant : List PageRef) :
    (refs.filter fun r => verdictOf segments q r = .contentOnly).filter
      (mayShare segments relevant) =
    (refs.filter (stays segments q relevant)).filter
      fun r => !decide (verdictOf segments q r = .relevant) := by
  rw [List.filter_filter, List.filter_filter]
  apply List.filter_congr
  intro r _
  rw [stays]
  cases verdictOf segments q r <;> simp

theorem filter_relevant (relevant : List PageRef) :
    relevantOf segments q refs = (refs.filter (stays segments q relevant)).filter
      fun r => verdictOf segments q r = .relevant := by
  rw [relevantOf, List.filter_filter]
  apply List.filter_congr
  intro r _
  rw [stays]
  cases verdictOf segments q r <;> simp

/-- Pages of different segments are put back in their order. -/
theorem mergeSort_eq_filter (hrefs : refs.Pairwise (·.segment < ·.segment))
    (relevant : List PageRef) :
    (relevantOf segments q refs ++
      (refs.filter fun r => verdictOf segments q r = .contentOnly).filter
        (mayShare segments relevant)).mergeSort (fun a b => a.segment ≤ b.segment) =
      refs.filter (stays segments q relevant) := by
  have hperm : ((relevantOf segments q refs ++
      (refs.filter fun r => verdictOf segments q r = .contentOnly).filter
        (mayShare segments relevant)).mergeSort fun a b => a.segment ≤ b.segment).Perm
      (refs.filter (stays segments q relevant)) := by
    rw [filter_contentOnly, filter_relevant relevant]
    exact (List.mergeSort_perm _ _).trans (List.filter_append_perm _ _)
  have hkept := hrefs.filter (stays segments q relevant)
  have hinj : ((refs.filter (stays segments q relevant)).map (·.segment)).Nodup :=
    List.pairwise_map.2 (hkept.imp fun h => h.ne)
  refine List.Perm.eq_of_pairwise ?_ (List.pairwise_mergeSort ?_ ?_ _)
    (hkept.imp fun h => by simpa using h.le) hperm
  · intro a b ha hb hab hba
    refine List.inj_on_of_nodup_map hinj (hperm.mem_iff.1 ha) hb ?_
    exact Nat.le_antisymm (of_decide_eq_true hab) (of_decide_eq_true hba)
  · intro a b c hab hbc
    simp only [decide_eq_true_eq] at hab hbc ⊢
    omega
  · intro a b
    simp only [Bool.or_eq_true, decide_eq_true_eq]
    omega

/-- The pages that stay are those of `refs` that are relevant, and those that may share an entity
with one that is. -/
theorem chosen_eq (hrefs : refs.Pairwise (·.segment < ·.segment))
    (hne : relevantOf segments q refs ≠ []) :
    chosen segments q refs = refs.filter (stays segments q (relevantOf segments q refs)) := by
  rw [← mergeSort_eq_filter hrefs, chosen, choiceOf, judged_map, judged_map, ← relevantOf]
  simp only [List.isEmpty_iff, hne, if_false, List.partition_eq_filter_filter]
  split
  · rename_i hrest
    rw [hrest, List.filter_nil, List.append_nil]
    exact (List.mergeSort_of_pairwise ((hrefs.filter _).imp fun h => by simpa using h.le)).symm
  · rfl

theorem chosen_eq_nil (hnone : relevantOf segments q refs = []) :
    chosen segments q refs = [] := by
  rw [chosen, choiceOf, judged_map, ← relevantOf, hnone]
  rfl

/-- All pages stay where all are relevant. -/
theorem chosen_eq_self (hrefs : refs.Pairwise (·.segment < ·.segment))
    (h : ∀ r ∈ refs, verdictOf segments q r = .relevant) : chosen segments q refs = refs := by
  have hrelevant : relevantOf segments q refs = refs :=
    List.filter_eq_self.2 fun r hr => by simp [h r hr]
  by_cases hne : refs = []
  · rw [chosen_eq_nil (hrelevant.trans hne), hne]
  · rw [chosen_eq hrefs (by rwa [hrelevant])]
    exact List.filter_eq_self.2 fun r hr => by simp [stays, h r hr]

theorem choosePages_relevant (hrefs : refs.Pairwise (·.segment < ·.segment))
    (h : ∀ r ∈ refs, judge? segments q r = some .relevant) :
    ∃ c, (choosePages segments q refs).result = .ok c ∧ c.getD [] = refs := by
  obtain ⟨c, hc, hpages⟩ := choosePages_result fun r hr => by rw [h r hr]; rfl
  refine ⟨c, hc, hpages.trans (chosen_eq_self hrefs fun r hr => ?_)⟩
  rw [verdictOf, h r hr]
  rfl

/-- Pages in memory all stay, whatever is asked. -/
theorem choosePages_memory (h : ∀ s ∈ segments, ∃ m, s = .memory m) (q : Query) (p : Path) :
    ∃ c, (choosePages segments q (leavesAt segments p)).result = .ok c ∧
      c.getD [] = leavesAt segments p :=
  choosePages_relevant (pairwise_leavesAt _ p) fun r _ => by rw [judge?, summary?_eq_none h]

theorem chosen_subset (hrefs : refs.Pairwise (·.segment < ·.segment)) {r : PageRef}
    (hr : r ∈ chosen segments q refs) : r ∈ refs := by
  by_cases hne : relevantOf segments q refs = []
  · rw [chosen_eq_nil hne] at hr
    cases hr
  · rw [chosen_eq hrefs hne] at hr
    exact (List.mem_filter.1 hr).1

end Bitemporal.Plan
