import Mathlib
import Bitemporal.Plan.Pruning
import Bitemporal.Proofs.Journal.Yields
import Bitemporal.Proofs.Plan.Walk
import Bitemporal.Proofs.Query.Selector

/-!
# The tasks of a plan

A plan succeeds if its condition has an answer for every path that fits an id and its choice has one
for the pages of every path where the walk may end. Its tasks are the visits where the walk ends and
some page is kept.

## Main definitions

* `Plan.taskFor`: the task of a visit.

## Main statements

* `Plan.of_mem_tasks`: a task ends the walk.
* `Plan.build_yields`: the tasks of a plan, and the paths that it asks for.
* `Plan.all_yields`: the tasks of a plan over every page.
-/

namespace Bitemporal.Plan

variable {excuse : Prop} {w : BucketWidth} {segments : List Segment}

/-- The task of a visit: the pages that are kept, if any. -/
def taskFor (kept : Path → List PageRef) (v : Visit) : Option MergeTask :=
  if v.pages.isSome ∧ kept v.path ≠ [] then some ⟨v.path, kept v.path⟩ else none

/-- A task ends the walk, with the pages that are kept at its path. -/
theorem of_mem_tasks (hheight : ∀ s ∈ segments, s.trie.root.height ≤ w.maxDepth)
    {accept : Path → Bool} {kept : Path → List PageRef} {t : MergeTask}
    (ht : t ∈ (visits w segments accept).filterMap (taskFor kept)) :
    EndsAt w segments t.path ∧ t = ⟨t.path, kept t.path⟩ ∧ kept t.path ≠ [] := by
  obtain ⟨v, hv, ht⟩ := List.mem_filterMap.1 ht
  rw [taskFor] at ht
  split_ifs at ht with hkept
  obtain rfl := Option.some_inj.1 ht
  obtain ⟨pages, hpages⟩ := Option.isSome_iff_exists.1 hkept.1
  exact ⟨((mem_visits hheight hv).2 pages hpages).2, rfl, hkept.2⟩

theorem commonWidth_eq (hwidth : ∀ s ∈ segments, s.width = w) (hne : segments ≠ []) :
    commonWidth segments = .ok w := by
  obtain - | ⟨first, rest⟩ := segments
  · exact absurd rfl hne
  · rw [List.forall_mem_cons] at hwidth
    have hrest : rest.find? (fun s => s.width ≠ first.width) = none := by
      refine List.find?_eq_none.2 fun s hs => ?_
      simp [hwidth.2 s hs, hwidth.1]
    rw [commonWidth, hrest]
    exact congrArg Except.ok hwidth.1

/-- A plan has the tasks of the walk, each with the pages that are kept, and asks for the paths of
the walk. -/
theorem build_yields (hwidth : ∀ s ∈ segments, s.width = w)
    (hheight : ∀ s ∈ segments, s.trie.root.height ≤ w.maxDepth)
    {accept : Path → Option Bool} {choose : List PageRef → Engine PageChoice}
    {kept : Path → List PageRef} (haccept : ∀ p, p.length ≤ w.maxDepth → ∃ b, accept p = some b)
    (hchoose : ∀ p, EndsAt w segments p →
      ∃ c, (choose (leavesAt segments p)).result = .ok c ∧ c.getD [] = kept p) :
    (build segments accept choose).Yields excuse
      ⟨(visits w segments fun p => (accept p).getD true).filterMap (taskFor kept),
        (visits w segments fun p => (accept p).getD true).map (·.path)⟩ := by
  by_cases hne : segments = []
  · subst hne
    exact .of_result rfl
  have htask : ∀ v ∈ visits w segments fun p => (accept p).getD true,
      (taskAt accept choose v).Yields excuse (taskFor kept v) := by
    intro v hv
    obtain ⟨hlength, hpages⟩ := mem_visits hheight hv
    obtain ⟨b, hb⟩ := haccept v.path hlength
    refine .of_result ?_
    rw [taskAt, hb, taskFor]
    cases hv : v.pages with
    | none => rfl
    | some pages =>
      obtain ⟨rfl, hends⟩ := hpages pages hv
      obtain ⟨c, hc, hgetD⟩ := hchoose v.path hends
      rw [Engine.result_bind, hc, ← hgetD]
      obtain - | - | ⟨r, rest⟩ := c <;> rfl
  rw [build, commonWidth_eq hwidth hne]
  refine .bind (.mapM htask) ?_
  simp only [List.filterMap_map, Function.id_comp]
  split
  · exact .bind (.of_result (Engine.result_log _)) (.pure _)
  · exact .pure _

/-! ## The condition of a query -/

theorem width_head (hwidth : ∀ s ∈ segments, s.width = w) (hne : segments ≠ []) :
    (segments.head?.map Segment.width).getD .two = w := by
  obtain - | ⟨s, rest⟩ := segments
  · exact absurd rfl hne
  · exact hwidth s (.head _)

/-- A query knows whether it asks for something under a path that fits an id. -/
theorem exists_asksUnder_eq (hwidth : ∀ s ∈ segments, s.width = w) (hne : segments ≠ [])
    (q : Query) {p : Path} (hp : p.length ≤ w.maxDepth) :
    ∃ b, asksUnder segments q p = some b := by
  rw [asksUnder, width_head hwidth hne]
  cases q.selector with
  | none => exact ⟨true, rfl⟩
  | some s => exact ⟨_, s.under?_eq hp⟩

/-! ## Every page -/

/-- The plan over every page. -/
theorem all_yields (hwidth : ∀ s ∈ segments, s.width = w)
    (hheight : ∀ s ∈ segments, s.trie.root.height ≤ w.maxDepth) :
    (all segments).Yields excuse
      ((visits w segments fun _ => true).filterMap (taskFor (leavesAt segments))) :=
  .bind (build_yields hwidth hheight (fun _ _ => ⟨true, rfl⟩) fun _ _ => ⟨_, rfl, rfl⟩) (.pure _)

end Bitemporal.Plan
