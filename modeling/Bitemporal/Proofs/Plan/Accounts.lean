import Mathlib
import Bitemporal.Plan.Pruning
import Bitemporal.Proofs.Journal.Counts
import Bitemporal.Proofs.Journal.Yields
import Bitemporal.Proofs.Scan.Showings

/-!
# The pages that a plan accounts for

Each page that a walk offers to a task is kept in the task or counted as left out: by its bounds, by
its content, or because its task is dropped as a whole. So the pages of a plan and those that it
left out are together those of the plan over every page under the same condition.

## Main definitions

* `Plan.pageCount`: the pages of tasks, each as often as a task has it.

## Main statements

* `Plan.choosePages_accounts`: the choice among the pages of a task accounts for all of them.
* `Plan.build_accounts`: a plan accounts for the pages that its walk offers.
* `Plan.ofQuery_accounts`: a query's plan accounts for the pages of the plan over every page.
-/

namespace Bitemporal.Plan

open scoped Counting

variable {segments : List Segment} {q : Query} {w : BucketWidth} {accept : Path → Option Bool}
  {choose : List PageRef → Engine PageChoice}

/-! ## The choice among the pages of a task -/

theorem leaveOut_accounts (segments : List Segment) (reason : PruneReason) (r : PageRef) :
    (leaveOut segments reason r).Accounts 1 fun _ => 0 :=
  fun _ _ => ⟨1, rfl, rfl⟩

theorem forM_leaveOut_accounts (segments : List Segment) (reason : PruneReason)
    (refs : List PageRef) :
    (refs.forM (leaveOut segments reason)).Accounts refs.length fun _ => 0 := by
  induction refs with
  | nil => exact .pure rfl
  | cons r refs ih =>
    have hfirst := (leaveOut_accounts segments reason r).add refs.length
    rw [Nat.zero_add] at hfirst
    rw [List.length_cons, Nat.add_comm]
    exact hfirst.bind fun _ _ => ih

/-- The pages of a verdict that are not left out with it. -/
def Verdict.left (v : Verdict) : Nat := if v = .irrelevant then 0 else 1

theorem judge_accounts (r : PageRef) :
    (judge segments q r).Accounts 1 fun x => x.2.left := by
  rw [judge]
  cases judge? segments q r with
  | none => exact .of_error rfl
  | some v =>
    cases v with
    | irrelevant => exact (leaveOut_accounts segments .bounds r).bind fun _ _ => .pure rfl
    | relevant => exact .pure rfl
    | contentOnly => exact .pure rfl

/-- What is judged stays, is left out for its content, or was left out at once. -/
theorem length_choiceOf (verdicts : List (PageRef × Verdict)) :
    ((choiceOf segments verdicts).1.getD []).length + (choiceOf segments verdicts).2.length =
      (verdicts.map fun x => x.2.left).sum := by
  have hleft : (judged .relevant verdicts).length + (judged .contentOnly verdicts).length =
      (verdicts.map fun x => x.2.left).sum := by
    induction verdicts with
    | nil => rfl
    | cons x rest ih =>
      obtain ⟨r, v⟩ := x
      cases v <;> simp [judged, Verdict.left] at ih ⊢ <;> omega
  have hparts (keep : PageRef → Bool) (refs : List PageRef) :
      refs.length = (refs.filter keep).length + (refs.filter fun r => !keep r).length :=
    List.length_eq_length_filter_add keep
  rw [← hleft, choiceOf]
  split_ifs with hrelevant hrest
  · simp [List.isEmpty_iff.1 hrelevant]
  · simp [List.isEmpty_iff.1 hrest]
  · have := hparts (mayShare segments (judged .relevant verdicts)) (judged .contentOnly verdicts)
    simp only [List.partition_eq_filter_filter, Option.getD_some, List.length_mergeSort,
      List.length_append, Function.comp_def]
    omega

/-- The choice among the pages of a task accounts for all of them. -/
theorem choosePages_accounts (refs : List PageRef) :
    (choosePages segments q refs).Accounts refs.length fun c => (c.getD []).length := by
  have hjudged : (refs.mapM (judge segments q)).Accounts (refs.map fun _ => 1).sum fun verdicts =>
      (verdicts.map fun x => x.2.left).sum := .mapM fun r _ => judge_accounts r
  rw [List.map_const', List.sum_replicate, smul_eq_mul, mul_one] at hjudged
  refine hjudged.bind fun verdicts _ => ?_
  have hdropped := (forM_leaveOut_accounts segments .content (choiceOf segments verdicts).2).add
    ((choiceOf segments verdicts).1.getD []).length
  rw [Nat.add_comm, length_choiceOf] at hdropped
  exact hdropped.bind fun _ _ => .pure (Nat.zero_add _).symm

/-! ## The tasks of a plan -/

/-- The pages of tasks, each as often as a task has it. -/
def pageCount (tasks : List MergeTask) : Nat := (tasks.map fun t => t.pages.length).sum

/-- The pages that a visit offers to a task. -/
def Visit.offered (v : Visit) : Nat := (v.pages.getD []).length

theorem pageCount_toList_taskOf? (path : Path) (c : PageChoice) :
    pageCount (taskOf? path c).toList = (c.getD []).length := by
  obtain - | - | ⟨r, rest⟩ := c <;> simp [taskOf?, pageCount]

theorem pageCount_filterMap (tasks : List (Option MergeTask)) :
    pageCount (tasks.filterMap id) = (tasks.map fun t => pageCount t.toList).sum := by
  induction tasks with
  | nil => rfl
  | cons t tasks ih => cases t <;> simp_all [pageCount]

theorem taskAt_accounts
    (hchoose : ∀ refs, (choose refs).Accounts refs.length fun c => (c.getD []).length)
    (v : Visit) : (taskAt accept choose v).Accounts v.offered fun t => pageCount t.toList := by
  obtain ⟨path, pages⟩ := v
  rw [taskAt]
  cases accept path with
  | none => exact .of_error rfl
  | some _ =>
    cases pages with
    | none => exact .pure rfl
    | some pages =>
      exact (hchoose pages).bind fun c _ => .pure (pageCount_toList_taskOf? path c)

/-- A plan accounts for the pages that its walk offers, if its choice accounts for those of each
task. -/
theorem build_accounts (hw : commonWidth segments = .ok w)
    (hchoose : ∀ refs, (choose refs).Accounts refs.length fun c => (c.getD []).length) :
    (build segments accept choose).Accounts
      ((visits w segments fun p => (accept p).getD true).map Visit.offered).sum
      fun plan => pageCount plan.tasks := by
  rw [build, hw]
  refine (Engine.Accounts.mapM fun v _ => taskAt_accounts hchoose v).bind fun tasks _ => ?_
  rw [← pageCount_filterMap]
  split
  · exact .bind (.log _) fun _ _ => .pure rfl
  · exact .pure rfl

/-- Where a plan has tasks, the plan over every page under the same condition has every page that
the walk offers. -/
theorem exists_build_everyPage {plan : Built} (hw : commonWidth segments = .ok w)
    (h : (build segments accept choose).result = .ok plan) :
    ∃ whole, (build segments accept everyPage).result = .ok whole ∧ pageCount whole.tasks =
      ((visits w segments fun p => (accept p).getD true).map Visit.offered).sum := by
  let whole (v : Visit) : Option MergeTask := v.pages.bind fun pages => taskOf? v.path (some pages)
  have hwhole : ∀ v ∈ visits w segments fun p => (accept p).getD true,
      (taskAt accept everyPage v).Yields False (whole v) := by
    rw [build, hw] at h
    obtain ⟨tasks, htasks, -⟩ := Engine.exists_of_bind h
    rw [Engine.result_mapM] at htasks
    intro v hv
    obtain ⟨t, ht⟩ := exists_of_mapM_ok htasks v hv
    obtain ⟨path, pages⟩ := v
    rw [taskAt] at ht ⊢
    cases haccept : accept path with
    | none => simp [haccept] at ht
    | some _ => cases pages <;> exact .of_result rfl
  have hcount (v : Visit) : pageCount (whole v).toList = v.offered := by
    obtain ⟨path, - | pages⟩ := v
    · rfl
    · exact pageCount_toList_taskOf? path (some pages)
  let walk := visits w segments fun p => (accept p).getD true
  refine ⟨⟨(walk.map whole).filterMap id, walk.map (·.path)⟩, Engine.Yields.result ?_, ?_⟩
  · rw [build, hw]
    refine .bind (.mapM hwhole) ?_
    split
    · exact .bind (.of_result (Engine.result_log _)) (.pure _)
    · exact .pure _
  · simp only [pageCount_filterMap, List.map_map, Function.comp_def, hcount, walk]

/-! ## The plan of a query -/

/-- The pages of a query's tasks and those that its plan left out are together those of the plan
over every page under the same condition. -/
theorem ofQuery_accounts {tasks : List MergeTask} (h : (ofQuery segments q).result = .ok tasks) :
    ∃ whole, (build segments (asksUnder segments q) everyPage).result = .ok whole ∧
      ∃ n, n + pageCount tasks = pageCount whole.tasks ∧ (ofQuery segments q).counts =
        .pruned n + { tasksPlanned := UInt64.ofNat tasks.length } := by
  rw [ofQuery] at h ⊢
  obtain ⟨plan, hplan, hrest, hcounts⟩ := Engine.exists_of_bind h
  obtain rfl : plan.tasks = tasks := Except.ok.inj hrest
  cases hw : commonWidth segments with
  | error e =>
    rw [build, hw] at hplan
    cases hplan
  | ok w =>
    obtain ⟨whole, hwhole, hoffered⟩ := exists_build_everyPage hw hplan
    obtain ⟨n, hn, hkept⟩ := build_accounts hw choosePages_accounts plan hplan
    refine ⟨whole, hwhole, n, hkept.trans hoffered.symm, ?_⟩
    have hplanned := Engine.Charges.bind (.count { tasksPlanned := UInt64.ofNat plan.tasks.length })
      fun _ _ => .pure plan.tasks
    rw [hcounts, hn, hplanned plan.tasks hrest, add_zero]

end Bitemporal.Plan
