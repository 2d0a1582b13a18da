import Mathlib
import Bitemporal.Proofs.Scan.Rising

/-!
# Sharing the tasks of a scan

A task shows the same rows, or meets the same failure, whatever cursor runs it and whatever that
cursor ran before. The tasks of a plan can therefore be shared among cursors, in any order: the rows
of the shares one after the other are the rows of the plan.

## Main statements

* `Scan.mapM_flatten`: tasks share by share.
* `Cursor.collect_shares`: what cursors over shares of some tasks collect.
-/

namespace Bitemporal

variable {d : Disk} {segments : List Segment} {q : Query}

namespace Scan

/-- What tasks show share by share is what all of them show. -/
theorem mapM_flatten {α β ε : Type} (f : α → Except ε (List β)) (shares : List (List α)) :
    (shares.flatten.mapM f).map List.flatten =
      (shares.mapM fun share : List α => (share.mapM f).map List.flatten).map List.flatten := by
  induction shares with
  | nil => rfl
  | cons share rest ih =>
    rw [List.flatten_cons, List.mapM_append, List.mapM_cons]
    cases share.mapM f with
    | error e => rfl
    | ok rows =>
      simp only [Except.map, bind, Except.bind]
      cases hall : rest.flatten.mapM f <;>
        cases hrest : rest.mapM (fun share : List α => (share.mapM f).map List.flatten) <;>
        simp_all [Except.map, pure, Except.pure]

end Scan

namespace Cursor

/-- A cursor over some tasks collects on every workspace what they show by themselves. -/
theorem result_collect_ofTasks (w : Workspace) (tasks : List MergeTask) :
    ({ ofTasks segments q tasks with workspace := w }.collect d).result =
      (tasks.mapM fun t => (Scan.task d segments q t).result).map List.flatten :=
  result_collect rfl

/-- Shares of some tasks, collected one after the other, give what the tasks do, with the first of
their failures if there is one. -/
theorem result_collect_flatten (w : Workspace) (shares : List (List MergeTask)) :
    ({ ofTasks segments q shares.flatten with workspace := w }.collect d).result =
      (shares.mapM fun share => ((ofTasks segments q share).collect d).result).map
        List.flatten := by
  rw [result_collect_ofTasks, Scan.mapM_flatten]
  exact congrArg (fun f => (shares.mapM f).map List.flatten)
    (funext fun share => (result_collect_ofTasks {} share).symm)

/-- A task gives the same on whatever workspace the tasks before it left, those that fail or end
with an erase among them. All that a cursor ever gives is what its tasks give by themselves. If no
task of a plan fails, the plan can be cut into shares, and each share gives its rows whatever was
scanned before it: the rows of the shares one after the other are the rows of the plan. -/
theorem collect_shares (d : Disk) (segments : List Segment) (q : Query) :
    (∀ w t, (Scan.taskOn d segments q w t).value.1 = (Scan.task d segments q t).result) ∧
    (∀ c : Cursor, c.segments = segments → c.query = q → c.isDone = false → ∀ n,
      c.advances d ((Scan.given d segments q c.tasks).length + n) =
        Scan.given d segments q c.tasks ++ List.replicate n (.ok none)) ∧
    ∀ tasks, (Plan.ofQuery segments q).result = .ok tasks →
      (∀ t ∈ tasks, ∃ rows, (Scan.task d segments q t).result = .ok rows) →
      ∀ shares, shares.flatten = tasks → ∃ parts,
        List.Forall₂ (fun share rows => ∀ w,
          ({ ofTasks segments q share with workspace := w }.collect d).result = .ok rows)
          shares parts ∧
        (Scan.collect d segments q).result = .ok parts.flatten := by
  refine ⟨Scan.value_taskOn, ?_, ?_⟩
  · rintro c rfl rfl hdone n
    exact advances_eq hdone rfl n
  rintro tasks hplan hrows shares rfl
  have hwhole : (Scan.collect d segments q).result =
      (shares.mapM fun share => ((ofTasks segments q share).collect d).result).map
        List.flatten := by
    rw [Scan.result_collect_of_plan hplan, ← result_collect_ofTasks {}]
    exact result_collect_flatten {} shares
  cases hparts : shares.mapM fun share => ((ofTasks segments q share).collect d).result with
  | ok parts =>
    refine ⟨parts, (mapM_eq_ok_iff.1 hparts).imp fun share rows hshare w => ?_, ?_⟩
    · rw [result_collect_ofTasks, ← hshare, ← result_collect_ofTasks {}]
      rfl
    · rw [hwhole, hparts]
      rfl
  | error f =>
    obtain ⟨share, hmem, hshare⟩ := exists_of_mapM_error hparts
    have hfails : (share.mapM fun t => (Scan.task d segments q t).result) = .error f := by
      have hcollect := (result_collect_ofTasks {} share).symm.trans hshare
      cases hall : share.mapM fun t => (Scan.task d segments q t).result with
      | ok rows => simp [hall, Except.map] at hcollect
      | error g => simpa [hall, Except.map] using hcollect
    obtain ⟨t, ht, hf⟩ := exists_of_mapM_error hfails
    obtain ⟨rows, hrows⟩ := hrows t (List.mem_flatten.2 ⟨share, hmem, ht⟩)
    cases hf.symm.trans hrows

/-- A page on which an erase ends an entity, and a page of another entity, in a share each. -/
theorem collect_shares_erased :
    let segment : MemorySegment := ⟨"erased", ⟨.branch [.leaf 0, .absent, .absent, .leaf 1], .two⟩,
      [⟨[⟨.ofNat 0, .start, .never, 8, .erase⟩, ⟨.ofNat 0, .start, .never, 5, .put .empty⟩]⟩,
        ⟨[⟨.ofNat (3 * 2 ^ 126), .start, .never, 5, .put .empty⟩]⟩]⟩
    let shares : List (List MergeTask) := [[⟨[0], [⟨0, 0⟩]⟩], [⟨[3], [⟨0, 1⟩]⟩]]
    (Plan.ofQuery [.memory segment] {}).result = .ok shares.flatten ∧
      (∀ t ∈ shares.flatten, ∃ rows, (Scan.task .empty [.memory segment] {} t).result = .ok rows) ∧
      ∃ parts, List.Forall₂ (fun share rows => ∀ w, ({ ofTasks [.memory segment] {} share with
          workspace := w }.collect .empty).result = .ok rows) shares parts ∧
        (Scan.collect .empty [.memory segment] {}).result = .ok parts.flatten := by
  intro segment shares
  have hordered : ∀ s ∈ [segment], ∀ pg ∈ s.pages, Fact.IsOrdered pg.rows := by
    unfold Fact.IsOrdered
    decide
  have h : Scan.AreReadable .two [segment] := by
    refine ⟨?_, ?_, ?_, fun s hs pg hpg => (hordered s hs pg hpg).isGrouped⟩ <;>
      simp only [List.mem_singleton, forall_eq]
    · rfl
    · simp [segment, Trie.height, Trie.childHeight, BucketWidth.maxDepth, BucketWidth.bits]
    · simp [segment, MemorySegment.ofParts, HashTrie.depth, HashTrie.leaves, Trie.depth,
        Trie.leaves, Trie.childLeaves, BucketWidth.maxDepth, BucketWidth.bits]
  obtain ⟨tasks, hplan, hwhole, -⟩ := h.exists_plan {}
  obtain rfl : shares.flatten = tasks := Except.ok.inj hplan
  have hrows : ∀ t ∈ shares.flatten,
      ∃ rows, (Scan.task .empty [.memory segment] {} t).result = .ok rows := fun t ht =>
    h.task_of_not_rises (hwhole t ht) (MergeTask.not_rises hordered t) .empty {}
  exact ⟨hplan, hrows, (collect_shares .empty [.memory segment] {}).2.2 _ hplan hrows shares rfl⟩

end Cursor

end Bitemporal
