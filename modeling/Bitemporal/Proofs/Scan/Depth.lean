import Mathlib
import Bitemporal.Proofs.Plan.Choice
import Bitemporal.Proofs.Scan.Collect
import Bitemporal.Proofs.Trie.Table
import Bitemporal.Segment.Manifest

/-!
# Scans within the bits of an id

An id has no bucket past its last level. Where every branch of every trie stands above that level,
the walk meets no path that goes on past it, so neither planning nor scanning asks for such a
bucket. The trie of a stored segment is always of this kind. A segment in memory is accepted by the
depth of its leaves alone, and a branch without leaves below it may lead the walk past the last
level.

## Main definitions

* `MergeTask.Fits`: a task whose path fits an id and whose pages are from segments.
* `Trie.barren`: branches below branches, without a leaf.

## Main statements

* `Plan.ofQuery_ensures`: the tasks of a query fit.
* `MergeTask.Fits.exists_rows`: the rows of a task that fits can be merged, whatever its pages hold.
* `Scan.task_ensures`: a task that fits fails for no read out of bounds.
* `Scan.collect_inBounds`: planning and scanning where all branches stand above the last level.
* `Scan.collect_barren`: a segment in memory where they do not.
-/

namespace Bitemporal

variable {w : BucketWidth} {d : Disk} {q : Query} {segments : List Segment}
  {allowed : Failure → Prop}

/-- A path that fits an id, with pages from some of the segments, at least one. -/
structure MergeTask.Fits (w : BucketWidth) (segments : List Segment) (t : MergeTask) : Prop where
  length_le : t.path.length ≤ w.maxDepth
  nonempty : t.pages ≠ []
  named : ∀ r ∈ t.pages, r.segment < segments.length

/-- The trie of a manifest branches above the last level only. -/
theorem StoredSegment.isRegular_of_ofManifest {name directory : String} {m : Manifest}
    {s : StoredSegment} (h : ofManifest name directory m = .ok s) : s.trie.IsRegular := by
  rw [ofManifest] at h
  split at h
  · cases h
  split at h
  · cases h
  split at h
  · cases h
  · rename_i trie hbuild
    cases h
    exact NodeTable.isRegular_of_build hbuild

namespace Plan

/-! ## The choice of pages -/

theorem judge_ensures {r : PageRef} (h : (judge? segments q r).isSome ∨ allowed .outOfBounds) :
    (judge segments q r).Ensures allowed fun x => x.1 = r := by
  rw [judge]
  cases hv : judge? segments q r with
  | none => exact .of_error rfl (h.resolve_left (by simp [hv]))
  | some v =>
    dsimp only
    split
    · exact .bind_yields (leaveOut_yields _ r) (.pure rfl)
    · exact .pure rfl

/-- Only pages that were judged are chosen. -/
theorem exists_of_mem_choiceOf {verdicts : List (PageRef × Verdict)} {r : PageRef}
    (hr : r ∈ (choiceOf segments verdicts).1.getD []) : ∃ x ∈ verdicts, x.1 = r := by
  have hjudged {v : Verdict} (hr : r ∈ judged v verdicts) : ∃ x ∈ verdicts, x.1 = r := by
    obtain ⟨x, hx, rfl⟩ := List.mem_map.1 hr
    exact ⟨x, (List.mem_filter.1 hx).1, rfl⟩
  rw [choiceOf] at hr
  dsimp only at hr
  split at hr
  · cases hr
  split at hr
  · exact hjudged hr
  · simp only [Option.getD_some, List.mem_mergeSort, List.mem_append,
      List.partition_eq_filter_filter, List.mem_filter] at hr
    rcases hr with hr | hr
    · exact hjudged hr
    · exact hjudged hr.1

theorem choosePages_ensures {refs : List PageRef}
    (h : ∀ r ∈ refs, (judge? segments q r).isSome ∨ allowed .outOfBounds) :
    (choosePages segments q refs).Ensures allowed fun c => ∀ r ∈ c.getD [], r ∈ refs := by
  refine .bind (.mapM fun r hr => judge_ensures (h r hr)) fun verdicts hverdicts => ?_
  have hchosen : ∀ r ∈ (choiceOf segments verdicts).1.getD [], r ∈ refs := by
    intro r hr
    obtain ⟨x, hx, rfl⟩ := exists_of_mem_choiceOf hr
    obtain ⟨r, hr, hsame⟩ := hverdicts x hx
    exact hsame ▸ hr
  exact .bind_yields (forM_leaveOut_yields _ _) (.pure hchosen)

/-! ## The plan -/

/-- A visit where the walk may end leaves a task that fits. -/
theorem taskAt_ensures (hheight : ∀ s ∈ segments, s.trie.root.height ≤ w.maxDepth)
    {accept : Path → Option Bool} {choose : List PageRef → Engine PageChoice} {v : Visit}
    (hv : v ∈ visits w segments fun p => (accept p).getD true) (haccept : (accept v.path).isSome)
    (hchoose : ∀ refs, (choose refs).Ensures allowed fun c => ∀ r ∈ c.getD [], r ∈ refs) :
    (taskAt accept choose v).Ensures allowed fun o => ∀ t ∈ o, t.Fits w segments := by
  obtain ⟨hlength, hpages⟩ := mem_visits hheight hv
  obtain ⟨b, hb⟩ := Option.isSome_iff_exists.1 haccept
  rw [taskAt, hb]
  cases hv : v.pages with
  | none => exact .pure (by simp)
  | some pages =>
    obtain ⟨rfl, -⟩ := hpages pages hv
    refine .bind (hchoose _) fun c hc => .pure fun t ht => ?_
    obtain - | - | ⟨r, rest⟩ := c
    · cases ht
    · cases ht
    · obtain rfl := Option.some_inj.1 ht
      exact ⟨hlength, by simp, fun r hr => lt_of_mem_leavesAt (hc r hr)⟩

/-- Where the condition of a plan has answers, the tasks of the plan fit. -/
theorem build_ensures (hwidth : ∀ s ∈ segments, s.width = w)
    (hheight : ∀ s ∈ segments, s.trie.root.height ≤ w.maxDepth)
    {accept : Path → Option Bool} {choose : List PageRef → Engine PageChoice}
    (haccept : ∀ v ∈ visits w segments fun p => (accept p).getD true, (accept v.path).isSome)
    (hchoose : ∀ refs, (choose refs).Ensures allowed fun c => ∀ r ∈ c.getD [], r ∈ refs) :
    (build segments accept choose).Ensures allowed
      fun plan => ∀ t ∈ plan.tasks, t.Fits w segments := by
  by_cases hne : segments = []
  · subst hne
    exact .of_result rfl (by simp)
  rw [build, commonWidth_eq hwidth hne]
  refine .bind (.mapM fun v hv => taskAt_ensures hheight hv (haccept v hv) hchoose) fun os hos => ?_
  have htasks : ∀ t ∈ os.filterMap id, t.Fits w segments := by
    intro t ht
    obtain ⟨o, ho, hsome⟩ := List.mem_filterMap.1 ht
    obtain ⟨v, -, hfits⟩ := hos o ho
    exact hfits t hsome
  dsimp only
  split
  · exact .bind_yields (.of_result (Engine.result_log _)) (.pure htasks)
  · exact .pure htasks

/-- A query knows at every path that its plan meets whether it asks for something there. -/
theorem asksUnder_isSome (hwidth : ∀ s ∈ segments, s.width = w)
    (hheight : ∀ s ∈ segments, s.trie.root.height ≤ w.maxDepth) {accept : Path → Bool}
    {v : Visit} (hv : v ∈ visits w segments accept) (q : Query) :
    (asksUnder segments q v.path).isSome := by
  have hne : segments ≠ [] := by
    rintro rfl
    cases hv
  exact Option.isSome_iff_exists.2 (exists_asksUnder_eq hwidth hne q (mem_visits hheight hv).1)

/-- The tasks of a query fit. -/
theorem ofQuery_ensures (hwidth : ∀ s ∈ segments, s.width = w)
    (hheight : ∀ s ∈ segments, s.trie.root.height ≤ w.maxDepth)
    (hjudge : ∀ r, (judge? segments q r).isSome ∨ allowed .outOfBounds) :
    (ofQuery segments q).Ensures allowed fun tasks => ∀ t ∈ tasks, t.Fits w segments := by
  refine .bind (build_ensures hwidth hheight
    (fun v hv => asksUnder_isSome hwidth hheight hv q)
    fun refs => choosePages_ensures fun r _ => hjudge r) fun plan hplan => ?_
  exact .bind_yields (.of_result (Engine.result_count _)) (.pure hplan)

end Plan

/-! ## The scan -/

/-- The rows of a task that fits can be merged, whatever its pages hold. -/
theorem MergeTask.Fits.exists_rows {t : MergeTask} (h : t.Fits w segments)
    (hwidth : ∀ s ∈ segments, s.width = w) (pages : List Page) :
    ∃ facts, (t.rows segments pages).result = .ok facts := by
  obtain ⟨merged, hmerged⟩ := exists_mergeRows? pages h.length_le
  exact ⟨_, by rw [rows, width_eq hwidth h.nonempty h.named, hmerged]; rfl⟩

/-- A failure other than a read out of bounds. -/
def Failure.InBounds (f : Failure) : Prop := f ≠ .outOfBounds

/-- A page in memory is there, or its number is refused. -/
theorem Segment.loadPage_ensures (m : MemorySegment) (i : Nat) :
    (Segment.loadPage d (.memory m) i).Ensures Failure.InBounds fun _ => True := by
  rw [loadPage]
  cases hpage : Segment.page d (.memory m) i with
  | ok page => exact .pure trivial
  | error e =>
    exact .bind_yields (.of_result (Engine.result_log _))
      (.of_error rfl (by simp [Failure.InBounds]))

namespace Scan

/-- A task that fits, over pages in memory, fails for no read out of bounds. -/
theorem task_ensures (hmemory : ∀ s ∈ segments, ∃ m, s = .memory m)
    (hwidth : ∀ s ∈ segments, s.width = w) {t : MergeTask} (ht : t.Fits w segments) :
    (Scan.task d segments q t).Ensures Failure.InBounds fun _ => True := by
  have hload : ∀ r ∈ t.pages, (Scan.load d segments r).Ensures Failure.InBounds fun _ => True := by
    intro r hr
    have hlt := ht.named r hr
    obtain ⟨m, hm⟩ := hmemory segments[r.segment] (List.getElem_mem hlt)
    refine .bind (P := fun _ => True) ?_ fun _ _ =>
      .bind_yields (.of_result (Engine.result_count _)) (.pure trivial)
    rw [PageRef.load, List.getElem?_eq_getElem hlt, hm]
    exact Segment.loadPage_ensures m r.page
  have hreport (facts : List Fact) :
      (report t (q.replay facts)).Ensures Failure.InBounds fun _ => True := by
    cases q.replay facts with
    | ok rows =>
      exact .bind_yields (.of_result (Engine.result_count _))
        (.bind_yields (.of_result (Engine.result_log _)) (.pure trivial))
    | error fault =>
      exact .bind_yields (.of_result (Engine.result_log _))
        (.of_error rfl (by simp [Failure.InBounds]))
  have hmerged : (merged d segments t).Ensures Failure.InBounds fun _ => True := by
    refine .bind (.mapM hload) fun pages _ => ?_
    obtain ⟨facts, hfacts⟩ := ht.exists_rows hwidth pages
    exact ⟨fun _ _ => trivial, fun f hf => by simp [hfacts] at hf⟩
  have hensures : (merged d segments t >>= fun facts => report t (q.replay facts)).Ensures
      Failure.InBounds fun _ => True := .bind hmerged fun facts _ => hreport facts
  exact hensures.congr (result_task_eq t)

theorem collect_ensures (hmemory : ∀ s ∈ segments, ∃ m, s = .memory m)
    (hwidth : ∀ s ∈ segments, s.width = w)
    (hheight : ∀ s ∈ segments, s.trie.root.height ≤ w.maxDepth) (d : Disk) (q : Query) :
    (Scan.collect d segments q).Ensures Failure.InBounds fun _ => True := by
  have hplan : (Plan.ofQuery segments q).Ensures Failure.InBounds
      fun tasks => ∀ t ∈ tasks, t.Fits w segments := by
    refine Plan.ofQuery_ensures hwidth hheight fun r => .inl ?_
    rw [Plan.judge?, Plan.summary?_eq_none hmemory]
    rfl
  have hcursor : (Cursor.ofQuery segments q).Ensures Failure.InBounds fun c =>
      ∃ tasks, c = { segments, query := q, tasks } ∧ ∀ t ∈ tasks, t.Fits w segments :=
    .bind hplan fun tasks htasks => .pure ⟨tasks, rfl, htasks⟩
  refine .bind hcursor ?_
  rintro - ⟨tasks, rfl, htasks⟩
  refine ⟨fun _ _ => trivial, fun f hf => ?_⟩
  rw [Cursor.result_collect (by rfl)] at hf
  cases hrows : tasks.mapM fun t => (task d segments q t).result with
  | ok rows =>
    rw [hrows] at hf
    cases hf
  | error g =>
    rw [hrows] at hf
    cases hf
    obtain ⟨t, ht, hfailure⟩ := exists_of_mapM_error hrows
    exact (task_ensures hmemory hwidth (htasks t ht)).failure _ hfailure

/-- Segments of one level width, stored ones as their manifests describe them and those in memory
with all branches above the last level. A query has an answer at every path that its plan meets, the
tasks of the plan can be merged whatever the pages hold, and with all segments in memory neither the
plan nor any task fails for a read out of bounds. -/
theorem collect_inBounds (hwidth : ∀ s ∈ segments, s.width = w)
    (hmemory : ∀ m, .memory m ∈ segments → m.trie.root.height ≤ w.maxDepth)
    (hstored : ∀ s, .stored s ∈ segments →
      ∃ m, StoredSegment.ofManifest s.name s.directory m = .ok s) (d : Disk) (q : Query) :
    (∀ v ∈ Plan.visits w segments fun p => (Plan.asksUnder segments q p).getD true,
      (Plan.asksUnder segments q v.path).isSome) ∧
    (∀ tasks, (Plan.ofQuery segments q).result = .ok tasks → ∀ t ∈ tasks, ∀ pages,
      ∃ facts, (t.rows segments pages).result = .ok facts) ∧
    ((∀ s ∈ segments, ∃ m, s = .memory m) →
      (Scan.collect d segments q).result ≠ .error .outOfBounds) := by
  have hheight : ∀ s ∈ segments, s.trie.root.height ≤ w.maxDepth := by
    intro s hs
    cases s with
    | memory m => exact hmemory m hs
    | stored s =>
      obtain ⟨m, hm⟩ := hstored s hs
      have hregular := StoredSegment.isRegular_of_ofManifest hm
      obtain rfl : s.trie.width = w := hwidth _ hs
      exact Trie.IsRegular.height_le hregular
  refine ⟨fun v hv => Plan.asksUnder_isSome hwidth hheight hv q, fun tasks htasks t ht => ?_,
    fun hall hfails => (collect_ensures hall hwidth hheight d q).failure _ hfails rfl⟩
  have hfit : (Plan.ofQuery segments q).Ensures (fun _ => True)
      fun tasks => ∀ t ∈ tasks, t.Fits w segments :=
    Plan.ofQuery_ensures hwidth hheight fun _ => .inr trivial
  exact (hfit.answer tasks htasks t ht).exists_rows hwidth

end Scan

/-! ## Branches without a leaf -/

/-- Branches one below the other along the least bucket, without a leaf. -/
def Trie.barren (w : BucketWidth) : Nat → Trie Nat
  | 0 => .absent
  | n + 1 => .branch (barren w n :: List.replicate (w.fanOut - 1) .absent)

theorem Trie.height_barren_le (w : BucketWidth) (n : Nat) : (barren w n).height ≤ n := by
  induction n with
  | zero => simp [barren, height]
  | succ n ih =>
    rw [barren, height, Nat.add_le_add_iff_right]
    refine childHeight_le (List.forall_mem_cons.2 ⟨ih, fun c hc => ?_⟩)
    rw [List.eq_of_mem_replicate hc, height]
    exact Nat.zero_le n

theorem Trie.leaves_barren (w : BucketWidth) (n : Nat) : (barren w n).leaves = [] := by
  have habsent (b k : Nat) : childLeaves b (List.replicate k (.absent : Trie Nat)) = [] := by
    induction k generalizing b with
    | zero => rfl
    | succ k ih => simp [List.replicate_succ, childLeaves, leaves, ih]
  induction n with
  | zero => rfl
  | succ n ih => simp [barren, leaves, childLeaves, ih, habsent]

namespace Scan

/-- As many branches as there are levels do no harm. -/
theorem collect_inBounds_barren :
    (Scan.collect .empty [.memory ⟨"barren", ⟨Trie.barren .two 64, .two⟩, []⟩]
      { selector := some (.ofList [.ofNat 0]) }).result ≠ .error .outOfBounds := by
  refine (collect_inBounds (w := .two) ?_ ?_ ?_ _ _).2.2 ?_
  · simp [Segment.width, Segment.trie]
  · rintro m hm
    obtain rfl := Segment.memory.inj (List.mem_singleton.1 hm)
    exact Trie.height_barren_le .two 64
  · simp
  · simp

/-- A segment in memory is accepted with branches past the last level, as they have no leaf, and a
query for the entity below them reads past the bits of its id. -/
theorem collect_barren :
    MemorySegment.ofParts "barren" ⟨Trie.barren .two 66, .two⟩ [] =
        .ok ⟨"barren", ⟨Trie.barren .two 66, .two⟩, []⟩ ∧
      (Scan.collect .empty [.memory ⟨"barren", ⟨Trie.barren .two 66, .two⟩, []⟩]
        { selector := some (.ofList [.ofNat 0]) }).result = .error .outOfBounds := by
  have hplan : (Plan.ofQuery [.memory ⟨"barren", ⟨Trie.barren .two 66, .two⟩, []⟩]
      { selector := some (.ofList [.ofNat 0]) }).result = .error .outOfBounds := by
    decide +kernel
  refine ⟨by simp [MemorySegment.ofParts, HashTrie.depth, HashTrie.leaves, Trie.depth,
    Trie.leaves_barren], ?_⟩
  rw [Scan.collect, Cursor.ofQuery, Engine.result_bind, Engine.result_bind, hplan]
  rfl

end Scan

end Bitemporal
