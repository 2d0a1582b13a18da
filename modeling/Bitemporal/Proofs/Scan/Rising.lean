import Mathlib
import Bitemporal.Proofs.Merge.Rising
import Bitemporal.Proofs.Plan.Cover
import Bitemporal.Proofs.Scan.Memory
import Bitemporal.Proofs.Scan.Replay
import Bitemporal.Proofs.Trie.Leaves

/-!
# Detecting versions out of order

The system times of one entity have to descend within a task. They are checked on every merged row,
before anything is skipped, so a scan fails exactly where two rows of a page side by side rise: the
merge of the pages brings two such rows next to each other again, and rows that do not rise are in
order, which no later check refuses. The first task that rises ends the cursor.

## Main definitions

* `MergeTask.Rises`: some page of a task rises under its path.
* `Cursor.advances`: what so many advances of a cursor give.
* `Cursor.alone`: what a task gives when it is the only one.
* `Scan.given`: what tasks give up to the first failure.

## Main statements

* `Query.exists_replay_iff`: grouped rows are replayed without a fault exactly if they are ordered.
* `Scan.result_task`: a task fails exactly if it rises.
* `Cursor.advances_eq`: all advances of a cursor.
* `Cursor.advances_rising`: all advances of a cursor over pages in memory.
-/

namespace Bitemporal

open scoped Linear
open Plan (leavesAt taskFor)

variable {w : BucketWidth} {d : Disk} {q : Query} {p : Path} {f : Fact} {rows : List Fact}
  {out : List OutputRow} {segs : List MemorySegment} {t : MergeTask}

/-! ## The check of the order -/

namespace Replay

variable {s s' : Replay}

theorem exists_of_resolve (h : s.resolve q f = .ok (s', out)) :
    ∃ ledger exposure, s' = { s with ledger, exposure } ∧ out = q.rowsOf f exposure := by
  unfold resolve at h
  cases hx : s.ledger.resolve f.systemFrom f.validFrom f.validTo with
  | error e => simp [hx, bind, Except.bind] at h
  | ok x =>
    cases hl : s.ledger.record f.systemFrom f.validFrom f.validTo with
    | error e => simp [hx, hl, bind, Except.bind] at h
    | ok l =>
      simp only [hx, hl, bind, Except.bind, pure, Except.pure, Except.ok.injEq,
        Prod.mk.injEq] at h
      exact ⟨l, x, h.1.symm, h.2.symm⟩

/-- A row that is not refused is no later version of the current entity, and it is kept in mind even
where the query passes it over. It shows nothing, or what is left of it. -/
theorem of_step (h : s.step q f = .ok (s', out)) :
    ¬ (s.current = some f.entity ∧ s.last < f.systemFrom) ∧
      s'.current = some f.entity ∧ s'.last = f.systemFrom ∧
      (out = [] ∨ ∃ exposure, out = q.rowsOf f exposure) := by
  have henter : (s.enter f).current = some f.entity ∧ (s.enter f).last = f.systemFrom := by
    unfold enter
    split
    next hcurrent => exact ⟨hcurrent, rfl⟩
    next => exact ⟨rfl, rfl⟩
  by_cases hrises : s.current = some f.entity ∧ s.last < f.systemFrom
  · simp [step, checkOrder, hrises, bind, Except.bind] at h
  refine ⟨hrises, ?_⟩
  have horder : s.checkOrder f = .ok () := if_neg hrises
  simp only [step, horder, bind, Except.bind, pure, Except.pure] at h
  have hnothing {s₁ : Replay}
      (h : (Except.ok (s₁, []) : Except Rising (Replay × List OutputRow)) = .ok (s', out))
      (hs : s₁.current = (s.enter f).current ∧ s₁.last = (s.enter f).last) :
      s'.current = some f.entity ∧ s'.last = f.systemFrom ∧
        (out = [] ∨ ∃ exposure, out = q.rowsOf f exposure) := by
    obtain ⟨rfl, rfl⟩ := Prod.mk.inj (Except.ok.inj h)
    exact ⟨hs.1.trans henter.1, hs.2.trans henter.2, .inl rfl⟩
  split_ifs at h
  · exact hnothing h ⟨rfl, rfl⟩
  · exact hnothing h ⟨rfl, rfl⟩
  · obtain ⟨ledger, exposure, rfl, rfl⟩ := exists_of_resolve h
    exact ⟨henter.1, henter.2, .inr ⟨exposure, rfl⟩⟩
  · exact hnothing h ⟨rfl, rfl⟩
  · exact hnothing h ⟨rfl, rfl⟩

/-- Rows that are replayed without a fault do not rise, nor does the first of them from the row
before it. -/
theorem of_run (h : run q s rows = .ok out) :
    (∀ g ∈ rows.head?, ¬ (s.current = some g.entity ∧ s.last < g.systemFrom)) ∧
      rows.IsChain fun f g => ¬ f.RisesTo g := by
  induction rows generalizing s out with
  | nil => simp
  | cons f rest ih =>
    rw [run_cons] at h
    cases hstep : s.step q f with
    | error e => simp [hstep] at h
    | ok x =>
      obtain ⟨s', shown⟩ := x
      obtain ⟨hrises, hcurrent, hlast, -⟩ := of_step hstep
      simp only [hstep] at h
      cases hrest : run q s' rest with
      | error e => simp [hrest, Except.map] at h
      | ok more =>
        obtain ⟨hhead, hchain⟩ := ih hrest
        refine ⟨by simpa using hrises, ?_⟩
        cases rest with
        | nil => exact .singleton f
        | cons g rest =>
          refine .cons_cons (fun hg => hhead g rfl ?_) hchain
          rwa [hcurrent, hlast, Option.some_inj]

end Replay

/-- Where ids never go back, rows are replayed without a fault exactly if they are ordered, whatever
the query passes over. -/
theorem Query.exists_replay_iff (h : Fact.IsGrouped rows) :
    (∃ out, q.replay rows = .ok out) ↔ Fact.IsOrdered rows := by
  constructor
  · rintro ⟨out, hout⟩
    have hchain := (Replay.of_run hout).2
    rw [List.isChain_iff_forall_rel_of_append_cons_cons] at hchain
    exact h.isOrdered_iff.2 fun a f g b heq => hchain heq
  · intro hordered
    exact ⟨_, replay_eq hordered hordered.pairwise_entities fun f hf =>
      Fact.mem_entities.2 ⟨f, hf, rfl⟩⟩

/-! ## Pages in memory -/

/-- A leaf of a segment that was accepted names one of its pages. -/
theorem MemorySegment.lt_of_reach {s : MemorySegment} {i : Nat}
    (haccepted : ofParts s.name s.trie s.pages = .ok s)
    (hreach : s.trie.root.reach p = .leaf i) : i < s.pages.length := by
  obtain ⟨⟨path, _⟩, hleaf, rfl⟩ := List.mem_map.1 (Trie.mem_values_of_reach hreach)
  simp only [ofParts] at haccepted
  split at haccepted
  · cases haccepted
  split at haccepted
  · cases haccepted
  · rename_i hnone
    simpa using List.find?_eq_none.1 hnone _ hleaf

/-- Some page of a task has two rows side by side under the path of the task that rise. -/
def MergeTask.Rises (segs : List MemorySegment) (t : MergeTask) : Prop :=
  ∃ r ∈ t.pages, ∃ s pg, segs[r.segment]? = some s ∧ s.pages[r.page]? = some pg ∧
    pg.RisesUnder s.trie.width t.path

/-- A task over ordered pages does not rise. -/
theorem MergeTask.not_rises
    (hordered : ∀ s ∈ segs, ∀ pg ∈ s.pages, Fact.IsOrdered pg.rows) (t : MergeTask) :
    ¬ t.Rises segs := by
  rintro ⟨r, -, s, pg, hs, hpg, a, f, g, b, heq, -, hrises⟩
  have h := hordered s (List.mem_of_getElem? hs) pg (List.mem_of_getElem? hpg)
  exact h.isGrouped.isOrdered_iff.1 h a f g b heq hrises

/-- Segments in memory that can be planned together: they have one level width, their branches stand
above the last level, their leaves name pages that are there, and ids never go back in their
pages. -/
structure Scan.AreReadable (w : BucketWidth) (segs : List MemorySegment) : Prop where
  width : ∀ s ∈ segs, s.trie.width = w
  height : ∀ s ∈ segs, s.trie.root.height ≤ w.maxDepth
  accepted : ∀ s ∈ segs, MemorySegment.ofParts s.name s.trie s.pages = .ok s
  grouped : ∀ s ∈ segs, ∀ pg ∈ s.pages, Fact.IsGrouped pg.rows

/-- A task with all pages of the leaves that its path leads to. -/
structure MergeTask.IsWhole (w : BucketWidth) (segs : List MemorySegment) (t : MergeTask) :
    Prop where
  ends : Plan.EndsAt w (segs.map .memory) t.path
  pages : t.pages = leavesAt (segs.map .memory) t.path

namespace Scan

/-- The page that a reference names. -/
def pageOf (segs : List MemorySegment) (r : PageRef) : Page :=
  (segs[r.segment]?.bind fun s => s.pages[r.page]?).getD default

/-- The merged rows of a task. -/
def mergedRows (w : BucketWidth) (segs : List MemorySegment) (t : MergeTask) : List Fact :=
  Fact.mergeAll (t.pages.map fun r => Fact.under w t.path (pageOf segs r).rows)

namespace AreReadable

variable (h : AreReadable w segs)
include h

theorem width_memory : ∀ s ∈ segs.map Segment.memory, s.width = w := by
  intro s hs
  obtain ⟨m, hm, rfl⟩ := List.mem_map.1 hs
  exact h.width m hm

theorem height_memory : ∀ s ∈ segs.map Segment.memory, s.trie.root.height ≤ w.maxDepth := by
  intro s hs
  obtain ⟨m, hm, rfl⟩ := List.mem_map.1 hs
  exact h.height m hm

/-- The leaves that a path leads to name pages that are there. -/
theorem exists_page {r : PageRef} (hr : r ∈ leavesAt (segs.map .memory) p) :
    ∃ s pg, segs[r.segment]? = some s ∧ s.pages[r.page]? = some pg ∧ pageOf segs r = pg := by
  obtain ⟨s, hs, hreach⟩ := Plan.mem_leavesAt.1 hr
  rw [List.getElem?_map, Option.map_eq_some_iff] at hs
  obtain ⟨m, hm, rfl⟩ := hs
  have hmem := List.mem_of_getElem? hm
  have hlt := MemorySegment.lt_of_reach (h.accepted m hmem) hreach
  exact ⟨m, m.pages[r.page], hm, List.getElem?_eq_getElem hlt,
    by simp [pageOf, hm, List.getElem?_eq_getElem hlt]⟩

theorem load_yields {r : PageRef} (hr : r ∈ leavesAt (segs.map .memory) p) :
    (Scan.load d (segs.map .memory) r).Yields False (pageOf segs r) := by
  obtain ⟨s, pg, hs, hpg, heq⟩ := h.exists_page hr
  have hload : (r.load d (segs.map .memory)).Yields False (pageOf segs r) := by
    rw [PageRef.load, List.getElem?_map, hs, heq]
    refine .of_result ?_
    simp [Segment.loadPage, Segment.page, MemorySegment.page, hpg]
  exact .bind hload (.bind (.of_result (Engine.result_count _)) (.pure _))

theorem isGrouped_pageOf {r : PageRef} (hr : r ∈ leavesAt (segs.map .memory) p) :
    Fact.IsGrouped (pageOf segs r).rows := by
  obtain ⟨s, pg, hs, hpg, heq⟩ := h.exists_page hr
  exact heq ▸ h.grouped s (List.mem_of_getElem? hs) pg (List.mem_of_getElem? hpg)

variable (ht : t.IsWhole w segs)
include ht

theorem rows_yields : (t.rows (segs.map .memory) (t.pages.map (pageOf segs))).Yields False
    (mergedRows w segs t) := by
  have hwidth : t.width (segs.map .memory) = w :=
    MergeTask.width_eq h.width_memory (ht.pages ▸ ht.ends.leavesAt_ne_nil)
      fun r hr => Plan.lt_of_mem_leavesAt (ht.pages ▸ hr)
  have hgrouped : ∀ pg ∈ t.pages.map (pageOf segs), Fact.IsGrouped pg.rows := by
    intro pg hpg
    obtain ⟨r, hr, rfl⟩ := List.mem_map.1 hpg
    exact h.isGrouped_pageOf (ht.pages ▸ hr)
  obtain ⟨merged, hmerged, hfacts⟩ :=
    Option.map_eq_some_iff.1 (mergeRows?_eq_mergeAll hgrouped ht.ends.length_le)
  refine .of_result ?_
  rw [MergeTask.rows, hwidth, hmerged, Engine.result_pure, hfacts, List.map_map, mergedRows]
  rfl

/-- A task gives what its merged rows show, or the fault that they meet. -/
theorem result_task (d : Disk) (q : Query) : (Scan.task d (segs.map .memory) q t).result =
    (q.replay (mergedRows w segs t)).mapError fun fault =>
      .error (.malformed fault.rising.message) := by
  have hpages : (t.pages.mapM (Scan.load d (segs.map .memory))).Yields False
      (t.pages.map (pageOf segs)) := .mapM fun r hr => h.load_yields (ht.pages ▸ hr)
  have hmerged : (merged d (segs.map .memory) t).Yields False (mergedRows w segs t) :=
    hpages.bind (h.rows_yields ht)
  exact result_task_of_merged hmerged.result

/-- The merged rows of a task are out of order exactly if it rises. -/
theorem rises_iff : t.Rises segs ↔ ¬ Fact.IsOrdered (mergedRows w segs t) := by
  have hpage {r : PageRef} (hr : r ∈ t.pages) :
      (∃ s pg, segs[r.segment]? = some s ∧ s.pages[r.page]? = some pg ∧
        pg.RisesUnder s.trie.width t.path) ↔
      ¬ Fact.IsOrdered (Fact.under w t.path (pageOf segs r).rows) := by
    rw [ht.pages] at hr
    rw [← Page.risesUnder_iff (h.isGrouped_pageOf hr) ht.ends.length_le]
    obtain ⟨s, pg, hs, hpg, heq⟩ := h.exists_page hr
    simp [hs, hpg, heq, h.width s (List.mem_of_getElem? hs)]
  rw [mergedRows, Fact.isOrdered_mergeAll_iff, MergeTask.Rises]
  simp only [List.forall_mem_map, not_forall]
  exact exists_congr fun r => by
    rw [exists_prop]
    exact and_congr_right fun hr => hpage hr

theorem isGrouped_mergedRows : Fact.IsGrouped (mergedRows w segs t) := by
  refine Fact.isGrouped_mergeAll fun l hl => ?_
  obtain ⟨r, hr, rfl⟩ := List.mem_map.1 hl
  exact (h.isGrouped_pageOf (ht.pages ▸ hr)).filter _

/-- A task that rises fails for malformed input. -/
theorem task_of_rises (hrises : t.Rises segs) (d : Disk) (q : Query) :
    ∃ message, (Scan.task d (segs.map .memory) q t).result =
      .error (.error (.malformed message)) := by
  rw [h.rises_iff ht, ← Query.exists_replay_iff (h.isGrouped_mergedRows ht) (q := q)] at hrises
  rw [h.result_task ht]
  cases hreplay : q.replay (mergedRows w segs t) with
  | ok rows => exact absurd ⟨rows, hreplay⟩ hrises
  | error fault => exact ⟨_, rfl⟩

/-- A task that does not rise has rows. -/
theorem task_of_not_rises (hrises : ¬ t.Rises segs) (d : Disk) (q : Query) :
    ∃ rows, (Scan.task d (segs.map .memory) q t).result = .ok rows := by
  rw [h.rises_iff ht, not_not, ← Query.exists_replay_iff (h.isGrouped_mergedRows ht) (q := q)]
    at hrises
  obtain ⟨rows, hrows⟩ := hrises
  exact ⟨rows, by rw [h.result_task ht, hrows]; rfl⟩

omit ht in
/-- There is a plan, its tasks leave no page out, and their paths part. -/
theorem exists_plan (q : Query) : ∃ tasks,
    (Plan.ofQuery (segs.map .memory) q).result = .ok tasks ∧ (∀ t ∈ tasks, t.IsWhole w segs) ∧
      tasks.Pairwise fun a b => Path.PartsBefore a.path b.path := by
  have hmemory : ∀ s ∈ segs.map Segment.memory, ∃ m, s = .memory m := by
    intro s hs
    obtain ⟨m, -, rfl⟩ := List.mem_map.1 hs
    exact ⟨m, rfl⟩
  by_cases hne : segs.map Segment.memory = []
  · exact ⟨[], by rw [hne]; rfl, by simp, .nil⟩
  have hplan := Plan.ofQuery_memory_yields h.width_memory h.height_memory hmemory hne q
  refine ⟨_, hplan.result, fun t ht => ?_, Plan.pairwise_tasks _⟩
  obtain ⟨hends, htask, -⟩ := Plan.of_mem_tasks h.height_memory ht
  exact ⟨hends, congrArg MergeTask.pages htask⟩

end AreReadable

/-- Segments with a common level width have that width. -/
theorem width_of_commonWidth {segments : List Segment}
    (h : Plan.commonWidth segments = .ok w) : ∀ s ∈ segments, s.width = w := by
  intro s hs
  obtain - | ⟨first, rest⟩ := segments
  · cases hs
  rw [Plan.commonWidth] at h
  split at h
  · rename_i hnone
    obtain rfl := Except.ok.inj h
    rcases List.mem_cons.1 hs with rfl | hs
    · rfl
    · simpa using List.find?_eq_none.1 hnone s hs
  · cases h

/-- Segments that are planned together have one level width. -/
theorem exists_width {segments : List Segment} {tasks : List MergeTask}
    (h : (Plan.ofQuery segments q).result = .ok tasks) : ∃ w, ∀ s ∈ segments, s.width = w := by
  cases hcommon : Plan.commonWidth segments with
  | error e =>
    rw [Plan.ofQuery, Plan.build, hcommon] at h
    cases h
  | ok w => exact ⟨w, width_of_commonWidth hcommon⟩

/-! ## The cursor -/

/-- What tasks give up to the first failure: their batches, and the failure. -/
def given (d : Disk) (segments : List Segment) (q : Query) :
    List MergeTask → List (Except Failure (Option Batch))
  | [] => []
  | t :: rest =>
    match (task d segments q t).result with
    | .error f => [.error f]
    | .ok rows =>
      if rows.isEmpty then given d segments q rest
      else .ok (some ⟨t.path, rows⟩) :: given d segments q rest

/-- Looking for the next batch finds the first thing that the tasks give. -/
theorem nextBatch_cases (d : Disk) (segments : List Segment) (q : Query) (w : Workspace)
    (tasks : List MergeTask) :
    (given d segments q tasks = [] ∧ (nextBatch d segments q w tasks).value.1 = .ok none) ∨
    (∃ f, given d segments q tasks = [.error f] ∧
      (nextBatch d segments q w tasks).value.1 = .error f) ∨
    ∃ b left rest, given d segments q tasks = .ok (some b) :: given d segments q rest ∧
      (nextBatch d segments q w tasks).value = (.ok (some b), left, rest) := by
  induction tasks generalizing w with
  | nil => exact .inl ⟨rfl, rfl⟩
  | cons t tasks ih =>
    rw [given, ← value_taskOn w, nextBatch, Logged.value_bind]
    obtain ⟨shown, left⟩ := (taskOn d segments q w t).value
    cases shown with
    | error f => exact .inr (.inl ⟨f, rfl, rfl⟩)
    | ok rows =>
      dsimp only
      split
      · exact ih left
      · exact .inr (.inr ⟨_, left, tasks, rfl, rfl⟩)

end Scan

namespace Cursor

/-- What so many advances of a cursor give. -/
def advances (d : Disk) : Nat → Cursor → List (Except Failure (Option Batch))
  | 0, _ => []
  | n + 1, c => (c.advance d).value.1 :: advances d n (c.advance d).value.2

/-- What a task gives when it is the only one of a cursor. -/
def alone (d : Disk) (c : Cursor) (t : MergeTask) : Except Failure (Option Batch) :=
  ({ c with tasks := [t] }.advance d).value.1

theorem advances_of_isDone {c : Cursor} (h : c.isDone) (n : Nat) :
    c.advances d n = List.replicate n (.ok none) := by
  induction n with
  | zero => rfl
  | succ n ih =>
    have hstep : (c.advance d).value = (.ok none, c) := by simp [advance, h]
    rw [advances, hstep, ih, List.replicate_succ]

/-- A cursor gives what its tasks give, and nothing after that. -/
theorem advances_eq {c : Cursor} (h : c.isDone = false)
    {given : List (Except Failure (Option Batch))}
    (hgiven : Scan.given d c.segments c.query c.tasks = given) (n : Nat) :
    c.advances d (given.length + n) = given ++ List.replicate n (.ok none) := by
  induction given generalizing c with
  | nil =>
    obtain - | n := n
    · rfl
    rcases Scan.nextBatch_cases d c.segments c.query c.workspace c.tasks with
      ⟨-, hnext⟩ | ⟨f, heq, -⟩ | ⟨b, left, rest, heq, -⟩
    · rw [List.length_nil, Nat.zero_add, advances, advance, h]
      simp only [Bool.false_eq_true, if_false, Logged.value_bind, Logged.value_pure, hnext]
      rw [advances_of_isDone (by rfl), List.nil_append, List.replicate_succ]
    · cases heq.symm.trans hgiven
    · cases heq.symm.trans hgiven
  | cons x given ih =>
    rw [List.length_cons, Nat.add_right_comm, advances, advance, h]
    simp only [Bool.false_eq_true, if_false, Logged.value_bind, Logged.value_pure]
    rcases Scan.nextBatch_cases d c.segments c.query c.workspace c.tasks with
      ⟨heq, -⟩ | ⟨f, heq, hnext⟩ | ⟨b, left, rest, heq, hnext⟩
    · cases heq.symm.trans hgiven
    · obtain ⟨rfl, rfl⟩ := List.cons.inj (heq.symm.trans hgiven)
      rw [hnext, advances_of_isDone (by rfl)]
      simp
    · obtain ⟨rfl, hrest⟩ := List.cons.inj (heq.symm.trans hgiven)
      rw [hnext, ih rfl hrest, List.cons_append]

/-- What a task gives when it is the only one. -/
theorem alone_eq {c : Cursor} (h : c.isDone = false) (t : MergeTask) :
    c.alone d t = (Scan.task d c.segments c.query t).result.map fun rows =>
      if rows.isEmpty then none else some ⟨t.path, rows⟩ := by
  rw [alone, advance, h, ← Scan.value_taskOn c.workspace]
  simp only [Bool.false_eq_true, if_false, Logged.value_bind, Logged.value_pure, Scan.nextBatch]
  obtain ⟨shown, left⟩ := (Scan.taskOn d c.segments c.query c.workspace t).value
  cases shown with
  | error f => rfl
  | ok rows =>
    dsimp only [Except.map]
    split <;> rfl

/-- The batches that some tasks give, each when it is the only one. -/
def batches (d : Disk) (c : Cursor) (tasks : List MergeTask) : List Batch :=
  tasks.filterMap fun t => (c.alone d t).toOption.join

/-- Tasks that do not fail give their batches, and leave the rest to what comes after them. -/
theorem given_append {c : Cursor} (h : c.isDone = false) {before : List MergeTask}
    (hbefore : ∀ t ∈ before, ∃ b, c.alone d t = .ok b) (rest : List MergeTask) :
    Scan.given d c.segments c.query (before ++ rest) =
      (c.batches d before).map (fun b => .ok (some b)) ++
        Scan.given d c.segments c.query rest := by
  induction before with
  | nil => rfl
  | cons t before ih =>
    rw [List.forall_mem_cons] at hbefore
    obtain ⟨b, hb⟩ := hbefore.1
    have ih := ih hbefore.2
    have halone := c.alone_eq (d := d) h t
    rw [List.cons_append, Scan.given]
    cases htask : (Scan.task d c.segments c.query t).result with
    | error f => simp [htask, hb, Except.map] at halone
    | ok rows =>
      rw [htask] at halone
      simp only [ih, batches, List.filterMap_cons, halone, Except.map]
      split <;> simp [Except.toOption, *]

/-- A task that fails is the last that gives something. -/
theorem given_cons_of_error {c : Cursor} (h : c.isDone = false) {t : MergeTask} {f : Failure}
    (ht : c.alone d t = .error f) (rest : List MergeTask) :
    Scan.given d c.segments c.query (t :: rest) = [c.alone d t] := by
  have halone := alone_eq (d := d) h t
  rw [ht] at halone ⊢
  rw [Scan.given]
  cases htask : (Scan.task d c.segments c.query t).result with
  | error g => simp_all [Except.map]
  | ok rows => simp [htask, Except.map] at halone

/-- Tasks that do not fail give their batches, the first one that fails its failure. -/
theorem advances_of_error {c : Cursor} (h : c.isDone = false) {before after : List MergeTask}
    {t : MergeTask} {f : Failure} (htasks : c.tasks = before ++ t :: after)
    (hbefore : ∀ t ∈ before, ∃ b, c.alone d t = .ok b) (ht : c.alone d t = .error f) (n : Nat) :
    c.advances d ((c.batches d before).length + 1 + n) =
      (c.batches d before).map (fun b => .ok (some b)) ++
        c.alone d t :: List.replicate n (.ok none) := by
  have hgiven := given_append h hbefore (t :: after)
  rw [given_cons_of_error h ht after, ← htasks] at hgiven
  simpa using advances_eq h hgiven n

theorem advances_of_ok {c : Cursor} (h : c.isDone = false)
    (htasks : ∀ t ∈ c.tasks, ∃ b, c.alone d t = .ok b) (n : Nat) :
    c.advances d ((c.batches d c.tasks).length + n) =
      (c.batches d c.tasks).map (fun b => .ok (some b)) ++ List.replicate n (.ok none) := by
  have hgiven := given_append h htasks []
  rw [List.append_nil, Scan.given, List.append_nil] at hgiven
  simpa using advances_eq h hgiven n

/-- A cursor starts before the tasks of a plan. -/
theorem ofQuery_eq_ok_iff {segments : List Segment} {c : Cursor} :
    (Cursor.ofQuery segments q).result = .ok c ↔
      ∃ tasks, (Plan.ofQuery segments q).result = .ok tasks ∧
        { segments, query := q, tasks } = c := by
  rw [Cursor.ofQuery, Engine.result_bind]
  cases (Plan.ofQuery segments q).result with
  | error f => simp [bind, Except.bind]
  | ok tasks => simp [bind, Except.bind, ofTasks]

/-- A cursor over segments in memory that were accepted, whose branches stand above the last level
and in whose pages ids never go back. A task fails for malformed input exactly if it rises. The
tasks before the first one that rises give the batches that they give alone, then that task fails,
and there is nothing after that. -/
theorem advances_rising
    (haccepted : ∀ s ∈ segs, MemorySegment.ofParts s.name s.trie s.pages = .ok s)
    (hregular : ∀ s ∈ segs, s.trie.IsRegular)
    (hgrouped : ∀ s ∈ segs, ∀ pg ∈ s.pages, Fact.IsGrouped pg.rows) (d : Disk) (q : Query) :
    ((∃ w, ∀ s ∈ segs, s.trie.width = w) →
      ∃ c, (Cursor.ofQuery (segs.map .memory) q).result = .ok c) ∧
    ∀ c, (Cursor.ofQuery (segs.map .memory) q).result = .ok c →
      (∀ t ∈ c.tasks, t.Rises segs →
        ∃ message, c.alone d t = .error (.error (.malformed message))) ∧
      (∀ t ∈ c.tasks, ¬ t.Rises segs → ∃ b, c.alone d t = .ok b) ∧
      (∀ before t after, c.tasks = before ++ t :: after → (∀ b ∈ before, ¬ b.Rises segs) →
        t.Rises segs → ∀ n, c.advances d ((c.batches d before).length + 1 + n) =
          (c.batches d before).map (fun b => .ok (some b)) ++
            c.alone d t :: List.replicate n (.ok none)) ∧
      ((∀ t ∈ c.tasks, ¬ t.Rises segs) → ∀ n,
        c.advances d ((c.batches d c.tasks).length + n) =
          (c.batches d c.tasks).map (fun b => .ok (some b)) ++ List.replicate n (.ok none)) := by
  have hreadable {w : BucketWidth} (hwidth : ∀ s ∈ segs, s.trie.width = w) :
      Scan.AreReadable w segs :=
    ⟨hwidth, fun s hs => hwidth s hs ▸ Trie.IsRegular.height_le (hregular s hs), haccepted,
      hgrouped⟩
  refine ⟨fun ⟨w, hwidth⟩ => ?_, fun c hc => ?_⟩
  · obtain ⟨tasks, htasks, -, -⟩ := (hreadable hwidth).exists_plan q
    exact ⟨_, ofQuery_eq_ok_iff.2 ⟨tasks, htasks, rfl⟩⟩
  obtain ⟨tasks, hplan, hcursor⟩ := ofQuery_eq_ok_iff.1 hc
  obtain ⟨w, hwidth⟩ := Scan.exists_width hplan
  have h : Scan.AreReadable w segs :=
    hreadable fun s hs => hwidth (.memory s) (List.mem_map_of_mem hs)
  obtain ⟨tasks', htasks, hwhole, -⟩ := h.exists_plan q
  obtain rfl := Except.ok.inj (hplan.symm.trans htasks)
  have hdone : c.isDone = false := by rw [← hcursor]
  have hrises : ∀ t ∈ c.tasks, t.Rises segs →
      ∃ message, c.alone d t = .error (.error (.malformed message)) := by
    rw [← hcursor]
    intro t ht hrises
    obtain ⟨message, hmessage⟩ := h.task_of_rises (hwhole t ht) hrises d q
    exact ⟨message, by rw [alone_eq rfl, hmessage]; rfl⟩
  have hrows : ∀ t ∈ c.tasks, ¬ t.Rises segs → ∃ b, c.alone d t = .ok b := by
    rw [← hcursor]
    intro t ht hrises
    obtain ⟨rows, hrows⟩ := h.task_of_not_rises (hwhole t ht) hrises d q
    exact ⟨_, by rw [alone_eq rfl, hrows]; rfl⟩
  refine ⟨hrises, hrows, fun before t after htasks hbefore ht n => ?_, fun hnone n => ?_⟩
  · obtain ⟨message, hmessage⟩ := hrises t (by simp [htasks]) ht
    exact advances_of_error hdone htasks (fun b hb => hrows b (by simp [htasks, hb]) (hbefore b hb))
      hmessage n
  · exact advances_of_ok hdone (fun t ht => hrows t ht (hnone t ht)) n

/-- A put, then a later delete of the same entity on one page, among the rows of another page. The
query knows neither. -/
theorem advances_rising_onePage :
    ∃ c, (Cursor.ofQuery [.memory (.onePage "rising" .two [Fact.assertion, Fact.retraction]),
        .memory (.single .two Fact.assertion)]
        { bounds := { system := ⟨.start, 5⟩ } }).result = .ok c ∧
      ∃ message, c.advances .empty 3 =
        [.error (.error (.malformed message)), .ok none, .ok none] := by
  have hsegs : ∀ s ∈ [MemorySegment.onePage "rising" .two [Fact.assertion, Fact.retraction],
      .single .two Fact.assertion], MemorySegment.ofParts s.name s.trie s.pages = .ok s ∧
        s.trie.IsRegular ∧ (∀ pg ∈ s.pages, Fact.IsGrouped pg.rows) ∧ s.trie.width = .two := by
    simp only [List.mem_cons, List.not_mem_nil, or_false]
    rintro s (rfl | rfl)
    · exact ⟨rfl, trivial, by simp [MemorySegment.onePage, Fact.IsGrouped, Fact.assertion,
        Fact.retraction], rfl⟩
    · exact ⟨rfl, trivial, by simp [MemorySegment.single, MemorySegment.onePage, Fact.IsGrouped],
        rfl⟩
  obtain ⟨hplan, hc⟩ := advances_rising (fun s hs => (hsegs s hs).1) (fun s hs => (hsegs s hs).2.1)
    (fun s hs => (hsegs s hs).2.2.1) .empty { bounds := { system := ⟨.start, 5⟩ } }
  obtain ⟨c, hplan⟩ := hplan ⟨.two, fun s hs => (hsegs s hs).2.2.2⟩
  obtain ⟨hrises, -, hadvances, -⟩ := hc c hplan
  have htasks : c.tasks = [⟨[], [⟨0, 0⟩, ⟨1, 0⟩]⟩] := by
    have hsame : Except.ok _ = Except.ok c := hplan
    rw [← Except.ok.inj hsame]
    rfl
  have ht : MergeTask.Rises [.onePage "rising" .two [Fact.assertion, Fact.retraction],
      .single .two Fact.assertion] ⟨[], [⟨0, 0⟩, ⟨1, 0⟩]⟩ := by
    refine ⟨⟨0, 0⟩, by simp, _, _, rfl, rfl, [], _, _, [], rfl, rfl, rfl, by decide⟩
  obtain ⟨message, hmessage⟩ := hrises _ (by simp [htasks]) ht
  refine ⟨c, hplan, message, ?_⟩
  rw [← hmessage]
  exact hadvances [] _ [] htasks (by simp) ht 2

end Cursor

end Bitemporal
