import Mathlib
import Bitemporal.Proofs.Scan.Memory
import Bitemporal.Proofs.Scan.Pruning
import Bitemporal.Proofs.Scan.Showings
import Bitemporal.Proofs.Segment.Overlong
import Bitemporal.Proofs.Segment.Stored

/-!
# Scans of stored segments

Segments in files may stand among segments in memory. The summaries of stored pages let a scan leave
pages out, and this does not show: the rows are those of a scan of the same facts in memory.

## Main definitions

* `Holding.IsWritten`: a segment is the result of a write, in memory or in files.
* `Holding.IsConservative`: the predicates let every page pass that has a row to show.
* `Holding.Overflows`: a stored page has a record that cannot be read.

## Main statements

* `Scan.collect_pruned`: pruning never changes a scan.
* `Scan.collect_overlong`: a scan of files fails on a record that is too long.
-/

namespace Bitemporal

open Record (Defect minLength rowLength)

variable {d : Disk} {w : BucketWidth} {q : Query}

namespace Holding

variable {x : Holding}

/-- The segment is the result of writing the facts, in memory or in files that are still as the
write left them. -/
def IsWritten (d : Disk) (w : BucketWidth) (x : Holding) : Prop :=
  match x.segment with
  | .memory s => s.IsWrittenFrom w x.rows ∧ s.pages = x.pages
  | .stored s => s.IsWrittenFrom d w x.rows x.pages

/-- Every page with a summary passes the test of its content if one of its puts satisfies the
predicates. -/
def IsConservative (q : Query) (x : Holding) : Prop :=
  ∀ i page s, x.pages[i]? = some page → x.segment.summary? i = some s →
    (∃ f ∈ page.rows, ∃ doc, f.action = .put doc ∧ q.accepts doc) → q.contentMayHold s

/-- Some page has a record that does not fit. -/
def Overflows (x : Holding) : Prop := ∃ i s, x.segment.summary? i = some s ∧ ¬ s.Fits i

theorem IsWritten.isSound {excuse : Prop} (h : x.IsWritten d w)
    (hreads : ∀ f ∈ x.rows, ∀ c ∈ f.doc.fields, Json.ofString? c.2.compact = some c.2)
    (hexcuse : x.Overflows → excuse) : x.IsSound excuse d w := by
  obtain ⟨segment, pages, rows⟩ := x
  cases segment with
  | memory s =>
    obtain ⟨hs, rfl⟩ := h
    exact hs.isSound
  | stored s =>
    exact StoredSegment.IsWrittenFrom.isSound h hreads
      fun i summary hsummary hfits => hexcuse ⟨i, summary, hsummary, hfits⟩

theorem IsWritten.isGuarded (h : x.IsWritten d w) (hconservative : x.IsConservative q) :
    x.IsGuarded q := by
  intro i page s hpage hs
  obtain ⟨segment, pages, rows⟩ := x
  cases segment with
  | memory m => cases hs
  | stored m =>
    obtain ⟨hwords, hcovers⟩ := StoredSegment.IsWrittenFrom.covers h hpage hs
    refine ⟨hwords, hcovers, fun f hf hdoc => ?_⟩
    refine hconservative i page s hpage hs ⟨f, hf, ?_⟩
    rw [Query.shownDoc?] at hdoc
    split at hdoc
    · rename_i doc haction
      refine ⟨doc, haction, ?_⟩
      by_contra haccepts
      simp [haccepts] at hdoc
    · cases hdoc

end Holding

/-! ## A stored segment of one fact -/

namespace StoredSegment

/-- A segment of one fact in the default directory. -/
def single (f : Fact) : StoredSegment := ofRows {} ⟨.two, 1024, .allow⟩ "single" [f]

/-- The files after that segment was written. -/
def diskOfSingle (f : Fact) : Disk := (StoredSegment.write {} "single" [f] .empty).value.2

theorem pagesOf_single (f : Fact) : Writer.pagesOf ⟨.two, 1024, .allow⟩ [f] = [⟨[f]⟩] :=
  Writer.pagesOf_eq_singleton (by simp) (.inl (by simp))

theorem isWrittenFrom_single (f : Fact) :
    (single f).IsWrittenFrom (diskOfSingle f) .two [f] [⟨[f]⟩] := by
  have hroom : HasRoom {} "single" .empty := hasRoom_of_isNone rfl (by decide)
  rw [← pagesOf_single]
  exact isWrittenFrom_ofRows rfl rfl (Fact.isOrdered_singleton f) rfl hroom

theorem fits_single {f : Fact} (h : (Page.encode 0 ⟨[f]⟩).length < 2 ^ 32) {i : Nat}
    {s : PageSummary} (hs : (single f).summaries[i]? = some s) : s.Fits i := by
  rw [single, ofRows, pagesOf_single] at hs
  cases i with
  | zero =>
    obtain rfl := Option.some.inj hs
    exact ⟨by decide, h, Nat.zero_le _⟩
  | succ i => cases hs

end StoredSegment

/-! ## A stored segment of too many copies -/

namespace Scan

/-- A scan of too many copies fails where they are stored. -/
theorem result_collect_ofCopies {n : Nat} (hlong : 2 ^ 32 ≤ minLength + rowLength * n)
    (hheld : minLength + rowLength * n < StoredSegment.recordLimit)
    (hopen : d.openFile (Disk.join (StoredSegment.ofCopies n).directory StoredSegment.dataFile) =
      .ok (some ((Page.copies n).encode 0))) :
    (Scan.collect d [.stored (.ofCopies n)] {}).result =
      .error (.error (.pageUnavailable "copies" 0 (.corruption
        (Defect.wrongLength ((minLength + rowLength * n) % 2 ^ 32)
          (minLength + rowLength * n)).message))) := by
  have hknown : Bounds.knows {} 5 = true ∧ Window.unbounded.intersects .start .never = true := by
    decide
  have hjudge : Plan.judge? [.stored (.ofCopies n)] {} ⟨0, 0⟩ = some .relevant := by
    simpa [Plan.judge?, Plan.summary?, Segment.summary?, StoredSegment.ofCopies,
      StoredSegment.copiesManifest, Query.relevant?, PageSummary.overlaps,
      Query.contentMayHold] using hknown
  have hplan := Plan.ofQuery_leaf (i := 0) rfl rfl hjudge
  exact result_collect_of_load_error hplan (StoredSegment.loadPage_ofCopies hlong hheld hopen)

open Holding (segments facts)

variable {holdings : List Holding} {segs : List MemorySegment}

/-- Pruning never changes a scan. Segments in memory and in files show what the same facts show in
memory, unless the record of some stored page is too long to be read and the scan fails. -/
theorem collect_pruned (h : ∀ x ∈ holdings, x.IsWritten d w)
    (hmemory : List.Forall₂ (fun x s => MemorySegment.IsWrittenFrom w x.rows s) holdings segs)
    (hreads : ∀ x ∈ holdings, ∀ f ∈ x.rows, ∀ c ∈ f.doc.fields,
      Json.ofString? c.2.compact = some c.2)
    (hwindow : q.bounds.valid.lower < q.bounds.valid.upper)
    (hconservative : ∀ x ∈ holdings, x.IsConservative q) (d' : Disk) :
    ∃ out, (Scan.collect d' (segs.map .memory) q).result = .ok out ∧
      (Scan.collect d (segments holdings) q).Yields (∃ x ∈ holdings, x.Overflows) out := by
  refine ⟨q.answerAll (facts holdings), ?_, ?_⟩
  · have hrows : List.Forall₂ (fun rows s => MemorySegment.IsWrittenFrom w rows s)
        (holdings.map (·.rows)) segs := List.forall₂_map_left_iff.2 hmemory
    rw [collect_memory hrows d' q]
    rfl
  · have hsound : ∀ x ∈ holdings, x.IsSound (∃ x ∈ holdings, x.Overflows) d w := fun x hx =>
      (h x hx).isSound (hreads x hx) fun hoverflows => ⟨x, hx, hoverflows⟩
    have hguarded : ∀ x ∈ holdings, x.IsGuarded q := fun x hx =>
      (h x hx).isGuarded (hconservative x hx)
    exact Holding.collect_yields hsound (Holding.isHarmless_chosen hsound hguarded hwindow)

/-- One segment in files and a newer one in memory. -/
theorem collect_pruned_single : ∃ out,
    (Scan.collect .empty [.memory (.single .two Fact.assertion),
      .memory (.single .two Fact.retraction)] {}).result = .ok out ∧
    (Scan.collect (StoredSegment.diskOfSingle Fact.assertion)
      [.stored (.single Fact.assertion), .memory (.single .two Fact.retraction)] {}).result =
        .ok out := by
  let holdings : List Holding :=
    [⟨.stored (.single Fact.assertion), [⟨[Fact.assertion]⟩], [Fact.assertion]⟩,
      ⟨.memory (.single .two Fact.retraction), [⟨[Fact.retraction]⟩], [Fact.retraction]⟩]
  have hwritten : ∀ x ∈ holdings,
      x.IsWritten (StoredSegment.diskOfSingle Fact.assertion) .two := by
    simp only [holdings, List.forall_mem_cons]
    exact ⟨StoredSegment.isWrittenFrom_single _, ⟨MemorySegment.isWrittenFrom_single _ _, rfl⟩,
      by simp⟩
  have hreads : ∀ x ∈ holdings, ∀ f ∈ x.rows, ∀ c ∈ f.doc.fields,
      Json.ofString? c.2.compact = some c.2 := by
    simp [holdings, Fact.assertion, Fact.retraction, Fact.doc, Document.empty]
  have hfits : ¬ ∃ x ∈ holdings, x.Overflows := by
    simp only [holdings, List.mem_cons, List.not_mem_nil, or_false]
    rintro ⟨x, rfl | rfl, i, s, hs, hoverflows⟩
    · exact hoverflows (StoredSegment.fits_single (by decide +kernel) hs)
    · cases hs
  obtain ⟨out, hmemory, hstored⟩ := collect_pruned hwritten
    (.cons (MemorySegment.isWrittenFrom_single _ _)
      (.cons (MemorySegment.isWrittenFrom_single _ _) .nil)) hreads (q := {}) (by decide)
    (fun _ _ _ _ _ _ _ _ => rfl) .empty
  exact ⟨out, hmemory, hstored.resolve_right fun h => hfits h.1⟩

/-- Copies of a fact, so many that the length of their record does not fit four bytes. They are
stored as they are held in memory, and what is written of them as text is read back, but where a
scan of memory shows them, one of the files fails. -/
theorem collect_overlong :
    let rows := List.replicate (2 ^ 27) Fact.assertion
    let settings := StoredSegment.narrow
    let q : Query := {}
    (∀ f ∈ rows, ∀ c ∈ f.doc.fields, Json.ofString? c.2.compact = some c.2) ∧
      q.bounds.valid.lower < q.bounds.valid.upper ∧
      ∃ s d m, (StoredSegment.write settings "copies" rows .empty).value = (.ok s, d) ∧
        (MemorySegment.write "copies" rows settings).value = .ok m ∧
        (Json.Source.ofString? (Manifest.ofTrie s.trie s.summaries).toJson.pretty).bind
          Manifest.ofSource? = some (.ofTrie s.trie s.summaries) ∧
        (∀ summary ∈ s.summaries, q.contentMayHold summary) ∧
        ∃ out, (Scan.collect .empty [.memory m] q).result = .ok out ∧
          (Scan.collect d [.stored s] q).result =
            .error (.error (.pageUnavailable "copies" 0 (.corruption
              "page record length 1207959572 does not match the 5502926868 bytes read"))) := by
  intro rows settings q
  have hreads : ∀ f ∈ rows, ∀ c ∈ f.doc.fields, Json.ofString? c.2.compact = some c.2 := by
    intro f hf
    rw [List.eq_of_mem_replicate hf]
    simp [Fact.assertion, Fact.doc, Document.empty]
  obtain ⟨d, hwrite, hopen⟩ := StoredSegment.exists_write_copies (n := 2 ^ 27) (by decide)
  have hmemory := MemorySegment.value_write_copies (n := 2 ^ 27) (by decide)
  have hwritten : (MemorySegment.onePage "copies" .two rows).IsWrittenFrom .two rows :=
    ⟨Fact.isOrdered_replicate _ _, "copies", StoredSegment.narrow, rfl, rfl, hmemory⟩
  have hmessage : (Defect.wrongLength ((minLength + rowLength * 2 ^ 27) % 2 ^ 32)
      (minLength + rowLength * 2 ^ 27)).message =
        "page record length 1207959572 does not match the 5502926868 bytes read" := by
    decide +kernel
  have hfails := result_collect_ofCopies (by decide) (by decide) hopen
  rw [hmessage] at hfails
  exact ⟨hreads, by decide, _, d, _, hwrite, hmemory,
    StoredSegment.ofSource?_copiesManifest (5502926868, 134217728) (by simp), fun _ _ => rfl, _,
    collect_memory (.cons hwritten .nil) .empty q, hfails⟩

end Scan

end Bitemporal
