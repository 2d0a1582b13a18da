import Mathlib
import Bitemporal.Proofs.Plan.Choice
import Bitemporal.Proofs.Scan.Collect

/-!
# Scans of segments in memory

Of pages in memory nothing is known before they are loaded, so a scan keeps all of them. Its rows
depend on the facts alone, in the stable order of their keys: neither the cut into segments, nor the
row limits, nor the level width leave a trace.

## Main statements

* `Scan.collect_memory`: the rows of a scan.
* `Scan.collect_eq_of_sort_eq`: the cut of facts into segments does not show.
-/

namespace Bitemporal

open Plan (leavesAt)

variable {d : Disk} {w : BucketWidth} {q : Query}

namespace Holding

variable {holdings : List Holding}

/-- Nothing is known of pages in memory. -/
def IsInMemory (holdings : List Holding) : Prop :=
  ∀ x ∈ holdings, ∃ s, x.segment = .memory s

theorem IsInMemory.exists_memory (h : IsInMemory holdings) :
    ∀ s ∈ segments holdings, ∃ m, s = .memory m := by
  intro s hs
  obtain ⟨x, hx, rfl⟩ := List.mem_map.1 hs
  exact h x hx

/-- Every page in memory is relevant, so all of them stay. -/
theorem IsInMemory.isHarmless (h : IsInMemory holdings)
    (hsound : ∀ x ∈ holdings, IsSound False d w x) :
    IsHarmless q w holdings (leavesAt (segments holdings)) where
  chosen p _ := Plan.choosePages_memory h.exists_memory q p
  subset _ _ hr := hr
  shown p hp e he _ := by rw [versions_mergedAt_leavesAt hsound hp he]

/-- Segments in memory hold the facts that they were written from. -/
theorem exists_inMemory {segs : List MemorySegment} {rows : List (List Fact)}
    (h : List.Forall₂ (fun rows s => MemorySegment.IsWrittenFrom w rows s) rows segs) (d : Disk) :
    ∃ holdings, segments holdings = segs.map .memory ∧ facts holdings = rows.flatten ∧
      IsInMemory holdings ∧ ∀ x ∈ holdings, IsSound False d w x := by
  induction h with
  | nil => exact ⟨[], rfl, rfl, by simp [IsInMemory], by simp⟩
  | @cons rows s _ _ hs _ ih =>
    obtain ⟨holdings, hsegments, hfacts, hmemory, hsound⟩ := ih
    refine ⟨⟨.memory s, s.pages, rows⟩ :: holdings, ?_, ?_, ?_, ?_⟩
    · rw [segments, List.map_cons, ← segments, hsegments, List.map_cons]
    · rw [facts, List.flatMap_cons, ← facts, hfacts, List.flatten_cons]
    · exact List.forall_mem_cons.2 ⟨⟨s, rfl⟩, hmemory⟩
    · exact List.forall_mem_cons.2 ⟨hs.isSound, hsound⟩

end Holding

/-! ## Two versions of an entity -/

namespace Fact

/-- A put over all of valid time. -/
def assertion : Fact := ⟨.ofNat 1, .start, .never, 5, .put .empty⟩

/-- A later delete over a part of it. -/
def retraction : Fact := ⟨.ofNat 1, 3, 7, 8, .delete⟩

theorem isOrdered_retraction_assertion : IsOrdered [retraction, assertion] := by
  unfold IsOrdered
  decide

theorem isOrdered_singleton (f : Fact) : IsOrdered [f] := List.pairwise_singleton _ f

end Fact

/-- A segment of one fact. -/
def MemorySegment.single (w : BucketWidth) (f : Fact) : MemorySegment := onePage "single" w [f]

theorem MemorySegment.isWrittenFrom_single (w : BucketWidth) (f : Fact) :
    (single w f).IsWrittenFrom w [f] :=
  isWrittenFrom_onePage "single" w (Fact.isOrdered_singleton f) (by simp) (by simp)

namespace Scan

variable {segs segs' : List MemorySegment} {rows rows' : List (List Fact)}

/-- The rows of a scan of segments in memory are what the histories of all facts show. -/
theorem collect_memory
    (h : List.Forall₂ (fun rows s => MemorySegment.IsWrittenFrom w rows s) rows segs) (d : Disk)
    (q : Query) :
    (Scan.collect d (segs.map .memory) q).result = .ok (q.answerAll rows.flatten) := by
  obtain ⟨holdings, hsegments, hfacts, hmemory, hsound⟩ := Holding.exists_inMemory h d
  rw [← hsegments, ← hfacts]
  exact (Holding.collect_yields hsound (hmemory.isHarmless hsound)).result

/-- Facts that are one history in two cuts give the same rows, whatever the cuts, the row limits
and the level widths are. -/
theorem collect_eq_of_sort_eq {w' : BucketWidth}
    (h : List.Forall₂ (fun rows s => MemorySegment.IsWrittenFrom w rows s) rows segs)
    (h' : List.Forall₂ (fun rows s => MemorySegment.IsWrittenFrom w' rows s) rows' segs')
    (hsort : Fact.sort rows.flatten = Fact.sort rows'.flatten) (d : Disk) (q : Query) :
    ∃ out, (Scan.collect d (segs.map .memory) q).result = .ok out ∧
      (Scan.collect d (segs'.map .memory) q).result = .ok out := by
  refine ⟨q.answerAll rows.flatten, collect_memory h d q, ?_⟩
  rw [collect_memory h' d q, Query.answerAll, Query.answerAll, hsort]

/-- One segment, and two of another level width. -/
theorem collect_eq_of_sort_eq_single :
    ∃ out, (Scan.collect .empty
        [.memory (.onePage "both" .two [Fact.retraction, Fact.assertion])] {}).result = .ok out ∧
      (Scan.collect .empty [.memory (.single .four Fact.retraction),
        .memory (.single .four Fact.assertion)] {}).result = .ok out :=
  collect_eq_of_sort_eq
    (.cons (MemorySegment.isWrittenFrom_onePage "both" .two Fact.isOrdered_retraction_assertion
      (by simp) (by simp)) .nil)
    (.cons (MemorySegment.isWrittenFrom_single _ _)
      (.cons (MemorySegment.isWrittenFrom_single _ _) .nil))
    rfl .empty {}

end Scan

end Bitemporal
