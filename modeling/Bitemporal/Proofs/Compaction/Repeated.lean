import Mathlib
import Bitemporal.Proofs.Compaction.Merge
import Bitemporal.Proofs.Scan.Repeated
import Bitemporal.Proofs.Segment.Written

/-!
# Compacted segments beside their inputs

A reader may still hold the segments of a compaction when its output is there already. What the
output holds is then read twice, which shows nothing new: what the compaction dropped stays behind
an erase, and what it kept stands behind its first copy.

## Main statements

* `Compaction.collect_repeated`: segments answer as before when they are read together with the
  segment that they were compacted to, or twice.
-/

namespace Bitemporal.Compaction

variable {w : BucketWidth} {newer segs older : List MemorySegment}
  {rowsNewer rows rowsOlder : List (List Fact)} {settings : Settings}

/-- What compaction leaves of some facts may be read together with them. -/
theorem answerAll_dropErased_append (q : Query) (a l b : List Fact) :
    q.answerAll (a ++ (dropErased (Fact.sort l) ++ (l ++ b))) = q.answerAll (a ++ (l ++ b)) := by
  rw [← List.append_assoc, answerAll_dropErased, List.append_assoc, q.answerAll_append_self]

/-- Segments answer every query as before when they are read together with the segment that they
were compacted to, and also when they are read twice. -/
theorem collect_repeated
    (hnewer : List.Forall₂ (fun rows s => MemorySegment.IsWriteOf w rows s) rowsNewer newer)
    (h : List.Forall₂ (fun rows s => MemorySegment.IsWriteOf w rows s) rows segs)
    (holder : List.Forall₂ (fun rows s => MemorySegment.IsWriteOf w rows s) rowsOlder older)
    (hcheck : settings.check = .ok w) (hallow : settings.oversized = .allow) (name : String)
    (d : Disk) : ∃ c, (toMemory settings name (segs.map .memory) d).value = .ok c ∧
      ∀ q, ∃ out, (Scan.collect d ((newer ++ segs ++ older).map .memory) q).result = .ok out ∧
        (Scan.collect d ((newer ++ [c] ++ segs ++ older).map .memory) q).result = .ok out ∧
        (Scan.collect d ((newer ++ segs ++ segs ++ older).map .memory) q).result = .ok out := by
  simp only [MemorySegment.isWriteOf_iff] at hnewer h holder
  obtain ⟨c, hc, hwritten⟩ := exists_toMemory h hcheck hallow name d
  refine ⟨c, hc, fun q => ⟨_, Scan.collect_memory (List.rel_append (List.rel_append hnewer h)
    holder) d q, ?_, ?_⟩⟩
  · have hall := List.rel_append (List.rel_append (List.rel_append hnewer (.cons hwritten .nil)) h)
      holder
    rw [Scan.collect_memory hall d q]
    simp only [List.flatten_append, List.flatten_singleton, List.append_assoc,
      answerAll_dropErased_append]
  · have hall := List.rel_append (List.rel_append (List.rel_append hnewer h) h) holder
    rw [Scan.collect_memory hall d q]
    simp only [List.flatten_append, List.append_assoc, Query.answerAll_append_self]

/-- An erase and a put that it hides are read together with the segment that they become, between a
newer and an older segment. -/
theorem collect_repeated_single :
    ∃ c, (toMemory {} "merged" [.memory (.single .two (Fact.eraseOf (.ofNat 1) 6)),
        .memory (.single .two Fact.assertion)] .empty).value = .ok c ∧
      ∃ out, (Scan.collect .empty [.memory (.single .two Fact.retraction),
          .memory (.single .two (Fact.eraseOf (.ofNat 1) 6)),
          .memory (.single .two Fact.assertion),
          .memory (.single .two Fact.assertion)] {}).result = .ok out ∧
        (Scan.collect .empty [.memory (.single .two Fact.retraction), .memory c,
          .memory (.single .two (Fact.eraseOf (.ofNat 1) 6)),
          .memory (.single .two Fact.assertion),
          .memory (.single .two Fact.assertion)] {}).result = .ok out := by
  have hwrite (f : Fact) : (MemorySegment.single .two f).IsWriteOf .two [f] :=
    (MemorySegment.isWrittenFrom_single .two f).isWriteOf
  have hcheck : Settings.check {} = .ok .two := rfl
  obtain ⟨c, hc, h⟩ := collect_repeated (.cons (hwrite Fact.retraction) .nil)
    (.cons (hwrite (Fact.eraseOf (.ofNat 1) 6)) (.cons (hwrite Fact.assertion) .nil))
    (.cons (hwrite Fact.assertion) .nil) hcheck rfl "merged" .empty
  obtain ⟨out, hout, hbeside, -⟩ := h {}
  exact ⟨c, hc, out, hout, hbeside⟩

end Bitemporal.Compaction
