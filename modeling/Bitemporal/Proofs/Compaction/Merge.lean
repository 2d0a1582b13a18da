import Mathlib
import Bitemporal.Proofs.Compaction.Erased
import Bitemporal.Proofs.Scan.Memory
import Bitemporal.Proofs.Segment.Written

/-!
# Compacted segments

The tasks of a compaction cover all entities in ascending order. What they leave, one after the
other, is what is left of all facts, and the segment written from it takes the place of the segments
that were merged.

## Main statements

* `Holding.merge_yields`: the run of a compaction.
* `Compaction.toMemory_collect`: a compacted segment answers every query as its inputs did, between
  whatever other segments, and holds of each entity the history up to its first erase.
-/

namespace Bitemporal

open scoped Linear
open Plan (leavesAt taskFor)
open Compaction (dropErased)

variable {excuse : Prop} {d : Disk} {w : BucketWidth} {p : Path}

namespace Holding

variable {holdings : List Holding}

/-- A task leaves what is left of its merged rows. -/
theorem compactionTask_yields (h : ∀ x ∈ holdings, IsSound excuse d w x)
    (hp : p.length ≤ w.maxDepth) (hne : leavesAt (segments holdings) p ≠ []) :
    (Compaction.task d (segments holdings) ⟨p, leavesAt (segments holdings) p⟩).Yields excuse
      (dropErased (mergedAt holdings w p (leavesAt (segments holdings) p))) :=
  .bind (.mapM fun _ hr => load_yields h hr)
    (.bind (rows_yields h hp hne fun _ hr => hr) (.pure _))

/-- What a visit leaves, entity by entity. -/
theorem dropErased_mergedAt (h : ∀ x ∈ holdings, IsSound excuse d w x)
    (hp : Plan.EndsAt w (segments holdings) p) :
    dropErased (mergedAt holdings w p (leavesAt (segments holdings) p)) =
      ((entities holdings).filter (EntityId.isUnder w p)).flatMap fun e =>
        Fact.untilErase (Fact.versions e (Fact.sort (facts holdings))) := by
  have hids : ((entities holdings).filter (EntityId.isUnder w p)).Pairwise (· < ·) :=
    (pairwise_entities holdings).filter _
  have hmem : ∀ f ∈ mergedAt holdings w p (leavesAt (segments holdings) p),
      f.entity ∈ (entities holdings).filter (EntityId.isUnder w p) := fun f hf =>
    List.mem_filter.2 ⟨mem_entities.2 ⟨f, mem_facts_of_mem_mergedAt h hf, rfl⟩,
      isUnder_of_mem_mergedAt hf⟩
  have hleft := Compaction.dropErased_eq_flatMap (Fact.isOrdered_sort _) hids hmem
  rw [mergedAt, hleft]
  apply List.flatMap_congr
  intro e he
  rw [← mergedAt, versions_mergedAt_leavesAt h hp (List.mem_filter.1 he).2]

/-- What the task of a visit leaves, entity by entity. -/
theorem flatMap_dropErased_taskFor (h : ∀ x ∈ holdings, IsSound excuse d w x) {v : Plan.Visit}
    (hv : v.pages.isSome → Plan.EndsAt w (segments holdings) v.path) :
    (taskFor (leavesAt (segments holdings)) v).toList.flatMap
        (fun t => dropErased (mergedAt holdings w t.path t.pages)) =
      (v.covered w (entities holdings)).flatMap fun e =>
        Fact.untilErase (Fact.versions e (Fact.sort (facts holdings))) := by
  rw [taskFor, Plan.Visit.covered]
  by_cases hpages : v.pages.isSome
  swap
  · simp [hpages]
  have hleft := dropErased_mergedAt h (hv hpages)
  rw [if_pos hpages, ← hleft]
  by_cases hnone : leavesAt (segments holdings) v.path = []
  · rw [if_neg fun hc => hc.2 hnone, hnone, mergedAt_nil]
    rfl
  · rw [if_pos ⟨hpages, hnone⟩, Option.toList_some, List.flatMap_singleton]

/-- The run of a compaction is what is left of all facts. -/
theorem merge_yields (h : ∀ x ∈ holdings, IsSound excuse d w x) :
    (Compaction.merge d (segments holdings)).Yields excuse
      (dropErased (Fact.sort (facts holdings))) := by
  have htasks : ∀ t ∈ (Plan.visits w (segments holdings) fun _ => true).filterMap
      (taskFor (leavesAt (segments holdings))),
      (Compaction.task d (segments holdings) t).Yields excuse
        (dropErased (mergedAt holdings w t.path t.pages)) := by
    intro t ht
    obtain ⟨hends, htask, hkeeps⟩ := Plan.of_mem_tasks (height_le h) ht
    rw [htask]
    exact compactionTask_yields h hends.length_le hkeeps
  have hcover : (Plan.visits w (segments holdings) fun _ => true).flatMap
      (Plan.Visit.covered w (entities holdings)) = entities holdings :=
    flatMap_covered h (pairwise_entities holdings) (fun _ he => he) fun _ _ _ _ => rfl
  have hleft : ((Plan.visits w (segments holdings) fun _ => true).filterMap
      (taskFor (leavesAt (segments holdings)))).flatMap
        (fun t => dropErased (mergedAt holdings w t.path t.pages)) =
      dropErased (Fact.sort (facts holdings)) := by
    have hids := pairwise_entities holdings
    rw [Compaction.dropErased_eq_flatMap (Fact.isOrdered_sort _) hids fun f hf =>
      Fact.mem_entities.2 ⟨f, hf, rfl⟩, ← hcover, List.flatMap_assoc,
      List.filterMap_eq_flatMap_toList, List.flatMap_assoc]
    exact List.flatMap_congr fun v hv => flatMap_dropErased_taskFor h (endsAt_of_mem_visits h hv)
  rw [← hleft, List.flatMap_def]
  exact .bind (Plan.all_yields (width_eq h) (height_le h)) (.bind (.mapM htasks) (.pure _))

end Holding

namespace Compaction

variable {newer segs older : List MemorySegment} {rowsNewer rows rowsOlder : List (List Fact)}
  {settings : Settings}

/-- A compaction to memory is a write of what is left of all facts. -/
theorem toMemory_eq_write
    (h : List.Forall₂ (fun rows s => MemorySegment.IsWrittenFrom w rows s) rows segs)
    (hcheck : settings.check = .ok w) (hallow : settings.oversized = .allow) (name : String)
    (d : Disk) : ∃ c, (toMemory settings name (segs.map .memory) d).value = .ok c ∧
      (MemorySegment.write name (dropErased (Fact.sort rows.flatten)) settings).value = .ok c := by
  obtain ⟨holdings, hsegments, hfacts, -, hsound⟩ := Holding.exists_inMemory h d
  have hmerge := (Holding.merge_yields hsound).result
  rw [hsegments, hfacts, Engine.result] at hmerge
  have hordered := isOrdered_dropErased_sort rows.flatten
  obtain ⟨wr, hwr, rfl, hoversized⟩ := Writer.exists_ofSettings hcheck hallow
  refine ⟨_, ?_, MemorySegment.value_write hwr hoversized hordered name⟩
  rw [toMemory, hwr]
  simp only [write, Logged.value_bind, Logged.value_pure, hmerge,
    Writer.value_write hoversized hordered, MemorySegment.ofParts_eq (wr.divides_write _)]
  rfl

/-- A compaction to memory succeeds, and its segment is written from what is left of all facts. -/
theorem exists_toMemory
    (h : List.Forall₂ (fun rows s => MemorySegment.IsWrittenFrom w rows s) rows segs)
    (hcheck : settings.check = .ok w) (hallow : settings.oversized = .allow) (name : String)
    (d : Disk) : ∃ c, (toMemory settings name (segs.map .memory) d).value = .ok c ∧
      c.IsWrittenFrom w (dropErased (Fact.sort rows.flatten)) := by
  obtain ⟨c, hc, hwrite⟩ := toMemory_eq_write h hcheck hallow name d
  exact ⟨c, hc, isOrdered_dropErased_sort _, name, settings, hcheck, hallow, hwrite⟩

/-- A compacted segment answers every query as the segments did that it was made from, between
whatever newer and older segments. It holds less than they do: of each entity the history, newest
first, up to its first erase. -/
theorem toMemory_collect
    (hnewer : List.Forall₂ (fun rows s => MemorySegment.IsWriteOf w rows s) rowsNewer newer)
    (h : List.Forall₂ (fun rows s => MemorySegment.IsWriteOf w rows s) rows segs)
    (holder : List.Forall₂ (fun rows s => MemorySegment.IsWriteOf w rows s) rowsOlder older)
    (hcheck : settings.check = .ok w) (hallow : settings.oversized = .allow) (name : String)
    (d : Disk) : ∃ c, (toMemory settings name (segs.map .memory) d).value = .ok c ∧
      Fact.IsOrdered (c.pages.flatMap Page.rows) ∧
      (∀ e, Fact.versions e (c.pages.flatMap Page.rows) =
        Fact.untilErase (Fact.sort (Fact.versions e rows.flatten))) ∧
      ∀ q, ∃ out, (Scan.collect d ((newer ++ [c] ++ older).map .memory) q).result = .ok out ∧
        (Scan.collect d ((newer ++ segs ++ older).map .memory) q).result = .ok out := by
  simp only [MemorySegment.isWriteOf_iff] at hnewer h holder
  obtain ⟨c, hc, hwritten⟩ := exists_toMemory h hcheck hallow name d
  refine ⟨c, hc, ?_, fun e => ?_, fun q => ⟨q.answerAll (rowsNewer ++ rows ++ rowsOlder).flatten,
    ?_, ?_⟩⟩
  · rw [hwritten.flatMap_pages]
    exact hwritten.ordered
  · rw [hwritten.flatMap_pages, versions_dropErased (Fact.isOrdered_sort _), Fact.versions_sort]
  · have hall := List.rel_append (List.rel_append hnewer (.cons hwritten .nil)) holder
    rw [Scan.collect_memory hall d q, List.flatten_append, List.flatten_append,
      List.flatten_append, List.flatten_append, List.flatten_singleton, answerAll_dropErased]
  · exact Scan.collect_memory (List.rel_append (List.rel_append hnewer h) holder) d q

/-- An erase and a put that it hides become one segment, between a newer and an older one. The
erase is all that the segment holds. -/
theorem toMemory_collect_single :
    ∃ c, (toMemory {} "merged" [.memory (.single .two (Fact.eraseOf (.ofNat 1) 6)),
        .memory (.single .two Fact.assertion)] .empty).value = .ok c ∧
      Fact.versions (.ofNat 1) (c.pages.flatMap Page.rows) = [Fact.eraseOf (.ofNat 1) 6] ∧
      ∃ out, (Scan.collect .empty [.memory (.single .two Fact.retraction), .memory c,
          .memory (.single .two Fact.assertion)] {}).result = .ok out ∧
        (Scan.collect .empty [.memory (.single .two Fact.retraction),
          .memory (.single .two (Fact.eraseOf (.ofNat 1) 6)),
          .memory (.single .two Fact.assertion),
          .memory (.single .two Fact.assertion)] {}).result = .ok out := by
  have hwritten (f : Fact) := (MemorySegment.isWrittenFrom_single .two f).isWriteOf
  have hcheck : Settings.check {} = .ok .two := rfl
  obtain ⟨c, hc, -, hversions, h⟩ := toMemory_collect (.cons (hwritten Fact.retraction) .nil)
    (.cons (hwritten (Fact.eraseOf (.ofNat 1) 6)) (.cons (hwritten Fact.assertion) .nil))
    (.cons (hwritten Fact.assertion) .nil) hcheck rfl "merged" .empty
  refine ⟨c, hc, ?_, h {}⟩
  rw [hversions, Fact.sort_eq_self]
  · rfl
  · unfold Fact.IsOrdered
    decide

end Compaction

end Bitemporal
