import Mathlib
import Bitemporal.Proofs.Compaction.Merge
import Bitemporal.Proofs.Segment.Written

/-!
# Compactions one after the other

Neighbouring segments are compacted, the result is compacted again with its neighbours, and so on.
Whatever the order and the grouping are, the merged run of all segments stays as it is: the history
of each entity, newest first, up to its first erase.

## Main definitions

* `Compaction.Compacts`: some neighbouring segments become one.
* `Compaction.Leaves`: segments in memory, and what is left of their facts.

## Main statements

* `Compaction.Leaves.compact`, `Compaction.Leaves.run`: one compaction, and many, leave the same.
* `Compaction.merge_regroup`: the merged run after any compactions.
-/

namespace Bitemporal.Compaction

variable {w : BucketWidth} {d : Disk} {segs segs' : List MemorySegment} {rows : List (List Fact)}
  {settings : Settings} {name : String} {out : List Fact}

/-- Some neighbouring segments, possibly none, become one in their place. -/
inductive Compacts (w : BucketWidth) (d : Disk) : List MemorySegment → List MemorySegment → Prop
  | compact {newer part older : List MemorySegment} {settings : Settings} {name : String}
      {c : MemorySegment} (hcheck : settings.check = .ok w) (hallow : settings.oversized = .allow)
      (hc : (toMemory settings name (part.map .memory) d).value = .ok c) :
      Compacts w d (newer ++ part ++ older) (newer ++ [c] ++ older)

/-- Segments that were written under a level width, and what is left of all their facts. -/
def Leaves (w : BucketWidth) (segs : List MemorySegment) (out : List Fact) : Prop :=
  ∃ rows, List.Forall₂ (fun rows s => MemorySegment.IsWrittenFrom w rows s) rows segs ∧
    dropErased (Fact.sort rows.flatten) = out

namespace Leaves

theorem merge (h : Leaves w segs out) (d : Disk) :
    (Compaction.merge d (segs.map .memory)).result = .ok out := by
  obtain ⟨rows, hrows, rfl⟩ := h
  obtain ⟨holdings, hsegments, hfacts, -, hsound⟩ := Holding.exists_inMemory hrows d
  rw [← hsegments, ← hfacts]
  exact (Holding.merge_yields hsound).result

/-- The facts of segments side by side are split as the segments are. -/
theorem exists_split {l : List (List Fact)} {xs ys : List MemorySegment}
    (h : List.Forall₂ (fun rows s => MemorySegment.IsWrittenFrom w rows s) l (xs ++ ys)) :
    ∃ a b, l = a ++ b ∧
      List.Forall₂ (fun rows s => MemorySegment.IsWrittenFrom w rows s) a xs ∧
      List.Forall₂ (fun rows s => MemorySegment.IsWrittenFrom w rows s) b ys :=
  ⟨_, _, (List.take_append_drop xs.length l).symm, List.forall₂_take_append l xs ys h,
    List.forall₂_drop_append l xs ys h⟩

/-- A compaction succeeds and leaves the same; done once more, it changes nothing. -/
theorem compact {newer part older : List MemorySegment} (h : Leaves w (newer ++ part ++ older) out)
    (hcheck : settings.check = .ok w) (hallow : settings.oversized = .allow) (name : String)
    (d : Disk) : ∃ c, (toMemory settings name (part.map .memory) d).value = .ok c ∧
      Leaves w (newer ++ [c] ++ older) out ∧
      (toMemory settings name [.memory c] d).value = .ok c := by
  obtain ⟨rows, hrows, rfl⟩ := h
  obtain ⟨rows, rowsOlder, rfl, hrows, holder⟩ := exists_split hrows
  obtain ⟨rowsNewer, rows, rfl, hnewer, hpart⟩ := exists_split hrows
  obtain ⟨c, hc, hwrite⟩ := toMemory_eq_write hpart hcheck hallow name d
  have hwritten : c.IsWrittenFrom w (dropErased (Fact.sort rows.flatten)) :=
    ⟨isOrdered_dropErased_sort _, name, settings, hcheck, hallow, hwrite⟩
  refine ⟨c, hc, ⟨rowsNewer ++ [dropErased (Fact.sort rows.flatten)] ++ rowsOlder, ?_, ?_⟩, ?_⟩
  · exact List.rel_append (List.rel_append hnewer (.cons hwritten .nil)) holder
  · simp only [List.flatten_append, List.flatten_singleton, dropErased_sort_append]
  · obtain ⟨c', hc', hwrite'⟩ := toMemory_eq_write (.cons hwritten .nil) hcheck hallow name d
    have hidem := dropErased_sort_append [] rows.flatten []
    simp only [List.nil_append, List.append_nil] at hidem
    rw [List.flatten_singleton, hidem, hwrite] at hwrite'
    obtain rfl := Except.ok.inj hwrite'
    exact hc'

theorem step (h : Leaves w segs out) (hstep : Compacts w d segs segs') : Leaves w segs' out := by
  cases hstep with
  | compact hcheck hallow hc =>
    obtain ⟨c', hc', hleaves, -⟩ := h.compact hcheck hallow _ d
    obtain rfl := Except.ok.inj (hc.symm.trans hc')
    exact hleaves

theorem run (h : Leaves w segs out) (hsteps : Relation.ReflTransGen (Compacts w d) segs segs') :
    Leaves w segs' out := by
  induction hsteps with
  | refl => exact h
  | tail _ hstep ih => exact ih.step hstep

end Leaves

/-- After any compactions of segments, the merged run is what it was before: it is ordered, and of
each entity it holds the history, newest first, up to its first erase. Any neighbouring segments can
be compacted further, which leaves the same run, and compacting the result again changes nothing. -/
theorem merge_regroup
    (h : List.Forall₂ (fun rows s => MemorySegment.IsWriteOf w rows s) rows segs)
    (hsteps : Relation.ReflTransGen (Compacts w d) segs segs') :
    ∃ out, (merge d (segs.map .memory)).result = .ok out ∧
      (merge d (segs'.map .memory)).result = .ok out ∧
      Fact.IsOrdered out ∧
      (∀ e, Fact.versions e out =
        Fact.untilErase (Fact.sort (Fact.versions e rows.flatten))) ∧
      ∀ newer part older, segs' = newer ++ part ++ older → ∀ settings name,
        settings.check = .ok w → settings.oversized = .allow →
          ∃ c, (toMemory settings name (part.map .memory) d).value = .ok c ∧
            (merge d ((newer ++ [c] ++ older).map .memory)).result = .ok out ∧
            (toMemory settings name [.memory c] d).value = .ok c := by
  simp only [MemorySegment.isWriteOf_iff] at h
  have hleaves : Leaves w segs (dropErased (Fact.sort rows.flatten)) := ⟨rows, h, rfl⟩
  have hrun := hleaves.run hsteps
  refine ⟨_, hleaves.merge d, hrun.merge d, isOrdered_dropErased_sort _, fun e => ?_, ?_⟩
  · rw [versions_dropErased (Fact.isOrdered_sort _), Fact.versions_sort]
  · rintro newer part older rfl settings name hcheck hallow
    obtain ⟨c, hc, hsame, hagain⟩ := hrun.compact hcheck hallow name d
    exact ⟨c, hc, hsame.merge d, hagain⟩

/-- An erase and a put that it hides become one segment, which is merged with an older put. -/
theorem merge_regroup_single :
    ∃ c out, (toMemory {} "merged" [.memory (.single .two (Fact.eraseOf (.ofNat 1) 6)),
        .memory (.single .two Fact.assertion)] .empty).value = .ok c ∧
      (merge .empty [.memory (.single .two (Fact.eraseOf (.ofNat 1) 6)),
        .memory (.single .two Fact.assertion),
        .memory (.single .two Fact.assertion)]).result = .ok out ∧
      (merge .empty [.memory c, .memory (.single .two Fact.assertion)]).result = .ok out ∧
      Fact.versions (.ofNat 1) out = [Fact.eraseOf (.ofNat 1) 6] := by
  have hwritten := MemorySegment.isWrittenFrom_single .two
  have hcheck : Settings.check {} = .ok .two := rfl
  obtain ⟨c, hc, -⟩ := exists_toMemory (.cons (hwritten (Fact.eraseOf (.ofNat 1) 6))
    (.cons (hwritten Fact.assertion) .nil)) hcheck rfl "merged" .empty
  have hstep : Compacts .two .empty
      ([] ++ [.single .two (Fact.eraseOf (.ofNat 1) 6), .single .two Fact.assertion] ++
        [.single .two Fact.assertion]) ([] ++ [c] ++ [.single .two Fact.assertion]) :=
    .compact hcheck rfl hc
  obtain ⟨out, hout, hout', -, hversions, -⟩ := merge_regroup
    (.cons (hwritten (Fact.eraseOf (.ofNat 1) 6)).isWriteOf
      (.cons (hwritten Fact.assertion).isWriteOf (.cons (hwritten Fact.assertion).isWriteOf .nil)))
    (.single hstep)
  refine ⟨c, out, hc, hout, hout', ?_⟩
  rw [hversions, Fact.sort_eq_self]
  · rfl
  · unfold Fact.IsOrdered
    decide

end Bitemporal.Compaction
