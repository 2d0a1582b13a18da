import Mathlib
import Bitemporal.Proofs.Compaction.Erased
import Bitemporal.Proofs.Scan.Visibility
import Bitemporal.Proofs.Segment.Written

/-!
# Answers as of a system time

Facts recorded at or after the end of the window of system time are not known to a query, so they
leave its answer as it is, wherever they stand among the segments. Erases are the exception: an
erase takes every row of its entity out of the answer, however late it was recorded.

## Main definitions

* `Fact.hasErase`: whether facts erase an entity.
* `Query.matters`: whether a version can change what a history shows.

## Main statements

* `Query.shown_later`: what the history of an entity shows beside later facts.
* `Query.answerAll_later`: what facts show beside later ones.
* `Scan.collect_later`: what a scan shows after later writes.
-/

namespace Bitemporal

open scoped Linear
open Ledger

variable {q : Query} {e : EntityId} {rows a n b : List Fact}

/-- Whether facts erase an entity. -/
def Fact.hasErase (e : EntityId) (rows : List Fact) : Bool :=
  rows.any fun f => f.isErase && f.entity = e

namespace Query

/-- Whether a version can change what a history shows: it ends the history, or the query knows
it. -/
def matters (q : Query) (f : Fact) : Bool := f.isErase || q.bounds.knows f.systemFrom

theorem shownFrom_filter_matters (steps : List Step) (rows : List Fact) :
    q.shownFrom steps (rows.filter q.matters) = q.shownFrom steps rows := by
  induction rows generalizing steps with
  | nil => rfl
  | cons f rest ih =>
    by_cases hf : q.matters f
    · rw [List.filter_cons_of_pos hf, shownFrom, shownFrom, ih, ih]
    · rw [List.filter_cons_of_neg hf, ih, shownFrom]
      simp_all [matters]

/-- An erase that is unknown to a query hides all the same: whatever stands before it in the
history is unknown too. -/
theorem shownFrom_eq_nil_of_isErase {steps : List Step} {f : Fact}
    (hrows : rows.Pairwise fun f g => g.systemFrom ≤ f.systemFrom) (hf : f ∈ rows)
    (herase : f.isErase) (hlate : q.bounds.system.upper ≤ f.systemFrom) :
    q.shownFrom steps rows = [] := by
  induction rows with
  | nil => cases hf
  | cons g rest ih =>
    rw [List.pairwise_cons] at hrows
    rw [shownFrom]
    split
    · rfl
    · rename_i hg
      have hrest : f ∈ rest := by
        rcases List.mem_cons.1 hf with rfl | hf
        · exact absurd herase hg
        · exact hf
      have hunknown : ¬ q.bounds.knows g.systemFrom := by
        have hle := hlate.trans (hrows.1 f hrest)
        simpa [Bounds.knows] using hle
      rw [if_pos hunknown, ih hrows.2 hrest]

/-- Later facts among the facts of an entity: its history shows what it showed without them, or
nothing at all if they erase the entity. -/
theorem shown_later (hlater : ∀ f ∈ n, q.bounds.system.upper ≤ f.systemFrom) :
    q.shown (Fact.versions e (Fact.sort (a ++ n ++ b))) =
      if Fact.hasErase e n then [] else q.shown (Fact.versions e (Fact.sort (a ++ b))) := by
  split
  · rename_i herase
    obtain ⟨f, hf, hferase, hfe⟩ : ∃ f ∈ n, f.isErase ∧ f.entity = e := by
      simpa [Fact.hasErase] using herase
    have hmem : f ∈ Fact.versions e (Fact.sort (a ++ n ++ b)) :=
      Fact.mem_versions.2 ⟨Fact.mem_sort.2 (by simp [hf]), hfe⟩
    exact shownFrom_eq_nil_of_isErase ((Fact.isOrdered_sort _).pairwise_versions e) hmem hferase
      (hlater f hf)
  · rename_i herase
    have hnone : (Fact.versions e n).filter q.matters = [] := by
      refine List.filter_eq_nil_iff.2 fun f hf => ?_
      rw [Fact.mem_versions] at hf
      have hnot : f.isErase = false := by
        simp only [Fact.hasErase, List.any_eq_true, not_exists] at herase
        have := herase f
        simp_all
      have hunknown := hlater f hf.1
      simp [matters, hnot, Bounds.knows, hunknown]
    rw [shown, shown, ← shownFrom_filter_matters, Fact.versions_sort, Fact.filter_sort,
      ← shownFrom_filter_matters _ (Fact.versions e (Fact.sort (a ++ b))), Fact.versions_sort,
      Fact.filter_sort]
    simp only [Fact.versions_append, List.filter_append, hnone, List.append_nil]

/-! ## All entities -/

/-- Entities whose histories show nothing may be left out of an answer. -/
theorem answer_filter {ids : List EntityId} {keep : EntityId → Bool}
    (h : ∀ e, ¬ keep e → q.shown (Fact.versions e rows) = []) :
    q.answer (ids.filter keep) rows = q.answer ids rows := by
  induction ids with
  | nil => rfl
  | cons e ids ih =>
    by_cases he : keep e
    · rw [List.filter_cons_of_pos he, answer, answer, List.flatMap_cons, List.flatMap_cons,
        ← answer, ← answer, ih]
    · rw [List.filter_cons_of_neg he, ih, answer, answer, List.flatMap_cons, h e he, ite_self,
        List.nil_append]

/-- Later facts take the entities that they erase out of an answer, and change nothing else. -/
theorem answerAll_later (hlater : ∀ f ∈ n, q.bounds.system.upper ≤ f.systemFrom) :
    q.answerAll (a ++ n ++ b) =
      (q.answerAll (a ++ b)).filter fun r => !Fact.hasErase r.entity n := by
  have hsub : ∀ f ∈ a ++ b, f ∈ a ++ n ++ b := by
    intro f hf
    rcases List.mem_append.1 hf with hf | hf <;> simp [hf]
  have herased : ∀ e, ¬ (!Fact.hasErase e n) →
      q.shown (Fact.versions e (Fact.sort (a ++ n ++ b))) = [] := by
    intro e he
    rw [shown_later hlater, if_pos (by simpa using he)]
  rw [q.answerAll_eq_of_subset hsub, answerAll, filter_entity_answer (fun e => !Fact.hasErase e n),
    ← answer_filter herased]
  apply answer_congr
  intro e he _
  rw [shown_later hlater, if_neg (by simpa using (List.mem_filter.1 he).2)]

end Query

namespace Scan

variable {w : BucketWidth} {newer later older : List MemorySegment}
  {rowsNewer rowsLater rowsOlder : List (List Fact)}

/-- Segments whose facts were all recorded at or after the end of the window of system time take the
entities that they erase out of the answer of a scan, and change nothing else. -/
theorem collect_later
    (hnewer : List.Forall₂ (fun rows s => MemorySegment.IsWriteOf w rows s) rowsNewer newer)
    (h : List.Forall₂ (fun rows s => MemorySegment.IsWriteOf w rows s) rowsLater later)
    (holder : List.Forall₂ (fun rows s => MemorySegment.IsWriteOf w rows s) rowsOlder older)
    (q : Query) (hlater : ∀ rows ∈ rowsLater, ∀ f ∈ rows, q.bounds.system.upper ≤ f.systemFrom)
    (d : Disk) :
    ∃ out, (Scan.collect d ((newer ++ older).map .memory) q).result = .ok out ∧
      (Scan.collect d ((newer ++ later ++ older).map .memory) q).result =
        .ok (out.filter fun r => !Fact.hasErase r.entity rowsLater.flatten) := by
  simp only [MemorySegment.isWriteOf_iff] at hnewer h holder
  refine ⟨_, collect_memory (List.rel_append hnewer holder) d q, ?_⟩
  have hall := List.rel_append (List.rel_append hnewer h) holder
  rw [collect_memory hall d q]
  simp only [List.flatten_append]
  rw [Query.answerAll_later fun f hf => ?_]
  obtain ⟨rows, hrows, hf⟩ := List.mem_flatten.1 hf
  exact hlater rows hrows f hf

/-- Between a put and a query of the time before its correction, the correction leaves no trace, nor
does the erase of another entity. -/
theorem collect_later_single :
    ∃ out, (Scan.collect .empty [.memory (.single .two Fact.assertion)]
        { bounds := { system := ⟨.start, 6⟩ } }).result = .ok out ∧
      (Scan.collect .empty [.memory (.single .two Fact.retraction),
          .memory (.single .two (Fact.eraseOf (.ofNat 2) 9)),
          .memory (.single .two Fact.assertion)]
        { bounds := { system := ⟨.start, 6⟩ } }).result =
        .ok (out.filter fun r => !Fact.hasErase r.entity
          [Fact.retraction, Fact.eraseOf (.ofNat 2) 9]) := by
  have hwrite (f : Fact) : (MemorySegment.single .two f).IsWriteOf .two [f] :=
    (MemorySegment.isWrittenFrom_single .two f).isWriteOf
  exact collect_later .nil
    (.cons (hwrite Fact.retraction) (.cons (hwrite (Fact.eraseOf (.ofNat 2) 9)) .nil))
    (.cons (hwrite Fact.assertion) .nil) { bounds := { system := ⟨.start, 6⟩ } }
    (by decide) .empty

end Scan

end Bitemporal
