import Mathlib
import Bitemporal.Compaction.Basic
import Bitemporal.Proofs.Scan.Replay

/-!
# Dropping what an erase hides

Compaction cuts the history of each entity after its newest erase. What is cut off is behind an
erase wherever the rest is merged to, so it never shows, in whatever context the facts stand.

## Main definitions

* `Fact.untilErase`: a history up to its first erase.

## Main statements

* `Fact.untilErase_merge`: merging commutes with cutting histories.
* `Compaction.versions_dropErased`: the history that compaction leaves of an entity.
* `Compaction.dropErased_sort_append`: facts may be compacted before they are merged.
* `Compaction.answerAll_dropErased`: what is dropped never shows.
-/

namespace Bitemporal

open scoped Linear

variable {q : Query} {e : EntityId} {rows : List Fact}

namespace Fact

/-- A history up to its first erase. -/
def untilErase : List Fact → List Fact
  | [] => []
  | f :: rest => if f.isErase then [f] else f :: untilErase rest

theorem untilErase_cons_of_erase {f : Fact} (h : f.isErase) (rest : List Fact) :
    untilErase (f :: rest) = [f] := if_pos h

theorem untilErase_cons_of_not {f : Fact} (h : ¬ f.isErase) (rest : List Fact) :
    untilErase (f :: rest) = f :: untilErase rest := if_neg h

theorem exists_untilErase_cons (f : Fact) (rest : List Fact) :
    ∃ rest', untilErase (f :: rest) = f :: rest' := by
  by_cases h : f.isErase
  · exact ⟨[], untilErase_cons_of_erase h rest⟩
  · exact ⟨_, untilErase_cons_of_not h rest⟩

theorem untilErase_sublist (rows : List Fact) : (untilErase rows).Sublist rows := by
  induction rows with
  | nil => exact .slnil
  | cons f rest ih =>
    rw [untilErase]
    split
    · exact (List.nil_sublist rest).cons_cons f
    · exact ih.cons_cons f

theorem untilErase_untilErase (rows : List Fact) :
    untilErase (untilErase rows) = untilErase rows := by
  induction rows with
  | nil => rfl
  | cons f rest ih =>
    by_cases h : f.isErase
    · rw [untilErase_cons_of_erase h, untilErase_cons_of_erase h]
    · rw [untilErase_cons_of_not h, untilErase_cons_of_not h, ih]

/-- Merging commutes with cutting histories: what stands behind an erase before the merge stands
behind it afterwards. -/
theorem untilErase_merge (l r : List Fact) :
    untilErase (l.merge r before) = untilErase ((untilErase l).merge (untilErase r) before) := by
  induction l generalizing r with
  | nil => rw [untilErase, List.nil_merge, List.nil_merge, untilErase_untilErase]
  | cons a as iha =>
    induction r with
    | nil =>
      rw [List.merge_right, untilErase.eq_1, List.merge_right, untilErase_untilErase]
    | cons b bs ihb =>
      by_cases hab : a.before b
      · obtain ⟨bs', hbs⟩ := exists_untilErase_cons b bs
        rw [List.cons_merge_cons_pos _ _ _ hab]
        by_cases ha : a.isErase
        · rw [untilErase_cons_of_erase ha, untilErase_cons_of_erase ha, hbs,
            List.cons_merge_cons_pos _ _ _ hab, untilErase_cons_of_erase ha]
        · rw [untilErase_cons_of_not ha, untilErase_cons_of_not ha, iha, hbs,
            List.cons_merge_cons_pos _ _ _ hab, untilErase_cons_of_not ha]
      · obtain ⟨as', has⟩ := exists_untilErase_cons a as
        rw [List.cons_merge_cons_neg _ _ _ hab]
        by_cases hb : b.isErase
        · rw [untilErase_cons_of_erase hb, untilErase_cons_of_erase hb, has,
            List.cons_merge_cons_neg _ _ _ hab, untilErase_cons_of_erase hb]
        · rw [untilErase_cons_of_not hb, untilErase_cons_of_not hb, ihb, has,
            List.cons_merge_cons_neg _ _ _ hab, untilErase_cons_of_not hb]

/-- A sorted concatenation is the merge of its sorted parts. -/
theorem sort_append (a b : List Fact) : sort (a ++ b) = (sort a).merge (sort b) before := by
  have hleft := Stable.mergeSort_append_mergeSort isPreorder_before [] a (b.mergeSort before)
  have hright := Stable.mergeSort_append_mergeSort isPreorder_before a b []
  simp only [List.nil_append, List.append_nil] at hleft hright
  rw [Stable.merge_eq_mergeSort isPreorder_before (isOrdered_sort a) (isOrdered_sort b), sort,
    sort, sort, hleft, hright]

/-- Cutting some sorted facts of a context before they are sorted into it changes nothing before
the first erase. -/
theorem untilErase_sort_append (a l b : List Fact) :
    untilErase (sort (a ++ untilErase (sort l) ++ b)) = untilErase (sort (a ++ l ++ b)) := by
  have hsorted : sort (untilErase (sort l)) = untilErase (sort l) :=
    sort_eq_self ((isOrdered_sort l).sublist (untilErase_sublist _))
  have hinner : untilErase (sort (untilErase (sort l) ++ b)) = untilErase (sort (l ++ b)) := by
    rw [sort_append, sort_append, hsorted, untilErase_merge, untilErase_untilErase,
      ← untilErase_merge]
  rw [List.append_assoc, List.append_assoc, sort_append a, sort_append a, untilErase_merge, hinner,
    ← untilErase_merge]

end Fact

/-- A history shows nothing of what stands behind its first erase. -/
theorem Query.shownFrom_untilErase (q : Query) (steps : List Step) (rows : List Fact) :
    q.shownFrom steps (Fact.untilErase rows) = q.shownFrom steps rows := by
  induction rows generalizing steps with
  | nil => rfl
  | cons f rest ih =>
    by_cases h : f.isErase
    · rw [Fact.untilErase_cons_of_erase h, shownFrom, if_pos h, shownFrom, if_pos h]
    · rw [Fact.untilErase_cons_of_not h, shownFrom, shownFrom, ih, ih]

namespace Compaction

theorem dropErasedFrom_sublist (hidden : Option EntityId) (rows : List Fact) :
    (dropErasedFrom hidden rows).Sublist rows := by
  induction rows generalizing hidden with
  | nil => exact .slnil
  | cons f rest ih =>
    rw [dropErasedFrom]
    split
    · exact (ih _).cons f
    · exact (ih _).cons_cons f

theorem dropErased_sublist (rows : List Fact) : (dropErased rows).Sublist rows :=
  dropErasedFrom_sublist none rows

/-- The history that is left of an entity. In ordered facts the versions of an entity stand
together, so what is hidden of one entity is forgotten only after its last version. -/
theorem versions_dropErasedFrom {hidden : Option EntityId} (h : Fact.IsOrdered rows)
    (hhidden : ∀ d, hidden = some d → ∀ f ∈ rows, d ≤ f.entity) :
    Fact.versions e (dropErasedFrom hidden rows) =
      if hidden = some e then [] else Fact.untilErase (Fact.versions e rows) := by
  induction rows generalizing hidden with
  | nil => simp [dropErasedFrom, Fact.untilErase]
  | cons f rest ih =>
    have hf : ∀ g ∈ rest, f.entity ≤ g.entity := fun g hg =>
      Fact.entity_le_of_before ((List.pairwise_cons.1 h).1 g hg)
    rw [dropErasedFrom]
    by_cases hsame : hidden = some f.entity
    · rw [if_pos hsame, ih h.of_cons fun d hd g hg => hhidden d hd g (.tail _ hg)]
      by_cases he : f.entity = e
      · rw [if_pos (he ▸ hsame), if_pos (he ▸ hsame)]
      · rw [Fact.versions_cons_of_ne he]
    · have hnext : ∀ d, (if f.isErase then some f.entity else none) = some d →
          ∀ g ∈ rest, d ≤ g.entity := by
        intro d hd g hg
        split at hd
        · exact Option.some_inj.1 hd ▸ hf g hg
        · cases hd
      have hrest := ih h.of_cons hnext
      rw [if_neg hsame]
      by_cases he : f.entity = e
      · have hvisible : ¬ hidden = some e := he ▸ hsame
        rw [Fact.versions_cons_of_eq he, Fact.versions_cons_of_eq he, hrest, if_neg hvisible]
        by_cases herase : f.isErase
        · rw [Fact.untilErase_cons_of_erase herase, if_pos herase, if_pos (congrArg some he)]
        · rw [Fact.untilErase_cons_of_not herase, if_neg herase, if_neg (by simp)]
      · have hvisible : ¬ (if f.isErase then some f.entity else none) = some e := by
          split
          · exact fun hc => he (Option.some_inj.1 hc)
          · simp
        rw [Fact.versions_cons_of_ne he, Fact.versions_cons_of_ne he, hrest, if_neg hvisible]
        split
        · rename_i hhid
          -- A version of `e` stood before `f`, so none can follow.
          have hlt : e < f.entity := lt_of_le_of_ne (hhidden e hhid f (.head _)) (Ne.symm he)
          have hnone : Fact.versions e rest = [] := List.filter_eq_nil_iff.2 fun g hg hge =>
            absurd (of_decide_eq_true hge) (hlt.trans_le (hf g hg)).ne'
          rw [hnone, Fact.untilErase]
        · rfl

theorem versions_dropErased (h : Fact.IsOrdered rows) (e : EntityId) :
    Fact.versions e (dropErased rows) = Fact.untilErase (Fact.versions e rows) := by
  rw [dropErased, versions_dropErasedFrom h (by simp), if_neg (by simp)]

/-- What is left of ordered facts, entity by entity. -/
theorem dropErased_eq_flatMap (h : Fact.IsOrdered rows) {ids : List EntityId}
    (hids : ids.Pairwise (· < ·)) (hmem : ∀ f ∈ rows, f.entity ∈ ids) :
    dropErased rows = ids.flatMap fun e => Fact.untilErase (Fact.versions e rows) := by
  have hordered : Fact.IsOrdered (dropErased rows) := h.sublist (dropErased_sublist rows)
  rw [← Fact.flatMap_versions hordered hids fun f hf => hmem f ((dropErased_sublist rows).mem hf)]
  exact List.flatMap_congr fun e _ => versions_dropErased h e

/-- Up to the first erase, the history of an entity is the same whether or not some of the facts
were compacted before. -/
theorem untilErase_versions_sort (a l b : List Fact) :
    Fact.untilErase (Fact.versions e (Fact.sort (a ++ dropErased (Fact.sort l) ++ b))) =
      Fact.untilErase (Fact.versions e (Fact.sort (a ++ l ++ b))) := by
  rw [Fact.versions_sort, Fact.versions_sort, Fact.versions_append, Fact.versions_append,
    Fact.versions_append, Fact.versions_append, versions_dropErased (Fact.isOrdered_sort l),
    Fact.versions_sort, Fact.untilErase_sort_append]

theorem isOrdered_dropErased_sort (rows : List Fact) :
    Fact.IsOrdered (dropErased (Fact.sort rows)) :=
  (Fact.isOrdered_sort rows).sublist (dropErased_sublist _)

/-- What is left of facts is the same whether or not some of them were compacted before. -/
theorem dropErased_sort_append (a l b : List Fact) :
    dropErased (Fact.sort (a ++ dropErased (Fact.sort l) ++ b)) =
      dropErased (Fact.sort (a ++ l ++ b)) := by
  refine (isOrdered_dropErased_sort _).eq_of_versions_eq (isOrdered_dropErased_sort _) fun e => ?_
  rw [versions_dropErased (Fact.isOrdered_sort _), versions_dropErased (Fact.isOrdered_sort _),
    untilErase_versions_sort]

end Compaction

/-- The answer over some facts asks for the entities of any facts that they are among. -/
theorem Query.answerAll_eq_of_subset (q : Query) {rows rows' : List Fact}
    (hsub : ∀ f ∈ rows, f ∈ rows') :
    q.answerAll rows = q.answer (Fact.entities (Fact.sort rows')) (Fact.sort rows) := by
  have hordered := Fact.isOrdered_sort rows
  have hsorted := Query.replay_eq (q := q) hordered hordered.pairwise_entities
    fun f hf => Fact.mem_entities.2 ⟨f, hf, rfl⟩
  have hmore := Query.replay_eq (q := q) hordered (Fact.isOrdered_sort rows').pairwise_entities
    fun f hf => Fact.mem_entities.2 ⟨f, Fact.mem_sort.2 (hsub f (Fact.mem_sort.1 hf)), rfl⟩
  exact Except.ok.inj (hsorted.symm.trans hmore)

/-- What compaction drops of some facts never shows, whatever other facts they are read with. -/
theorem Compaction.answerAll_dropErased (q : Query) (a l b : List Fact) :
    q.answerAll (a ++ dropErased (Fact.sort l) ++ b) = q.answerAll (a ++ l ++ b) := by
  have hsub : ∀ f ∈ a ++ dropErased (Fact.sort l) ++ b, f ∈ a ++ l ++ b := by
    intro f hf
    simp only [List.mem_append] at hf ⊢
    rcases hf with (hf | hf) | hf
    · exact .inl (.inl hf)
    · exact .inl (.inr (Fact.mem_sort.1 ((dropErased_sublist _).mem hf)))
    · exact .inr hf
  rw [q.answerAll_eq_of_subset hsub, Query.answerAll]
  apply Query.answer_congr
  intro e _ _
  rw [Query.shown, Query.shown, ← Query.shownFrom_untilErase,
    ← q.shownFrom_untilErase _ (Fact.versions e (Fact.sort (a ++ l ++ b))),
    untilErase_versions_sort]

end Bitemporal
