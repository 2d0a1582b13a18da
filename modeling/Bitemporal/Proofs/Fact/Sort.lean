import Mathlib
import Bitemporal.Proofs.Merge.Stable
import Bitemporal.Proofs.Order

/-!
# Sorting facts

The sort of facts keeps the order of facts of one key. It commutes with leaving facts out, and
ordered facts are the concatenation of the versions of their entities.

## Main definitions

* `Fact.IsGrouped`: ids that never go back.
* `Fact.versions`: the facts of one entity.
* `Fact.entities`: the entities of facts, each once.

## Main statements

* `Fact.firstDisorder?_eq_none_iff`: the check of the order finds nothing exactly in ordered facts.
* `Fact.filter_sort`: sorting commutes with leaving facts out.
* `Fact.flatMap_versions`: ordered facts, entity by entity.
-/

namespace Bitemporal.Fact

open scoped Linear
open Stable (IsPreorder)

variable {rows : List Fact} {e : EntityId}

theorem isPreorder_before : IsPreorder before where
  trans _ _ _ := before_trans
  total := before_total

/-! ## The order of a list -/

theorem disorderFrom?_eq_none_iff {index : Nat} :
    disorderFrom? index rows = none ↔ IsOrdered rows := by
  fun_induction disorderFrom? index rows with
  | case1 index a b rest h ih =>
    rw [ih, IsOrdered, IsOrdered, List.pairwise_cons (a := a)]
    refine ⟨fun hs => ⟨fun c hc => ?_, hs⟩, fun hs => hs.2⟩
    rcases List.mem_cons.1 hc with rfl | hc
    · exact h
    · exact before_trans h ((List.pairwise_cons.1 hs).1 c hc)
  | case2 index a b rest h =>
    simp only [reduceCtorEq, IsOrdered, false_iff]
    exact fun hs => h ((List.pairwise_cons.1 hs).1 b (.head _))
  | case3 l index h =>
    rcases l with - | ⟨a, - | ⟨b, rest⟩⟩
    · simp [IsOrdered]
    · simp [IsOrdered]
    · exact (h a b rest rfl).elim

theorem firstDisorder?_eq_none_iff : firstDisorder? rows = none ↔ IsOrdered rows :=
  disorderFrom?_eq_none_iff

theorem isOrdered_sort (rows : List Fact) : IsOrdered (sort rows) :=
  Stable.pairwise_mergeSort isPreorder_before rows

theorem sort_eq_self (h : IsOrdered rows) : sort rows = rows := List.mergeSort_of_pairwise h

theorem mem_sort {f : Fact} : f ∈ sort rows ↔ f ∈ rows := List.mem_mergeSort

theorem filter_sort (p : Fact → Bool) (rows : List Fact) :
    (sort rows).filter p = sort (rows.filter p) :=
  Stable.filter_mergeSort isPreorder_before p rows

theorem IsOrdered.filter (h : IsOrdered rows) (p : Fact → Bool) : IsOrdered (rows.filter p) :=
  List.Pairwise.filter p h

/-- Facts whose ids never go back, in whatever order the versions of one entity are. -/
def IsGrouped (rows : List Fact) : Prop := rows.Pairwise fun a b => a.entity ≤ b.entity

theorem IsOrdered.isGrouped (h : IsOrdered rows) : IsGrouped rows :=
  List.Pairwise.imp entity_le_of_before h

theorem IsGrouped.filter (h : IsGrouped rows) (p : Fact → Bool) : IsGrouped (rows.filter p) :=
  List.Pairwise.filter p h

/-! ## Entities and their versions -/

/-- The facts of an entity. -/
def versions (e : EntityId) (rows : List Fact) : List Fact := rows.filter (·.entity = e)

/-- The entities of facts, each once. -/
def entities (rows : List Fact) : List EntityId := (rows.map (·.entity)).dedup

theorem mem_entities : e ∈ entities rows ↔ ∃ f ∈ rows, f.entity = e := by simp [entities]

/-- There are several entities exactly if two of the facts differ in theirs. -/
theorem one_lt_length_entities_iff :
    1 < (entities rows).length ↔ ∃ f ∈ rows, ∃ g ∈ rows, f.entity ≠ g.entity := by
  rw [entities, ← List.card_toFinset, Finset.one_lt_card]
  simp

theorem mem_versions {f : Fact} : f ∈ versions e rows ↔ f ∈ rows ∧ f.entity = e := by
  simp [versions]

@[simp] theorem versions_nil : versions e [] = [] := rfl

theorem versions_cons_of_eq {f : Fact} (h : f.entity = e) :
    versions e (f :: rows) = f :: versions e rows := List.filter_cons_of_pos (by simpa using h)

theorem versions_cons_of_ne {f : Fact} (h : f.entity ≠ e) :
    versions e (f :: rows) = versions e rows := List.filter_cons_of_neg (by simpa using h)

theorem versions_append (e : EntityId) (a b : List Fact) :
    versions e (a ++ b) = versions e a ++ versions e b := List.filter_append ..

theorem versions_sort (e : EntityId) (rows : List Fact) :
    versions e (sort rows) = sort (versions e rows) := filter_sort _ _

theorem IsOrdered.versions (h : IsOrdered rows) (e : EntityId) : IsOrdered (versions e rows) :=
  h.filter _

/-- The versions of an entity are ordered by their system times, newest first. -/
theorem IsOrdered.pairwise_versions (h : IsOrdered rows) (e : EntityId) :
    (Fact.versions e rows).Pairwise fun a b => b.systemFrom ≤ a.systemFrom := by
  refine List.Pairwise.imp_of_mem (fun {a b} ha hb hab => ?_) (h.versions e)
  rw [mem_versions] at ha hb
  exact (before_iff_of_entity_eq (ha.2.trans hb.2.symm)).1 hab

theorem IsOrdered.pairwise_entities (h : IsOrdered rows) : (entities rows).Pairwise (· < ·) := by
  have hle : (rows.map (·.entity)).Pairwise (· ≤ ·) := List.pairwise_map.2 h.isGrouped
  have hsub := hle.sublist (List.dedup_sublist _)
  exact (hsub.and (List.nodup_dedup _)).imp fun h => lt_of_le_of_ne h.1 h.2

/-- Ordered facts are their versions, one entity after the other. -/
theorem flatMap_versions (h : IsOrdered rows) {ids : List EntityId} (hids : ids.Pairwise (· < ·))
    (hmem : ∀ f ∈ rows, f.entity ∈ ids) : (ids.flatMap fun e => versions e rows) = rows := by
  refine Stable.flatMap_filter isPreorder_before h (fun e f => decide (f.entity = e)) ?_ ?_
  · refine hids.imp fun {d e} hlt a b ha hb hba => ?_
    rw [decide_eq_true_eq] at ha hb
    subst ha hb
    exact absurd (entity_le_of_before hba) (not_le.2 hlt)
  · exact fun f hf => ⟨f.entity, hmem f hf, by simp⟩

/-- Ordered facts are determined by the versions of each entity. -/
theorem IsOrdered.eq_of_versions_eq {rows' : List Fact} (h : IsOrdered rows)
    (h' : IsOrdered rows') (heq : ∀ e, Fact.versions e rows = Fact.versions e rows') :
    rows = rows' := by
  have hids := h.pairwise_entities
  have hmem' : ∀ f ∈ rows', f.entity ∈ entities rows := by
    intro f hf
    have hf : f ∈ Fact.versions f.entity rows := heq f.entity ▸ mem_versions.2 ⟨hf, rfl⟩
    exact mem_entities.2 ⟨f, (mem_versions.1 hf).1, rfl⟩
  rw [← flatMap_versions h hids fun f hf => mem_entities.2 ⟨f, hf, rfl⟩,
    ← flatMap_versions h' hids hmem']
  exact List.flatMap_congr fun e _ => heq e

end Bitemporal.Fact
