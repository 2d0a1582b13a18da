import Mathlib
import Bitemporal.Proofs.Merge.Rows

/-!
# Rows that rise

Where ids never go back, rows are ordered unless two of them side by side rise: the second is a
later version of the entity of the first. Merging keeps the order of each of its lists, so it can
neither hide a rise nor make one.

## Main definitions

* `Fact.RisesTo`: a fact is a later version of the entity of another one.
* `Page.RisesUnder`: two rows of a page side by side rise, under a path.

## Main statements

* `Fact.IsGrouped.isOrdered_iff`: grouped facts are ordered unless two side by side rise.
* `Page.risesUnder_iff`: a page rises under a path unless its rows there are ordered.
* `Fact.isOrdered_mergeAll_iff`: what is merged is ordered exactly if each of the lists is.
-/

namespace Bitemporal

open scoped Linear

variable {w : BucketWidth} {p : Path} {rows l r : List Fact} {ls : List (List Fact)}

namespace Fact

/-- The second fact is a later version of the entity of the first. -/
def RisesTo (f g : Fact) : Prop := f.entity = g.entity ∧ f.systemFrom < g.systemFrom

theorem not_before_iff {f g : Fact} (h : f.entity ≤ g.entity) : ¬ f.before g ↔ f.RisesTo g := by
  rw [before_iff, RisesTo]
  grind

/-- Where ids never go back, facts are ordered unless two of them side by side rise. -/
theorem IsGrouped.isOrdered_iff (h : IsGrouped rows) :
    IsOrdered rows ↔ ∀ a f g b, rows = a ++ f :: g :: b → ¬ f.RisesTo g := by
  have htrans : IsTrans Fact (before · ·) := ⟨fun _ _ _ => before_trans⟩
  rw [IsOrdered, ← List.isChain_iff_pairwise, List.isChain_iff_forall_rel_of_append_cons_cons]
  have hstep {a b : List Fact} {f g : Fact} (heq : rows = a ++ f :: g :: b) :
      f.before g ↔ ¬ f.RisesTo g := by
    have hle : f.entity ≤ g.entity := by
      rw [heq] at h
      exact (List.pairwise_cons.1 (List.pairwise_append.1 h).2.1).1 g (.head _)
    rw [← not_before_iff hle, not_not]
  exact ⟨fun hall a f g b heq => (hstep heq).1 (hall heq),
    fun hall f g a b heq => (hstep heq).2 (hall a f g b heq)⟩

end Fact

/-- Two rows of a page side by side rise, under a path. -/
def Page.RisesUnder (w : BucketWidth) (p : Path) (pg : Page) : Prop :=
  ∃ a f g b, pg.rows = a ++ f :: g :: b ∧ f.entity.isUnder w p ∧ f.RisesTo g

/-- A page rises under a path unless its rows there are ordered. These rows stand together in the
page, so what stands side by side among them does so in the page. -/
theorem Page.risesUnder_iff {pg : Page} (h : Fact.IsGrouped pg.rows) (hp : p.length ≤ w.maxDepth) :
    pg.RisesUnder w p ↔ ¬ Fact.IsOrdered (Fact.under w p pg.rows) := by
  have hunder : Fact.IsGrouped (Fact.under w p pg.rows) := h.filter _
  rw [hunder.isOrdered_iff]
  simp only [not_forall, not_not]
  constructor
  · rintro ⟨a, f, g, b, heq, hf, hrises⟩
    have hg : g.entity.isUnder w p := hrises.1 ▸ hf
    exact ⟨Fact.under w p a, f, g, Fact.under w p b, by simp [Fact.under, heq, hf, hg], hrises⟩
  · rintro ⟨a, f, g, b, heq, hrises⟩
    have hf : f ∈ Fact.under w p pg.rows := by simp [heq]
    have hcut := Fact.placed_append h hp
    rw [Fact.placed_eq hp, heq] at hcut
    exact ⟨Fact.placed w p .lt pg.rows ++ a, f, g, b ++ Fact.placed w p .gt pg.rows,
      by simpa using hcut.symm, (List.mem_filter.1 hf).2, hrises⟩

/-! ## Merging -/

namespace Fact

theorem sublist_merge (l r : List Fact) :
    l.Sublist (l.merge r before) ∧ r.Sublist (l.merge r before) := by
  induction l generalizing r with
  | nil => simp
  | cons a as iha =>
    induction r with
    | nil => simp
    | cons b bs ihb =>
      by_cases hab : a.before b
      · rw [List.cons_merge_cons_pos _ _ _ hab]
        exact ⟨(iha _).1.cons_cons a, (iha _).2.cons a⟩
      · rw [List.cons_merge_cons_neg _ _ _ hab]
        exact ⟨ihb.1.cons b, ihb.2.cons_cons b⟩

theorem IsGrouped.merge (hl : IsGrouped l) (hr : IsGrouped r) : IsGrouped (l.merge r before) :=
  Stable.pairwise_merge le_trans hl hr (fun _ _ _ _ => entity_le_of_before) fun a _ b _ hab =>
    entity_le_of_before ((Bool.or_eq_true _ _ ▸ before_total a b).resolve_left hab)

theorem isGrouped_mergeAll (h : ∀ l ∈ ls, IsGrouped l) : IsGrouped (mergeAll ls) := by
  induction ls with
  | nil => exact .nil
  | cons l ls ih =>
    rw [List.forall_mem_cons] at h
    exact h.1.merge (ih h.2)

theorem sublist_mergeAll (hl : l ∈ ls) : l.Sublist (mergeAll ls) := by
  induction ls with
  | nil => cases hl
  | cons m ls ih =>
    rcases List.mem_cons.1 hl with rfl | hl
    · exact (sublist_merge _ _).1
    · exact (ih hl).trans (sublist_merge _ _).2

theorem mem_mergeAll {f : Fact} : f ∈ mergeAll ls ↔ ∃ l ∈ ls, f ∈ l :=
  Stable.mem_foldr_merge

/-- What is merged is ordered exactly if each of the lists is. -/
theorem isOrdered_mergeAll_iff : IsOrdered (mergeAll ls) ↔ ∀ l ∈ ls, IsOrdered l := by
  refine ⟨fun h l hl => h.sublist (sublist_mergeAll hl), fun h => ?_⟩
  rw [mergeAll, Stable.foldr_merge isPreorder_before h]
  exact isOrdered_sort ls.flatten

end Fact

end Bitemporal
