import Mathlib
import Bitemporal.Merge.Row
import Bitemporal.Proofs.Segment.Layout

/-!
# The merged rows of pages

Where ids never go back, neither does it where a row stands to the ids under a path, so halving
finds both ends of the rows under the path. Merging these rows of several ordered pages sorts them.

## Main definitions

* `Fact.mergeAll`: facts merged list by list.

## Main statements

* `boundaryFrom?_eq`: halving finds the position from which on a condition fails.
* `Page.map_rowsIn`: the rows of a page under a path.
* `mergeRows?_eq_mergeAll`: the merged rows of pages.
* `mergeRows?_eq`: the merged rows of ordered pages.
-/

namespace Bitemporal

open scoped Linear

variable {w : BucketWidth} {p : Path}

/-! ## Halving -/

/-- Where a condition holds up to a position and fails from there on, halving finds the position. -/
theorem boundaryFrom?_eq {condition : Nat → Option Bool} {base size k : Nat} (hbase : base ≤ k)
    (hk : k ≤ base + size) (hmet : ∀ i, base ≤ i → i < k → condition i = some true)
    (hfailed : ∀ i, k ≤ i → i < base + size → condition i = some false) :
    boundaryFrom? condition base size = some k := by
  fun_induction boundaryFrom? condition base size with
  | case1 base => exact congrArg some (by omega)
  | case2 base =>
    rcases Nat.lt_or_eq_of_le hbase with h | rfl
    · rw [hmet base le_rfl h]
      exact congrArg some (by simp; omega)
    · rw [hfailed base le_rfl (by omega)]
      rfl
  | case3 base size half hnone =>
    rcases lt_or_ge (base + half) k with h | h
    · rw [hmet _ (by omega) h] at hnone
      cases hnone
    · rw [hfailed _ h (by omega)] at hnone
      cases hnone
  | case4 base size half htrue ih =>
    have hlt : base + half < k := by
      by_contra h
      rw [hfailed _ (not_lt.1 h) (by omega)] at htrue
      cases htrue
    exact ih (by omega) (by omega) (fun i hi => hmet i (by omega))
      (fun i hi hi' => hfailed i hi (by omega))
  | case5 base size half hfalse ih =>
    have hle : k ≤ base + half := by
      by_contra h
      rw [hmet _ (by omega) (not_le.1 h)] at hfalse
      cases hfalse
    exact ih hbase (by omega) hmet (fun i hi hi' => hfailed i hi (by omega))

/-- Where a condition always has an answer, halving comes to an end. -/
theorem exists_boundaryFrom? {condition : Nat → Option Bool} {base size : Nat}
    (h : ∀ i, base ≤ i → i < base + size → ∃ b, condition i = some b) :
    ∃ k, boundaryFrom? condition base size = some k := by
  fun_induction boundaryFrom? condition base size with
  | case1 base => exact ⟨base, rfl⟩
  | case2 base =>
    obtain ⟨b, hb⟩ := h base le_rfl (by omega)
    exact ⟨_, by rw [hb, Option.map_some]⟩
  | case3 base size half hnone =>
    obtain ⟨b, hb⟩ := h (base + half) (by omega) (by omega)
    rw [hb] at hnone
    cases hnone
  | case4 base size half htrue ih => exact ih fun i hi hi' => h i (by omega) (by omega)
  | case5 base size half hfalse ih => exact ih fun i hi hi' => h i hi (by omega)

/-- Halving stays between the ends. -/
theorem of_boundaryFrom? {condition : Nat → Option Bool} {base size k : Nat}
    (h : boundaryFrom? condition base size = some k) : base ≤ k ∧ k ≤ base + size := by
  fun_induction boundaryFrom? condition base size with
  | case1 base => simp_all
  | case2 base =>
    obtain ⟨isMet, -, rfl⟩ := Option.map_eq_some_iff.1 h
    cases isMet <;> simp
  | case3 base size half hnone => cases h
  | case4 base size half htrue ih =>
    have := ih h
    omega
  | case5 base size half hfalse ih =>
    have := ih h
    omega

/-- The boundary of a condition on the elements of a list that holds in a front part only. -/
theorem boundary?_eq_length {α : Type} (condition : α → Option Bool) (xs ys : List α)
    (hmet : ∀ x ∈ xs, condition x = some true) (hfailed : ∀ y ∈ ys, condition y = some false) :
    boundary? (fun i => ((xs ++ ys)[i]?).bind condition) (xs ++ ys).length = some xs.length := by
  refine boundaryFrom?_eq (Nat.zero_le _) (by simp) (fun i _ hi => ?_) (fun i hi hi' => ?_)
  · rw [List.getElem?_append_left hi, List.getElem?_eq_getElem hi]
    exact hmet _ (List.getElem_mem hi)
  · have hi'' : i - xs.length < ys.length := by
      rw [List.length_append] at hi'
      omega
    rw [List.getElem?_append_right hi, List.getElem?_eq_getElem hi'']
    exact hfailed _ (List.getElem_mem hi'')

/-! ## The rows of a page -/

/-- The facts whose entity stands to the ids under a path in one way. -/
def Fact.placed (w : BucketWidth) (p : Path) (o : Ordering) (rows : List Fact) : List Fact :=
  rows.filter fun f => w.place f.entity 0 p == o

/-- Where ids never go back, facts stand before the ids under a path, then among them, then after
them. -/
theorem Fact.placed_append {rows : List Fact} (h : Fact.IsGrouped rows)
    (hp : p.length ≤ w.maxDepth) :
    Fact.placed w p .lt rows ++ (Fact.placed w p .eq rows ++ Fact.placed w p .gt rows) = rows := by
  have horder : Stable.IsPreorder fun a b : Fact => decide (a.entity ≤ b.entity) := by
    refine ⟨fun a b c hab hbc => ?_, fun a b => ?_⟩
    · simp only [decide_eq_true_eq] at *
      exact hab.trans hbc
    · simpa using le_total a.entity b.entity
  have hmono {a b : Fact} (hab : decide (a.entity ≤ b.entity)) :=
    BucketWidth.place_mono (of_decide_eq_true hab) hp
  have hclasses := @Stable.flatMap_filter _ _ _ horder (h.imp decide_eq_true) _ [.lt, .eq, .gt]
    (fun o f => w.place f.entity 0 p == o) ?_ ?_
  · simpa [placed] using hclasses
  · simp only [List.pairwise_cons, List.mem_cons, List.not_mem_nil, or_false, beq_iff_eq]
    refine ⟨?_, ?_, ?_, .nil⟩
    · rintro o (rfl | rfl) a b ha hb hba
      · simp [(hmono hba).1 ha] at hb
      · simp [(hmono hba).1 ha] at hb
    · rintro o rfl a b ha hb hba
      simp [(hmono hba).2 hb] at ha
    · simp
  · intro f _
    cases hf : w.place f.entity 0 p <;> simp

theorem Fact.placed_eq (hp : p.length ≤ w.maxDepth) (rows : List Fact) :
    Fact.placed w p .eq rows = Fact.under w p rows := by
  apply List.filter_congr
  intro f _
  rw [Bool.eq_iff_iff, beq_iff_eq, EntityId.isUnder_iff_place hp]

namespace Page

variable {pg : Page}

theorem standing?_bind (hp : p.length ≤ w.maxDepth) (rows : List Fact) (test : Ordering → Bool)
    (i : Nat) : (standing? w p rows.toArray i).map test =
      rows[i]?.bind fun f => some (test (w.place f.entity 0 p)) := by
  rw [standing?, List.getElem?_toArray]
  cases rows[i]? with
  | none => rfl
  | some f => simp [BucketWidth.compare?_eq_place hp]

/-- Where ids never go back, the rows of a page under a path are a range, and halving finds it. -/
theorem rangeUnder?_eq (h : Fact.IsGrouped pg.rows) (hp : p.length ≤ w.maxDepth) :
    pg.rangeUnder? w p = some ⟨(Fact.placed w p .lt pg.rows).length,
      (Fact.placed w p .lt pg.rows ++ Fact.placed w p .eq pg.rows).length⟩ := by
  have hplaced {o : Ordering} {f : Fact} (hf : f ∈ Fact.placed w p o pg.rows) :
      w.place f.entity 0 p = o := by simpa using (List.mem_filter.1 hf).2
  have hfirst : boundary? (fun i => (standing? w p pg.rows.toArray i).map Ordering.isLT)
      pg.rows.length = some (Fact.placed w p .lt pg.rows).length := by
    have hcut := Fact.placed_append h hp
    simp only [standing?_bind hp]
    rw [← boundary?_eq_length (fun f => some (w.place f.entity 0 p).isLT)
      (Fact.placed w p .lt pg.rows) (Fact.placed w p .eq pg.rows ++ Fact.placed w p .gt pg.rows)
      (fun f hf => by simp [hplaced hf]) ?_, hcut]
    intro f hf
    rcases List.mem_append.1 hf with hf | hf <;> simp [hplaced hf]
  have hpast : boundary? (fun i => (standing? w p pg.rows.toArray i).map Ordering.isLE)
      pg.rows.length =
        some (Fact.placed w p .lt pg.rows ++ Fact.placed w p .eq pg.rows).length := by
    have hcut := Fact.placed_append h hp
    rw [← List.append_assoc] at hcut
    simp only [standing?_bind hp]
    rw [← boundary?_eq_length (fun f => some (w.place f.entity 0 p).isLE)
      (Fact.placed w p .lt pg.rows ++ Fact.placed w p .eq pg.rows) (Fact.placed w p .gt pg.rows)
      ?_ (fun f hf => by simp [hplaced hf]), hcut]
    intro f hf
    rcases List.mem_append.1 hf with hf | hf <;> simp [hplaced hf]
  simp [rangeUnder?, hfirst, hpast]

/-- All rows of a page are under the root, in whatever order they stand. -/
theorem rangeUnder?_root (pg : Page) : pg.rangeUnder? w [] = some ⟨0, pg.rows.length⟩ := by
  have hroot : ([] : Path).length ≤ w.maxDepth := Nat.zero_le _
  have hplace (f : Fact) : w.place f.entity 0 [] = .eq := rfl
  have hfirst : boundary? (fun i => (standing? w [] pg.rows.toArray i).map Ordering.isLT)
      pg.rows.length = some 0 := by
    simp only [standing?_bind hroot, hplace]
    exact boundary?_eq_length (fun _ => some false) [] pg.rows (by simp) (by simp)
  have hpast : boundary? (fun i => (standing? w [] pg.rows.toArray i).map Ordering.isLE)
      pg.rows.length = some pg.rows.length := by
    simp only [standing?_bind hroot, hplace]
    have h := boundary?_eq_length (fun _ : Fact => some true) pg.rows [] (by simp) (by simp)
    rwa [List.append_nil] at h
  simp [rangeUnder?, hfirst, hpast]

/-- The rows of any page under a path that fits an id have a range, if not the right one. -/
theorem exists_rangeUnder? (pg : Page) (hp : p.length ≤ w.maxDepth) :
    ∃ r, pg.rangeUnder? w p = some r := by
  have hboundary (test : Ordering → Bool) :
      ∃ k, boundary? (fun i => (standing? w p pg.rows.toArray i).map test) pg.rows.length =
        some k := by
    refine exists_boundaryFrom? fun i _ hi => ?_
    rw [standing?_bind hp, List.getElem?_eq_getElem (by omega)]
    exact ⟨_, rfl⟩
  obtain ⟨first, hfirst⟩ := hboundary Ordering.isLT
  obtain ⟨past, hpast⟩ := hboundary Ordering.isLE
  exact ⟨⟨first, past⟩, by simp [rangeUnder?, hfirst, hpast]⟩

/-- The rows of the range are the rows under the path. -/
theorem map_rowsIn (h : Fact.IsGrouped pg.rows) (hp : p.length ≤ w.maxDepth) {r : RowRange}
    (hr : pg.rangeUnder? w p = some r) : (pg.rowsIn r).map (·.2) = Fact.under w p pg.rows := by
  rw [rangeUnder?_eq h hp, Option.some_inj] at hr
  have hcut := Fact.placed_append h hp
  have hrows : (pg.rows.drop r.first).take r.size = Fact.under w p pg.rows := by
    have hmiddle (xs ys zs : List Fact) :
        ((xs ++ (ys ++ zs)).drop xs.length).take ys.length = ys := by
      rw [List.drop_left, List.take_left]
    have hmiddle := hmiddle (Fact.placed w p .lt pg.rows) (Fact.placed w p .eq pg.rows)
      (Fact.placed w p .gt pg.rows)
    rw [hcut] at hmiddle
    rw [← Fact.placed_eq hp, ← hr, RowRange.size, List.length_append, Nat.add_sub_cancel_left,
      hmiddle]
  rw [rowsIn, hrows, List.map_snd_zip (by simp)]

end Page

/-- Facts merged list by list, those of the first list before those of the rest. -/
def Fact.mergeAll (ls : List (List Fact)) : List Fact :=
  ls.foldr (fun rows merged => rows.merge merged before) []

namespace MergedRow

theorem ofPage?_eq {pg : Page} (h : Fact.IsGrouped pg.rows) (hp : p.length ≤ w.maxDepth) (i : Nat) :
    ∃ rows, ofPage? w p i pg = some rows ∧ rows.map (·.fact) = Fact.under w p pg.rows := by
  obtain ⟨r, hr⟩ : ∃ r, pg.rangeUnder? w p = some r := ⟨_, Page.rangeUnder?_eq h hp⟩
  refine ⟨_, by rw [ofPage?, hr, Option.map_some], ?_⟩
  rw [List.map_map, ← Page.map_rowsIn h hp hr]
  rfl

/-- Merging forgets nothing but where the rows come from. -/
theorem map_mergeAll (pages : List (List MergedRow)) :
    (mergeAll pages).map (·.fact) = Fact.mergeAll (pages.map (·.map (·.fact))) := by
  induction pages with
  | nil => rfl
  | cons rows rest ih =>
    rw [List.map_cons, Fact.mergeAll, List.foldr_cons, ← Fact.mergeAll, ← ih, mergeAll,
      List.foldr_cons, List.map_merge, mergeAll]
    exact fun _ _ _ _ => rfl

end MergedRow

/-- The rows of pages under a path, merged, where ids never go back in any of the pages. -/
theorem mergeRows?_eq_mergeAll {pages : List Page} (h : ∀ pg ∈ pages, Fact.IsGrouped pg.rows)
    (hp : p.length ≤ w.maxDepth) : (mergeRows? w p pages).map (·.map (·.fact)) =
      some (Fact.mergeAll (pages.map fun pg => Fact.under w p pg.rows)) := by
  have hpages (n : Nat) : ∃ rows,
      ((pages.zipIdx n).mapM fun (pg, i) => MergedRow.ofPage? w p i pg) = some rows ∧
      rows.map (·.map (·.fact)) = pages.map fun pg => Fact.under w p pg.rows := by
    induction pages generalizing n with
    | nil => exact ⟨[], rfl, rfl⟩
    | cons pg rest ih =>
      rw [List.forall_mem_cons] at h
      obtain ⟨rows, hrows, hmap⟩ := MergedRow.ofPage?_eq h.1 hp n
      obtain ⟨more, hmore, hmaps⟩ := ih h.2 (n + 1)
      exact ⟨rows :: more, by simp [List.zipIdx_cons, hrows, hmore], by simp [hmap, hmaps]⟩
  obtain ⟨rows, hrows, hmap⟩ := hpages 0
  rw [mergeRows?, hrows, Option.map_some, Option.map_some, MergedRow.map_mergeAll, hmap]

/-- The rows of ordered pages under a path, merged: they are sorted, and rows that the order does
not tell apart come in the order of the pages. -/
theorem mergeRows?_eq {pages : List Page} (h : ∀ pg ∈ pages, Fact.IsOrdered pg.rows)
    (hp : p.length ≤ w.maxDepth) : (mergeRows? w p pages).map (·.map (·.fact)) =
      some (Fact.sort (pages.flatMap fun pg => Fact.under w p pg.rows)) := by
  have hsorted : ∀ l ∈ pages.map fun pg => Fact.under w p pg.rows,
      l.Pairwise (Fact.before · ·) := by
    intro l hl
    obtain ⟨pg, hpg, rfl⟩ := List.mem_map.1 hl
    exact (h pg hpg).filter _
  rw [mergeRows?_eq_mergeAll (fun pg hpg => (h pg hpg).isGrouped) hp, Fact.mergeAll,
    Stable.foldr_merge Fact.isPreorder_before hsorted, List.flatMap_def, Fact.sort]

/-- One page under the root gives its rows as they stand. -/
theorem mergeRows?_root (pg : Page) :
    (mergeRows? w [] [pg]).map (·.map (·.fact)) = some pg.rows := by
  have hrows : (pg.rowsIn ⟨0, pg.rows.length⟩).map (·.2) = pg.rows := by
    simp [Page.rowsIn, RowRange.size, List.map_snd_zip]
  simpa [mergeRows?, MergedRow.ofPage?, Page.rangeUnder?_root, MergedRow.mergeAll,
    Function.comp_def] using hrows

/-- The rows of any pages under a path that fits an id can be merged. -/
theorem exists_mergeRows? (pages : List Page) (hp : p.length ≤ w.maxDepth) :
    ∃ rows, mergeRows? w p pages = some rows := by
  have hpages (n : Nat) :
      ∃ rows, ((pages.zipIdx n).mapM fun (pg, i) => MergedRow.ofPage? w p i pg) = some rows := by
    induction pages generalizing n with
    | nil => exact ⟨[], rfl⟩
    | cons pg rest ih =>
      obtain ⟨r, hr⟩ := pg.exists_rangeUnder? hp
      obtain ⟨rows, hrows⟩ : ∃ rows, MergedRow.ofPage? w p n pg = some rows :=
        ⟨_, by rw [MergedRow.ofPage?, hr, Option.map_some]⟩
      obtain ⟨more, hmore⟩ := ih (n + 1)
      exact ⟨rows :: more, by simp [List.zipIdx_cons, hrows, hmore]⟩
  obtain ⟨rows, hrows⟩ := hpages 0
  exact ⟨_, by rw [mergeRows?, hrows, Option.map_some]⟩

end Bitemporal
