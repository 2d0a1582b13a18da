import Mathlib
import Bitemporal.Page.Record
import Bitemporal.Proofs.Fact.Document

/-!
# Pages by columns

A page taken apart by columns is put together again as it was.

## Main statements

* `Page.pairwise_columnNames`, `Page.mem_columnNames`: the columns of a page.
* `PageColumns.toPage_ofPage`: the rows of the columns of a page.
-/

namespace Bitemporal

namespace Page

variable {pg : Page} {f : Fact} {name : String}

theorem pairwise_foldl_names (names : List String) {acc : List (String × Unit)}
    (h : acc.Pairwise (·.1 < ·.1)) :
    (names.foldl (fun ns n => Json.setField n () ns) acc).Pairwise (·.1 < ·.1) := by
  induction names generalizing acc with
  | nil => exact h
  | cons n rest ih => exact ih (Json.pairwise_setField h)

theorem mem_foldl_names (names : List String) {acc : List (String × Unit)} :
    name ∈ (names.foldl (fun ns n => Json.setField n () ns) acc).map (·.1) ↔
      name ∈ names ∨ name ∈ acc.map (·.1) := by
  induction names generalizing acc with
  | nil => simp
  | cons n rest ih =>
    rw [List.foldl_cons, ih, Json.mem_map_setField, List.mem_cons, or_left_comm, or_assoc]

/-- The names of the columns ascend. -/
theorem pairwise_columnNames (pg : Page) : pg.columnNames.Pairwise (· < ·) := by
  have hrows (rows : List Fact) {acc : List (String × Unit)} (h : acc.Pairwise (·.1 < ·.1)) :
      (rows.foldl (fun names f => f.doc.names.foldl (fun ns n => Json.setField n () ns) names)
        acc).Pairwise (·.1 < ·.1) := by
    induction rows generalizing acc with
    | nil => exact h
    | cons f rest ih => exact ih (pairwise_foldl_names _ h)
  exact List.pairwise_map.2 (hrows pg.rows .nil)

/-- Every column of a row is a column of the page. -/
theorem mem_columnNames (hf : f ∈ pg.rows) (hname : name ∈ f.doc.names) :
    name ∈ pg.columnNames := by
  have hrows (rows : List Fact) (acc : List (String × Unit)) :
      name ∈ (rows.foldl (fun names f => f.doc.names.foldl (fun ns n => Json.setField n () ns)
        names) acc).map (·.1) ↔ (∃ f ∈ rows, name ∈ f.doc.names) ∨ name ∈ acc.map (·.1) := by
    induction rows generalizing acc with
    | nil => simp
    | cons f rest ih =>
      rw [List.foldl_cons, ih, mem_foldl_names, List.exists_mem_cons_iff, or_left_comm, or_assoc]
  exact (hrows pg.rows []).2 (.inl ⟨f, hf, hname⟩)

/-- What is found under a name among what some names have. -/
theorem lookup_filterMap {α : Type} (names : List String) (g : String → Option α) :
    (names.filterMap fun n => (g n).map (n, ·)).lookup name =
      if name ∈ names then g name else none := by
  induction names with
  | nil => rfl
  | cons n rest ih =>
    by_cases heq : name = n
    · subst heq
      cases hg : g name <;> simp [hg, ih]
    · have hbeq : (name == n) = false := by simpa using heq
      cases hg : g n <;> simp [hg, ih, heq, hbeq, List.lookup_cons]

end Page

namespace PageColumns

theorem fieldsOf_map (rows : List Fact) (names : List String) :
    fieldsOf rows.length (names.map fun name => (name, rows.map fun f => f.doc.get? name)) =
      rows.map fun f => names.filterMap fun name => (f.doc.get? name).map (name, ·) := by
  induction names with
  | nil => simp [fieldsOf, List.map_const']
  | cons name rest ih =>
    rw [fieldsOf] at ih ⊢
    rw [List.map_cons, List.foldr_cons, ih]
    dsimp only
    rw [List.zipWith_map, List.zipWith_self]
    apply List.map_congr_left
    intro f _
    cases h : f.doc.get? name <;> simp [h]

theorem actions_ofPage (pg : Page) : (ofPage pg).actions = pg.rows.map (·.action) := by
  have hfields : fieldsOf pg.rows.length (ofPage pg).content =
      pg.rows.map fun f => f.doc.fields := by
    rw [ofPage]
    simp only [Page.column]
    rw [fieldsOf_map]
    exact List.map_congr_left fun f hf => Document.filterMap_get? pg.pairwise_columnNames
      fun n hn => Page.mem_columnNames hf hn
  rw [actions, show (ofPage pg).kinds = pg.rows.map (·.kind) from rfl, List.length_map, hfields,
    List.zipWith_map, List.zipWith_self]
  apply List.map_congr_left
  intro f _
  rw [Fact.kind, Fact.doc]
  cases f.action with
  | put doc => exact congrArg Action.put doc.ofFields_fields
  | delete => rfl
  | erase => rfl

/-- A page taken apart by columns is put together again as it was. -/
theorem toPage_ofPage (pg : Page) : (ofPage pg).toPage = pg := by
  rw [toPage, actions_ofPage, ofPage]
  simp only [List.zip_map', List.zipWith_map, List.zipWith_self]
  obtain ⟨rows⟩ := pg
  simp

end PageColumns

end Bitemporal
