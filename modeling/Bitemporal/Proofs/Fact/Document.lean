import Mathlib
import Bitemporal.Fact.Document

/-!
# Documents

Fields that are sorted already are a document as they stand, and a document is known by the values
of its columns.

## Main statements

* `Json.sortFields_eq_self`: sorted fields stay as they are.
* `Document.ofFields_fields`: a document is put together from its fields.
* `Document.filterMap_get?`: a document is read off any sorted columns that hold all of its own.
-/

namespace Bitemporal

namespace Json

variable {α : Type} {fields : List (String × α)}

theorem setField_of_forall_lt {name : String} {value : α} (h : ∀ f ∈ fields, f.1 < name) :
    setField name value fields = fields ++ [(name, value)] := by
  induction fields with
  | nil => rfl
  | cons f rest ih =>
    rw [List.forall_mem_cons] at h
    have hlt : ¬ name < f.1 := fun hc => String.lt_irrefl _ (String.lt_trans hc h.1)
    have hne : name ≠ f.1 := fun hc => String.lt_irrefl _ (hc ▸ h.1)
    rw [setField, if_neg hlt, if_neg hne, ih h.2, List.cons_append]

theorem mem_map_setField {name n : String} {value : α} :
    n ∈ (setField name value fields).map (·.1) ↔ n = name ∨ n ∈ fields.map (·.1) := by
  induction fields with
  | nil => simp [setField]
  | cons f rest ih =>
    rw [setField]
    split
    · simp
    · split
      · rename_i heq
        simp [heq]
      · simp only [List.map_cons, List.mem_cons, ih]
        exact or_left_comm

theorem foldl_setField (h : fields.Pairwise (·.1 < ·.1)) {acc : List (String × α)}
    (hacc : ∀ a ∈ acc, ∀ f ∈ fields, a.1 < f.1) :
    fields.foldl (fun acc f => setField f.1 f.2 acc) acc = acc ++ fields := by
  induction fields generalizing acc with
  | nil => simp
  | cons f rest ih =>
    rw [List.pairwise_cons] at h
    rw [List.foldl_cons, setField_of_forall_lt fun a ha => hacc a ha f (.head _), ih h.2,
      List.append_assoc]
    · rfl
    · intro a ha g hg
      rcases List.mem_append.1 ha with ha | ha
      · exact hacc a ha g (.tail _ hg)
      · rw [List.mem_singleton.1 ha]
        exact h.1 g hg

/-- Sorted fields stay as they are. -/
theorem sortFields_eq_self (h : fields.Pairwise (·.1 < ·.1)) : sortFields fields = fields :=
  foldl_setField h (by simp)

end Json

namespace Document

variable {doc : Document} {name : String} {value : Json}

theorem fields_ofFields (fields : List (String × Json)) :
    (ofFields fields).fields = Json.sortFields fields := by
  rw [ofFields, Json.sortFields]
  exact (List.foldl_hom Document.fields fun _ _ => rfl).symm

/-- A document is put together from its fields. -/
theorem ofFields_fields (doc : Document) : ofFields doc.fields = doc := by
  obtain ⟨fields, sorted⟩ := doc
  have h := fields_ofFields fields
  rw [Json.sortFields_eq_self sorted] at h
  generalize hdoc : ofFields fields = d at h
  obtain ⟨fields', sorted'⟩ := d
  cases h
  rfl

theorem get?_eq_some_iff : doc.get? name = some value ↔ (name, value) ∈ doc.fields := by
  obtain ⟨fields, sorted⟩ := doc
  rw [get?]
  induction fields with
  | nil => simp
  | cons f rest ih =>
    obtain ⟨n, v⟩ := f
    have ih := ih sorted.of_cons
    rw [List.pairwise_cons] at sorted
    rw [List.lookup_cons, List.mem_cons]
    by_cases hn : name = n
    · have hrest : (n, value) ∉ rest := fun hc => String.lt_irrefl n (sorted.1 (n, value) hc)
      simp [hn, hrest, eq_comm]
    · simpa [beq_eq_false_iff_ne.2 hn, hn] using ih

/-- A document is read off any sorted columns that hold all of its own. -/
theorem filterMap_get? {names : List String} (hnames : names.Pairwise (· < ·))
    (hmem : ∀ n ∈ doc.names, n ∈ names) :
    (names.filterMap fun n => (doc.get? n).map (n, ·)) = doc.fields := by
  have hnodup {l : List (String × Json)} (h : l.Pairwise (·.1 < ·.1)) : l.Nodup := by
    refine List.Pairwise.imp ?_ h
    rintro a b hab rfl
    exact String.lt_irrefl _ hab
  have hread : (names.filterMap fun n => (doc.get? n).map (n, ·)).Pairwise (·.1 < ·.1) := by
    refine List.Pairwise.filterMap _ ?_ hnames
    intro a b hab f hf g hg
    obtain ⟨v, -, rfl⟩ := Option.map_eq_some_iff.1 hf
    obtain ⟨w, -, rfl⟩ := Option.map_eq_some_iff.1 hg
    exact hab
  refine List.Perm.eq_of_pairwise ?_ hread doc.sorted ?_
  · intro a b _ _ hab hba
    exact absurd (String.lt_trans hab hba) (String.lt_irrefl _)
  · rw [List.perm_ext_iff_of_nodup (hnodup hread) (hnodup doc.sorted)]
    rintro ⟨n, v⟩
    simp only [List.mem_filterMap, Option.map_eq_some_iff, get?_eq_some_iff, Prod.mk.injEq]
    constructor
    · rintro ⟨m, -, u, hmem, rfl, rfl⟩
      exact hmem
    · intro hmem'
      exact ⟨n, hmem n (List.mem_map_of_mem hmem'), v, hmem', rfl, rfl⟩

end Document

end Bitemporal
