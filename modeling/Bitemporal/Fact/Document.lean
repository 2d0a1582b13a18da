import Bitemporal.Json.Basic

/-!
# Documents

The content of a version: JSON values by column name, sorted by name.

## Main definitions

* `Document`: the fields with the proof that their names strictly ascend.
* `Document.set`, `Document.get?`, `Document.restrict`: one field, and a choice of columns.
-/

namespace Bitemporal

namespace Json

theorem mem_setField {α : Type} {name : String} {value : α} {fields : List (String × α)}
    {f : String × α} (h : f ∈ setField name value fields) : f.1 = name ∨ f ∈ fields := by
  induction fields with
  | nil => simp [setField] at h; simp [h]
  | cons g rest ih => grind [setField]

theorem pairwise_setField {α : Type} {name : String} {value : α} {fields : List (String × α)}
    (h : fields.Pairwise (·.1 < ·.1)) : (setField name value fields).Pairwise (·.1 < ·.1) := by
  induction fields with
  | nil => simp [setField]
  | cons g rest ih =>
    rw [List.pairwise_cons] at h
    unfold setField
    split
    · rename_i hlt
      refine List.pairwise_cons.2 ⟨fun f hf => ?_, List.pairwise_cons.2 h⟩
      rcases List.mem_cons.1 hf with rfl | hf
      · exact hlt
      · exact String.lt_trans hlt (h.1 f hf)
    · split
      · rename_i heq
        exact List.pairwise_cons.2 ⟨fun f hf => heq ▸ h.1 f hf, h.2⟩
      · rename_i hlt hne
        refine List.pairwise_cons.2 ⟨fun f hf => ?_, ih h.2⟩
        rcases mem_setField hf with hf | hf
        · rcases String.le_total g.1 name with hle | hle
          · exact hf ▸ Std.lt_of_le_of_ne hle (Ne.symm hne)
          · exact absurd (Std.lt_of_le_of_ne hle hne) hlt
        · exact h.1 f hf

end Json

/-- Values by column name. -/
structure Document where
  /-- The columns that have a value. -/
  fields : List (String × Json)
  /-- They are sorted by name, and no name stands twice. -/
  sorted : fields.Pairwise (·.1 < ·.1)
deriving Repr

namespace Document

/-- No columns. -/
def empty : Document := ⟨[], .nil⟩

instance : Inhabited Document := ⟨empty⟩

/-- The document with one value set. -/
def set (d : Document) (name : String) (value : Json) : Document :=
  ⟨Json.setField name value d.fields, Json.pairwise_setField d.sorted⟩

/-- The document of fields in any order; of two fields of one name the later counts. -/
def ofFields (fields : List (String × Json)) : Document :=
  fields.foldl (fun d f => d.set f.1 f.2) empty

/-- The value of a column. -/
def get? (d : Document) (name : String) : Option Json := d.fields.lookup name

/-- The names of the columns that have a value. -/
def names (d : Document) : List String := d.fields.map (·.1)

/-- Only the columns of the given names. -/
def restrict (d : Document) (names : List String) : Document :=
  ⟨d.fields.filter fun f => names.contains f.1, d.sorted.filter _⟩

/-- The document as an object. -/
def toJson (d : Document) : Json := .object d.fields

/-- The document of an object. -/
def ofJson? : Json → Option Document
  | .object fields => some (ofFields fields)
  | _ => none

end Document

end Bitemporal
