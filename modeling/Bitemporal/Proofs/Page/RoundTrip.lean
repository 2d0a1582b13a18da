import Mathlib
import Bitemporal.Error
import Bitemporal.Proofs.Page.Record

/-!
# Page records are lossless

A record gives back the columns of its page under the number that it was made for, and under no
other.

## Main definitions

* `PageColumns.value?`: the value of a column in a row.

## Main statements

* `PageColumns.decode_of_ne`: a record that is read under one number is refused under all others.
* `Page.encode_lossless`: what is read of the record of a page.
-/

namespace Bitemporal

open Record

namespace Record

variable {bytes : Bytes} {index other sealedLength : Nat}

/-- What begins with another number is refused. -/
theorem takeColumns_of_ne (hne : other ≠ index) {result : PageColumns × Bytes}
    (h : takeColumns index sealedLength bytes = .ok result) :
    takeColumns other sealedLength bytes = .error (.wrongPage other index) := by
  simp only [takeColumns, bind, StateT.bind, Except.bind] at h ⊢
  cases hcount : takeCount bytes with
  | error d =>
    rw [hcount] at h
    cases h
  | ok taken =>
    obtain ⟨found, rest⟩ := taken
    rw [hcount] at h
    by_cases hfound : found = index
    · subst hfound
      simp only [if_pos hne.symm]
      rfl
    · simp only [if_pos hfound] at h
      cases h

end Record

namespace PageColumns

variable {bytes : Bytes} {index other : Nat} {c : PageColumns} {name : String} {k : Nat}

/-- A record is read under one number only. -/
theorem decode_of_ne (h : PageColumns.decode bytes index = .ok c) (hne : other ≠ index) :
    PageColumns.decode bytes other = .error (.wrongPage other index) := by
  simp only [PageColumns.decode, bind, Except.bind, StateT.run] at h ⊢
  split_ifs at h ⊢ with hshort hlength hchecksum
  split at h
  · cases h
  next result hread =>
    rw [takeColumns_of_ne hne hread]

/-- The value of a column in a row, if there is one. -/
def value? (c : PageColumns) (name : String) (k : Nat) : Option Json :=
  (c.content.lookup name).bind fun values => values[k]?.join

/-- The columns of a page have the values of its rows. -/
theorem value?_ofPage (pg : Page) (name : String) (k : Nat) :
    (ofPage pg).value? name k = pg.rows[k]?.bind fun f => f.doc.get? name := by
  have hcolumn : (ofPage pg).content.lookup name =
      if name ∈ pg.columnNames then some (pg.column name) else none := by
    rw [← Page.lookup_filterMap pg.columnNames fun n => some (pg.column n)]
    simp [ofPage]
  have hvalue : (pg.column name)[k]?.join = pg.rows[k]?.bind fun f => f.doc.get? name := by
    rw [Page.column, List.getElem?_map]
    cases pg.rows[k]? <;> rfl
  rw [value?, hcolumn, ← hvalue]
  split
  · rfl
  next hname =>
    cases hf : pg.rows[k]? with
    | none => simp [hvalue, hf]
    | some f =>
      rw [hvalue, hf]
      cases hget : f.doc.get? name with
      | none => simp [hget]
      | some v =>
        exact absurd (Page.mem_columnNames (List.mem_of_getElem? hf)
          (List.mem_map_of_mem (Document.get?_eq_some_iff.1 hget))) hname

end PageColumns

namespace Page

variable {index : Nat} {rows : List Fact}

/-- The record of some rows gives their columns, and these the rows, each with the values that it
has. Under any other number it is refused as corrupt. No count or length in a record is greater than
the length of the record. -/
theorem encode_lossless (hindex : index < 2 ^ 32)
    (hfits : (Page.encode index ⟨rows⟩).length < 2 ^ 32)
    (hreads : ∀ f ∈ rows, ∀ c ∈ f.doc.fields, Json.ofString? c.2.compact = some c.2) :
    let columns := PageColumns.ofPage ⟨rows⟩
    PageColumns.decode (Page.encode index ⟨rows⟩) index = .ok columns ∧
      columns.toPage.rows = rows ∧
      (∀ k name, columns.value? name k = rows[k]?.bind fun f => f.doc.get? name) ∧
      ∀ other, other ≠ index →
        (PageColumns.decode (Page.encode index ⟨rows⟩) other).mapError
            (fun d => Error.corruption d.message) =
          .error (.corruption s!"expected page {other}, found page {index}") := by
  have hdecode : PageColumns.decode (Page.encode index ⟨rows⟩) index = .ok (.ofPage ⟨rows⟩) :=
    columns_encode hindex hfits hreads
  refine ⟨hdecode, ?_, fun k name => PageColumns.value?_ofPage ⟨rows⟩ name k, ?_⟩
  · rw [PageColumns.toPage_ofPage]
  · intro other hne
    rw [PageColumns.decode_of_ne hdecode hne]
    rfl

/-- A column that is null in one row and absent from another, and rows without content. -/
theorem encode_lossless_mixed :
    let rows : List Fact :=
      [⟨.ofNat 1, .start, .never, 9, .put (Document.empty.set "a" .null)⟩,
        ⟨.ofNat 1, .start, .never, 8, .put (Document.empty.set "b" (.int 7))⟩,
        ⟨.ofNat 1, 3, 7, 6, .delete⟩, ⟨.ofNat 2, .start, .never, 5, .erase⟩]
    let columns := PageColumns.ofPage ⟨rows⟩
    PageColumns.decode (Page.encode 4 ⟨rows⟩) 4 = .ok columns ∧ columns.toPage.rows = rows ∧
      columns.value? "a" 0 = some .null ∧ columns.value? "a" 1 = none ∧
      ∀ other, other ≠ 4 → (PageColumns.decode (Page.encode 4 ⟨rows⟩) other).mapError
          (fun d => Error.corruption d.message) =
        .error (.corruption s!"expected page {other}, found page {4}") := by
  intro rows
  have hreads : ∀ f ∈ rows, ∀ c ∈ f.doc.fields, Json.ofString? c.2.compact = some c.2 := by
    have hfields : rows.flatMap (·.doc.fields) = [("a", .null), ("b", .int 7)] := rfl
    intro f hf c hc
    have hmem : c ∈ rows.flatMap (·.doc.fields) := List.mem_flatMap.2 ⟨f, hf, hc⟩
    rw [hfields, List.mem_pair] at hmem
    rcases hmem with rfl | rfl <;> rfl
  obtain ⟨hdecode, hrows, hvalues, hother⟩ :=
    encode_lossless (show 4 < 2 ^ 32 by decide) (by decide +kernel) hreads
  exact ⟨hdecode, hrows, hvalues 0 "a", hvalues 1 "a", hother⟩

end Page

end Bitemporal
