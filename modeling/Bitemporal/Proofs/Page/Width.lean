import Mathlib
import Bitemporal.Proofs.Page.Damage
import Bitemporal.Proofs.Page.Record

/-!
# The width of counts

Counts, lengths and page numbers take four bytes in a record, and a record is made also of a page
for which some of them are too great: they lose their higher bits. Such a record is complete, but it
is never read under its number. A record as long as that is refused for its length, and any other
for its number, which is that of another page.

## Main definitions

* `Page.Fits`: all numbers in the record of a page fit four bytes.

## Main statements

* `Page.fits_iff`: it is enough that the page number and the length of the record fit.
* `Page.encode_mod`: page numbers with the same lower bits give the same record.
* `Page.decode_encode_eq`: what is read of the record of any page.
-/

namespace Bitemporal

open Record

namespace Record

variable {bytes : Bytes} {index : Nat}

theorem count_mod (n : Nat) : count (n % 2 ^ 32) = count n := by
  unfold count littleEndian
  refine List.map_congr_left fun i hi => UInt8.toNat_inj.1 ?_
  have hi : i < 4 := List.mem_range.1 hi
  rw [UInt8.toNat_ofNat', UInt8.toNat_ofNat']
  interval_cases i <;> simp only [Nat.pow_eq] <;> omega

theorem body_mod (index : Nat) (c : PageColumns) : body (index % 2 ^ 32) c = body index c := by
  rw [body, body, count_mod]

/-- A record begins with the lower bits of its length. -/
theorem stored_frame_mod (bytes : Bytes) :
    littleEndianValue ((frame bytes).take 4) = (frame bytes).length % 2 ^ 32 := by
  rw [length_frame, frame, List.append_assoc, List.take_left' (length_count _), count,
    littleEndianValue_littleEndian]
  rfl

/-- A body begins with the lower bits of its number, and is not read if there are higher ones. -/
theorem takeColumns_body (sealedLength : Nat) (c : PageColumns) (h : 2 ^ 32 ≤ index) :
    takeColumns index sealedLength (body index c) =
      .error (.wrongPage index (index % 2 ^ 32)) := by
  have hlt : index % 2 ^ 32 < 2 ^ 32 := Nat.mod_lt _ (by decide)
  have hne : index % 2 ^ 32 ≠ index := by omega
  obtain ⟨rest, hbody⟩ : ∃ rest, body index c = count index ++ rest := by
    simp only [body, List.append_assoc]
    exact ⟨_, rfl⟩
  have hfound : takeCount (body index c) = .ok (index % 2 ^ 32, rest) := by
    rw [hbody, ← count_mod]
    exact Reads.takeCount hlt rest
  simp only [takeColumns, bind, StateT.bind, hfound, Except.bind, if_pos hne]
  rfl

end Record

open Record

namespace Page

variable {pg : Page} {index : Nat}

/-- All numbers in the record of a page fit four bytes. -/
structure Fits (index : Nat) (pg : Page) : Prop where
  number : index < 2 ^ 32
  rows : pg.rows.length < 2 ^ 32
  columns : pg.columnNames.length < 2 ^ 32
  name : ∀ name ∈ pg.columnNames, (Bytes.ofString name).length < 2 ^ 32
  value : ∀ f ∈ pg.rows, ∀ c ∈ f.doc.fields, (Bytes.ofString c.2.compact).length < 2 ^ 32
  record : (pg.encode index).length < 2 ^ 32

/-- It is enough that the page number and the length of the record fit: whatever a record counts is
in it. -/
theorem fits_iff : pg.Fits index ↔ index < 2 ^ 32 ∧ (pg.encode index).length < 2 ^ 32 := by
  refine ⟨fun h => ⟨h.number, h.record⟩, fun ⟨hindex, hrecord⟩ => ?_⟩
  have hrecord' := hrecord
  rw [encode, length_frame] at hrecord'
  have hbody := le_length_body (isRectangular_ofPage pg) index
  rw [rowLength] at hbody
  have hcolumns : (PageColumns.ofPage pg).content.length = pg.columnNames.length := by
    simp [PageColumns.ofPage]
  have hcolumn : ∀ name ∈ pg.columnNames,
      (contentColumn (name, pg.column name)).length ≤ (body index (.ofPage pg)).length := by
    intro name hname
    have hmem : (name, pg.column name) ∈ (PageColumns.ofPage pg).content :=
      List.mem_map_of_mem hname
    have := length_le_flatMap contentColumn hmem
    rw [body, List.length_append]
    omega
  refine ⟨hindex, by omega, by omega, fun name hname => ?_, fun f hf c hc => ?_, hrecord⟩
  · have hlength := hcolumn name hname
    rw [contentColumn, counted, List.length_append, List.length_append] at hlength
    dsimp only at hlength
    omega
  · have hname : c.1 ∈ pg.columnNames := mem_columnNames hf (List.mem_map_of_mem hc)
    have hlength := hcolumn c.1 hname
    have hentry : some c.2 ∈ pg.column c.1 :=
      List.mem_map.2 ⟨f, hf, Document.get?_eq_some_iff.2 hc⟩
    have := length_le_flatMap entry hentry
    rw [contentColumn, List.length_append] at hlength
    rw [entry, counted, List.length_cons, List.length_append] at this
    dsimp only at hlength
    omega

instance (index : Nat) (pg : Page) : Decidable (pg.Fits index) :=
  decidable_of_iff _ fits_iff.symm

/-- Page numbers with the same lower bits give the same record. -/
theorem encode_mod (index : Nat) (pg : Page) : pg.encode (index % 2 ^ 32) = pg.encode index := by
  rw [encode, encode, body_mod]

/-- What is wrong with the record of a page that does not fit: its length, or else its number. -/
def excess (index : Nat) (pg : Page) : Defect :=
  let length := (pg.encode index).length
  if 2 ^ 32 ≤ length then .wrongLength (length % 2 ^ 32) length
  else .wrongPage index (index % 2 ^ 32)

/-- The record of a page that does not fit is refused under its number. -/
theorem decode_encode_of_not_fits (h : ¬pg.Fits index) :
    Page.decode (pg.encode index) index = .error (pg.excess index) := by
  have hlong := minLength_le_length_encode index pg
  rw [fits_iff] at h
  by_cases hwide : 2 ^ 32 ≤ (pg.encode index).length
  · have hlt := Nat.mod_lt (pg.encode index).length (show 0 < 2 ^ 32 by decide)
    have hne : (pg.encode index).length % 2 ^ 32 ≠ (pg.encode index).length := by omega
    have hstored : littleEndianValue ((pg.encode index).take 4) =
        (pg.encode index).length % 2 ^ 32 := stored_frame_mod _
    rw [Page.decode, PageColumns.decode, if_neg (not_lt.2 hlong), excess, if_pos hwide]
    simp only [hstored, if_pos hne]
    rfl
  · have hindex : 2 ^ 32 ≤ index := by omega
    rw [excess, if_neg hwide, Page.decode]
    rw [encode] at hlong hwide ⊢
    rw [PageColumns.decode_frame_eq hlong (not_le.1 hwide), takeColumns_body _ _ hindex]
    rfl

/-- What is read of the record of any page under its number: the page, if all numbers in the record
fit and the text of every value is read as the value, and nothing if they do not. -/
theorem decode_encode_eq
    (hreads : ∀ f ∈ pg.rows, ∀ c ∈ f.doc.fields, Json.ofString? c.2.compact = some c.2) :
    Page.decode (pg.encode index) index =
      if pg.Fits index then .ok pg else .error (pg.excess index) := by
  split_ifs with hfits
  · exact decode_encode hfits.number hfits.record hreads
  · exact decode_encode_of_not_fits hfits

/-- A page with one row, under the last number that fits and under the next one. -/
theorem decode_encode_last :
    let pg : Page := ⟨[⟨.ofNat 1, .start, .never, 5, .delete⟩]⟩
    Page.decode (pg.encode (2 ^ 32 - 1)) (2 ^ 32 - 1) = .ok pg ∧
      Page.decode (pg.encode (2 ^ 32)) (2 ^ 32) = .error (.wrongPage (2 ^ 32) 0) := by
  intro pg
  have hreads : ∀ f ∈ pg.rows, ∀ c ∈ f.doc.fields, Json.ofString? c.2.compact = some c.2 := by
    simp [pg, Fact.doc, Document.empty]
  have hlast : (pg.encode (2 ^ 32 - 1)).length = 61 := by decide +kernel
  have hfits : pg.Fits (2 ^ 32 - 1) := fits_iff.2 ⟨by decide, by rw [hlast]; decide⟩
  have hexceeds : ¬pg.Fits (2 ^ 32) := fun h => absurd h.number (by decide)
  have hexcess : pg.excess (2 ^ 32) = .wrongPage (2 ^ 32) 0 := by decide +kernel
  constructor
  · rw [decode_encode_eq hreads, if_pos hfits]
  · rw [decode_encode_eq hreads, if_neg hexceeds, hexcess]

/-- Of a page number past four bytes only the lower bits are in a record: it is the record of the
page zero, which is refused. -/
theorem encode_wide : Page.encode (2 ^ 32) ⟨[]⟩ = Page.encode 0 ⟨[]⟩ ∧
    Page.decode (Page.encode (2 ^ 32) ⟨[]⟩) (2 ^ 32) = .error (.wrongPage (2 ^ 32) 0) := by
  have hexceeds : ¬(⟨[]⟩ : Page).Fits (2 ^ 32) := fun h => absurd h.number (by decide)
  have hexcess : (⟨[]⟩ : Page).excess (2 ^ 32) = .wrongPage (2 ^ 32) 0 := by decide +kernel
  exact ⟨(encode_mod (2 ^ 32) ⟨[]⟩).symm, hexcess ▸ decode_encode_of_not_fits hexceeds⟩

end Page

end Bitemporal
