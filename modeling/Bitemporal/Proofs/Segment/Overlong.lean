import Mathlib
import Bitemporal.Proofs.Page.Width
import Bitemporal.Proofs.Segment.Reopened

/-!
# Records that are too long

The facts of one entity are never cut, so their record may be too long for the four bytes of its
length. Such a page is written as any other is, in a segment that can be opened, and it is refused
when it is loaded.

## Main definitions

* `Page.copies`, `StoredSegment.ofCopies`: a page, and a segment, of copies of one fact.

## Main statements

* `StoredSegment.page_of_record_of_not_fits`: a stored page that does not fit is refused.
* `StoredSegment.exists_write_copies`: any number of copies can be written.
* `StoredSegment.loadPage_ofCopies`: too many of them cannot be loaded.
-/

namespace Bitemporal

open scoped Linear
open Record

variable {n : Nat}

theorem Fact.isOrdered_replicate (n : Nat) (f : Fact) : IsOrdered (List.replicate n f) :=
  List.pairwise_replicate.2 (.inr (before_iff.2 (.inr ⟨rfl, le_rfl⟩)))

theorem Layout.isSolo_replicate (n : Nat) (f : Fact) : isSolo (List.replicate n f) := by
  simp [isSolo, List.head?_replicate, List.getLast?_replicate]

/-- Where one more row is only counted, any number of them is. -/
theorem PageSummary.foldl_addRow_replicate {s : PageSummary} {f : Fact}
    (h : s.addRow f = { s with rowCount := s.rowCount + 1 }) (n : Nat) :
    (List.replicate n f).foldl addRow s = { s with rowCount := s.rowCount + n } := by
  induction n with
  | zero => rfl
  | succ n ih =>
    have hstep : { s with rowCount := s.rowCount + n }.addRow f =
        { s.addRow f with rowCount := s.rowCount + n + 1 } := rfl
    rw [List.replicate_succ', List.foldl_append, ih, List.foldl_cons, List.foldl_nil, hstep, h,
      Nat.add_assoc]

/-! ## Pages of copies -/

namespace Page

/-- A page of copies of one fact. -/
def copies (n : Nat) : Page := ⟨List.replicate n Fact.assertion⟩

theorem columnNames_copies (n : Nat) : (copies n).columnNames = [] := by
  rw [columnNames, List.map_eq_nil_iff, copies]
  induction n with
  | zero => rfl
  | succ n ih =>
    rw [List.replicate_succ, List.foldl_cons]
    exact ih

theorem length_encode_copies (n index : Nat) :
    ((copies n).encode index).length = minLength + rowLength * n := by
  rw [length_encode, PageColumns.ofPage, columnNames_copies, copies, List.length_replicate]
  rfl

theorem summary_copies (hn : n ≠ 0) : (copies n).summary 64 =
    ⟨0, 0, n, 5, 5, .start, .never, ⟨[7]⟩, false, []⟩ := by
  obtain ⟨n, rfl⟩ := Nat.exists_eq_succ_of_ne_zero hn
  -- the first copy sets everything but the count
  have hfirst : (PageSummary.ofBits 64).addRow Fact.assertion =
      ⟨0, 0, 1, 5, 5, .start, .never, ⟨[7]⟩, false, []⟩ := by decide +kernel
  rw [summary, columnNames_copies, copies, List.replicate_succ, List.foldl_cons, hfirst,
    PageSummary.foldl_addRow_replicate (by decide +kernel), Nat.add_comm]
  rfl

theorem excess_copies (index : Nat) (hlong : 2 ^ 32 ≤ minLength + rowLength * n) :
    (copies n).excess index =
      .wrongLength ((minLength + rowLength * n) % 2 ^ 32) (minLength + rowLength * n) := by
  rw [excess, length_encode_copies]
  exact if_pos hlong

end Page

/-! ## Writing copies -/

namespace Writer

/-- Copies are written on one page, whatever the limit of a leaf is. -/
theorem pagesOf_copies (wr : Writer) (hn : n ≠ 0) :
    wr.pagesOf (List.replicate n Fact.assertion) = [.copies n] :=
  pagesOf_eq_singleton (by simpa using hn) (.inr (Layout.isSolo_replicate n _))

theorem trieOf_copies (wr : Writer) (hn : n ≠ 0) :
    wr.trieOf (List.replicate n Fact.assertion) = ⟨.leaf 0, wr.width⟩ :=
  trieOf_eq_leaf (by simpa using hn) (.inr (Layout.isSolo_replicate n _))

end Writer

theorem MemorySegment.value_write_copies (hn : n ≠ 0) :
    (MemorySegment.write "copies" (List.replicate n Fact.assertion) StoredSegment.narrow).value =
      .ok (onePage "copies" .two (List.replicate n Fact.assertion)) := by
  have hwr : Writer.ofSettings StoredSegment.narrow = .ok ⟨.two, 1024, .allow⟩ := rfl
  rw [value_write hwr rfl (Fact.isOrdered_replicate n _), Writer.trieOf_copies _ hn,
    Writer.pagesOf_copies _ hn]
  rfl

namespace StoredSegment

variable {d : Disk} {s : StoredSegment}

/-- A segment of copies of one fact. -/
def ofCopies (n : Nat) : StoredSegment where
  name := "copies"
  directory := narrow.segmentDir "copies"
  trie := ⟨.leaf 0, .two⟩
  summaries := (copiesManifest (minLength + rowLength * n) n).pages

theorem records_copies (hn : n ≠ 0) : (records narrow [.copies n]).map (·.2) =
    (copiesManifest (minLength + rowLength * n) n).pages := by
  have hsummary : (Page.copies n).summary narrow.bloomBits = _ := Page.summary_copies hn
  rw [map_records, List.mapIdx_singleton, hsummary, Page.length_encode_copies]
  rfl

theorem ofRows_copies (hn : n ≠ 0) :
    ofRows narrow ⟨.two, 1024, .allow⟩ "copies" (List.replicate n Fact.assertion) = ofCopies n := by
  rw [ofRows, Writer.trieOf_copies _ hn, Writer.pagesOf_copies _ hn]
  exact congrArg (StoredSegment.mk _ _ _) (records_copies hn)

/-- Any number of copies can be stored, whatever the length of their record. -/
theorem exists_write_copies (hn : n ≠ 0) : ∃ d,
    (StoredSegment.write narrow "copies" (List.replicate n Fact.assertion) .empty).value =
        (.ok (ofCopies n), d) ∧
      d.openFile (Disk.join (ofCopies n).directory dataFile) =
        .ok (some ((Page.copies n).encode 0)) := by
  let wr : Writer := ⟨.two, 1024, .allow⟩
  have hwr : Writer.ofSettings narrow = .ok wr := rfl
  have hroom : HasRoom narrow "copies" .empty := hasRoom_of_isNone rfl (by decide)
  have hout : (wr.write (List.replicate n Fact.assertion)).value = _ :=
    Writer.value_write rfl (Fact.isOrdered_replicate n _)
  obtain ⟨s, d, hwrite⟩ := (exists_value_write_iff hwr rfl (by rw [hout])).2 hroom
  obtain ⟨wr', hwr', -, rfl, hstored⟩ := of_value_write hwrite
  obtain rfl : wr' = wr := Except.ok.inj (hwr'.symm.trans hwr)
  have hdata : d.openFile (Disk.join (ofCopies n).directory dataFile) = _ := hstored.data
  rw [wr.pagesOf_copies hn] at hdata
  rw [ofRows_copies hn] at hwrite
  exact ⟨d, hwrite, hdata.trans (by simp)⟩

/-! ## Loading them -/

/-- A page whose record does not fit is refused when it is read. -/
theorem page_of_record_of_not_fits {i bloomBits offset : Nat} {page : Page} {content : Bytes}
    (hget : s.summaries[i]? =
      some { page.summary bloomBits with offset, length := (page.encode i).length })
    (hopen : d.openFile (Disk.join s.directory dataFile) = .ok (some content))
    (hbytes : (content.drop offset).take (page.encode i).length = page.encode i)
    (hoffset : offset ≤ lastOffset) (hfits : ¬ page.Fits i) :
    s.page i d = .error (.pageUnavailable s.name i (.corruption (page.excess i).message)) := by
  have hdecode := Page.decode_encode_of_not_fits hfits
  rw [StoredSegment.page, readPage, hget]
  simp only [hopen, readRecord_eq hbytes, bind, Except.bind, Except.mapError,
    if_neg (not_lt.2 hoffset), hdecode]

/-- A page of too many copies is refused for its length when it is loaded. -/
theorem loadPage_ofCopies (hlong : 2 ^ 32 ≤ minLength + rowLength * n)
    (hheld : minLength + rowLength * n < recordLimit)
    (hopen : d.openFile (Disk.join (ofCopies n).directory dataFile) =
      .ok (some ((Page.copies n).encode 0))) :
    (Segment.loadPage d (.stored (ofCopies n)) 0).result =
      .error (.error (.pageUnavailable "copies" 0 (.corruption
        (Defect.wrongLength ((minLength + rowLength * n) % 2 ^ 32)
          (minLength + rowLength * n)).message))) := by
  have hn : n ≠ 0 := by rintro rfl; simp [minLength] at hlong
  have hget : (ofCopies n).summaries[0]? = some { (Page.copies n).summary 64 with
      offset := 0, length := ((Page.copies n).encode 0).length } := by
    rw [Page.summary_copies hn, Page.length_encode_copies]
    rfl
  have hfits : ¬ (Page.copies n).Fits 0 := fun h =>
    absurd h.record (by rw [Page.length_encode_copies]; omega)
  have hpage := page_of_record_of_not_fits hget hopen (by simp) (Nat.zero_le _) hfits
  rw [Page.excess_copies 0 hlong] at hpage
  -- the record can be held, so nothing comes before its length is compared
  have houtgrows : (Segment.stored (ofCopies n)).outgrows d 0 = false := by
    rw [Segment.outgrows, outgrows, hget, hopen]
    simpa [Page.length_encode_copies] using hheld
  have hload : Segment.page d (.stored (ofCopies n)) 0 = (ofCopies n).page 0 d := rfl
  rw [Segment.loadPage, hload, hpage]
  simp only [houtgrows]
  rfl

end StoredSegment

end Bitemporal
