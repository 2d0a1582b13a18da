import Mathlib
import Bitemporal.Proofs.Page.Record
import Bitemporal.Proofs.Page.Summary
import Bitemporal.Proofs.Segment.Sealing

/-!
# What stored segments hold

As long as its file of records is left alone, a stored segment holds the facts that it was written
from. The only pages that cannot be loaded are those whose record is too long for the four bytes of
a length or lies past the last offset.

## Main definitions

* `PageSummary.Fits`: a record that can be found and read.
* `StoredSegment.IsWrittenFrom`: a segment in files that is the result of a write.

## Main statements

* `StoredSegment.IsWrittenFrom.page_eq`: what is read of a page.
* `StoredSegment.IsWrittenFrom.isSound`: what is stored is held.
-/

namespace Bitemporal

variable {d d' : Disk} {w : BucketWidth} {rows : List Fact} {pages : List Page}

/-- The number of a record and its length fit four bytes, and a file can be positioned at its
offset. -/
def PageSummary.Fits (s : PageSummary) (i : Nat) : Prop :=
  i < 2 ^ 32 ∧ s.length < 2 ^ 32 ∧ s.offset ≤ StoredSegment.lastOffset

namespace StoredSegment

variable {s : StoredSegment} {settings : Settings} {wr : Writer} {name : String}

/-- The segment is the result of storing ordered facts on some pages, with oversized leaves allowed,
and its file of records is as the write left it. -/
structure IsWrittenFrom (d : Disk) (w : BucketWidth) (rows : List Fact) (pages : List Page)
    (s : StoredSegment) : Prop where
  ordered : Fact.IsOrdered rows
  written : ∃ settings wr name d₀ d₁, Writer.ofSettings settings = .ok wr ∧ wr.width = w ∧
    wr.oversized = .allow ∧ (wr.write rows).value.pages = pages ∧
    (StoredSegment.write settings name rows d₀).value = (.ok s, d₁) ∧
    d.openFile (Disk.join s.directory dataFile) = d₁.openFile (Disk.join s.directory dataFile)

/-- The segment that a write makes is written. -/
theorem isWrittenFrom_ofRows (hwr : Writer.ofSettings settings = .ok wr)
    (hallow : wr.oversized = .allow) (hordered : Fact.IsOrdered rows)
    (hfree : d.holds (Disk.join (settings.segmentDir name) manifestFile) = false)
    (hroom : HasRoom settings name d) :
    (ofRows settings wr name rows).IsWrittenFrom
      (StoredSegment.write settings name rows d).value.2 wr.width rows (wr.pagesOf rows) := by
  have hout := Writer.value_write hallow hordered
  obtain ⟨s, d', hwrite⟩ := (exists_value_write_iff hwr hfree (by rw [hout])).2 hroom
  obtain ⟨wr', hwr', -, rfl, -⟩ := of_value_write hwrite
  obtain rfl : wr' = wr := Except.ok.inj (hwr'.symm.trans hwr)
  refine ⟨hordered, settings, wr', name, d, d', hwr, rfl, hallow, ?_, hwrite, ?_⟩
  · rw [hout]
  · rw [hwrite]

/-- The files of a written segment. -/
theorem IsWrittenFrom.exists_ofRows (h : s.IsWrittenFrom d w rows pages) :
    ∃ settings wr name, wr.width = w ∧ wr.pagesOf rows = pages ∧
      s = ofRows settings wr name rows ∧
      d.openFile (Disk.join s.directory dataFile) =
        .ok (some (pages.mapIdx fun i p => p.encode i).flatten) := by
  obtain ⟨settings, wr, name, d₀, d₁, hwr, hw, hallow, rfl, hwrite, hfile⟩ := h.written
  obtain ⟨wr', hwr', -, rfl, hstored⟩ := of_value_write hwrite
  obtain rfl : wr' = wr := Except.ok.inj (hwr'.symm.trans hwr)
  refine ⟨settings, wr', name, hw, ?_, rfl, ?_⟩
  · rw [Writer.value_write hallow h.ordered]
  · rw [Writer.value_write hallow h.ordered, hfile]
    exact hstored.data

/-- A page of a write is found by its summary. -/
theorem exists_summary_ofRows (settings : Settings) (name : String) {i : Nat} {page : Page}
    (hpage : (wr.pagesOf rows)[i]? = some page) :
    ∃ offset, (ofRows settings wr name rows).summaries[i]? =
        some { page.summary settings.bloomBits with offset, length := (page.encode i).length } ∧
      ((((wr.pagesOf rows).mapIdx fun i p => p.encode i).flatten).drop offset).take
        (page.encode i).length = page.encode i := by
  refine ⟨_, ?_, take_drop_flatten (i := i) ?_⟩
  · simp [ofRows, map_records, hpage]
  · simp [hpage]

/-- A stored page is found by its summary. -/
theorem IsWrittenFrom.exists_record (h : s.IsWrittenFrom d w rows pages) {i : Nat} {page : Page}
    (hpage : pages[i]? = some page) :
    ∃ bloomBits offset content, s.summaries[i]? = some { page.summary bloomBits with
        offset, length := (page.encode i).length } ∧
      d.openFile (Disk.join s.directory dataFile) = .ok (some content) ∧
      (content.drop offset).take (page.encode i).length = page.encode i := by
  obtain ⟨settings, wr, name, -, rfl, rfl, hfile⟩ := h.exists_ofRows
  obtain ⟨offset, hget, hbytes⟩ := exists_summary_ofRows settings name hpage
  exact ⟨settings.bloomBits, offset, _, hget, hfile, hbytes⟩

/-- A page that is read comes from its record. -/
theorem of_page {i : Nat} {page : Page} {summary : PageSummary} {content : Bytes}
    (hsummary : s.summaries[i]? = some summary)
    (hopen : d.openFile (Disk.join s.directory dataFile) = .ok (some content))
    (h : s.page i d = .ok page) :
    ∃ record, readRecord (some content) summary.offset summary.length = .ok record ∧
      Page.decode record i = .ok page := by
  rw [StoredSegment.page, readPage, hsummary] at h
  simp only [hopen, bind, Except.bind, Except.mapError] at h
  cases hrecord : readRecord (some content) summary.offset summary.length with
  | error fault => simp [hrecord] at h
  | ok record =>
    cases hdecode : Page.decode record i with
    | error defect => simp [hrecord, hdecode] at h
    | ok found =>
      simp only [hrecord, hdecode] at h
      by_cases hsize : found.size = summary.rowCount
      · rw [if_pos hsize] at h
        exact ⟨record, rfl, hdecode.trans (congrArg Except.ok (Except.ok.inj h))⟩
      · simp [if_neg hsize] at h

theorem readRecord_eq {content record : Bytes} {offset : Nat}
    (hbytes : (content.drop offset).take record.length = record) :
    readRecord (some content) offset record.length =
      if lastOffset < offset then .error .invalidPosition else .ok record := by
  rw [readRecord]
  simp only [hbytes, if_true]

/-- A page whose record fits is read from it. -/
theorem page_of_record {i bloomBits offset : Nat} {page : Page} {content : Bytes}
    (hget : s.summaries[i]? =
      some { page.summary bloomBits with offset, length := (page.encode i).length })
    (hopen : d.openFile (Disk.join s.directory dataFile) = .ok (some content))
    (hbytes : (content.drop offset).take (page.encode i).length = page.encode i)
    (hfits : i < 2 ^ 32 ∧ (page.encode i).length < 2 ^ 32 ∧ offset ≤ lastOffset)
    (hreads : ∀ f ∈ page.rows, ∀ c ∈ f.doc.fields, Json.ofString? c.2.compact = some c.2) :
    s.page i d = .ok page := by
  have hdecode := Page.decode_encode hfits.1 hfits.2.1 hreads
  rw [StoredSegment.page, readPage, hget]
  simp only [hopen, readRecord_eq hbytes, bind, Except.bind, Except.mapError,
    if_neg (not_lt.2 hfits.2.2), hdecode, Page.rowCount_summary, if_true]
  rfl

/-- A stored page is read as it was written if its record fits. Nothing is read otherwise. -/
theorem IsWrittenFrom.page_eq (h : s.IsWrittenFrom d w rows pages) {i : Nat} {page : Page}
    (hpage : pages[i]? = some page)
    (hreads : ∀ f ∈ page.rows, ∀ c ∈ f.doc.fields, Json.ofString? c.2.compact = some c.2) :
    s.page i d = .ok page ∨
      (∃ summary, s.summaries[i]? = some summary ∧ ¬ summary.Fits i) ∧
        ∃ e, s.page i d = .error e := by
  obtain ⟨bloomBits, offset, content, hget, hopen, hbytes⟩ := h.exists_record hpage
  by_cases hfits : i < 2 ^ 32 ∧ (page.encode i).length < 2 ^ 32 ∧ offset ≤ lastOffset
  · exact .inl (page_of_record hget hopen hbytes hfits hreads)
  · right
    refine ⟨⟨_, hget, hfits⟩, ?_⟩
    cases hfound : s.page i d with
    | error e => exact ⟨e, rfl⟩
    | ok found =>
      -- what is read has a record that fits
      obtain ⟨record, hread, hdecode⟩ := of_page hget hopen hfound
      rw [readRecord_eq hbytes] at hread
      split_ifs at hread with hoffset
      obtain rfl := Except.ok.inj hread
      obtain ⟨hlength, hindex⟩ := Page.lt_of_decode hdecode
      exact absurd ⟨hindex, hlength, not_lt.1 hoffset⟩ hfits

theorem IsWrittenFrom.divides (h : s.IsWrittenFrom d w rows pages) :
    s.trie.width = w ∧ s.trie.Divides pages rows := by
  obtain ⟨settings, wr, name, hw, rfl, rfl, -⟩ := h.exists_ofRows
  exact ⟨hw, wr.divides_write rows⟩

/-- What is stored is held, with the records that do not fit as an excuse. -/
theorem IsWrittenFrom.isSound {excuse : Prop} (h : s.IsWrittenFrom d w rows pages)
    (hreads : ∀ f ∈ rows, ∀ c ∈ f.doc.fields, Json.ofString? c.2.compact = some c.2)
    (hexcuse : ∀ i (summary : PageSummary), s.summaries[i]? = some summary →
      ¬ summary.Fits i → excuse) :
    Holding.IsSound excuse d w ⟨.stored s, pages, rows⟩ where
  width := h.divides.1
  ordered := h.ordered
  divides := h.divides.2
  loads i page hpage := by
    have hsub := h.divides.2.sublist page (List.mem_of_getElem? hpage)
    have hload : Segment.page d (.stored s) i = s.page i d := rfl
    rcases h.page_eq hpage fun f hf => hreads f (hsub.mem hf) with
      hget | ⟨⟨summary, hsummary, hfits⟩, e, hget⟩
    · refine .of_result ?_
      rw [Segment.loadPage, hload, hget]
      rfl
    · refine .inr ⟨hexcuse i summary hsummary hfits, ?_⟩
      rw [Segment.loadPage, hload, hget]
      dsimp only
      split
      · exact ⟨.outOfBounds, rfl⟩
      · exact ⟨.error e, rfl⟩

/-- A stored summary covers the rows of its page. -/
theorem IsWrittenFrom.covers (h : s.IsWrittenFrom d w rows pages) {i : Nat} {page : Page}
    {summary : PageSummary} (hpage : pages[i]? = some page)
    (hsummary : s.summaries[i]? = some summary) :
    summary.entities.words ≠ [] ∧ ∀ f ∈ page.rows, summary.Covers f := by
  obtain ⟨bloomBits, offset, content, hget, -, -⟩ := h.exists_record hpage
  obtain rfl := Option.some.inj (hget.symm.trans hsummary)
  refine ⟨page.words_summary_ne_nil bloomBits, fun f hf => ?_⟩
  have hcovers := Page.covers_summary hf bloomBits
  exact ⟨hcovers.systemFrom, hcovers.validFrom, hcovers.validTo, hcovers.entity, hcovers.erase⟩

end StoredSegment

end Bitemporal
