import Mathlib
import Bitemporal.Proofs.Page.Outline
import Bitemporal.Proofs.Segment.Stored
import Bitemporal.Proofs.Segment.Written

/-!
# Loading pages of written segments

Every page that is loaded from a segment that some write left is ordered, whether the segment is in
memory or in files. A stored page may be read with other documents than it was written with, where
the text of a value is not read as the value, but its rows stand as they were written.

## Main definitions

* `Segment.IsWriteOf`: a segment that some write of facts leaves.
* `Segment.IsOrderly`: a segment whose pages are ordered when they are loaded.

## Main statements

* `Segment.IsWriteOf.isOrderly`: what is written is orderly.
-/

namespace Bitemporal

variable {d : Disk} {w : BucketWidth} {rows : List Fact}

/-- The segment is what a write of facts leaves, under whatever settings of a level width, and its
file of records is as the write left it. -/
def StoredSegment.IsWriteOf (d : Disk) (w : BucketWidth) (rows : List Fact) (s : StoredSegment) :
    Prop :=
  ∃ settings name d₀ d₁, settings.check = .ok w ∧
    (StoredSegment.write settings name rows d₀).value = (.ok s, d₁) ∧
    d.openFile (Disk.join s.directory StoredSegment.dataFile) =
      d₁.openFile (Disk.join s.directory StoredSegment.dataFile)

namespace Segment

/-- The segment is what a write of facts leaves, in memory or in files. -/
def IsWriteOf (d : Disk) (w : BucketWidth) (rows : List Fact) : Segment → Prop
  | memory s => s.IsWriteOf w rows
  | stored s => s.IsWriteOf d w rows

/-- A segment of a level width whose trie fits an id, whose summaries have filters, and whose pages
are ordered when they can be loaded. -/
structure IsOrderly (d : Disk) (w : BucketWidth) (s : Segment) : Prop where
  width : s.width = w
  height : s.trie.root.height ≤ w.maxDepth
  words : ∀ i summary, s.summary? i = some summary → summary.entities.words ≠ []
  ordered : ∀ i page, (s.loadPage d i).result = .ok page → Fact.IsOrdered page.rows

theorem page_of_loadPage {s : Segment} {i : Nat} {page : Page}
    (h : (s.loadPage d i).result = .ok page) : s.page d i = .ok page := by
  rw [loadPage] at h
  cases hpage : s.page d i with
  | ok p => simpa [hpage] using h
  | error e =>
    rw [hpage] at h
    dsimp only at h
    split at h <;> cases h

end Segment

namespace MemorySegment

variable {s : MemorySegment}

theorem IsWriteOf.isOrderly (h : s.IsWriteOf w rows) : (Segment.memory s).IsOrderly d w := by
  obtain hwritten := isWriteOf_iff.1 h
  obtain ⟨hwidth, hdivides⟩ := hwritten.divides
  refine ⟨hwidth, hwidth ▸ Trie.IsRegular.height_le hdivides.regular, nofun, fun i page hload => ?_⟩
  have hpage := Segment.page_of_loadPage hload
  rw [Segment.page, MemorySegment.page] at hpage
  cases hget : s.pages[i]? with
  | none => simp [hget] at hpage
  | some found =>
    rw [hget] at hpage
    obtain rfl := Except.ok.inj hpage
    exact hdivides.ordered hwritten.ordered (List.mem_of_getElem? hget)

end MemorySegment

namespace StoredSegment

variable {s : StoredSegment} {settings : Settings} {wr : Writer} {name : String} {i : Nat}
  {page : Page}

/-- Every summary of a written segment is that of a page. -/
theorem exists_page_of_summary {summary : PageSummary}
    (h : (ofRows settings wr name rows).summaries[i]? = some summary) :
    ∃ page, (wr.pagesOf rows)[i]? = some page := by
  rw [ofRows, map_records, List.getElem?_mapIdx, Option.map_eq_some_iff] at h
  obtain ⟨page, hpage, -⟩ := h
  exact ⟨page, hpage⟩

/-- What is read of a stored page is ordered. -/
theorem isOrdered_of_page (hordered : Fact.IsOrdered rows)
    (hdata : d.openFile (Disk.join (settings.segmentDir name) dataFile) =
      .ok (some ((wr.pagesOf rows).mapIdx fun i p => p.encode i).flatten))
    (h : (ofRows settings wr name rows).page i d = .ok page) : Fact.IsOrdered page.rows := by
  cases hsummary : (ofRows settings wr name rows).summaries[i]? with
  | none => simp [StoredSegment.page, readPage, hsummary, Except.mapError] at h
  | some summary =>
    obtain ⟨written, hwritten⟩ := exists_page_of_summary hsummary
    obtain ⟨offset, hget, hbytes⟩ := exists_summary_ofRows settings name hwritten
    obtain ⟨record, hread, hdecode⟩ := of_page hget hdata h
    rw [readRecord_eq hbytes] at hread
    split_ifs at hread
    obtain rfl := Except.ok.inj hread
    have hpages := (wr.divides_write rows).ordered hordered (List.mem_of_getElem? hwritten)
    exact Fact.isOrdered_of_outline (Page.outline_of_decode hdecode).symm hpages

theorem IsWrittenFrom.isWriteOf {pages : List Page} (h : s.IsWrittenFrom d w rows pages) :
    s.IsWriteOf d w rows := by
  obtain ⟨settings, wr, name, d₀, d₁, hwr, rfl, -, -, hwrite, hfile⟩ := h.written
  refine ⟨settings, name, d₀, d₁, ?_, hwrite, hfile⟩
  rw [Writer.ofSettings] at hwr
  cases hcheck : settings.check with
  | error e => simp [hcheck, bind, Except.bind] at hwr
  | ok width =>
    rw [hcheck] at hwr
    rw [← Except.ok.inj hwr]

theorem IsWriteOf.isOrderly (h : s.IsWriteOf d w rows) : (Segment.stored s).IsOrderly d w := by
  obtain ⟨settings, name, d₀, d₁, hcheck, hwrite, hfile⟩ := h
  obtain ⟨wr, hwr, htrie, rfl, hstored⟩ := of_value_write hwrite
  obtain ⟨hordered, -⟩ := Writer.of_trie_write htrie
  have hwidth : wr.width = w := by
    rw [Writer.ofSettings, hcheck] at hwr
    exact (Except.ok.inj hwr) ▸ rfl
  refine ⟨hwidth, hwidth ▸ Trie.IsRegular.height_le (wr.divides_write rows).regular,
    fun i summary hsummary => ?_, fun i page hload => ?_⟩
  · obtain ⟨written, hwritten⟩ := exists_page_of_summary hsummary
    obtain ⟨offset, hget, -⟩ := exists_summary_ofRows settings name hwritten
    obtain rfl := Option.some.inj (hget.symm.trans hsummary)
    exact written.words_summary_ne_nil settings.bloomBits
  · exact isOrdered_of_page hordered (hfile.trans hstored.data)
      (Segment.page_of_loadPage hload)

end StoredSegment

/-- What is written is orderly, in memory and in files. -/
theorem Segment.IsWriteOf.isOrderly {s : Segment} (h : s.IsWriteOf d w rows) : s.IsOrderly d w := by
  cases s with
  | memory s => exact MemorySegment.IsWriteOf.isOrderly h
  | stored s => exact StoredSegment.IsWriteOf.isOrderly h

end Bitemporal
