import Mathlib
import Bitemporal.Proofs.Scan.Memory
import Bitemporal.Proofs.Segment.Stored

/-!
# Opening what was written

The files that a write leaves are read back exactly: the manifest is opened as the segment that was
written, each page is loaded from its record, and the pages hold the facts in their order.

## Main statements

* `StoredSegment.write_reopens`: where a write succeeds, and what is read of it later.
* `StoredSegment.write_blocked`: a file in the place of the segment is in its way.
-/

namespace Bitemporal.StoredSegment

variable {d d' : Disk} {settings : Settings} {wr : Writer} {name : String} {rows : List Fact}
  {pages : List Page} {t : HashTrie}

theorem readText_eq {path text : String}
    (h : d.openFile path = .ok (some (Bytes.ofString text))) : d.readText path = .ok text := by
  simp [Disk.readText, Disk.read, h, bind, Except.bind, pure, Except.pure]

namespace IsStored

/-- The files of a segment are what they were as long as they read as they did. -/
theorem congr (h : IsStored settings wr name rows d)
    (hsame : ∀ file ∈ [dataFile, manifestFile],
      d'.openFile (Disk.join (settings.segmentDir name) file) =
        d.openFile (Disk.join (settings.segmentDir name) file)) :
    IsStored settings wr name rows d' :=
  ⟨(hsame _ (by simp)).trans h.data, (hsame _ (by simp)).trans h.manifest⟩

/-- The manifest is opened as the segment that was written. -/
theorem openNamed (h : IsStored settings wr name rows d)
    (hmanifest : (Json.Source.ofString?
        (manifestText settings (wr.pagesOf rows) (wr.trieOf rows))).bind Manifest.ofSource? =
      some (.ofTrie (wr.trieOf rows) ((records settings (wr.pagesOf rows)).map (·.2)))) :
    (StoredSegment.openNamed settings name d).result = .ok (ofRows settings wr name rows) := by
  have hopen : openDir name (settings.segmentDir name) d = .ok (ofRows settings wr name rows) := by
    simp [openDir, readText_eq h.manifest, hmanifest, ofManifest_ofTrie, Except.mapError, bind,
      Except.bind]
  simp [StoredSegment.openNamed, openLogged, Engine.ofExcept, hopen, Except.mapError]
  rfl

/-- Each page is loaded as it was written. -/
theorem loadPage (h : IsStored settings wr name rows d)
    (hreads : ∀ f ∈ rows, ∀ c ∈ f.doc.fields, Json.ofString? c.2.compact = some c.2)
    (hfits : ∀ i (summary : PageSummary),
      (ofRows settings wr name rows).summaries[i]? = some summary → summary.Fits i)
    {i : Nat} {page : Page} (hpage : (wr.pagesOf rows)[i]? = some page) :
    (Segment.loadPage d (.stored (ofRows settings wr name rows)) i).result = .ok page := by
  obtain ⟨offset, hget, hbytes⟩ := exists_summary_ofRows settings name hpage
  have hsub := (wr.divides_write rows).sublist page (List.mem_of_getElem? hpage)
  have hpage := page_of_record hget h.data hbytes (hfits i _ hget)
    fun f hf => hreads f (hsub.mem hf)
  rw [Segment.loadPage, Segment.page, hpage]
  rfl

/-- The leaves of the trie name the pages in their order. -/
theorem loadLeaves (h : IsStored settings wr name rows d)
    (hreads : ∀ f ∈ rows, ∀ c ∈ f.doc.fields, Json.ofString? c.2.compact = some c.2)
    (hfits : ∀ i (summary : PageSummary),
      (ofRows settings wr name rows).summaries[i]? = some summary → summary.Fits i) :
    ((wr.trieOf rows).leaves.mapM fun l =>
      Segment.loadPage d (.stored (ofRows settings wr name rows)) l.2).result =
        .ok (wr.pagesOf rows) := by
  have hnumbers : (wr.trieOf rows).leaves.map (·.2) = List.range (wr.pagesOf rows).length :=
    (wr.divides_write rows).numbers
  have hpages : (wr.trieOf rows).leaves.map (fun l => (wr.pagesOf rows).getD l.2 default) =
      wr.pagesOf rows := by
    have hmap := congrArg (List.map fun i => (wr.pagesOf rows).getD i default) hnumbers
    rw [List.map_map] at hmap
    refine hmap.trans (List.ext_getElem (by simp) fun i hi hi' => ?_)
    simp [hi']
  have hloads : ∀ l ∈ (wr.trieOf rows).leaves,
      (Segment.loadPage d (.stored (ofRows settings wr name rows)) l.2).Yields False
        ((wr.pagesOf rows).getD l.2 default) := by
    intro l hl
    have hnumber : l.2 < (wr.pagesOf rows).length := by
      rw [← List.mem_range, ← hnumbers]
      exact List.mem_map_of_mem hl
    exact .of_result (h.loadPage hreads hfits (by simp [hnumber]))
  have hyields := Engine.Yields.mapM hloads
  rw [hpages] at hyields
  exact hyields.result

end IsStored

/-- A write of accepted facts succeeds unless something is in its way, and what it has written is
read back exactly as long as its files are left alone: the segment with its trie, the summaries,
which lay the records end to end, each page, and the facts over the leaves of the trie. -/
theorem write_reopens (hwr : Writer.ofSettings settings = .ok wr)
    (hfree : d.holds (Disk.join (settings.segmentDir name) manifestFile) = false)
    (haccept : (wr.write rows).value = ⟨pages, .ok t⟩)
    (hreads : ∀ f ∈ rows, ∀ c ∈ f.doc.fields, Json.ofString? c.2.compact = some c.2)
    (hmanifest : (Json.Source.ofString? (manifestText settings pages t)).bind Manifest.ofSource? =
      some (.ofTrie t ((records settings pages).map (·.2))))
    (hfits : ∀ i (summary : PageSummary), ((records settings pages).map (·.2))[i]? = some summary →
      summary.Fits i) :
    ((∃ s d', (StoredSegment.write settings name rows d).value = (.ok s, d')) ↔
      HasRoom settings name d) ∧
    ∀ s d' d'', (StoredSegment.write settings name rows d).value = (.ok s, d') →
      (∀ file ∈ [dataFile, manifestFile],
        d''.openFile (Disk.join (settings.segmentDir name) file) =
          d'.openFile (Disk.join (settings.segmentDir name) file)) →
      (openNamed settings name d'').result = .ok s ∧
      s.trie = t ∧
      (s.summaries = pages.mapIdx fun i p =>
        { p.summary settings.bloomBits with
          offset := ((pages.mapIdx fun j q => q.encode j).take i).flatten.length
          length := (p.encode i).length }) ∧
      d''.openFile (Disk.join s.directory dataFile) =
        .ok (some (pages.mapIdx fun i p => p.encode i).flatten) ∧
      (∀ i page, pages[i]? = some page →
        (Segment.loadPage d'' (.stored s) i).result = .ok page) ∧
      ∃ loaded, (s.trie.leaves.mapM fun l => Segment.loadPage d'' (.stored s) l.2).result =
          .ok loaded ∧
        loaded.flatMap Page.rows = rows := by
  obtain ⟨hordered, hout⟩ := Writer.of_trie_write (t := t) (by rw [haccept])
  obtain ⟨rfl, rfl⟩ : pages = wr.pagesOf rows ∧ t = wr.trieOf rows := by
    simpa using haccept.symm.trans hout
  refine ⟨exists_value_write_iff hwr hfree (by rw [haccept]), fun s d' d'' hwrite hsame => ?_⟩
  obtain ⟨wr', hwr', -, rfl, hstored⟩ := of_value_write hwrite
  obtain rfl : wr' = wr := Except.ok.inj (hwr'.symm.trans hwr)
  have hstored := hstored.congr hsame
  exact ⟨hstored.openNamed hmanifest, rfl, map_records settings _, hstored.data,
    fun i page hpage => hstored.loadPage hreads hfits hpage, _,
    hstored.loadLeaves hreads hfits, wr'.flatMap_pagesOf hordered⟩

/-! ## One fact -/

/-- Settings with a short filter. -/
def narrow : Settings := { dataDir := "data", bloomBits := 64 }

/-- The manifest of the only page of one fact. -/
def singleManifest : Manifest where
  formatVersion := 1
  levelBits := 2
  nodes := [.leaf 0]
  root := some 0
  pages := [⟨0, 61, 1, 5, 5, .start, .never, ⟨[7]⟩, false, []⟩]

/-- The manifest of the only page of some copies of the fact. -/
def copiesManifest (length rowCount : Nat) : Manifest :=
  { singleManifest with
    pages := [⟨0, length, rowCount, 5, 5, .start, .never, ⟨[7]⟩, false, []⟩] }

theorem ofTrie_single :
    Manifest.ofTrie ⟨.leaf 0, .two⟩ ((records narrow [⟨[Fact.assertion]⟩]).map (·.2)) =
      singleManifest := by
  decide +kernel

/-- The manifest is read, that of one fact and that of so many that their record is longer than four
bytes can say. -/
theorem ofSource?_copiesManifest : ∀ sizes ∈ [(61, 1), (5502926868, 134217728)],
    (Json.Source.ofString? (copiesManifest sizes.1 sizes.2).toJson.pretty).bind
      Manifest.ofSource? = some (copiesManifest sizes.1 sizes.2) := by
  -- the characters are laid out before they are read: a text is slow to take apart
  unfold Json.Source.ofString? Json.Token.ofString?
  simp only [copiesManifest, singleManifest, Manifest.toJson, NodeTable.toJson, TableNode.toJson,
    PageSummary.toJson, Instant.toJson, Bloom.toJson, Json.nat, Json.int, Json.pretty,
    Json.prettyAt, Json.prettyItems, Json.prettyFields, Json.bracketed, Json.indentation,
    Json.quote, Json.renderNumber, String.intercalate_cons_cons, String.intercalate_singleton,
    String.toList_append, String.toList_ofList, Option.map_some, Option.getD_some, List.map,
    List.isEmpty, if_true, if_false, Bool.false_eq_true]
  decide +kernel

theorem reads_single : (Json.Source.ofString?
    (manifestText narrow [⟨[Fact.assertion]⟩] ⟨.leaf 0, .two⟩)).bind Manifest.ofSource? =
      some (.ofTrie ⟨.leaf 0, .two⟩ ((records narrow [⟨[Fact.assertion]⟩]).map (·.2))) := by
  rw [manifestText, ofTrie_single]
  exact ofSource?_copiesManifest (61, 1) (by simp)

theorem fits_records_single (i : Nat) (summary : PageSummary)
    (h : ((records narrow [⟨[Fact.assertion]⟩]).map (·.2))[i]? = some summary) :
    summary.Fits i := by
  have hpages : (records narrow [⟨[Fact.assertion]⟩]).map (·.2) = singleManifest.pages :=
    congrArg Manifest.pages ofTrie_single
  rw [hpages] at h
  cases i with
  | zero =>
    obtain rfl := Option.some.inj h
    exact ⟨by decide, by decide, by decide⟩
  | succ i => cases h

/-- One fact, written where nothing is, and read back. -/
theorem write_reopens_single : ∃ s d,
    (StoredSegment.write narrow "single" [Fact.assertion] .empty).value = (.ok s, d) ∧
      (openNamed narrow "single" d).result = .ok s ∧
      (Segment.loadPage d (.stored s) 0).result = .ok ⟨[Fact.assertion]⟩ := by
  have hwr : Writer.ofSettings narrow = .ok ⟨.two, 1024, .allow⟩ := rfl
  have hfree : Disk.empty.holds (Disk.join (narrow.segmentDir "single") manifestFile) = false := rfl
  have haccept : ((⟨.two, 1024, .allow⟩ : Writer).write [Fact.assertion]).value =
      ⟨[⟨[Fact.assertion]⟩], .ok ⟨.leaf 0, .two⟩⟩ := rfl
  obtain ⟨hwrites, hreopens⟩ := write_reopens hwr hfree haccept
    (by simp [Fact.assertion, Fact.doc, Document.empty]) reads_single fits_records_single
  obtain ⟨s, d, hwrite⟩ := hwrites.2 (hasRoom_of_isNone rfl (by decide))
  obtain ⟨hopen, -, -, -, hpages, -⟩ := hreopens s d d hwrite fun _ _ => rfl
  exact ⟨s, d, hwrite, hopen, hpages 0 _ rfl⟩

/-- A file in the place of its directory is in the way of a segment. -/
theorem write_blocked :
    let blocked : Disk := ⟨[(["data"], .directory), (["data", "single"], .file [])]⟩
    let wr : Writer := ⟨.two, 1024, .allow⟩
    let pages : List Page := [⟨[Fact.assertion]⟩]
    Disk.IsPlain "single" ∧ Writer.ofSettings narrow = .ok wr ∧
      blocked.holds (Disk.join (narrow.segmentDir "single") manifestFile) = false ∧
      (wr.write [Fact.assertion]).value = ⟨pages, .ok ⟨.leaf 0, .two⟩⟩ ∧
      (∀ c ∈ Fact.assertion.doc.fields, Json.ofString? c.2.compact = some c.2) ∧
      (Json.Source.ofString? (manifestText narrow pages ⟨.leaf 0, .two⟩)).bind
          Manifest.ofSource? =
        some (.ofTrie ⟨.leaf 0, .two⟩ ((records narrow pages).map (·.2))) ∧
      (∀ i (summary : PageSummary), ((records narrow pages).map (·.2))[i]? = some summary →
        summary.Fits i) ∧
      ¬ ∃ s d, (StoredSegment.write narrow "single" [Fact.assertion] blocked).value =
        (.ok s, d) := by
  refine ⟨⟨by decide, by decide, by decide, by decide⟩, rfl, rfl, rfl,
    by simp [Fact.assertion, Fact.doc, Document.empty], reads_single, fits_records_single, ?_⟩
  intro hwrite
  have hwr : Writer.ofSettings narrow = .ok ⟨.two, 1024, .allow⟩ := rfl
  have hroom := (exists_value_write_iff (t := ⟨.leaf 0, .two⟩) hwr rfl rfl).1 hwrite
  cases hroom.directory

end Bitemporal.StoredSegment
