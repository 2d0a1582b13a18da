import Mathlib
import Bitemporal.Proofs.Segment.Written
import Bitemporal.Proofs.Store.Keeping
import Bitemporal.Proofs.Trie.Table
import Bitemporal.Segment.Stored

/-!
# Writing stored segments

A write prepares the files of a segment, lays the records of its pages end to end, and seals the
segment by moving the manifest into place. It fails only where the facts are refused or the file
system is in its way, and what it leaves where it succeeds depends on the facts alone.

## Main definitions

* `StoredSegment.ofRows`: the segment that a write makes of facts.
* `StoredSegment.IsStored`: the files that it leaves.
* `StoredSegment.HasRoom`: nothing is in the way of its files.

## Main statements

* `StoredSegment.prepare_cases`, `StoredSegment.sealSegment_cases`: what the parts of a write do.
* `StoredSegment.of_value_write`: what a write that succeeds leaves.
* `StoredSegment.exists_value_write_iff`: where a write of accepted facts succeeds.
-/

namespace Bitemporal.StoredSegment

variable {d d' : Disk} {settings : Settings} {wr : Writer} {name : String} {rows : List Fact}
  {pages : List Page} {s : StoredSegment} {c : Bytes}

theorem isName_dataFile : Disk.IsName dataFile :=
  ⟨⟨by decide, by decide, by decide, by decide⟩, by decide⟩

theorem isName_manifestFile : Disk.IsName manifestFile :=
  ⟨⟨by decide, by decide, by decide, by decide⟩, by decide⟩

theorem isName_draftFile : Disk.IsName draftFile :=
  ⟨⟨by decide, by decide, by decide, by decide⟩, by decide⟩

/-! ## Records -/

theorem map_fst_recordsFrom (bloomBits index offset : Nat) (pages : List Page) :
    (recordsFrom bloomBits index offset pages).map (·.1) =
      pages.mapIdx fun i p => p.encode (index + i) := by
  induction pages generalizing index offset with
  | nil => rfl
  | cons p rest ih =>
    have hindex (i : Nat) : index + 1 + i = index + (i + 1) := by omega
    simp [recordsFrom, ih, List.mapIdx_cons, hindex]

/-- The records of pages are laid end to end. -/
theorem map_snd_recordsFrom (bloomBits index offset : Nat) (pages : List Page) :
    (recordsFrom bloomBits index offset pages).map (·.2) = pages.mapIdx fun i p =>
      { p.summary bloomBits with
        offset := offset + ((pages.mapIdx fun j q => q.encode (index + j)).take i).flatten.length
        length := (p.encode (index + i)).length } := by
  induction pages generalizing index offset with
  | nil => rfl
  | cons p rest ih =>
    have hindex (i : Nat) : index + 1 + i = index + (i + 1) := by omega
    simp [recordsFrom, ih, List.mapIdx_cons, hindex, Nat.add_assoc]

theorem flatMap_records (settings : Settings) (pages : List Page) :
    (records settings pages).flatMap (·.1) = (pages.mapIdx fun i p => p.encode i).flatten := by
  have hrecords := map_fst_recordsFrom settings.bloomBits 0 0 pages
  simp only [Nat.zero_add] at hrecords
  rw [← hrecords, List.flatMap_def, records]

theorem map_records (settings : Settings) (pages : List Page) :
    (records settings pages).map (·.2) = pages.mapIdx fun i p =>
      { p.summary settings.bloomBits with
        offset := ((pages.mapIdx fun j q => q.encode j).take i).flatten.length
        length := (p.encode i).length } := by
  have hsummaries := map_snd_recordsFrom settings.bloomBits 0 0 pages
  simp only [Nat.zero_add] at hsummaries
  exact hsummaries

/-- Of parts that are laid end to end, each stands behind those before it. -/
theorem take_drop_flatten {parts : List Bytes} {i : Nat} {part : Bytes}
    (h : parts[i]? = some part) :
    (parts.flatten.drop (parts.take i).flatten.length).take part.length = part := by
  obtain ⟨hi, rfl⟩ := List.getElem?_eq_some_iff.1 h
  have hflatten : parts.flatten =
      (parts.take i).flatten ++ (parts[i] ++ (parts.drop (i + 1)).flatten) := by
    rw [← List.flatten_cons, ← List.drop_eq_getElem_cons hi, ← List.flatten_append,
      List.take_append_drop]
  rw [hflatten, List.drop_left, List.take_left]

/-! ## Preparing -/

/-- A segment is prepared unless it has a manifest, its directory cannot be made, or the file of
records cannot be created. -/
theorem prepare_cases (settings : Settings) (name : String) (d : Disk) :
    d.holds (Disk.join (settings.segmentDir name) manifestFile) = true ∧
      (∃ e, prepare settings name d = (.error e, d)) ∨
    d.holds (Disk.join (settings.segmentDir name) manifestFile) = false ∧
      ((∃ f e made, d.makeAll (settings.segmentDir name) = (.error f, made) ∧
        prepare settings name d = (.error e, made)) ∨
      ∃ made, d.makeAll (settings.segmentDir name) = (.ok (), made) ∧
        ((∃ f e, made.write (Disk.join (settings.segmentDir name) dataFile) [] = .error f ∧
          prepare settings name d = (.error e, made)) ∨
        ∃ created, made.write (Disk.join (settings.segmentDir name) dataFile) [] = .ok created ∧
          prepare settings name d = (.ok (), created))) := by
  unfold prepare
  extract_lets directory
  split
  · rename_i hholds
    exact .inl ⟨hholds, _, rfl⟩
  rename_i hholds
  refine .inr ⟨Bool.eq_false_iff.2 hholds, ?_⟩
  split
  · rename_i f made hmake
    exact .inl ⟨f, _, made, hmake, rfl⟩
  rename_i made hmake
  refine .inr ⟨made, hmake, ?_⟩
  split
  · rename_i f hwrite
    exact .inl ⟨f, _, hwrite, rfl⟩
  · rename_i created hwrite
    exact .inr ⟨created, hwrite, rfl⟩

theorem prepare_eq_ok_iff : prepare settings name d = (.ok (), d') ↔
    d.holds (Disk.join (settings.segmentDir name) manifestFile) = false ∧
      ∃ made, d.makeAll (settings.segmentDir name) = (.ok (), made) ∧
        made.write (Disk.join (settings.segmentDir name) dataFile) [] = .ok d' := by
  rcases prepare_cases settings name d with ⟨hholds, e, heq⟩ |
    ⟨hholds, ⟨f, e, made, hmake, heq⟩ | ⟨made, hmake, ⟨f, e, hwrite, heq⟩ | ⟨created, hwrite, heq⟩⟩⟩
  · simp [hholds, heq]
  · simp [heq, hmake]
  · simp [heq, hmake, hwrite]
  · simp [hholds, heq, hmake, hwrite]

theorem hasFile_prepare (h : prepare settings name d = (.ok (), d')) :
    Disk.checkPath (Disk.join (settings.segmentDir name) dataFile) = .ok () ∧
      d'.HasFile (settings.segmentDir name) dataFile [] := by
  obtain ⟨-, made, -, hwrite⟩ := prepare_eq_ok_iff.1 h
  exact ⟨((Disk.write_join_iff isName_dataFile).1 hwrite).1,
    Disk.hasFile_write isName_dataFile hwrite⟩

/-! ## Filling and sealing -/

theorem write_fill
    (hcheck : Disk.checkPath (Disk.join (settings.segmentDir name) dataFile) = .ok ())
    (h : d.HasFile (settings.segmentDir name) dataFile c) (pages : List Page) :
    d.write (Disk.join (settings.segmentDir name) dataFile)
      ((records settings pages).flatMap (·.1)) = .ok (fill settings name pages d) := by
  obtain ⟨d', hwrite⟩ := h.exists_write isName_dataFile hcheck
    ((records settings pages).flatMap (·.1))
  unfold fill
  extract_lets file
  rw [hwrite]

/-- The text of the manifest over some pages. -/
def manifestText (settings : Settings) (pages : List Page) (trie : HashTrie) : String :=
  (Manifest.ofTrie trie ((records settings pages).map (·.2))).toJson.pretty

/-- A filled segment is sealed unless its draft cannot be created or moved. -/
theorem sealSegment_cases (settings : Settings) (name : String) (pages : List Page)
    (trie : HashTrie) (d : Disk) :
    (∃ f e, d.write (Disk.join (settings.segmentDir name) draftFile)
        (Bytes.ofString (manifestText settings pages trie)) = .error f ∧
      sealSegment settings name pages trie d = (.error e, d)) ∨
    ∃ drafted, d.write (Disk.join (settings.segmentDir name) draftFile)
        (Bytes.ofString (manifestText settings pages trie)) = .ok drafted ∧
      ((∃ f e, drafted.rename (Disk.join (settings.segmentDir name) draftFile)
          (Disk.join (settings.segmentDir name) manifestFile) = .error f ∧
        sealSegment settings name pages trie d = (.error e, drafted)) ∨
      ∃ finished, drafted.rename (Disk.join (settings.segmentDir name) draftFile)
          (Disk.join (settings.segmentDir name) manifestFile) = .ok finished ∧
        sealSegment settings name pages trie d =
          (ofManifest name (settings.segmentDir name)
            (.ofTrie trie ((records settings pages).map (·.2))), finished)) := by
  unfold sealSegment manifestText
  extract_lets directory draft manifest
  split
  · rename_i f hwrite
    exact .inl ⟨f, _, hwrite, rfl⟩
  rename_i drafted hwrite
  refine .inr ⟨drafted, hwrite, ?_⟩
  split
  · rename_i f hrename
    exact .inl ⟨f, _, hrename, rfl⟩
  · rename_i finished hrename
    exact .inr ⟨finished, hrename, rfl⟩

/-- What becomes of a prepared segment once pages and a trie are made, or are not. -/
def finish (settings : Settings) (name : String) (made : List Page × Except Failure HashTrie)
    (d : Disk) : Except Failure StoredSegment × Disk :=
  match made.2 with
  | .error f => (.error f, fill settings name made.1 d)
  | .ok trie =>
    let (result, d) := sealSegment settings name made.1 trie (fill settings name made.1 d)
    (result.mapError .error, d)

theorem value_writeWith (settings : Settings) (name : String) (d : Disk)
    (produce : Disk → Logged (List Page × Except Failure HashTrie)) :
    (writeWith settings name d produce).value =
      match prepare settings name d with
      | (.error e, d) => (.error (.error e), d)
      | (.ok (), d) => finish settings name (produce d).value d := by
  unfold writeWith
  rcases prepare settings name d with ⟨e | u, d₁⟩
  · rfl
  · simp only [Logged.value_bind, finish]
    cases (produce d₁).value.2 <;> rfl

/-! ## Writing -/

/-- The segment that a write makes of ordered facts. -/
def ofRows (settings : Settings) (wr : Writer) (name : String) (rows : List Fact) :
    StoredSegment where
  name := name
  directory := settings.segmentDir name
  trie := wr.trieOf rows
  summaries := (records settings (wr.pagesOf rows)).map (·.2)

/-- The manifest of a write is accepted. -/
theorem ofManifest_ofTrie (settings : Settings) (wr : Writer) (name : String) (rows : List Fact) :
    ofManifest name (settings.segmentDir name)
      (.ofTrie (wr.trieOf rows) ((records settings (wr.pagesOf rows)).map (·.2))) =
        .ok (ofRows settings wr name rows) := by
  have hdivides := wr.divides_write rows
  have hlength : ((records settings (wr.pagesOf rows)).map (·.2)).length =
      (wr.pagesOf rows).length := by
    rw [map_records, List.length_mapIdx]
  have hwidth : BucketWidth.ofBits (wr.trieOf rows).width.bits = .ok (wr.trieOf rows).width := by
    cases (wr.trieOf rows).width <;> rfl
  have hbuild := NodeTable.build_toTable hdivides.regular
    (fun i hi => by rwa [hdivides.numbers, List.mem_range, ← hlength] at hi)
  rw [ofManifest, if_neg (by simp [Manifest.ofTrie])]
  simp only [Manifest.ofTrie, hwidth, hbuild]
  rfl

/-- The files of a segment are those that a write of facts leaves. -/
structure IsStored (settings : Settings) (wr : Writer) (name : String) (rows : List Fact)
    (d : Disk) : Prop where
  data : d.openFile (Disk.join (settings.segmentDir name) dataFile) =
    .ok (some ((wr.pagesOf rows).mapIdx fun i p => p.encode i).flatten)
  manifest : d.openFile (Disk.join (settings.segmentDir name) manifestFile) =
    .ok (some (Bytes.ofString (manifestText settings (wr.pagesOf rows) (wr.trieOf rows))))

/-- What is sealed is the segment over the pages, and its files are stored. -/
theorem of_finish (hcheck : Disk.checkPath (Disk.join (settings.segmentDir name) dataFile) = .ok ())
    (hprepared : d.HasFile (settings.segmentDir name) dataFile c)
    (h : finish settings name (wr.pagesOf rows, .ok (wr.trieOf rows)) d = (.ok s, d')) :
    s = ofRows settings wr name rows ∧ IsStored settings wr name rows d' := by
  have hfilled := Disk.hasFile_write isName_dataFile (write_fill hcheck hprepared (wr.pagesOf rows))
  rw [flatMap_records] at hfilled
  simp only [finish] at h
  rcases sealSegment_cases settings name (wr.pagesOf rows) (wr.trieOf rows)
      (fill settings name (wr.pagesOf rows) d) with
    ⟨f, e, -, heq⟩ | ⟨drafted, hdraft, ⟨f, e, -, heq⟩ | ⟨finished, hrename, heq⟩⟩
  · simp [heq, Except.mapError] at h
  · simp [heq, Except.mapError] at h
  obtain ⟨rfl, rfl⟩ : ofRows settings wr name rows = s ∧ finished = d' := by
    simpa [heq, ofManifest_ofTrie, Except.mapError] using h
  have hdata := (hfilled.write isName_draftFile (by decide) hdraft).rename isName_draftFile
    isName_manifestFile (by decide) (by decide) (by decide) hrename
  have hmanifest := Disk.hasFile_rename (Disk.hasFile_write isName_draftFile hdraft)
    isName_draftFile isName_manifestFile (by decide) hrename
  have hcheck' : Disk.checkPath (Disk.join (settings.segmentDir name) manifestFile) = .ok () := by
    obtain ⟨content, moved, l, -, -, -, hwrite, -⟩ := Disk.of_rename isName_draftFile hrename
    exact ((Disk.write_join_iff isName_manifestFile).1 hwrite).1
  exact ⟨rfl, hdata.openFile isName_dataFile hcheck, hmanifest.openFile isName_manifestFile hcheck'⟩

/-- What a write that succeeds leaves: the segment over the pages of the facts, which were accepted,
and its files. -/
theorem of_value_write (h : (StoredSegment.write settings name rows d).value = (.ok s, d')) :
    ∃ wr, Writer.ofSettings settings = .ok wr ∧ (wr.write rows).value.trie = .ok (wr.trieOf rows) ∧
      s = ofRows settings wr name rows ∧ IsStored settings wr name rows d' := by
  unfold StoredSegment.write at h
  split at h
  · cases h
  rename_i wr hwr
  refine ⟨wr, hwr, ?_⟩
  rw [value_writeWith] at h
  split at h
  · cases h
  rename_i d₁ hprepare
  obtain ⟨hcheck, hprepared⟩ := hasFile_prepare hprepare
  simp only [Logged.value_bind, Logged.value_pure] at h
  cases htrie : (wr.write rows).value.trie with
  | error e => simp [finish, htrie, Except.mapError] at h
  | ok t =>
    have hout := (Writer.of_trie_write htrie).2
    rw [hout] at h htrie
    rw [← htrie]
    exact ⟨rfl, of_finish hcheck hprepared h⟩

/-- Nothing is in the way of a segment: its directory can be made, and its files can be written
there. -/
structure HasRoom (settings : Settings) (name : String) (d : Disk) : Prop where
  directory : (d.makeAll (settings.segmentDir name)).1 = .ok ()
  files : ∀ file ∈ [dataFile, draftFile, manifestFile],
    (d.makeAll (settings.segmentDir name)).2.Admits (Disk.join (settings.segmentDir name) file)

theorem hasRoom_iff : HasRoom settings name d ↔
    (d.makeAll (settings.segmentDir name)).1 = .ok () ∧
      (d.makeAll (settings.segmentDir name)).2.Admits
        (Disk.join (settings.segmentDir name) dataFile) ∧
      (d.makeAll (settings.segmentDir name)).2.Admits
        (Disk.join (settings.segmentDir name) draftFile) ∧
      (d.makeAll (settings.segmentDir name)).2.Admits
        (Disk.join (settings.segmentDir name) manifestFile) :=
  ⟨fun h => ⟨h.directory, by simpa using h.files⟩, fun h => ⟨h.1, by simpa using h.2⟩⟩

theorem hasRoom_of_isNone (hdirectory : (d.makeAll (settings.segmentDir name)).1 = .ok ())
    (hfiles : ∀ file ∈ [dataFile, draftFile, manifestFile],
      Disk.checkPath (Disk.join (settings.segmentDir name) file) = .ok () ∧
        ((d.makeAll (settings.segmentDir name)).2.find?
          (Disk.join (settings.segmentDir name) file)).isNone) :
    HasRoom settings name d := by
  refine ⟨hdirectory, fun file hfile => ?_⟩
  obtain ⟨hcheck, hnone⟩ := hfiles file hfile
  exact ⟨hcheck, by simp [Option.isNone_iff_eq_none.1 hnone]⟩

/-- A prepared segment is sealed where its manifest can be written and moved. -/
theorem exists_finish_iff
    (hcheck : Disk.checkPath (Disk.join (settings.segmentDir name) dataFile) = .ok ())
    (hprepared : d.HasFile (settings.segmentDir name) dataFile c) :
    (∃ s d', finish settings name (wr.pagesOf rows, .ok (wr.trieOf rows)) d = (.ok s, d')) ↔
      d.Admits (Disk.join (settings.segmentDir name) draftFile) ∧
        d.Admits (Disk.join (settings.segmentDir name) manifestFile) := by
  obtain ⟨l, hl, -⟩ := id hprepared
  have hfill := write_fill hcheck hprepared (wr.pagesOf rows)
  have hfilled := hl.write isName_dataFile hfill
  rw [← hl.admits_write_iff isName_draftFile isName_dataFile (by decide) hfill,
    ← hl.admits_write_iff isName_manifestFile isName_dataFile (by decide) hfill]
  simp only [finish]
  generalize fill settings name (wr.pagesOf rows) d = filled at *
  rcases sealSegment_cases settings name (wr.pagesOf rows) (wr.trieOf rows) filled with
    ⟨f, e, hdraft, heq⟩ | ⟨drafted, hdraft, hsealed⟩
  · have hrefused : ¬ filled.Admits (Disk.join (settings.segmentDir name) draftFile) := by
      rw [← hfilled.exists_write_iff isName_draftFile
        (Bytes.ofString (manifestText settings (wr.pagesOf rows) (wr.trieOf rows)))]
      simp [hdraft]
    simp [heq, Except.mapError, hrefused]
  have hadmits := (hfilled.exists_write_iff isName_draftFile _).1 ⟨drafted, hdraft⟩
  have hmoves := (Disk.hasFile_write isName_draftFile hdraft).exists_rename_iff isName_draftFile
    isName_manifestFile hadmits.valid
  rw [hfilled.admits_write_iff isName_manifestFile isName_draftFile (by decide) hdraft] at hmoves
  rcases hsealed with ⟨f, e, hrename, heq⟩ | ⟨finished, hrename, heq⟩
  · simp [heq, Except.mapError, ← hmoves, hrename]
  · simp [heq, Except.mapError, ← hmoves, hrename, hadmits, ofManifest_ofTrie]

/-- A write of accepted facts under a name that has no manifest succeeds unless something is in its
way. -/
theorem exists_value_write_iff {t : HashTrie} (hwr : Writer.ofSettings settings = .ok wr)
    (hfree : d.holds (Disk.join (settings.segmentDir name) manifestFile) = false)
    (haccept : (wr.write rows).value.trie = .ok t) :
    (∃ s d', (StoredSegment.write settings name rows d).value = (.ok s, d')) ↔
      HasRoom settings name d := by
  have hvalue : (StoredSegment.write settings name rows d).value =
      match prepare settings name d with
      | (.error e, d) => (.error (.error e), d)
      | (.ok (), d) => finish settings name (wr.pagesOf rows, .ok (wr.trieOf rows)) d := by
    simp only [StoredSegment.write, hwr, value_writeWith, Logged.value_bind, Logged.value_pure,
      (Writer.of_trie_write haccept).2, Except.mapError]
  rw [hvalue]
  rcases prepare_cases settings name d with ⟨hholds, -⟩ |
    ⟨-, ⟨f, e, made, hmake, heq⟩ | ⟨made, hmake, hcreated⟩⟩
  · simp [hfree] at hholds
  · rw [heq]
    simp [hasRoom_iff, hmake]
  obtain ⟨l, hl⟩ := Disk.leadsTo_of_makeAll hmake
  rw [hasRoom_iff, hmake]
  rcases hcreated with ⟨f, e, hwrite, heq⟩ | ⟨created, hwrite, heq⟩
  · have hrefused : ¬ made.Admits (Disk.join (settings.segmentDir name) dataFile) := by
      rw [← hl.exists_write_iff isName_dataFile []]
      simp [hwrite]
    rw [heq]
    simp [hrefused]
  · obtain ⟨hcheck, hprepared⟩ := hasFile_prepare heq
    have hadmits := (hl.exists_write_iff isName_dataFile []).1 ⟨created, hwrite⟩
    rw [heq]
    simp only [exists_finish_iff hcheck hprepared,
      hl.admits_write_iff isName_draftFile isName_dataFile (by decide) hwrite,
      hl.admits_write_iff isName_manifestFile isName_dataFile (by decide) hwrite, hadmits,
      true_and]

end Bitemporal.StoredSegment
