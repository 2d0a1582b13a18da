import Mathlib
import Bitemporal.Proofs.Segment.Sealing

/-!
# Attempts at a segment

Whether or not a segment gets sealed, an attempt at it changes nothing but its own files and makes
nothing but directories beside them. What it leaves unsealed is in the way of no other attempt: the
next one under the name prepares the files that this one prepared, and where this one could prepare
nothing the next one cannot either.

## Main statements

* `StoredSegment.finish_cases`: the files that are left.
* `StoredSegment.keeps_prepare`, `StoredSegment.keeps_finish`: what is left alone.
* `StoredSegment.prepare_again_of_finish`, `StoredSegment.prepare_again_of_error`: preparing anew.
-/

namespace Bitemporal.StoredSegment

variable {d d' d'' : Disk} {path : String} {f : Failure} {settings : Settings} {name : String}
  {l : Location} {c : Bytes} {made : List Page × Except Failure HashTrie}
  {P : Location → Prop}

/-! ## The files that are left -/

/-- A prepared segment is left filled, with a draft that could not be moved, or sealed. -/
theorem finish_cases (settings : Settings) (name : String)
    (made : List Page × Except Failure HashTrie) (d : Disk) :
    (∃ f, finish settings name made d = (.error f, fill settings name made.1 d)) ∨
    ∃ content drafted, (fill settings name made.1 d).write
        (Disk.join (settings.segmentDir name) draftFile) content = .ok drafted ∧
      ((∃ f fault, finish settings name made d = (.error f, drafted) ∧
        drafted.rename (Disk.join (settings.segmentDir name) draftFile)
          (Disk.join (settings.segmentDir name) manifestFile) = .error fault) ∨
      ∃ trie finished, made.2 = .ok trie ∧
        drafted.rename (Disk.join (settings.segmentDir name) draftFile)
          (Disk.join (settings.segmentDir name) manifestFile) = .ok finished ∧
        finish settings name made d =
          ((ofManifest name (settings.segmentDir name)
            (.ofTrie trie ((records settings made.1).map (·.2)))).mapError .error, finished)) := by
  obtain ⟨pages, trie⟩ := made
  cases trie with
  | error f => exact .inl ⟨f, rfl⟩
  | ok trie =>
    simp only [finish]
    rcases sealSegment_cases settings name pages trie (fill settings name pages d) with
      ⟨f, e, -, heq⟩ | ⟨drafted, hdraft, ⟨f, e, hrename, heq⟩ | ⟨finished, hrename, heq⟩⟩
    · exact .inl ⟨.error e, by rw [heq]; rfl⟩
    · exact .inr ⟨_, drafted, hdraft, .inl ⟨.error e, f, by rw [heq]; rfl, hrename⟩⟩
    · exact .inr ⟨_, drafted, hdraft, .inr ⟨trie, finished, rfl, hrename, by rw [heq]⟩⟩

/-- Pages with the trie over them, where there is one, as a writer makes them. -/
def IsMade (made : List Page × Except Failure HashTrie) : Prop :=
  ∀ trie, made.2 = .ok trie →
    ∃ (wr : Writer) (rows : List Fact), made = (wr.pagesOf rows, .ok (wr.trieOf rows))

/-- A failure leaves a prepared segment filled, or with a draft that could not be moved: the
manifest itself is never refused. -/
theorem finish_error_cases (hmade : IsMade made)
    (h : finish settings name made d = (.error f, d')) :
    d' = fill settings name made.1 d ∨
    ∃ content fault, (fill settings name made.1 d).write
        (Disk.join (settings.segmentDir name) draftFile) content = .ok d' ∧
      d'.rename (Disk.join (settings.segmentDir name) draftFile)
        (Disk.join (settings.segmentDir name) manifestFile) = .error fault := by
  rcases finish_cases settings name made d with
    ⟨f, heq⟩ | ⟨content, drafted, hdraft,
      ⟨f, fault, heq, hrename⟩ | ⟨trie, finished, htrie, -, heq⟩⟩ <;>
    rw [heq] at h
  · exact .inl (Prod.mk.inj h).2.symm
  · obtain ⟨-, rfl⟩ := Prod.mk.inj h
    exact .inr ⟨content, fault, hdraft, hrename⟩
  · obtain ⟨wr, rows, rfl⟩ := hmade trie htrie
    obtain rfl : wr.trieOf rows = trie := Except.ok.inj htrie
    rw [ofManifest_ofTrie] at h
    cases (Prod.mk.inj h).1

/-! ## What is left alone -/

/-- Preparing makes directories, and then the file of records where it succeeds. -/
theorem grows_prepare (settings : Settings) (name : String) (d : Disk) :
    d.Grows (prepare settings name d).2 ∨
    ∃ made created l, d.Grows made ∧ made.LeadsTo (settings.segmentDir name) l ∧
      made.write (Disk.join (settings.segmentDir name) dataFile) [] = .ok created ∧
      prepare settings name d = (.ok (), created) := by
  have hgrows := d.grows_makeAll (settings.segmentDir name)
  rcases prepare_cases settings name d with ⟨-, e, heq⟩ |
    ⟨-, ⟨f, e, made, hmake, heq⟩ | ⟨made, hmake, hcreated⟩⟩
  · rw [heq]
    exact .inl (.refl d)
  · rw [hmake] at hgrows
    rw [heq]
    exact .inl hgrows
  · rw [hmake] at hgrows
    obtain ⟨l, hl⟩ := Disk.leadsTo_of_makeAll hmake
    rcases hcreated with ⟨f, e, -, heq⟩ | ⟨created, hwrite, heq⟩
    · rw [heq]
      exact .inl hgrows
    · exact .inr ⟨made, created, l, hgrows, hl, hwrite, heq⟩

/-- Preparing a segment changes nothing but its file of records. -/
theorem keeps_prepare (settings : Settings) (name : String) (d : Disk)
    (hP : ∀ d' l, prepare settings name d = (.ok (), d') →
      d'.LeadsTo (settings.segmentDir name) l → ¬ P (l ++ [dataFile])) :
    Disk.Keeps P d (prepare settings name d).2 := by
  rcases grows_prepare settings name d with hgrows | ⟨made, created, k, hgrows, hk, hwrite, heq⟩
  · exact hgrows.keeps P
  · have hapart := hP created k heq (hk.write isName_dataFile hwrite)
    rw [heq]
    exact (hgrows.keeps P).trans (hk.keeps_write isName_dataFile hapart hwrite)

theorem leadsTo_prepare (h : d.LeadsTo path l) (settings : Settings) (name : String) :
    (prepare settings name d).2.LeadsTo path l :=
  (keeps_prepare (P := fun _ => False) settings name d fun _ _ _ _ => id).leadsTo h

theorem checkPath_of_prepare (hprepare : prepare settings name d = (.ok (), d')) :
    Disk.checkPath (Disk.join (settings.segmentDir name) manifestFile) = .ok () :=
  isName_dataFile.checkPath_join isName_manifestFile.toIsPlain (by decide) (by decide)
    (hasFile_prepare hprepare).1

theorem leadsTo_of_prepare (hprepare : prepare settings name d = (.ok (), d'))
    (h : d.LeadsTo path l) : d'.LeadsTo path l := by
  have hprepared := leadsTo_prepare h settings name
  rwa [hprepare] at hprepared

/-- A prepared segment has a directory, and its file of records can be filled. -/
theorem of_prepare (hprepare : prepare settings name d = (.ok (), d')) (pages : List Page) :
    (∃ l, d'.LeadsTo (settings.segmentDir name) l) ∧
      d'.write (Disk.join (settings.segmentDir name) dataFile)
        ((records settings pages).flatMap (·.1)) = .ok (fill settings name pages d') := by
  obtain ⟨hcheck, hprepared⟩ := hasFile_prepare hprepare
  obtain ⟨l, hl, -⟩ := id hprepared
  exact ⟨⟨l, hl⟩, write_fill hcheck hprepared pages⟩

/-- A failure to seal changes nothing but files of the segment. -/
theorem keeps_finish (hprepare : prepare settings name d = (.ok (), d')) (hmade : IsMade made)
    (h : finish settings name made d' = (.error f, d''))
    (hP : ∀ l, d'.LeadsTo (settings.segmentDir name) l →
      ¬ P (l ++ [dataFile]) ∧ ¬ P (l ++ [draftFile])) : Disk.Keeps P d' d'' := by
  obtain ⟨⟨k, hk⟩, hfill⟩ := of_prepare hprepare made.1
  have hfilled := hk.keeps_write isName_dataFile (hP k hk).1 hfill
  rcases finish_error_cases hmade h with rfl | ⟨content, fault, hdraft, -⟩
  · exact hfilled
  · exact hfilled.trans ((hfilled.leadsTo hk).keeps_write isName_draftFile (hP k hk).2 hdraft)

theorem leadsTo_finish (hprepare : prepare settings name d = (.ok (), d')) (h : d'.LeadsTo path l)
    (made : List Page × Except Failure HashTrie) :
    (finish settings name made d').2.LeadsTo path l := by
  have hfilled := h.write isName_dataFile (of_prepare hprepare made.1).2
  rcases finish_cases settings name made d' with
    ⟨f, heq⟩ | ⟨content, drafted, hdraft,
      ⟨f, fault, heq, -⟩ | ⟨trie, finished, -, hrename, heq⟩⟩ <;>
    rw [heq]
  · exact hfilled
  · exact hfilled.write isName_draftFile hdraft
  · exact (hfilled.write isName_draftFile hdraft).rename isName_draftFile isName_manifestFile
      (by decide) hrename

/-! ## Manifests -/

theorem manifest_of_prepare (settings : Settings) (name : String)
    (h : Disk.entry? (prepare settings name d).2 (l ++ [manifestFile]) = some (.file c)) :
    d.entry? (l ++ [manifestFile]) = some (.file c) := by
  rcases grows_prepare settings name d with hgrows | ⟨made, created, k, hgrows, -, hwrite, heq⟩
  · exact hgrows.file h
  · rw [heq, Disk.entry?_write_of_ne isName_dataFile (by decide) hwrite] at h
    exact hgrows.file h

theorem manifest_of_fill (hprepare : prepare settings name d = (.ok (), d')) (pages : List Page)
    (l : Location) :
    Disk.entry? (fill settings name pages d') (l ++ [manifestFile]) =
      d'.entry? (l ++ [manifestFile]) :=
  Disk.entry?_write_of_ne isName_dataFile (by decide) (of_prepare hprepare pages).2

theorem manifest_of_draft {pages : List Page} {content : Bytes} {drafted : Disk}
    (hprepare : prepare settings name d = (.ok (), d'))
    (hdraft : (fill settings name pages d').write
      (Disk.join (settings.segmentDir name) draftFile) content = .ok drafted) (l : Location) :
    drafted.entry? (l ++ [manifestFile]) = d'.entry? (l ++ [manifestFile]) :=
  (Disk.entry?_write_of_ne isName_draftFile (by decide) hdraft).trans
    (manifest_of_fill hprepare pages l)

/-- A manifest was there before, or stands in the directory of the segment. -/
theorem manifest_of_finish (hprepare : prepare settings name d = (.ok (), d'))
    (h : Disk.entry? (finish settings name made d').2 (l ++ [manifestFile]) = some (.file c)) :
    d'.entry? (l ++ [manifestFile]) = some (.file c) ∨ d'.LeadsTo (settings.segmentDir name) l := by
  obtain ⟨⟨k, hk⟩, hfill⟩ := of_prepare hprepare made.1
  rcases finish_cases settings name made d' with ⟨f, heq⟩ | ⟨content, drafted, hdraft,
    ⟨f, fault, heq, -⟩ | ⟨trie, finished, -, hrename, heq⟩⟩ <;> rw [heq] at h
  · exact .inl (manifest_of_fill hprepare made.1 l ▸ h)
  · exact .inl (manifest_of_draft hprepare hdraft l ▸ h)
  obtain ⟨content, moved, m, -, hm, -, hwrite, rfl⟩ := Disk.of_rename isName_draftFile hrename
  obtain rfl := hm.unique ((hk.write isName_dataFile hfill).write isName_draftFile hdraft)
  have hmoved := Disk.file_of_dropEntry h
  by_cases hl : l = m
  · exact .inr (hl ▸ hk)
  · obtain ⟨-, k', hk', -, rfl⟩ := (Disk.write_join_iff isName_manifestFile).1 hwrite
    obtain rfl := hm.unique hk'
    rw [Disk.entry?_setEntry_of_ne (by simpa using hl)] at hmoved
    exact .inl (manifest_of_draft hprepare hdraft l ▸ hmoved)

theorem manifest_of_finish_error (hprepare : prepare settings name d = (.ok (), d'))
    (hmade : IsMade made) (h : finish settings name made d' = (.error f, d'')) (l : Location) :
    d''.entry? (l ++ [manifestFile]) = d'.entry? (l ++ [manifestFile]) := by
  rcases finish_error_cases hmade h with rfl | ⟨content, fault, hdraft, -⟩
  · exact manifest_of_fill hprepare made.1 l
  · exact manifest_of_draft hprepare hdraft l

/-- Where a segment was sealed there was no directory in the place of its manifest. -/
theorem not_directory_of_finish {s : StoredSegment}
    (hprepare : prepare settings name d = (.ok (), d'))
    (h : finish settings name made d' = (.ok s, d''))
    (hl : d'.LeadsTo (settings.segmentDir name) l) :
    d'.entry? (l ++ [manifestFile]) ≠ some .directory := by
  have hfilled := hl.write isName_dataFile (of_prepare hprepare made.1).2
  rcases finish_cases settings name made d' with
    ⟨f, heq⟩ | ⟨content, drafted, hdraft, ⟨f, fault, heq, -⟩ | ⟨trie, finished, -, hrename, -⟩⟩
  · cases heq.symm.trans h
  · cases heq.symm.trans h
  obtain ⟨content, moved, -, -, -, -, hwrite, -⟩ := Disk.of_rename isName_draftFile hrename
  obtain ⟨-, k, hk, hfree, -⟩ := (Disk.write_join_iff isName_manifestFile).1 hwrite
  obtain rfl := hk.unique (hfilled.write isName_draftFile hdraft)
  rwa [manifest_of_draft hprepare hdraft] at hfree

/-! ## Another attempt -/

/-- Where there is a manifest nothing is prepared. -/
theorem prepare_of_holds
    (h : d.holds (Disk.join (settings.segmentDir name) manifestFile) = true) :
    ∃ e, prepare settings name d = (.error e, d) := by
  rcases prepare_cases settings name d with ⟨-, hrefused⟩ | ⟨hfree, -⟩
  · exact hrefused
  · cases h.symm.trans hfree

/-- What was prepared had no manifest. -/
theorem no_manifest_of_prepare (hprepare : prepare settings name d = (.ok (), d'))
    (hl : d.LeadsTo (settings.segmentDir name) l) :
    d.entry? (l ++ [manifestFile]) ≠ some (.file c) := by
  intro hfile
  have hfree := (prepare_eq_ok_iff.1 hprepare).1
  rw [Disk.holds, hl.find?_join isName_manifestFile (checkPath_of_prepare hprepare), hfile] at hfree
  cases hfree

/-- Only a directory in the place of the manifest stops the draft. -/
theorem holds_of_rename {content : Bytes} {fault : DiskFault}
    (hdraft : d.write (Disk.join (settings.segmentDir name) draftFile) content = .ok d')
    (hrename : d'.rename (Disk.join (settings.segmentDir name) draftFile)
      (Disk.join (settings.segmentDir name) manifestFile) = .error fault) :
    d'.holds (Disk.join (settings.segmentDir name) manifestFile) = true := by
  have hcheck := ((Disk.write_join_iff isName_draftFile).1 hdraft).1
  have hadmits := (Disk.hasFile_write isName_draftFile hdraft).exists_rename_iff isName_draftFile
    isName_manifestFile hcheck
  have hvalid := isName_draftFile.checkPath_join isName_manifestFile.toIsPlain (by decide)
    (by decide) hcheck
  by_contra hholds
  obtain ⟨finished, hmoves⟩ := hadmits.2 ⟨hvalid, by
    rw [Disk.holds, Bool.not_eq_true, Option.isSome_eq_false_iff,
      Option.isNone_iff_eq_none] at hholds
    simp [hholds]⟩
  cases hmoves.symm.trans hrename

/-- What was prepared and not sealed is prepared anew, unless something is in the place of the
manifest. -/
theorem prepare_again_of_finish (hprepare : prepare settings name d = (.ok (), d'))
    (hmade : IsMade made) (h : finish settings name made d' = (.error f, d''))
    (hfree : d''.holds (Disk.join (settings.segmentDir name) manifestFile) = false) :
    prepare settings name d'' = (.ok (), d') := by
  obtain ⟨⟨k, hk⟩, hfill⟩ := of_prepare hprepare made.1
  rcases finish_error_cases hmade h with rfl | ⟨content, fault, hdraft, hrename⟩
  · obtain ⟨-, root, hmake, hwrite⟩ := prepare_eq_ok_iff.1 hprepare
    have hfilled := hk.write isName_dataFile hfill
    refine prepare_eq_ok_iff.2 ⟨hfree, _, hfilled.makeAll (Disk.checkPath_of_makeAll hmake), ?_⟩
    rw [Disk.write_write isName_dataFile hfill, Disk.write_write isName_dataFile hwrite, hwrite]
  · cases (holds_of_rename hdraft hrename).symm.trans hfree

/-- What could not be prepared cannot be prepared the next time either, and nothing changes. -/
theorem prepare_again_of_error {e : Error} (hname : Disk.IsPlain name)
    (h : prepare settings name d = (.error e, d')) :
    ∃ e', prepare settings name d' = (.error e', d') := by
  rcases prepare_cases settings name d' with ⟨-, hrefused⟩ | ⟨hfree, hagain⟩
  · exact hrefused
  rcases prepare_cases settings name d with ⟨hholds, e₁, heq⟩ |
    ⟨-, ⟨f, e₁, made, hmake, heq⟩ | ⟨made, hmake, ⟨f, e₁, hwrite, heq⟩ | ⟨created, -, heq⟩⟩⟩ <;>
    rw [heq] at h
  · obtain ⟨-, rfl⟩ := Prod.mk.inj h
    cases hholds.symm.trans hfree
  · obtain ⟨-, rfl⟩ := Prod.mk.inj h
    obtain ⟨f', hf'⟩ := Disk.makeAll_of_error hname hmake
    rcases hagain with ⟨f₂, e', made', hmake', heq'⟩ | ⟨made', hmake', -⟩
    · obtain ⟨-, rfl⟩ := Prod.mk.inj (hf'.symm.trans hmake')
      exact ⟨e', heq'⟩
    · cases hf'.symm.trans hmake'
  · obtain ⟨-, rfl⟩ := Prod.mk.inj h
    obtain ⟨l, hl⟩ := Disk.leadsTo_of_makeAll hmake
    have hthere := hl.makeAll (Disk.checkPath_of_makeAll hmake)
    rcases hagain with ⟨f₂, e', made', hmake', -⟩ | ⟨made', hmake', hcreated⟩
    · cases hthere.symm.trans hmake'
    obtain ⟨-, rfl⟩ := Prod.mk.inj (hthere.symm.trans hmake')
    rcases hcreated with ⟨f₂, e', -, heq'⟩ | ⟨created, hwrite', -⟩
    · exact ⟨e', heq'⟩
    · cases hwrite.symm.trans hwrite'
  · cases (Prod.mk.inj h).1

/-! ## Opening -/

/-- What is opened has a manifest. -/
theorem exists_read_of_openNamed {s : StoredSegment}
    (h : (openNamed settings name d).result = .ok s) :
    ∃ c, d.read (Disk.join (settings.segmentDir name) manifestFile) = .ok c := by
  cases hread : d.read (Disk.join (settings.segmentDir name) manifestFile) with
  | ok c => exact ⟨c, rfl⟩
  | error fault =>
    have hopen : ∃ e, openDir name (settings.segmentDir name) d = .error e := by
      simp [openDir, Disk.readText, hread, Except.mapError, bind, Except.bind]
    obtain ⟨e, he⟩ := hopen
    rw [openNamed, openLogged, Engine.result_bind, Engine.ofExcept, Engine.result_ofResult, he] at h
    cases h

end Bitemporal.StoredSegment
