import Mathlib
import Bitemporal.Compaction.Basic
import Bitemporal.Proofs.Segment.Attempt
import Bitemporal.Proofs.Segment.Reopened

/-!
# Jobs that fail

A stored segment is made by a write or by a compaction. Where such a job fails, whatever the reason
and however far it has come, the finished segments are as they were, nothing can be opened that
could not be opened before, and the next job under the name does what it would have done without it.

The names of jobs are relative paths. An absolute one could put a segment where the directory of
data leads only once a failure has made a directory on the way.

## Main definitions

* `Job`: a write or a compaction.
* `Job.facts`: what is laid out as a segment.
* `Disk.IsReachable`: the files that jobs leave.

## Main statements

* `Job.run_eq`: a job prepares a segment and finishes it.
* `Job.of_run_ok`, `Job.of_run_error`: what is left of a success and of a failure.
* `Job.keeps_run_error`: what a failure leaves alone.
* `Job.run_again_iff`: a job after a failure.
* `Disk.IsReachable.isSettled`: manifests are found in the directory of data.
* `Job.failure_seals_nothing`: what a failure means to other segments and to later jobs.
-/

namespace Bitemporal

open StoredSegment

variable {d d' : Disk} {settings : Settings} {name dataDir : String} {job : Job} {wr : Writer}
  {f : Failure} {l : Location}

/-- What makes a stored segment: a write of facts, or a compaction of segments. -/
inductive Job where
  | write (rows : List Fact)
  | compact (segments : List Segment)

namespace Job

/-- What comes of a job under a name, and the files after it. -/
def run (settings : Settings) (name : String) (d : Disk) :
    Job → Except Failure StoredSegment × Disk
  | write rows => (StoredSegment.write settings name rows d).value
  | compact segments => (Compaction.toDisk settings name segments d).value

/-- The pages that a job makes from prepared files, with the trie over them or what prevented it. -/
def produce (wr : Writer) (d : Disk) : Job → List Page × Except Failure HashTrie
  | write rows => ((wr.write rows).value.pages, (wr.write rows).value.trie.mapError .error)
  | compact segments => (Compaction.write wr d segments).value

/-- A job prepares a segment and finishes it. -/
theorem run_eq (settings : Settings) (name : String) (d : Disk) (job : Job) :
    job.run settings name d =
      match Writer.ofSettings settings with
      | .error e => (.error (.error e), d)
      | .ok wr =>
        match prepare settings name d with
        | (.error e, d) => (.error (.error e), d)
        | (.ok (), d) => finish settings name (job.produce wr d) d := by
  cases job with
  | write rows =>
    simp only [run, StoredSegment.write]
    cases Writer.ofSettings settings with
    | error e => rfl
    | ok wr => exact value_writeWith settings name d _
  | compact segments =>
    simp only [run, Compaction.toDisk]
    cases Writer.ofSettings settings with
    | error e => rfl
    | ok wr => exact value_writeWith settings name d _

/-- The facts that a job finds in prepared files, or what prevents that. -/
def facts (d : Disk) : Job → Except Failure (List Fact)
  | write rows => .ok rows
  | compact segments => (Compaction.merge d segments).result

/-- What a job makes is laid out by the writer from the facts of the job. -/
theorem of_produce {trie : HashTrie} (h : (job.produce wr d).2 = .ok trie) :
    ∃ rows, job.facts d = .ok rows ∧
      job.produce wr d = (wr.pagesOf rows, .ok (wr.trieOf rows)) := by
  cases job with
  | write rows =>
    refine ⟨rows, rfl, ?_⟩
    simp only [produce] at h ⊢
    cases hwritten : (wr.write rows).value.trie with
    | error e => simp [hwritten, Except.mapError] at h
    | ok t =>
      have hout := (Writer.of_trie_write hwritten).2
      obtain rfl : wr.trieOf rows = t := by simpa [hout] using hwritten
      simp [hout, Except.mapError]
  | compact segments =>
    simp only [produce, facts, Engine.result, Compaction.write, Logged.value_bind] at h ⊢
    cases hmerged : (Compaction.merge d segments).run.value with
    | error f => simp [hmerged] at h
    | ok rows =>
      refine ⟨rows, rfl, ?_⟩
      simp only [hmerged, Logged.value_bind] at h ⊢
      cases hwritten : (wr.write rows).value.trie with
      | error e => simp [hwritten] at h
      | ok t =>
        have hout := (Writer.of_trie_write hwritten).2
        obtain rfl : wr.trieOf rows = t := by simpa [hout] using hwritten
        simp [hout]

theorem isMade_produce (wr : Writer) (d : Disk) (job : Job) : IsMade (job.produce wr d) := by
  intro trie htrie
  obtain ⟨rows, -, heq⟩ := of_produce htrie
  exact ⟨wr, rows, heq⟩

/-! ## What a job leaves -/

/-- A job that succeeds prepares a segment and seals it. -/
theorem run_eq_ok_iff {s : StoredSegment} : job.run settings name d = (.ok s, d') ↔
    ∃ wr prepared, Writer.ofSettings settings = .ok wr ∧
      prepare settings name d = (.ok (), prepared) ∧
      finish settings name (job.produce wr prepared) prepared = (.ok s, d') := by
  rw [run_eq]
  cases hwr : Writer.ofSettings settings with
  | error e => simp
  | ok wr => rcases hprepare : prepare settings name d with ⟨e | u, prepared⟩ <;> simp

/-- What a job leaves that succeeds: the files of the segment over its facts. -/
theorem of_run_ok {s : StoredSegment} (h : job.run settings name d = (.ok s, d')) :
    ∃ wr rows, Writer.ofSettings settings = .ok wr ∧
      job.facts (prepare settings name d).2 = .ok rows ∧ s = ofRows settings wr name rows ∧
      IsStored settings wr name rows d' := by
  obtain ⟨wr, prepared, hwr, hprepare, hfinish⟩ := run_eq_ok_iff.1 h
  cases htrie : (job.produce wr prepared).2 with
  | error f => simp [finish, htrie] at hfinish
  | ok trie =>
    obtain ⟨rows, hfacts, heq⟩ := of_produce htrie
    obtain ⟨hcheck, hprepared⟩ := hasFile_prepare hprepare
    rw [heq] at hfinish
    exact ⟨wr, rows, hwr, by rw [hprepare, hfacts], of_finish hcheck hprepared hfinish⟩

/-- A job that fails has changed nothing, could not prepare its segment, or could not finish it. -/
theorem of_run_error (h : job.run settings name d = (.error f, d')) :
    d' = d ∨ (∃ e, prepare settings name d = (.error e, d')) ∨
      ∃ made prepared, prepare settings name d = (.ok (), prepared) ∧ IsMade made ∧
        finish settings name made prepared = (.error f, d') := by
  rw [run_eq] at h
  cases hwr : Writer.ofSettings settings with
  | error e =>
    rw [hwr] at h
    exact .inl (Prod.mk.inj h).2.symm
  | ok wr =>
    right
    simp only [hwr] at h
    rcases hprepare : prepare settings name d with ⟨e | u, prepared⟩ <;> rw [hprepare] at h
    · obtain ⟨-, rfl⟩ := Prod.mk.inj h
      exact .inl ⟨e, rfl⟩
    · exact .inr ⟨_, prepared, rfl, isMade_produce wr prepared job, h⟩

/-- A failure makes no manifest. -/
theorem manifest_of_run_error {c : Bytes} (h : job.run settings name d = (.error f, d'))
    (hfile : d'.entry? (l ++ [manifestFile]) = some (.file c)) :
    d.entry? (l ++ [manifestFile]) = some (.file c) := by
  rcases of_run_error h with rfl | ⟨e, hprepare⟩ | ⟨made, prepared, hprepare, hmade, hfinish⟩
  · exact hfile
  · apply manifest_of_prepare settings name
    rwa [hprepare]
  · apply manifest_of_prepare settings name
    rw [hprepare, ← manifest_of_finish_error hprepare hmade hfinish]
    exact hfile

theorem leadsTo_run {path : String} (h : d.LeadsTo path l) (settings : Settings) (name : String)
    (job : Job) : (job.run settings name d).2.LeadsTo path l := by
  have hprepared := leadsTo_prepare h settings name
  rw [run_eq]
  split
  · exact h
  rcases hprepare : prepare settings name d with ⟨e | u, prepared⟩ <;> rw [hprepare] at hprepared
  · exact hprepared
  · exact leadsTo_finish hprepare hprepared _

/-- A failure changes nothing but the file of records and the draft of its segment, once that is
prepared. -/
theorem keeps_run_error {P : Location → Prop} (h : job.run settings name d = (.error f, d'))
    (hP : ∀ prepared l, prepare settings name d = (.ok (), prepared) →
      prepared.LeadsTo (settings.segmentDir name) l →
      ¬ P (l ++ [dataFile]) ∧ ¬ P (l ++ [draftFile])) : Disk.Keeps P d d' := by
  have hprepared := keeps_prepare settings name d fun d' l heq hl => (hP d' l heq hl).1
  rcases of_run_error h with rfl | ⟨e, hprepare⟩ | ⟨made, prepared, hprepare, hmade, hfinish⟩
  · exact .refl P _
  · rwa [hprepare] at hprepared
  · rw [hprepare] at hprepared
    exact hprepared.trans
      (keeps_finish hprepare hmade hfinish fun l hl => hP prepared l hprepare hl)

/-- A manifest was there before, or is that of the job. -/
theorem manifest_of_run {c : Bytes}
    (h : Disk.entry? (job.run settings name d).2 (l ++ [manifestFile]) = some (.file c)) :
    d.entry? (l ++ [manifestFile]) = some (.file c) ∨
      (job.run settings name d).2.LeadsTo (settings.segmentDir name) l := by
  rw [run_eq] at h ⊢
  split at h
  · exact .inl h
  have hprepared := manifest_of_prepare (d := d) (l := l) (c := c) settings name
  rcases hprepare : prepare settings name d with ⟨e | u, prepared⟩ <;>
    rw [hprepare] at h hprepared
  · exact .inl (hprepared h)
  · rcases manifest_of_finish hprepare h with h | hl
    · exact .inl (hprepared h)
    · exact .inr (leadsTo_finish hprepare hl _)

end Job

/-! ## The files that jobs leave -/

namespace Disk

/-- The files that jobs leave, one after the other, where there was no manifest before. The names
are relative paths from one directory of data on. -/
inductive IsReachable (dataDir : String) : Disk → Prop where
  | start {d : Disk} (h : ∀ l c, d.entry? (l ++ [manifestFile]) ≠ some (.file c)) :
    IsReachable dataDir d
  | job {d : Disk} {settings : Settings} {name : String} (job : Job) (hd : IsReachable dataDir d)
    (hdir : settings.dataDir = dataDir) (hname : isAbsolute name = false) :
    IsReachable dataDir (job.run settings name d).2

/-- A path leads to each manifest, and the directory of data is there if there are any. -/
def IsSettled (dataDir : String) (d : Disk) : Prop :=
  ∀ l c, d.entry? (l ++ [manifestFile]) = some (.file c) →
    (∃ path, d.LeadsTo path l) ∧ ∃ k, d.LeadsTo dataDir k

theorem IsSettled.run (h : d.IsSettled dataDir) (hdir : settings.dataDir = dataDir)
    (hname : isAbsolute name = false) (job : Job) :
    (job.run settings name d).2.IsSettled dataDir := by
  intro l c hfile
  rcases job.manifest_of_run hfile with hfile | hl
  · obtain ⟨⟨path, hl⟩, k, hk⟩ := h l c hfile
    exact ⟨⟨path, Job.leadsTo_run hl settings name job⟩, k, Job.leadsTo_run hk settings name job⟩
  · exact ⟨⟨_, hl⟩, hdir ▸ hl.above hname⟩

theorem IsReachable.isSettled (h : d.IsReachable dataDir) : d.IsSettled dataDir := by
  induction h with
  | start hnone => exact fun l c hfile => absurd hfile (hnone l c)
  | job job _ hdir hname ih => exact ih.run hdir hname job

/-- Where a manifest is, a plain name leads there only if it did before. -/
theorem IsSettled.leadsTo {c : Bytes} (h : d.IsSettled dataDir) (hname : IsPlain name)
    (hfile : d.entry? (l ++ [manifestFile]) = some (.file c))
    (hkeep : ∀ {path k}, d.LeadsTo path k → d'.LeadsTo path k)
    (hl : d'.LeadsTo (join dataDir name) l) : d.LeadsTo (join dataDir name) l := by
  obtain ⟨⟨path, hthere⟩, k, hk⟩ := h l c hfile
  obtain ⟨hshort, m, hm, rfl⟩ := hl.of_join hname
  obtain rfl := hm.unique (hkeep hk)
  exact ⟨(walk_join_iff hshort).2 ⟨m, hk, rfl⟩, hthere.entry⟩

end Disk

namespace Job

/-- What is prepared had no manifest. -/
theorem no_manifest {prepared : Disk} {c : Bytes} (hd : d.IsSettled settings.dataDir)
    (hname : Disk.IsPlain name) (hprepare : prepare settings name d = (.ok (), prepared))
    (hl : prepared.LeadsTo (settings.segmentDir name) l) :
    d.entry? (l ++ [manifestFile]) ≠ some (.file c) := fun hfile =>
  no_manifest_of_prepare hprepare
    (hd.leadsTo hname hfile (leadsTo_of_prepare hprepare) hl) hfile

/-- Finished segments read after a failure as they did before it. -/
theorem read_of_run_error {directory file : String} {manifest c : Bytes}
    (hd : d.IsSettled settings.dataDir) (hname : Disk.IsPlain name)
    (h : job.run settings name d = (.error f, d'))
    (hmanifest : d.read (Disk.join directory manifestFile) = .ok manifest)
    (hfile : file ∈ [dataFile, manifestFile])
    (hread : d.read (Disk.join directory file) = .ok c) :
    d'.read (Disk.join directory file) = .ok c := by
  obtain ⟨-, l, hl, hthere⟩ := (Disk.read_join_iff isName_manifestFile).1 hmanifest
  have hkeeps : Disk.Keeps (· = l ++ [file]) d d' := by
    refine keeps_run_error h fun prepared k hprepare hk => ?_
    have hne : k ≠ l := by
      rintro rfl
      exact no_manifest hd hname hprepare hk hthere
    exact ⟨by simp [hne], by simp [hne]⟩
  have hn : Disk.IsName file := by
    rcases List.mem_pair.1 hfile with rfl | rfl
    · exact isName_dataFile
    · exact isName_manifestFile
  exact hkeeps.read hn (fun m hm => by rw [hm.unique hl]) hread

/-- A job under the name of a finished segment changes nothing. -/
theorem run_of_holds (job : Job)
    (h : d.holds (Disk.join (settings.segmentDir name) manifestFile) = true) :
    (job.run settings name d).2 = d := by
  rw [run_eq]
  split
  · rfl
  obtain ⟨e, he⟩ := prepare_of_holds h
  rw [he]

/-- A segment that can be opened after a failure was left alone by it. -/
theorem eq_of_openNamed {s : StoredSegment} (hd : d.IsSettled settings.dataDir)
    (hname : Disk.IsPlain name) (h : job.run settings name d = (.error f, d'))
    (hopen : (openNamed settings name d').result = .ok s) : d' = d := by
  obtain ⟨c, hread⟩ := exists_read_of_openNamed hopen
  obtain ⟨hcheck, l, hl, hfile⟩ := (Disk.read_join_iff isName_manifestFile).1 hread
  have hbefore := manifest_of_run_error h hfile
  have hkeep {path k} (hk : d.LeadsTo path k) : d'.LeadsTo path k := by
    have := leadsTo_run hk settings name job
    rwa [h] at this
  have hthere : d.LeadsTo (settings.segmentDir name) l := hd.leadsTo hname hbefore hkeep hl
  have hholds : d.holds (Disk.join (settings.segmentDir name) manifestFile) = true := by
    rw [Disk.holds, hthere.find?_join isName_manifestFile hcheck, hbefore]
    rfl
  have heq := run_of_holds job hholds
  rwa [h] at heq

/-! ## Jobs after a failure -/

/-- After a failure nothing is prepared that would not have been before it. -/
theorem prepare_of_prepare_run_error {prepared : Disk} (hname : Disk.IsPlain name)
    (h : job.run settings name d = (.error f, d'))
    (hprepare : prepare settings name d' = (.ok (), prepared)) :
    prepare settings name d = (.ok (), prepared) := by
  rcases of_run_error h with rfl | ⟨e, hfail⟩ | ⟨made, prepared', hprepare', hmade, hfinish⟩
  · exact hprepare
  · obtain ⟨e', hagain⟩ := prepare_again_of_error hname hfail
    cases hagain.symm.trans hprepare
  · have hfree := (prepare_eq_ok_iff.1 hprepare).1
    rw [hprepare', ← prepare_again_of_finish hprepare' hmade hfinish hfree, hprepare]

/-- After a failure a segment is prepared as it would have been before it, unless a directory would
have been in the place of its manifest. -/
theorem prepare_run_error {prepared : Disk} (hd : d.IsSettled settings.dataDir)
    (hname : Disk.IsPlain name) (h : job.run settings name d = (.error f, d'))
    (hprepare : prepare settings name d = (.ok (), prepared))
    (hdirectory : ∀ l, prepared.LeadsTo (settings.segmentDir name) l →
      prepared.entry? (l ++ [manifestFile]) ≠ some .directory) :
    prepare settings name d' = (.ok (), prepared) := by
  rcases of_run_error h with rfl | ⟨e, hfail⟩ | ⟨made, prepared', hprepare', hmade, hfinish⟩
  · exact hprepare
  · cases hprepare.symm.trans hfail
  obtain ⟨-, rfl⟩ := Prod.mk.inj (hprepare.symm.trans hprepare')
  refine prepare_again_of_finish hprepare hmade hfinish ?_
  obtain ⟨⟨l, hl⟩, -⟩ := of_prepare hprepare []
  have hthere := leadsTo_finish hprepare hl made
  rw [hfinish] at hthere
  rw [Disk.holds, hthere.find?_join isName_manifestFile (checkPath_of_prepare hprepare),
    manifest_of_finish_error hprepare hmade hfinish]
  cases hentry : prepared.entry? (l ++ [manifestFile]) with
  | none => rfl
  | some e =>
    cases e with
    | directory => exact absurd hentry (hdirectory l hl)
    | file c =>
      have hbefore := manifest_of_prepare (d := d) (l := l) (c := c) settings name
      rw [hprepare] at hbefore
      exact absurd (hbefore hentry) (no_manifest hd hname hprepare hl)

/-- A job succeeds after a failure where it would have succeeded before it, and does the same. -/
theorem run_again_iff {settings' : Settings} {job' : Job} {s : StoredSegment} {d'' : Disk}
    (hd : d.IsSettled settings.dataDir) (hname : Disk.IsPlain name)
    (hsame : settings'.dataDir = settings.dataDir) (h : job.run settings name d = (.error f, d')) :
    job'.run settings' name d' = (.ok s, d'') ↔ job'.run settings' name d = (.ok s, d'') := by
  have hdir : settings'.segmentDir name = settings.segmentDir name := by
    rw [Settings.segmentDir, hsame, Settings.segmentDir]
  have hprepare (d : Disk) : prepare settings' name d = prepare settings name d := by
    unfold prepare
    rw [hdir]
  rw [run_eq_ok_iff, run_eq_ok_iff]
  constructor
  · rintro ⟨wr, prepared, hwr, hagain, hfinish⟩
    rw [hprepare] at hagain
    refine ⟨wr, prepared, hwr, ?_, hfinish⟩
    rw [hprepare, prepare_of_prepare_run_error hname h hagain]
  · rintro ⟨wr, prepared, hwr, hbefore, hfinish⟩
    refine ⟨wr, prepared, hwr, ?_, hfinish⟩
    rw [hprepare] at hbefore ⊢
    refine prepare_run_error hd hname h hbefore fun l hl => ?_
    rw [← hprepare] at hbefore
    exact not_directory_of_finish hbefore hfinish (hdir ▸ hl)

/-- What is left of a success depends on the facts of the job alone. -/
theorem read_eq_of_facts_eq {d₁ d₂ d₁' d₂' : Disk} {s₁ s₂ : StoredSegment}
    (hfacts : job.facts (prepare settings name d₁).2 = job.facts (prepare settings name d₂).2)
    (h₁ : job.run settings name d₁ = (.ok s₁, d₁'))
    (h₂ : job.run settings name d₂ = (.ok s₂, d₂')) :
    s₁ = s₂ ∧ ∀ file ∈ [dataFile, manifestFile],
      d₁'.read (Disk.join (settings.segmentDir name) file) =
        d₂'.read (Disk.join (settings.segmentDir name) file) := by
  obtain ⟨wr, rows, hwr, hrows, rfl, hstored₁⟩ := of_run_ok h₁
  obtain ⟨wr', rows', hwr', hrows', rfl, hstored₂⟩ := of_run_ok h₂
  obtain rfl := Except.ok.inj (hwr.symm.trans hwr')
  obtain rfl : rows = rows' := Except.ok.inj (hrows.symm.trans (hfacts.trans hrows'))
  refine ⟨rfl, fun file hfile => ?_⟩
  rcases List.mem_pair.1 hfile with rfl | rfl
  · simp only [Disk.read, hstored₁.data, hstored₂.data]
  · simp only [Disk.read, hstored₁.manifest, hstored₂.manifest]

/-- What a failure leaves, where jobs wrote the files before it: every finished segment as it was,
nothing that can be opened unless it could be before, and the next job under the name to succeed as
it would have succeeded without it, with the same files. Whatever happens in between, the segment
and the files of a job that succeeds depend on its facts alone. -/
theorem failure_seals_nothing (hd : d.IsReachable settings.dataDir) (hname : Disk.IsPlain name)
    (h : job.run settings name d = (.error f, d')) :
    (∀ directory manifest, d.read (Disk.join directory manifestFile) = .ok manifest →
      ∀ file ∈ [dataFile, manifestFile], ∀ c, d.read (Disk.join directory file) = .ok c →
        d'.read (Disk.join directory file) = .ok c) ∧
    (∀ s, (openNamed settings name d').result = .ok s →
      (openNamed settings name d).result = .ok s) ∧
    (∀ (settings' : Settings) (job' : Job) s d'', settings'.dataDir = settings.dataDir →
      (job'.run settings' name d' = (.ok s, d'') ↔ job'.run settings' name d = (.ok s, d''))) ∧
    ∀ (settings' : Settings) (job' : Job) d₁ d₂ s₁ s₂ d₁' d₂',
      job'.facts (prepare settings' name d₁).2 = job'.facts (prepare settings' name d₂).2 →
      job'.run settings' name d₁ = (.ok s₁, d₁') → job'.run settings' name d₂ = (.ok s₂, d₂') →
      s₁ = s₂ ∧ ∀ file ∈ [dataFile, manifestFile],
        d₁'.read (Disk.join (settings'.segmentDir name) file) =
          d₂'.read (Disk.join (settings'.segmentDir name) file) := by
  have hd := hd.isSettled
  refine ⟨fun directory manifest hmanifest file hfile c hread => ?_, fun s hopen => ?_,
    fun settings' job' s d'' hsame => run_again_iff hd hname hsame h,
    fun settings' job' d₁ d₂ s₁ s₂ d₁' d₂' => read_eq_of_facts_eq⟩
  · exact read_of_run_error hd hname h hmanifest hfile hread
  · rwa [eq_of_openNamed hd hname h hopen] at hopen

/-- A finished segment beside one whose facts are refused. -/
theorem failure_seals_nothing_disordered :
    ∃ (d d' : Disk) (f : Failure) (manifest : Bytes), d.IsReachable narrow.dataDir ∧
      d.read (Disk.join (narrow.segmentDir "single") manifestFile) = .ok manifest ∧
      (write [Fact.assertion, Fact.retraction]).run narrow "other" d = (.error f, d') ∧
      d'.read (Disk.join (narrow.segmentDir "single") manifestFile) = .ok manifest := by
  have hstart : Disk.empty.IsReachable narrow.dataDir := by
    refine .start fun l c h => ?_
    unfold Disk.entry? at h
    split at h <;> cases h
  obtain ⟨s, d, hwrite⟩ :
      ∃ s d, (StoredSegment.write narrow "single" [Fact.assertion] .empty).value = (.ok s, d) := by
    have hwr : Writer.ofSettings narrow = .ok ⟨.two, 1024, .allow⟩ := rfl
    have hfree : Disk.empty.holds (Disk.join (narrow.segmentDir "single") manifestFile) = false :=
      rfl
    exact (exists_value_write_iff (t := ⟨.leaf 0, .two⟩) hwr hfree rfl).2
      (hasRoom_of_isNone rfl (by decide))
  have hd : d.IsReachable narrow.dataDir := by
    have hrun : (write [Fact.assertion]).run narrow "single" .empty = (.ok s, d) := hwrite
    have hjob : Disk.IsReachable narrow.dataDir
        ((write [Fact.assertion]).run narrow "single" .empty).2 := hstart.job _ rfl (by decide)
    rwa [hrun] at hjob
  obtain ⟨wr, -, -, -, hstored⟩ := of_value_write hwrite
  have hread : ∃ manifest, d.read (Disk.join (narrow.segmentDir "single") manifestFile) =
      .ok manifest := by
    simp [Disk.read, hstored.manifest, bind, Except.bind, pure, Except.pure]
  obtain ⟨manifest, hread⟩ := hread
  rcases hfail : (write [Fact.assertion, Fact.retraction]).run narrow "other" d with ⟨f | s', d'⟩
  · obtain ⟨hsame, -⟩ := failure_seals_nothing hd ⟨by decide, by decide, by decide, by decide⟩ hfail
    exact ⟨d, d', f, manifest, hd, hread, hfail, hsame _ _ hread _ (by simp) _ hread⟩
  · obtain ⟨wr', hwr', htrie, -⟩ := of_value_write hfail
    obtain rfl : ⟨.two, 1024, .allow⟩ = wr' := Except.ok.inj hwr'
    cases htrie

end Job

end Bitemporal
