import Mathlib
import Bitemporal.Proofs.Page.Probes
import Bitemporal.Proofs.Scan.Depth
import Bitemporal.Proofs.Scan.Showings
import Bitemporal.Proofs.Segment.Loaded
import Bitemporal.Proofs.Segment.Reopened
import Bitemporal.Proofs.Text.Bytes

/-!
# Filters of opened segments

A filter that is made has a word at least. The filters of a manifest are taken as they are: what is
opened does not depend on them at all, so a segment is opened also with a filter without words. A
query that asks for some entities has no plan where a page with such a filter overlaps its windows.
Nothing else goes wrong with filters, and nothing does with those of a written segment.

## Main definitions

* `StoredSegment.IsOpened`: a segment as it is opened on a disk.
* `Manifest.withFilters`, `StoredSegment.withFilters`: the same with other filters.

## Main statements

* `StoredSegment.ofManifest_withFilters`: what is opened does not depend on filters.
* `Plan.choosePages_eq_error_iff`: when there is no choice among pages.
* `Segment.IsWriteOf.exists_test_eq`: all pages of a written segment can be tested.
* `Plan.choosePages_opened`: how tests of the pages of opened segments go wrong.
-/

namespace Bitemporal

variable {d : Disk} {q : Query} {segments : List Segment} {refs : List PageRef} {r : PageRef}

namespace Plan

/-- Where there is a choice, every page was judged. -/
theorem isSome_of_choosePages {c : PageChoice} (h : (choosePages segments q refs).result = .ok c)
    (hr : r ∈ refs) : (judge? segments q r).isSome := by
  rw [choosePages, Engine.result_bind, Engine.result_mapM] at h
  cases hverdicts : refs.mapM fun r => (judge segments q r).result with
  | error f =>
    rw [hverdicts] at h
    cases h
  | ok verdicts =>
    obtain ⟨verdict, hverdict⟩ := exists_of_mapM_ok hverdicts r hr
    rw [judge] at hverdict
    cases hjudge : judge? segments q r with
    | none =>
      rw [hjudge] at hverdict
      cases hverdict
    | some v => rfl

theorem eq_outOfBounds_of_choosePages {f : Failure}
    (h : (choosePages segments q refs).result = .error f) : f = .outOfBounds :=
  have hensures : (choosePages segments q refs).Ensures (· = .outOfBounds)
      fun c => ∀ r ∈ c.getD [], r ∈ refs := choosePages_ensures fun _ _ => .inr rfl
  hensures.failure f h

/-- There is no choice among pages exactly if one of them has a filter without words that is
asked. -/
theorem choosePages_eq_error_iff {f : Failure} :
    (choosePages segments q refs).result = .error f ↔ f = .outOfBounds ∧
      ∃ r ∈ refs, ∃ s, summary? segments r = some s ∧ q.Asks s ∧ s.entities.words = [] := by
  simp only [← judge?_eq_none_iff]
  constructor
  · intro hfails
    refine ⟨eq_outOfBounds_of_choosePages hfails, ?_⟩
    by_contra hjudged
    push Not at hjudged
    obtain ⟨c, hc, -⟩ := choosePages_result fun r hr => Option.isSome_iff_ne_none.2 (hjudged r hr)
    cases hfails.symm.trans hc
  · rintro ⟨rfl, r, hr, hnone⟩
    cases hresult : (choosePages segments q refs).result with
    | ok c => simpa [hnone] using isSome_of_choosePages hresult hr
    | error f => rw [eq_outOfBounds_of_choosePages hresult]

end Plan

/-- All pages of a written segment can be tested. -/
theorem Segment.IsWriteOf.exists_test_eq {w : BucketWidth} {rows : List Fact} {s : Segment}
    (h : s.IsWriteOf d w rows) {i : Nat} {summary : PageSummary} (hi : s.summary? i = some summary)
    (q : Query) : ∃ answer, q.test summary = .ok answer := by
  cases htest : q.test summary with
  | ok answer => exact ⟨answer, rfl⟩
  | error fault =>
    obtain ⟨-, -, hwords⟩ := Query.test_eq_error_iff.1 htest
    exact absurd hwords (h.isOrderly.words i summary hi)

/-! ## Opening -/

/-- The manifest with other filters. -/
def Manifest.withFilters (f : PageSummary → Bloom) (m : Manifest) : Manifest :=
  { m with pages := m.pages.map fun s => { s with entities := f s } }

namespace StoredSegment

/-- The segment with other filters. -/
def withFilters (f : PageSummary → Bloom) (s : StoredSegment) : StoredSegment :=
  { s with summaries := s.summaries.map fun s => { s with entities := f s } }

/-- What is opened does not depend on filters. -/
theorem ofManifest_withFilters (name directory : String) (m : Manifest) (f : PageSummary → Bloom) :
    ofManifest name directory (m.withFilters f) =
      (ofManifest name directory m).map (withFilters f) := by
  simp only [ofManifest, Manifest.withFilters, List.length_map]
  split_ifs
  · rfl
  · cases BucketWidth.ofBits m.levelBits with
    | error e => rfl
    | ok w =>
      dsimp only
      cases m.nodes.build m.root w m.pages.length <;> rfl

/-- The manifest in a directory. -/
def manifest? (d : Disk) (directory : String) : Option Manifest :=
  match d.readText (Disk.join directory manifestFile) with
  | .ok text => (Json.Source.ofString? text).bind Manifest.ofSource?
  | .error _ => none

/-- The segment is what opening its directory gives. -/
def IsOpened (d : Disk) (s : StoredSegment) : Prop := openDir s.name s.directory d = .ok s

theorem IsOpened.exists_manifest {s : StoredSegment} (h : s.IsOpened d) :
    ∃ m, manifest? d s.directory = some m ∧ ofManifest s.name s.directory m = .ok s := by
  rw [IsOpened, openDir] at h
  rw [manifest?]
  cases htext : d.readText (Disk.join s.directory manifestFile) with
  | error fault => simp [htext, Except.mapError, bind, Except.bind] at h
  | ok text =>
    simp only [htext, Except.mapError, bind, Except.bind] at h
    dsimp only
    cases hm : (Json.Source.ofString? text).bind Manifest.ofSource? with
    | none => simp [hm] at h
    | some m => exact ⟨m, rfl, by simpa [hm] using h⟩

end StoredSegment

/-! ## A segment with a filter without words -/

namespace StoredSegment

/-- The manifest of the only page of one fact, but for the words of its filter. -/
def wordlessManifest : Manifest := singleManifest.withFilters fun _ => ⟨[]⟩

/-- A disk with the text of a manifest. -/
def manifestDisk (text : String) : Disk :=
  ⟨[(["s"], .directory), (["s", "meta.json"], .file (Bytes.ofString text))]⟩

/-- What is opened on it is the segment of the manifest. -/
theorem openDir_manifestDisk {text : String} {m : Manifest} {s : StoredSegment}
    (htext : (Json.Source.ofString? text).bind Manifest.ofSource? = some m)
    (hsegment : ofManifest "s" "s" m = .ok s) : openDir "s" "s" (manifestDisk text) = .ok s := by
  have hread : (manifestDisk text).read (Disk.join "s" manifestFile) =
      .ok (Bytes.ofString text) := rfl
  simp [openDir, Disk.readText, hread, htext, hsegment, Except.mapError, bind, Except.bind, pure,
    Except.pure]

theorem ofSource?_wordless :
    (Json.Source.ofString? wordlessManifest.toJson.pretty).bind Manifest.ofSource? =
      some wordlessManifest := by
  -- the characters are laid out before they are read: a text is slow to take apart
  unfold Json.Source.ofString? Json.Token.ofString?
  simp only [wordlessManifest, singleManifest, Manifest.withFilters, Manifest.toJson,
    NodeTable.toJson, TableNode.toJson, PageSummary.toJson, Instant.toJson, Bloom.toJson, Json.nat,
    Json.int, Json.pretty, Json.prettyAt, Json.prettyItems, Json.prettyFields, Json.bracketed,
    Json.indentation, Json.quote, Json.renderNumber, String.intercalate_cons_cons,
    String.intercalate_singleton, String.toList_append, String.toList_ofList, Option.map_some,
    Option.getD_some, List.map, List.isEmpty, if_true, if_false, Bool.false_eq_true]
  decide +kernel

/-- The segment that is opened. -/
def wordless : StoredSegment := ⟨"s", "s", ⟨.leaf 0, .two⟩, wordlessManifest.pages⟩

theorem isOpened_wordless : wordless.IsOpened (manifestDisk wordlessManifest.toJson.pretty) :=
  openDir_manifestDisk ofSource?_wordless rfl

end StoredSegment

/-! ## The pages of opened segments -/

namespace Plan

open StoredSegment

/-- Pages of opened segments. A test of a page goes wrong only with a remainder by zero, exactly if
the filter of the page has no words and is asked, and there is no choice among pages exactly if one
of them goes wrong. Opening guards against none of this: with whatever other filters in its manifest
a segment is opened as well. -/
theorem choosePages_opened (h : ∀ s ∈ segments, ∃ stored, s = .stored stored ∧ stored.IsOpened d)
    (q : Query) (refs : List PageRef) :
    (∀ s ∈ segments, ∀ i summary, s.summary? i = some summary → ∀ fault,
      q.test summary = .error fault ↔
        fault = .division ∧ q.Asks summary ∧ summary.entities.words = []) ∧
    (∀ f, (choosePages segments q refs).result = .error f ↔ f = .outOfBounds ∧
      ∃ r ∈ refs, ∃ summary fault, summary? segments r = some summary ∧
        q.test summary = .error fault) ∧
    ∀ stored, .stored stored ∈ segments → ∃ m, manifest? d stored.directory = some m ∧
      ∀ f, ofManifest stored.name stored.directory (m.withFilters f) =
        .ok (stored.withFilters f) := by
  refine ⟨fun _ _ _ _ _ _ => Query.test_eq_error_iff, fun f => ?_, fun stored hstored => ?_⟩
  · rw [choosePages_eq_error_iff]
    simp [Query.test_eq_error_iff]
  · obtain ⟨_, heq, hopened⟩ := h _ hstored
    obtain rfl := Segment.stored.inj heq
    obtain ⟨m, hm, hsegment⟩ := hopened.exists_manifest
    exact ⟨m, hm, fun f => by rw [ofManifest_withFilters, hsegment]; rfl⟩

/-- A query for all entities does not ask the filter of the page. -/
theorem choosePages_opened_wordless :
    wordless.IsOpened (manifestDisk wordlessManifest.toJson.pretty) ∧
      ∀ f, (choosePages [.stored wordless] {} [⟨0, 0⟩]).result ≠ .error f := by
  have hopened : ∀ s ∈ [Segment.stored wordless], ∃ stored, s = .stored stored ∧
      stored.IsOpened (manifestDisk wordlessManifest.toJson.pretty) := by
    simpa using isOpened_wordless
  refine ⟨isOpened_wordless, fun f hfails => ?_⟩
  obtain ⟨htest, hchoice, -⟩ := choosePages_opened hopened {} [⟨0, 0⟩]
  obtain ⟨-, r, hr, summary, fault, hsummary, hfault⟩ := (hchoice f).1 hfails
  obtain rfl := List.mem_singleton.1 hr
  obtain ⟨-, ⟨-, selector, hselector, -⟩, -⟩ :=
    (htest _ (.head _) 0 summary hsummary fault).1 hfault
  cases hselector

/-- A query for one entity asks it, and there is no choice. -/
theorem choosePages_wordless :
    let q : Query := { selector := some (.ofList [.ofNat 0]) }
    wordless.IsOpened (manifestDisk wordlessManifest.toJson.pretty) ∧
      (∀ summary ∈ wordless.summaries, q.test summary = .error .division) ∧
      (choosePages [.stored wordless] q [⟨0, 0⟩]).result = .error .outOfBounds := by
  intro q
  have hasks : ∀ summary ∈ wordless.summaries, q.Asks summary ∧ summary.entities.words = [] := by
    intro summary hsummary
    obtain rfl := List.mem_singleton.1 hsummary
    exact ⟨⟨by decide, _, rfl, by decide⟩, rfl⟩
  refine ⟨isOpened_wordless, fun summary hsummary => ?_, ?_⟩
  · exact Query.test_eq_error_iff.2 ⟨rfl, hasks summary hsummary⟩
  · exact choosePages_eq_error_iff.2 ⟨rfl, ⟨0, 0⟩, .head _, _, rfl, hasks _ (.head _)⟩

end Plan

end Bitemporal
