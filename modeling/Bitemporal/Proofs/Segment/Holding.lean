import Mathlib
import Bitemporal.Merge.Task
import Bitemporal.Proofs.Journal.Yields
import Bitemporal.Proofs.Plan.Walk
import Bitemporal.Proofs.Segment.Layout

/-!
# What segments hold

A segment holds facts when its pages divide them and each page can be loaded. Where a path leads to
leaves only, the facts under the path are those of the pages of these leaves.

## Main definitions

* `Holding`: a segment with its pages and the facts it was written from.
* `Holding.IsSound`: the segment holds these facts.
* `Holding.pageOf`: the page that a reference names.
* `MemorySegment.IsWrittenFrom`: a segment in memory that is the result of a write.

## Main statements

* `Holding.under_facts`: the facts under a path that leads to leaves only.
* `MemorySegment.exists_write`: ordered facts can be written.
* `MemorySegment.IsWrittenFrom.flatMap_pages`: the pages hold the facts in their order.
* `MemorySegment.IsWrittenFrom.isSound`: what is written is held.
-/

namespace Bitemporal

open Plan (partsAt leavesAt)

variable {excuse : Prop} {d : Disk} {w : BucketWidth} {p : Path} {rows : List Fact}

/-- A segment with its pages and the facts it was written from. -/
structure Holding where
  segment : Segment
  pages : List Page
  rows : List Fact

namespace Holding

variable {x : Holding} {holdings : List Holding}

/-- The segment holds the facts in order, and its pages can be loaded unless there is an excuse. -/
structure IsSound (excuse : Prop) (d : Disk) (w : BucketWidth) (x : Holding) : Prop where
  width : x.segment.width = w
  ordered : Fact.IsOrdered x.rows
  divides : x.segment.trie.Divides x.pages x.rows
  loads : ∀ i page, x.pages[i]? = some page → (x.segment.loadPage d i).Yields excuse page

/-- The segments of holdings. -/
def segments (holdings : List Holding) : List Segment := holdings.map (·.segment)

/-- The facts of holdings, one holding after the other. -/
def facts (holdings : List Holding) : List Fact := holdings.flatMap (·.rows)

/-- The page that a reference names. -/
def page? (holdings : List Holding) (r : PageRef) : Option Page :=
  holdings[r.segment]?.bind fun x => x.pages[r.page]?

/-- The rows of the page that a reference names. -/
def rowsOf (holdings : List Holding) (r : PageRef) : List Fact :=
  ((page? holdings r).map (·.rows)).getD []

/-- The leaf that a path leads to. -/
def leaf? (p : Path) (x : Holding) : Option Nat :=
  match x.segment.trie.root.reach p with
  | .leaf i => some i
  | _ => none

theorem leavesAt_segments (holdings : List Holding) (p : Path) :
    leavesAt (segments holdings) p =
      holdings.zipIdx.filterMap fun (x, i) => (x.leaf? p).map (PageRef.mk i) := by
  rw [leavesAt, partsAt, segments, List.zipIdx_map, List.map_map, List.filter_map,
    List.filterMap_map, ← List.filterMap_eq_filter, List.filterMap_filterMap]
  apply List.filterMap_congr
  rintro ⟨x, i⟩ _
  simp only [Function.comp, leaf?, Option.guard]
  cases hreach : x.segment.trie.root.reach p <;> simp [Trie.isAbsent, Plan.Part.page?, hreach]

/-- A reference to a leaf names a page. -/
theorem exists_page? (h : ∀ x ∈ holdings, IsSound excuse d w x) {r : PageRef}
    (hr : r ∈ leavesAt (segments holdings) p) :
    ∃ x page, holdings[r.segment]? = some x ∧ x.pages[r.page]? = some page ∧
      page? holdings r = some page := by
  obtain ⟨s, hs, hreach⟩ := Plan.mem_leavesAt.1 hr
  rw [segments, List.getElem?_map, Option.map_eq_some_iff] at hs
  obtain ⟨x, hx, rfl⟩ := hs
  obtain ⟨page, hpage, -⟩ := (h x (List.mem_of_getElem? hx)).divides.leaf p r.page hreach
  exact ⟨x, page, hx, hpage, by simp [page?, hx, hpage]⟩

/-- Where a path leads to leaves only, the facts under it are those of their pages. -/
theorem under_facts (h : ∀ x ∈ holdings, IsSound excuse d w x)
    (hleaf : ∀ part ∈ partsAt (segments holdings) p, part.node.isLeaf) :
    Fact.under w p (facts holdings) =
      (leavesAt (segments holdings) p).flatMap fun r => Fact.under w p (rowsOf holdings r) := by
  have hfacts : Fact.under w p (facts holdings) =
      holdings.zipIdx.flatMap fun x => Fact.under w p x.1.rows := by
    have hmap := List.flatMap_map Prod.fst (fun x : Holding => Fact.under w p x.rows)
      (holdings.zipIdx)
    rw [List.zipIdx_map_fst] at hmap
    rw [Fact.under, facts, List.filter_flatMap]
    exact hmap
  rw [hfacts, leavesAt_segments, List.filterMap_eq_flatMap_toList, List.flatMap_assoc]
  apply List.flatMap_congr
  rintro ⟨x, i⟩ hx
  rw [List.mem_zipIdx_iff_getElem?] at hx
  have hsound := h x (List.mem_of_getElem? hx)
  have hwidth : x.segment.trie.width = w := hsound.width
  have habsent := hsound.divides.absent p
  have hpage := hsound.divides.leaf p
  rw [hwidth] at habsent hpage
  simp only [leaf?]
  cases hreach : x.segment.trie.root.reach p with
  | absent => simpa using habsent hreach
  | leaf j =>
    obtain ⟨page, hj, hunder⟩ := hpage j hreach
    simp [rowsOf, page?, hx, hj, hunder]
  | branch children =>
    have hpart : Plan.Part.mk i (.branch children) ∈ partsAt (segments holdings) p :=
      Plan.mem_partsAt.2 ⟨x.segment, by simp [segments, hx], hreach.symm, rfl⟩
    cases hleaf _ hpart

/-- Nothing is under a path that leads nowhere. -/
theorem under_facts_eq_nil (h : ∀ x ∈ holdings, IsSound excuse d w x)
    (hnone : partsAt (segments holdings) p = []) : Fact.under w p (facts holdings) = [] := by
  rw [under_facts h (by simp [hnone]), leavesAt, hnone]
  rfl

theorem rowsOf_subset (h : ∀ x ∈ holdings, IsSound excuse d w x) {r : PageRef} {f : Fact}
    (hf : f ∈ rowsOf holdings r) : f ∈ facts holdings := by
  rw [rowsOf, page?] at hf
  cases hx : holdings[r.segment]? with
  | none => simp [hx] at hf
  | some x =>
    cases hpage : x.pages[r.page]? with
    | none => simp [hx, hpage] at hf
    | some page =>
      have hmem := List.mem_of_getElem? hx
      have hsub := (h x hmem).divides.sublist page (List.mem_of_getElem? hpage)
      exact List.mem_flatMap.2 ⟨x, hmem, hsub.mem (by simpa [hx, hpage] using hf)⟩

end Holding

namespace MemorySegment

/-- The segment is the result of writing ordered facts under a level width, with oversized leaves
allowed. -/
structure IsWrittenFrom (w : BucketWidth) (rows : List Fact) (s : MemorySegment) : Prop where
  ordered : Fact.IsOrdered rows
  written : ∃ name settings, settings.check = .ok w ∧ settings.oversized = .allow ∧
    (MemorySegment.write name rows settings).value = .ok s

/-- A trie that its pages divide is accepted with them. -/
theorem ofParts_eq {name : String} {trie : HashTrie} {pages : List Page}
    (h : trie.Divides pages rows) : ofParts name trie pages = .ok ⟨name, trie, pages⟩ := by
  have hdepth : ¬ trie.width.maxDepth < trie.depth := not_lt.2 h.regular.depth_le
  have hnumbers : trie.leaves.find? (fun l => pages.length ≤ l.2) = none := by
    refine List.find?_eq_none.2 fun l hl => ?_
    have hmem : l.2 ∈ trie.root.values := List.mem_map_of_mem hl
    rw [h.numbers, List.mem_range] at hmem
    simpa using hmem
  simp only [ofParts]
  rw [if_neg hdepth, hnumbers]

/-- What is written of ordered facts. -/
theorem value_write {settings : Settings} {wr : Writer} (hwr : Writer.ofSettings settings = .ok wr)
    (hallow : wr.oversized = .allow) (h : Fact.IsOrdered rows) (name : String) :
    (MemorySegment.write name rows settings).value =
      .ok ⟨name, wr.trieOf rows, wr.pagesOf rows⟩ := by
  rw [write, hwr]
  simp only [Logged.value_bind, Logged.value_pure, Writer.value_write hallow h]
  exact ofParts_eq (wr.divides_write rows)

/-- Ordered facts can be written, whatever the row limit is. -/
theorem exists_write {settings : Settings} (hcheck : settings.check = .ok w)
    (hallow : settings.oversized = .allow) (h : Fact.IsOrdered rows) (name : String) :
    ∃ s, (MemorySegment.write name rows settings).value = .ok s ∧ s.trie.width = w ∧
      s.trie.Divides s.pages rows := by
  obtain ⟨wr, hwr, rfl, hoversized⟩ := Writer.exists_ofSettings hcheck hallow
  exact ⟨_, value_write hwr hoversized h name, rfl, wr.divides_write rows⟩

/-- A segment of one page. -/
def onePage (name : String) (w : BucketWidth) (rows : List Fact) : MemorySegment :=
  ⟨name, ⟨.leaf 0, w⟩, [⟨rows⟩]⟩

/-- Ordered facts that fit a leaf are written on one page. -/
theorem isWrittenFrom_onePage (name : String) (w : BucketWidth) (h : Fact.IsOrdered rows)
    (hne : rows ≠ []) (hfits : rows.length ≤ 1024) :
    (onePage name w rows).IsWrittenFrom w rows := by
  have hcheck : Settings.check { levelBits := w.bits } = .ok w := by cases w <;> rfl
  have hwr : Writer.ofSettings { levelBits := w.bits } = .ok ⟨w, 1024, .allow⟩ := by
    rw [Writer.ofSettings, hcheck]
    rfl
  refine ⟨h, name, _, hcheck, rfl, ?_⟩
  rw [value_write hwr rfl h, Writer.trieOf_eq_leaf hne (.inl hfits),
    Writer.pagesOf_eq_singleton hne (.inl hfits)]
  rfl

theorem IsWrittenFrom.divides {s : MemorySegment} (h : s.IsWrittenFrom w rows) :
    s.trie.width = w ∧ s.trie.Divides s.pages rows := by
  obtain ⟨name, settings, hcheck, hallow, hs⟩ := h.written
  obtain ⟨s', hs', hdivides⟩ := exists_write hcheck hallow h.ordered name
  obtain rfl : s' = s := Except.ok.inj (hs'.symm.trans hs)
  exact hdivides

/-- The pages of a written segment hold the facts, one page after the other. -/
theorem IsWrittenFrom.flatMap_pages {s : MemorySegment} (h : s.IsWrittenFrom w rows) :
    s.pages.flatMap Page.rows = rows := by
  obtain ⟨name, settings, hcheck, hallow, hs⟩ := h.written
  obtain ⟨wr, hwr, -, hoversized⟩ := Writer.exists_ofSettings hcheck hallow
  obtain rfl := Except.ok.inj ((value_write hwr hoversized h.ordered name).symm.trans hs)
  exact wr.flatMap_pagesOf h.ordered

/-- What is written in memory is held there. -/
theorem IsWrittenFrom.isSound {s : MemorySegment} (h : s.IsWrittenFrom w rows) :
    Holding.IsSound excuse d w ⟨.memory s, s.pages, rows⟩ where
  width := h.divides.1
  ordered := h.ordered
  divides := h.divides.2
  loads i page hpage := by
    refine .of_result ?_
    have hget : Segment.page d (.memory s) i = .ok page := by
      simp only [Segment.page, MemorySegment.page, hpage]
    rw [Segment.loadPage, hget]
    rfl

end MemorySegment

end Bitemporal
