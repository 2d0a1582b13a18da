import Mathlib
import Bitemporal.Proofs.Merge.Queue

/-!
# The order of the rows of a task

Over ordered pages, each pointer starts with the rows of its page that lie under the path, and the
rows of the task come in the order of ascending ids, newest first within one, and of one system time
by the position of the page and then the position in the page. No two rows stand at one position, so
this order is strict and each row comes once.

## Main definitions

* `RowPointer.Covers`: a pointer has the rows under a path left.
* `MergedRow.Precedes`: the order of the rows of a task.

## Main statements

* `RowPointer.covers_of_ofPage?`: a pointer starts with the rows under the path.
* `MergedRow.pairwise_mergeAll`: a merge of lists in order is in order.
* `TaskRows.requests_ordered`: the rows of a task, one request after the other.
-/

namespace Bitemporal

open scoped Linear

variable {w : BucketWidth} {p : Path} {pages : List Page}

/-! ## The rows under a path -/

/-- The rows of a page that are left are a range of them, those under a path. -/
structure RowPointer.Covers (w : BucketWidth) (p : Path) (x : RowPointer) : Prop where
  index_le : x.index ≤ x.past
  past_le : x.past ≤ x.page.rows.length
  between_iff : ∀ i f, x.page.rows[i]? = some f →
    (x.index ≤ i ∧ i < x.past ↔ f.entity.isUnder w p)

/-- Where ids never go back in a page, its pointer starts with its rows under the path. They stand
between those whose ids are below the path and those whose ids are above it. -/
theorem RowPointer.covers_of_ofPage? {pg : Page} {x : RowPointer} (h : Fact.IsGrouped pg.rows)
    (hp : p.length ≤ w.maxDepth) (hx : ofPage? w p pg = some x) : x.Covers w p := by
  rw [ofPage?, Page.rangeUnder?_eq h hp, Option.map_some, Option.some.injEq] at hx
  subst hx
  have hplaced {o : Ordering} {f : Fact} (hf : f ∈ Fact.placed w p o pg.rows) :
      f.entity.isUnder w p ↔ o = .eq := by
    rw [EntityId.isUnder_iff_place hp, show w.place f.entity 0 p = o by
      simpa using (List.mem_filter.1 hf).2]
  have hcut := Fact.placed_append h hp
  refine ⟨by simp, ?_, fun i f hf => ?_⟩
  · have hlength := congrArg List.length hcut
    simp only [List.length_append] at hlength ⊢
    omega
  · rw [← hcut] at hf
    simp only [List.length_append]
    rcases Nat.lt_or_ge i (Fact.placed w p .lt pg.rows).length with hi | hi
    · rw [List.getElem?_append_left hi] at hf
      simp [hplaced (List.mem_of_getElem? hf), hi]
    · rw [List.getElem?_append_right hi] at hf
      rcases Nat.lt_or_ge (i - (Fact.placed w p .lt pg.rows).length)
        (Fact.placed w p .eq pg.rows).length with hi' | hi'
      · rw [List.getElem?_append_left hi'] at hf
        simp only [hplaced (List.mem_of_getElem? hf), iff_true]
        omega
      · rw [List.getElem?_append_right hi'] at hf
        simp only [hplaced (List.mem_of_getElem? hf), reduceCtorEq, iff_false]
        omega

/-- The rows that are left of a page, by their positions. -/
theorem RowPointer.getElem?_left_eq_some_iff {x : RowPointer} (page k : Nat) (r : MergedRow) :
    (x.left page)[k]? = some r ↔ r.page = page ∧ r.index = x.index + k ∧ x.index + k < x.past ∧
      x.page.rows[x.index + k]? = some r.fact := by
  rw [left, List.getElem?_map, Option.map_eq_some_iff]
  simp only [Page.rowsIn, RowRange.size, List.getElem?_zip_eq_some, List.getElem?_take,
    List.getElem?_drop, Option.ite_none_right_eq_some]
  constructor
  · rintro ⟨⟨i, f⟩, ⟨hi, hk, hf⟩, rfl⟩
    obtain ⟨hlt, rfl⟩ := List.getElem?_eq_some_iff.1 hi
    exact ⟨rfl, by simp, by omega, hf⟩
  · obtain ⟨rpage, index, fact⟩ := r
    rintro ⟨rfl, rfl, hlt, hf⟩
    have hk : x.index + k < x.page.rows.length := (List.getElem?_eq_some_iff.1 hf).1
    refine ⟨(x.index + k, fact), ⟨?_, by omega, hf⟩, rfl⟩
    rw [List.getElem?_range' (by simp only [List.length_take, List.length_drop]; omega), one_mul]

theorem RowPointer.mem_left_iff {x : RowPointer} {page : Nat} {r : MergedRow} :
    r ∈ x.left page ↔ r.page = page ∧ x.index ≤ r.index ∧ r.index < x.past ∧
      x.page.rows[r.index]? = some r.fact := by
  rw [List.mem_iff_getElem?]
  simp only [getElem?_left_eq_some_iff]
  constructor
  · rintro ⟨k, hpage, hindex, hlt, hrow⟩
    rw [← hindex] at hlt hrow
    exact ⟨hpage, by omega, hlt, hrow⟩
  · rintro ⟨hpage, hle, hlt, hrow⟩
    have hindex : x.index + (r.index - x.index) = r.index := Nat.add_sub_cancel' hle
    exact ⟨r.index - x.index, hpage, hindex.symm, by omega, by rw [hindex, hrow]⟩

/-! ## The order -/

namespace MergedRow

variable {a b c : MergedRow} {ls : List (List MergedRow)}

/-- The order of the rows of a task: ascending ids, newest first within one, and then by where the
rows stand. -/
def Precedes (a b : MergedRow) : Prop :=
  a.fact.entity < b.fact.entity ∨ a.fact.entity = b.fact.entity ∧
    (b.fact.systemFrom < a.fact.systemFrom ∨ a.fact.systemFrom = b.fact.systemFrom ∧
      (a.page < b.page ∨ a.page = b.page ∧ a.index < b.index))

theorem Precedes.trans (hab : a.Precedes b) (hbc : b.Precedes c) : a.Precedes c := by
  unfold Precedes at *
  grind

theorem not_precedes_self (a : MergedRow) : ¬ a.Precedes a := by
  unfold Precedes
  grind

theorem precedes_of_before (h : a.before b)
    (hplace : a.page < b.page ∨ a.page = b.page ∧ a.index < b.index) : a.Precedes b := by
  rw [before, Fact.before_iff] at h
  unfold Precedes
  grind

theorem precedes_of_not_before (h : ¬ a.before b) : b.Precedes a := by
  rw [before, Fact.before_iff] at h
  unfold Precedes
  grind

/-- A merge of lists in order is in order, if they are of one page after the other. -/
theorem pairwise_mergeAll (h : ∀ l ∈ ls, l.Pairwise Precedes)
    (hpages : ls.Pairwise fun l m => ∀ a ∈ l, ∀ b ∈ m, a.page < b.page) :
    (mergeAll ls).Pairwise Precedes := by
  induction ls with
  | nil => exact .nil
  | cons l ls ih =>
    rw [List.forall_mem_cons] at h
    obtain ⟨hfirst, hrest⟩ := List.pairwise_cons.1 hpages
    refine Stable.pairwise_merge .trans h.1 (ih h.2 hrest) (fun a ha b hb hab => ?_)
      fun a _ b _ => precedes_of_not_before
    obtain ⟨m, hm, hb⟩ := Stable.mem_foldr_merge.1 hb
    exact precedes_of_before hab (.inl (hfirst m hm a ha b hb))

end MergedRow

/-- The rows that are left of an ordered page are in order. -/
theorem RowPointer.pairwise_left {x : RowPointer} (h : Fact.IsOrdered x.page.rows) (page : Nat) :
    (x.left page).Pairwise MergedRow.Precedes := by
  rw [List.pairwise_iff_getElem]
  intro i j hi hj hij
  obtain ⟨hpage, hindex, -, hrow⟩ :=
    (getElem?_left_eq_some_iff page i _).1 (List.getElem?_eq_getElem hi)
  obtain ⟨hpage', hindex', -, hrow'⟩ :=
    (getElem?_left_eq_some_iff page j _).1 (List.getElem?_eq_getElem hj)
  obtain ⟨hlt, hfact⟩ := List.getElem?_eq_some_iff.1 hrow
  obtain ⟨hlt', hfact'⟩ := List.getElem?_eq_some_iff.1 hrow'
  have hbefore := List.pairwise_iff_getElem.1 h _ _ hlt hlt' (Nat.add_lt_add_left hij x.index)
  rw [hfact, hfact'] at hbefore
  exact MergedRow.precedes_of_before hbefore (.inr ⟨by omega, by omega⟩)

/-! ## The rows of a task -/

namespace TaskRows

variable {s : TaskRows}

theorem mem_merged_iff {r : MergedRow} : r ∈ s.merged ↔ ∃ x, s.pointers[r.page]? = some x ∧
    x.index ≤ r.index ∧ r.index < x.past ∧ x.page.rows[r.index]? = some r.fact := by
  rw [merged, MergedRow.mergeAll, Stable.mem_foldr_merge]
  constructor
  · rintro ⟨l, hl, hr⟩
    obtain ⟨i, hi⟩ := List.mem_iff_getElem?.1 hl
    rw [left, List.getElem?_mapIdx, Option.map_eq_some_iff] at hi
    obtain ⟨x, hx, rfl⟩ := hi
    obtain ⟨rfl, hrest⟩ := RowPointer.mem_left_iff.1 hr
    exact ⟨x, hx, hrest⟩
  · rintro ⟨x, hx, hrest⟩
    exact ⟨x.left r.page, List.mem_iff_getElem?.2 ⟨r.page, by
      rw [left, List.getElem?_mapIdx, hx, Option.map_some]⟩, RowPointer.mem_left_iff.2 ⟨rfl, hrest⟩⟩

theorem pairwise_merged (h : ∀ x ∈ s.pointers, Fact.IsOrdered x.page.rows) :
    s.merged.Pairwise MergedRow.Precedes := by
  refine MergedRow.pairwise_mergeAll (fun l hl => ?_) ?_
  · obtain ⟨i, hi⟩ := List.mem_iff_getElem?.1 hl
    rw [left, List.getElem?_mapIdx, Option.map_eq_some_iff] at hi
    obtain ⟨x, hx, rfl⟩ := hi
    exact x.pairwise_left (h x (List.mem_of_getElem? hx)) i
  · rw [List.pairwise_iff_getElem]
    intro i j hi hj hij a ha b hb
    simp only [left, List.getElem_mapIdx, RowPointer.mem_left_iff] at ha hb
    omega

/-- No row comes twice. -/
theorem nodup_positions (h : s.merged.Pairwise MergedRow.Precedes) :
    (s.merged.map fun r => (r.page, r.index)).Nodup := by
  have hnodup : s.merged.Nodup := by
    refine h.imp ?_
    rintro a _ hab rfl
    exact MergedRow.not_precedes_self a hab
  refine hnodup.map_on fun a ha b hb hplace => ?_
  obtain ⟨x, hx, -, -, hrow⟩ := mem_merged_iff.1 ha
  obtain ⟨y, hy, -, -, hrow'⟩ := mem_merged_iff.1 hb
  obtain ⟨page, index, f⟩ := a
  obtain ⟨page', index', g⟩ := b
  obtain ⟨rfl, rfl⟩ := Prod.mk.inj hplace
  obtain rfl := Option.some.inj (hx.symm.trans hy)
  obtain rfl := Option.some.inj (hrow.symm.trans hrow')
  rfl

/-- The rows of a task over ordered pages, under a path that fits an id. Each pointer starts with
the rows of its page that lie under the path. Any number of requests gives as many rows of the
merge, and nothing after its end, where the queue is exhausted. The merge has each row under the
path once, in order. -/
theorem requests_ordered (hordered : ∀ pg ∈ pages, Fact.IsOrdered pg.rows)
    (hp : p.length ≤ w.maxDepth) :
    ∃ s rows, ofPages? w p pages = some s ∧ mergeRows? w p pages = some rows ∧
      s.pointers.map (·.page) = pages ∧ (∀ x ∈ s.pointers, x.Covers w p) ∧
      (∀ n, ∃ left, s.requests? n = some ((rows.take n).map (fun r => some (r.page, r.index)) ++
        List.replicate (n - rows.length) none, left) ∧ (left.isExhausted ↔ rows.length ≤ n)) ∧
      rows.Pairwise MergedRow.Precedes ∧ (rows.map fun r => (r.page, r.index)).Nodup ∧
      ∀ r, r ∈ rows ↔ ∃ pg, pages[r.page]? = some pg ∧ pg.rows[r.index]? = some r.fact ∧
        r.fact.entity.isUnder w p := by
  obtain ⟨rows, hrows⟩ := exists_mergeRows? pages hp
  obtain ⟨s, hs, rfl⟩ := Option.map_eq_some_iff.1 ((mergeRows?_eq_map w p pages).symm.trans hrows)
  obtain ⟨hqueued, hpages, hstart⟩ := of_ofPages? hs
  have hmem : ∀ x ∈ s.pointers, Fact.IsOrdered x.page.rows := fun x hx =>
    hordered x.page (hpages ▸ List.mem_map_of_mem hx)
  have hcovers : ∀ x ∈ s.pointers, x.Covers w p := fun x hx =>
    RowPointer.covers_of_ofPage? (hmem x hx).isGrouped hp (hstart x hx)
  have hpairwise := pairwise_merged hmem
  refine ⟨s, s.merged, hs, hrows, hpages, hcovers, fun n => ?_, hpairwise,
    nodup_positions hpairwise, fun r => ?_⟩
  · obtain ⟨left, hrequests, hleft, hrest⟩ := hqueued.requests?_eq n
    refine ⟨left, hrequests, ?_⟩
    rw [hleft.isExhausted_iff, hrest, List.drop_eq_nil_iff]
  · rw [mem_merged_iff, ← hpages]
    simp only [List.getElem?_map, Option.map_eq_some_iff]
    constructor
    · rintro ⟨x, hx, hle, hlt, hrow⟩
      have hunder := ((hcovers x (List.mem_of_getElem? hx)).between_iff r.index r.fact hrow).1
        ⟨hle, hlt⟩
      exact ⟨x.page, ⟨x, hx, rfl⟩, hrow, hunder⟩
    · rintro ⟨-, ⟨x, hx, rfl⟩, hrow, hunder⟩
      obtain ⟨hle, hlt⟩ :=
        ((hcovers x (List.mem_of_getElem? hx)).between_iff r.index r.fact hrow).2 hunder
      exact ⟨x, hx, hle, hlt, hrow⟩

/-- Two pages of which some rows lie under a path. The older page has a version between the two of
the newer one. -/
theorem requests_ordered_between :
    let put (bucket : Nat) (systemFrom : Instant) : Fact :=
      ⟨.ofNat (bucket * 2 ^ 126), .start, .never, systemFrom, .put .empty⟩
    let pages : List Page := [⟨[put 0 9, put 1 9, put 1 5]⟩, ⟨[put 1 6, put 2 7]⟩]
    (∀ pg ∈ pages, Fact.IsOrdered pg.rows) ∧
      ∃ s rows, ofPages? .two [1] pages = some s ∧ mergeRows? .two [1] pages = some rows ∧
        (∀ x ∈ s.pointers, x.Covers .two [1]) ∧ rows.Pairwise MergedRow.Precedes ∧
        (s.requests? 4).map (·.1) = some [some (0, 1), some (1, 0), some (0, 2), none] := by
  intro put pages
  have hordered : ∀ pg ∈ pages, Fact.IsOrdered pg.rows := by
    unfold Fact.IsOrdered
    decide
  have hrequests : ((ofPages? .two [1] pages).bind (requests? 4)).map (·.1) =
      some [some (0, 1), some (1, 0), some (0, 2), none] := by decide +kernel
  obtain ⟨s, rows, hs, hrows, -, hcovers, -, hpairwise, -⟩ := requests_ordered hordered
    (show ([1] : Path).length ≤ BucketWidth.two.maxDepth by decide)
  rw [hs] at hrequests
  exact ⟨hordered, s, rows, hs, hrows, hcovers, hpairwise, hrequests⟩

end TaskRows

end Bitemporal
