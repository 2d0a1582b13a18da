import Mathlib
import Bitemporal.Proofs.Ledger.Recording

/-!
# The tiling of a version

What is left of a version against a ledger tiles its span: the tiles follow one another from the
first valid time of the span to its end, none is empty, and each ends in system time at the ceiling
that the ledger has over it.

## Main definitions

* `Exposure.Tiles`: an exposure tiles a span under a ledger.

## Main statements

* `Exposure.pairwise_validTimes`: where no tile is empty, the valid times ascend.
* `Ledger.tiles_of_resolve`: what is left of a version tiles its span.
* `Ledger.resolve_tiles`: resolving a version against a ledger after any calls.
-/

namespace Bitemporal

open scoped Linear

/-- The exposure tiles the span from `a` to `b` under the ceilings of a ledger. -/
structure Exposure.Tiles (x : Exposure) (l : Ledger) (a b : Instant) : Prop where
  /-- There is a tile between every two valid times. -/
  length : x.validTimes.length = x.systemTos.length + 1
  ascends : x.validTimes.Pairwise (· < ·)
  /-- No tile is empty. -/
  proper : ∀ r ∈ x.rectangles, r.validFrom < r.validTo
  /-- Each tile ends where the next one begins. -/
  consecutive : x.rectangles.IsChain fun r next => r.validTo = next.validFrom
  first : x.rectangles.head?.map (·.validFrom) = some a
  last : x.rectangles.getLast?.map (·.validTo) = some b
  /-- A tile ends in system time at the ceiling over each of its valid times. -/
  ceiling : ∀ r ∈ x.rectangles, ∀ v, r.validFrom ≤ v → v < r.validTo →
    l.ceilings[l.rangeIndex v]? = some r.systemTo

namespace Ledger

variable {l : Ledger} {steps rest : List Step} {s : Step} {a b v t upper : Instant}

/-! ## From the top down -/

theorem isChain_tilesBelow (upper : Instant) (steps : List Step) :
    (tilesBelow upper steps).IsChain fun r next => next.validTo = r.validFrom := by
  induction steps generalizing upper with
  | nil => exact .nil
  | cons s rest ih =>
    cases rest with
    | nil => exact .singleton _
    | cons x rest => exact .cons_cons rfl (ih s.lower)

theorem getLast?_tilesBelow (upper : Instant) (steps : List Step) :
    (tilesBelow upper steps).getLast?.map (·.validFrom) = steps.getLast?.map (·.lower) := by
  induction steps generalizing upper with
  | nil => rfl
  | cons s rest ih =>
    cases rest with
    | nil => rfl
    | cons x rest =>
      rw [List.getLast?_cons_cons, ← ih s.lower]
      rfl

theorem getLast?_above (h : Reaches steps v) : (above v steps).getLast?.map (·.lower) = some v := by
  induction steps with
  | nil => simp [Reaches] at h
  | cons s rest ih =>
    rcases lt_or_ge v s.lower with hs | hs
    · have hrest := ih (h.of_cons hs)
      rw [above_cons_of_lt hs, List.getLast?_cons]
      cases hlast : (above v rest).getLast? with
      | none => simp [hlast] at hrest
      | some x => simpa [hlast] using hrest
    · rw [above_cons_of_le hs]
      rfl

/-! ## The tiles of a span -/

theorem isChain_spanTiles (a b : Instant) (steps : List Step) :
    (spanTiles a b steps).IsChain fun r next => r.validTo = next.validFrom := by
  rw [spanTiles]
  split
  · exact List.isChain_reverse.2 ((isChain_tilesBelow b _).imp fun _ _ h => h)
  · exact .nil

theorem head?_spanTiles (h : Spans steps) (hab : a < b) :
    (spanTiles a b steps).head?.map (·.validFrom) = some a := by
  rw [spanTiles, if_pos hab, List.head?_reverse, getLast?_tilesBelow, within,
    getLast?_above ((h.isSteps.reaches a).below hab)]

theorem getLast?_spanTiles (h : Spans steps) (hab : a < b) :
    (spanTiles a b steps).getLast?.map (·.validTo) = some b := by
  obtain ⟨x, hx, -⟩ := exists_mem_above ((h.isSteps.reaches a).below hab)
  rw [spanTiles, if_pos hab, List.getLast?_reverse, within]
  cases hwithin : above a (below b steps) with
  | nil => simp [hwithin] at hx
  | cons s rest => rfl

/-- A tile of a span ends at the ceiling over each of its valid times. -/
theorem systemTo_of_mem_spanTiles (h : Spans steps) {r : Rectangle}
    (hr : r ∈ spanTiles a b steps) (hv : r.validFrom ≤ v) (hv' : v < r.validTo) :
    r.systemTo = ceilingIn steps v := by
  obtain ⟨ha, -, hb⟩ := bounds_of_mem_spanTiles h hr
  obtain ⟨r', hone, hceiling⟩ := filter_spanTiles h (ha.trans hv) (hv'.trans_le hb)
  have hmem : r ∈ (spanTiles a b steps).filter fun r => decide (r.validFrom ≤ v ∧ v < r.validTo) :=
    List.mem_filter.2 ⟨hr, decide_eq_true ⟨hv, hv'⟩⟩
  rw [hone, List.mem_singleton] at hmem
  rw [hmem, hceiling]

end Ledger

/-- Where no tile is empty, the valid times ascend. -/
theorem Exposure.pairwise_validTimes {x : Exposure}
    (hlength : x.validTimes.length = x.systemTos.length + 1)
    (hproper : ∀ r ∈ x.rectangles, r.validFrom < r.validTo) : x.validTimes.Pairwise (· < ·) := by
  obtain ⟨times, ends⟩ := x
  rw [← List.isChain_iff_pairwise]
  induction ends generalizing times with
  | nil =>
    obtain ⟨v, rfl⟩ := List.length_eq_one_iff.1 hlength
    exact .singleton v
  | cons t ends ih =>
    match times, hlength with
    | v :: v' :: times, hlength =>
      rw [rectangles, tiles, List.forall_mem_cons] at hproper
      exact .cons_cons hproper.1 (ih (v' :: times) (by simpa using hlength) hproper.2)

namespace Ledger

variable {l : Ledger} {a b t : Instant}

/-- What is left of a version of a proper span has one valid time more than it has ends in system
time. -/
theorem length_of_resolve {x : Exposure} (h : l.resolve t a b = .ok x) (hab : a < b) :
    x.validTimes.length = x.systemTos.length + 1 := by
  rw [resolve] at h
  cases horder : l.checkOrder t with
  | error e => simp [horder] at h
  | ok =>
    simp only [horder, if_neg (not_le.2 hab)] at h
    cases h
    simp

/-- What is left of a version tiles its span. -/
theorem tiles_of_resolve (h : Spans l.steps) (ht : t ≤ l.last) (hab : a < b) :
    ∃ x, l.resolve t a b = .ok x ∧ x.Tiles l a b := by
  obtain ⟨x, hx, hrectangles⟩ := resolve_eq (a := a) (b := b) h ht
  have hlength := length_of_resolve hx hab
  have hproper : ∀ r ∈ x.rectangles, r.validFrom < r.validTo := fun r hr =>
    (bounds_of_mem_spanTiles h (hrectangles ▸ hr)).2.1
  refine ⟨x, hx, {
    length := hlength
    ascends := Exposure.pairwise_validTimes hlength hproper
    proper := hproper
    consecutive := hrectangles ▸ isChain_spanTiles a b l.steps
    first := hrectangles ▸ head?_spanTiles h hab
    last := hrectangles ▸ getLast?_spanTiles h hab
    ceiling := fun r hr v hv hv' => ?_ }⟩
  rw [ceilings_rangeIndex h, systemTo_of_mem_spanTiles h (hrectangles ▸ hr) hv hv']

/-- After any calls, a version newer than the last one recorded is refused, an empty span leaves no
tiles, and what is left of any other version tiles its span. The exposure is written over, whatever
it held, a refusal clears it, no position of the columns is missed, and they stay as they are. -/
theorem resolve_tiles (calls : List Call) (before : Exposure) (t a b : Instant) :
    let l := (Recording.of calls).ledger
    if l.last < t then
      ∃ e, l.resolve t a b = .error e ∧
        l.columns.resolve? before t a b = some (.error e, l.columns, .empty)
    else if b ≤ a then
      l.resolve t a b = .ok .empty ∧
        l.columns.resolve? before t a b = some (.ok (), l.columns, .empty)
    else
      ∃ x, l.resolve t a b = .ok x ∧
        l.columns.resolve? before t a b = some (.ok (), l.columns, x) ∧ x.Tiles l a b := by
  intro l
  have h : Spans l.steps := (Recording.isTrue_of calls).spans
  have hcolumns := resolve?_columns h before t a b
  split_ifs with ht hab
  · have hrefused : l.resolve t a b = .error ⟨t, l.last⟩ := by
      rw [resolve, checkOrder, if_pos ht]
    rw [hrefused] at hcolumns
    exact ⟨_, hrefused, hcolumns⟩
  · have hempty : l.resolve t a b = .ok .empty := by
      simp only [resolve, checkOrder, if_neg ht, if_pos hab]
    rw [hempty] at hcolumns
    exact ⟨hempty, hcolumns⟩
  · obtain ⟨x, hx, htiles⟩ := tiles_of_resolve h (not_lt.1 ht) (not_le.1 hab)
    rw [hx] at hcolumns
    exact ⟨x, hx, hcolumns, htiles⟩

end Ledger

end Bitemporal
