import Mathlib
import Bitemporal.Ledger.Exposure
import Bitemporal.Proofs.Ledger.Steps

/-!
# Tiles of a span

The exposure of a version against a ledger is read off the steps within its span: one tile for each
of them, from its lower end to the step above it. Clipped to a window, these are the tiles of the
steps within the part of the span inside the window.

## Main definitions

* `Ledger.tilesBelow`: the tiles of steps, from an upper end down.
* `Ledger.Spans`: the steps of a ledger reach over all of valid time.
* `Ledger.spanTiles`: the tiles of a span.
* `Rectangle.meets`, `Rectangle.clip`: a rectangle and a window of valid time.

## Main statements

* `Ledger.resolve_eq`: the exposure of a version is the tiling of the steps within its span.
* `Ledger.filter_spanTiles`: a valid time lies on one tile, which ends at its ceiling.
* `Ledger.clip_spanTiles`: tiles clipped to a window.
* `Exposure.min_le_recency`: no tile goes on past the recency of its exposure in both times.
* `Exposure.intersects_eq_false_of_isStale`: windows that are past the recency meet no tile.
-/

namespace Bitemporal

open scoped Linear

/-- Whether a rectangle meets a window of valid time. -/
def Rectangle.meets (w : Window) (r : Rectangle) : Bool := w.intersects r.validFrom r.validTo

/-- A rectangle clipped to a window of valid time. -/
def Rectangle.clip (w : Window) (r : Rectangle) : Rectangle :=
  ⟨max r.validFrom w.lower, min r.validTo w.upper, r.systemTo⟩

namespace Ledger

variable {s : Step} {steps rest : List Step} {a b v lo up top t : Instant}

/-- The tiles of steps, from an upper end down. -/
def tilesBelow (top : Instant) : List Step → List Rectangle
  | [] => []
  | s :: rest => ⟨s.lower, top, s.ceiling⟩ :: tilesBelow s.lower rest

/-- The ranges of steps, from an upper end down. -/
def rangesBelow (top : Instant) : List Step → List (Instant × Instant)
  | [] => []
  | s :: rest => (top, s.ceiling) :: rangesBelow s.lower rest

/-- The tiles of ranges, from a lower end up. -/
def tilesAbove (v : Instant) : List (Instant × Instant) → List Rectangle
  | [] => []
  | r :: rest => ⟨v, r.1, r.2⟩ :: tilesAbove r.1 rest

theorem ascending_eq (l : Ledger) : l.ascending = (rangesBelow .never l.steps).reverse := by
  have h (top : Instant) (steps : List Step) :
      (top :: steps.map (·.lower)).zip (steps.map (·.ceiling)) = rangesBelow top steps := by
    induction steps generalizing top with
    | nil => rfl
    | cons s rest ih => rw [List.map_cons, List.map_cons, List.zip_cons_cons, ih, rangesBelow]
  rw [ascending, validTimes, ceilings, h]

theorem tiles_eq_tilesAbove (v : Instant) (ranges : List (Instant × Instant)) :
    Exposure.tiles (v :: ranges.map (·.1)) (ranges.map (·.2)) = tilesAbove v ranges := by
  induction ranges generalizing v with
  | nil => rfl
  | cons r rest ih => simpa [Exposure.tiles, tilesAbove] using ih r.1

theorem tilesAbove_concat (v : Instant) (ranges : List (Instant × Instant))
    (r r' : Instant × Instant) :
    tilesAbove v (ranges ++ [r] ++ [r']) = tilesAbove v (ranges ++ [r]) ++ [⟨r.1, r'.1, r'.2⟩] := by
  induction ranges generalizing v with
  | nil => rfl
  | cons x rest ih => simpa [tilesAbove] using ih x.1

theorem upTo_append_of_forall {xs ys : List (Instant × Instant)} (h : ∀ r ∈ xs, r.1 < b) :
    upTo b (xs ++ ys) = xs ++ upTo b ys := by
  induction xs with
  | nil => rfl
  | cons r rest ih =>
    rw [List.forall_mem_cons] at h
    rw [List.cons_append, upTo, if_neg (not_le.2 h.1), ih h.2, List.cons_append]

theorem upTo_append_of_exists {xs ys : List (Instant × Instant)} (h : ∃ r ∈ xs, b ≤ r.1) :
    upTo b (xs ++ ys) = upTo b xs := by
  induction xs with
  | nil => simp at h
  | cons r rest ih =>
    rw [List.cons_append, upTo, upTo]
    split
    · rfl
    · rename_i hr
      obtain ⟨x, hx, hbx⟩ := h
      rcases List.mem_cons.1 hx with rfl | hx
      · exact absurd hbx hr
      · rw [ih ⟨x, hx, hbx⟩]

theorem dropWhile_concat {α : Type} {p : α → Bool} {x : α} (h : ¬ p x) (xs : List α) :
    (xs ++ [x]).dropWhile p = xs.dropWhile p ++ [x] := by
  rw [List.dropWhile_append]
  split
  · rename_i hxs
    rw [List.isEmpty_iff.1 hxs, List.dropWhile_cons_of_neg h, List.nil_append]
  · rfl

/-- The lower ends lie below an upper end. -/
def Fits (steps : List Step) (top : Instant) : Prop := ∀ s ∈ steps, s.lower < top

theorem Descends.fits (h : Descends (s :: rest)) : Fits rest s.lower := (List.pairwise_cons.1 h).1

theorem le_of_mem_rangesBelow (h : Descends steps) (hfit : Fits steps top)
    {r : Instant × Instant} (hr : r ∈ rangesBelow top steps) : r.1 ≤ top := by
  induction steps generalizing top with
  | nil => cases hr
  | cons s rest ih =>
    rcases List.mem_cons.1 hr with rfl | hr
    · exact le_rfl
    · exact (ih h.of_cons h.fits hr).trans (hfit s (.head _)).le

/-- Ranges cut at an upper end are the ranges of the steps below it. -/
theorem upTo_rangesBelow (h : Descends steps) (hfit : Fits steps top) (hb : b ≤ top)
    (hr : ∃ s ∈ steps, s.lower < b) :
    upTo b (rangesBelow top steps).reverse = (rangesBelow b (below b steps)).reverse := by
  induction steps generalizing top with
  | nil => simp at hr
  | cons s rest ih =>
    rw [rangesBelow, List.reverse_cons]
    rcases lt_or_ge s.lower b with hs | hs
    · have hlt : ∀ r ∈ (rangesBelow s.lower rest).reverse, r.1 < b := fun r hr =>
        (le_of_mem_rangesBelow h.of_cons h.fits (List.mem_reverse.1 hr)).trans_lt hs
      rw [upTo_append_of_forall hlt, below_cons_of_lt hs, rangesBelow, List.reverse_cons, upTo,
        if_pos hb]
    · have hr : ∃ s ∈ rest, s.lower < b := by
        obtain ⟨x, hx, hxb⟩ := hr
        rcases List.mem_cons.1 hx with rfl | hx
        · exact absurd hxb (not_lt.2 hs)
        · exact ⟨x, hx, hxb⟩
      rw [upTo_append_of_exists, ih h.of_cons h.fits hs hr, below_cons_of_le hs]
      obtain - | ⟨x, rest⟩ := rest
      · simp at hr
      · exact ⟨(s.lower, x.ceiling), by simp [rangesBelow], hs⟩

/-- Ranges from a lower end up are the tiles of the steps above it. -/
theorem tilesAbove_rangesBelow (h : Descends steps) (hfit : Fits steps top)
    (hr : Reaches steps a) (ha : a < top) :
    tilesAbove a ((rangesBelow top steps).reverse.dropWhile fun r => r.1 ≤ a) =
      (tilesBelow top (above a steps)).reverse := by
  induction steps generalizing top with
  | nil => simp [Reaches] at hr
  | cons s rest ih =>
    rw [rangesBelow, List.reverse_cons, dropWhile_concat (by simpa using ha)]
    rcases lt_or_ge a s.lower with hs | hs
    · obtain - | ⟨x, rest⟩ := rest
      · obtain ⟨x, hx, -⟩ := hr.of_cons hs
        cases hx
      have ih := ih h.of_cons h.fits (hr.of_cons hs) hs
      rw [rangesBelow, List.reverse_cons, dropWhile_concat (by simpa using hs)] at ih ⊢
      rw [tilesAbove_concat, ih, above_cons_of_lt hs, tilesBelow, List.reverse_cons]
    · have hnil : ((rangesBelow s.lower rest).reverse.dropWhile fun r => r.1 ≤ a) = [] := by
        apply List.dropWhile_eq_nil_iff.2
        intro r hr
        have := le_of_mem_rangesBelow h.of_cons h.fits (List.mem_reverse.1 hr)
        exact decide_eq_true (this.trans hs)
      rw [hnil, above_cons_of_le hs]
      rfl

theorem dropWhile_upTo (h : a < b) (ranges : List (Instant × Instant)) :
    upTo b (ranges.dropWhile fun r => r.1 ≤ a) = (upTo b ranges).dropWhile fun r => r.1 ≤ a := by
  induction ranges with
  | nil => rfl
  | cons r rest ih =>
    by_cases hr : r.1 ≤ a
    · have hb : ¬ r.1 ≥ b := not_le.2 (hr.trans_lt h)
      rw [List.dropWhile_cons_of_pos (by simpa using hr), ih, upTo, if_neg hb,
        List.dropWhile_cons_of_pos (by simpa using hr)]
    · rw [List.dropWhile_cons_of_neg (by simpa using hr), upTo]
      split
      · rw [List.dropWhile_cons_of_neg (by simpa using h)]
      · rw [List.dropWhile_cons_of_neg (by simpa using hr)]

protected theorem Fits.overwrite (hfit : Fits steps .never) (hab : a < b) :
    Fits (overwrite steps t a b) .never := by
  intro s hs
  rw [overwrite, List.mem_append, List.mem_cons] at hs
  rcases hs with hs | rfl | hs
  · split at hs
    · cases hs
    · rename_i hb
      have hb : b < .never := lt_of_le_of_ne (Instant.le_never b) hb
      clear hab
      induction steps with
      | nil => cases hs
      | cons x rest ih =>
        rw [Fits, List.forall_mem_cons] at hfit
        rcases lt_or_ge b x.lower with hx | hx
        · rw [above_cons_of_lt hx] at hs
          rcases List.mem_cons.1 hs with rfl | hs
          · exact hfit.1
          · exact ih hfit.2 hs
        · rw [above_cons_of_le hx, List.mem_singleton] at hs
          exact hs ▸ hb
  · exact hab.trans_le (Instant.le_never b)
  · exact hfit s ((List.dropWhile_sublist _).mem hs)

/-- The steps reach from the start of time to somewhere below its end. -/
structure Spans (steps : List Step) : Prop where
  isSteps : IsSteps steps
  fits : Fits steps .never

theorem spans_empty : Spans empty.steps where
  isSteps := isSteps_empty
  fits s hs := by
    rw [empty, List.mem_singleton] at hs
    exact hs ▸ (by decide)

protected theorem Spans.overwrite (h : Spans steps) (hab : a < b) :
    Spans (overwrite steps t a b) := ⟨h.isSteps.overwrite hab, h.fits.overwrite hab⟩

/-- The tiles of a span against steps, from the bottom up. -/
def spanTiles (a b : Instant) (steps : List Step) : List Rectangle :=
  if a < b then (tilesBelow b (within a b steps)).reverse else []

/-- The exposure of a version that is not newer than the last one recorded: the tiling of the steps
within its span. -/
theorem resolve_eq {l : Ledger} (h : Spans l.steps) (ht : t ≤ l.last) :
    ∃ x, l.resolve t a b = .ok x ∧ x.rectangles = spanTiles a b l.steps := by
  have horder : l.checkOrder t = .ok () := if_neg (not_lt.2 ht)
  rw [resolve, horder]
  by_cases hab : a < b
  · refine ⟨_, if_neg (not_le.2 hab), ?_⟩
    have hreach := h.isSteps.reaches a
    have hdesc := h.isSteps.descends
    rw [spanTiles, if_pos hab, Exposure.rectangles, tiles_eq_tilesAbove, ascending_eq,
      dropWhile_upTo hab, upTo_rangesBelow hdesc h.fits (Instant.le_never b)
        (hreach.imp fun s hs => ⟨hs.1, hs.2.trans_lt hab⟩),
      tilesAbove_rangesBelow hdesc.below (fun s hs => lt_of_mem_below hdesc hs)
        (hreach.below hab) hab, within]
  · exact ⟨.empty, if_pos (not_lt.1 hab), by rw [spanTiles, if_neg hab]; rfl⟩

/-! ## The tiles -/

theorem tilesBelow_bounds (h : Descends steps) (hfit : Fits steps top) {r : Rectangle}
    (hr : r ∈ tilesBelow top steps) : r.validFrom < r.validTo ∧ r.validTo ≤ top := by
  induction steps generalizing top with
  | nil => cases hr
  | cons s rest ih =>
    have hs := hfit s (.head _)
    rcases List.mem_cons.1 hr with rfl | hr
    · exact ⟨hs, le_rfl⟩
    · have := ih h.of_cons h.fits hr
      exact ⟨this.1, this.2.trans hs.le⟩

theorem exists_of_mem_tilesBelow {r : Rectangle} (hr : r ∈ tilesBelow top steps) :
    ∃ s ∈ steps, s.lower = r.validFrom := by
  induction steps generalizing top with
  | nil => cases hr
  | cons s rest ih =>
    rcases List.mem_cons.1 hr with rfl | hr
    · exact ⟨s, .head _, rfl⟩
    · obtain ⟨x, hx, hxr⟩ := ih hr
      exact ⟨x, .tail _ hx, hxr⟩

theorem pairwise_tilesBelow (h : Descends steps)
    (hfit : Fits steps top) :
    (tilesBelow top steps).Pairwise fun r r' => r'.validTo ≤ r.validTo := by
  induction steps generalizing top with
  | nil => exact .nil
  | cons s rest ih =>
    refine List.pairwise_cons.2 ⟨fun r hr => ?_, ih h.of_cons h.fits⟩
    exact (tilesBelow_bounds h.of_cons h.fits hr).2.trans (hfit s (.head _)).le

/-- A valid time that is reached lies on exactly one tile, which ends at its ceiling. -/
theorem filter_tilesBelow (h : Descends steps) (hfit : Fits steps top) (hv : v < top)
    (hr : Reaches steps v) : ∃ r, ((tilesBelow top steps).filter fun r =>
      decide (r.validFrom ≤ v ∧ v < r.validTo)) = [r] ∧ r.systemTo = ceilingIn steps v := by
  induction steps generalizing top with
  | nil => simp [Reaches] at hr
  | cons s rest ih =>
    rw [tilesBelow]
    rcases lt_or_ge v s.lower with hs | hs
    · rw [List.filter_cons_of_neg (by simp [hs]), ceilingIn_cons_of_lt hs]
      exact ih h.of_cons h.fits hs (hr.of_cons hs)
    · refine ⟨⟨s.lower, top, s.ceiling⟩, ?_, (ceilingIn_cons_of_le hs).symm⟩
      have hnone : ((tilesBelow s.lower rest).filter fun r =>
          decide (r.validFrom ≤ v ∧ v < r.validTo)) = [] := by
        apply List.filter_eq_nil_iff.2
        intro r hr hrv
        have := (tilesBelow_bounds h.of_cons h.fits hr).2.trans hs
        exact absurd (of_decide_eq_true hrv).2 (not_lt.2 this)
      rw [List.filter_cons_of_pos (by simp [hs, hv]), hnone]

/-- Tiles clipped to a window are the tiles of the steps within it. -/
theorem clip_tilesBelow (w : Window) (hw : w.lower < w.upper) (h : Descends steps)
    (hfit : Fits steps top) :
    ((tilesBelow top steps).filter (Rectangle.meets w)).map (Rectangle.clip w) =
      if w.lower < min top w.upper then
        tilesBelow (min top w.upper) (within w.lower (min top w.upper) steps)
      else [] := by
  induction steps generalizing top with
  | nil => simp [tilesBelow, within]
  | cons s rest ih =>
    have hs : s.lower < top := hfit s (.head _)
    have ih := ih h.of_cons h.fits
    rw [tilesBelow]
    rcases le_or_gt w.upper s.lower with hup | hup
    · have hout : ¬ Rectangle.meets w ⟨s.lower, top, s.ceiling⟩ := by
        simp [Rectangle.meets, Window.intersects, hup]
      have htop : w.upper ≤ top := hup.trans hs.le
      rw [List.filter_cons_of_neg hout, ih, min_eq_right hup, min_eq_right htop, within, within,
        below_cons_of_le hup]
    · rcases le_or_gt top w.lower with htop | htop
      · have hout : ¬ Rectangle.meets w ⟨s.lower, top, s.ceiling⟩ := by
          simp [Rectangle.meets, Window.intersects, htop]
        rw [List.filter_cons_of_neg hout, ih, if_neg, if_neg]
        · exact fun h => absurd (h.trans_le (min_le_left _ _)) (not_lt.2 htop)
        · exact fun h => absurd (h.trans_le (min_le_left _ _)) (not_lt.2 (hs.le.trans htop))
      · have hin : Rectangle.meets w ⟨s.lower, top, s.ceiling⟩ := by
          simp [Rectangle.meets, Window.intersects, hup, htop]
        have hmin : s.lower < min top w.upper := lt_min hs hup
        have hwithin :
            within w.lower (min top w.upper) (s :: rest) = above w.lower (s :: rest) := by
          rw [within, below_cons_of_lt hmin]
        rw [List.filter_cons_of_pos hin, List.map_cons, ih, min_eq_left hup.le,
          if_pos (lt_min htop hw), hwithin]
        rcases lt_or_ge w.lower s.lower with hlow | hlow
        · have hrest : below s.lower rest = rest := by
            obtain - | ⟨x, rest⟩ := rest
            · rfl
            · exact below_cons_of_lt (h.fits x (.head _))
          rw [if_pos hlow, Rectangle.clip, max_eq_left hlow.le, above_cons_of_lt hlow, tilesBelow,
            within, hrest]
        · rw [if_neg (not_lt.2 hlow), Rectangle.clip, max_eq_right hlow, above_cons_of_le hlow]
          rfl

/-! ## The tiles of a span -/

theorem Spans.fits_within (h : Spans steps) (hab : a < b) : Fits (within a b steps) b :=
  fun _ hs => lt_of_mem_within h.isSteps.descends hab hs

theorem bounds_of_mem_spanTiles (h : Spans steps) {r : Rectangle}
    (hr : r ∈ spanTiles a b steps) :
    a ≤ r.validFrom ∧ r.validFrom < r.validTo ∧ r.validTo ≤ b := by
  rw [spanTiles] at hr
  split at hr
  · rename_i hab
    rw [List.mem_reverse] at hr
    have hlower : ∃ s ∈ within a b steps, s.lower = r.validFrom := exists_of_mem_tilesBelow hr
    obtain ⟨s, hs, hlow⟩ := hlower
    exact ⟨hlow ▸ le_of_mem_above hs,
      tilesBelow_bounds h.isSteps.descends.within (h.fits_within hab) hr⟩
  · cases hr

/-- A valid time within a span lies on exactly one tile, which ends at its ceiling. -/
theorem filter_spanTiles (h : Spans steps) (ha : a ≤ v) (hb : v < b) :
    ∃ r, ((spanTiles a b steps).filter fun r => decide (r.validFrom ≤ v ∧ v < r.validTo)) = [r] ∧
      r.systemTo = ceilingIn steps v := by
  have hab : a < b := ha.trans_lt hb
  have hreach : Reaches (below b steps) a := (h.isSteps.reaches a).below hab
  have hceiling : ceilingIn (within a b steps) v = ceilingIn steps v := by
    have happ : ceilingIn (above a (below b steps) ++ []) v = ceilingIn (below b steps) v :=
      ceilingIn_above_append ha hreach
    rwa [List.append_nil, ceilingIn_below hb] at happ
  obtain ⟨x, hx, hxa⟩ := exists_mem_above hreach
  obtain ⟨r, hr, hsystem⟩ := filter_tilesBelow h.isSteps.descends.within (h.fits_within hab) hb
    ⟨x, hx, hxa ▸ ha⟩
  refine ⟨r, ?_, hsystem.trans hceiling⟩
  rw [spanTiles, if_pos hab, List.filter_reverse, hr, List.reverse_singleton]

/-- The tiles of a span clipped to a window are the tiles of the clipped span. -/
theorem clip_spanTiles (w : Window) (hw : w.lower < w.upper) (h : Spans steps) :
    ((spanTiles a b steps).filter (Rectangle.meets w)).map (Rectangle.clip w) =
      spanTiles (max a w.lower) (min b w.upper) steps := by
  have hempty (hlt : ¬ max a w.lower < min b w.upper) :
      spanTiles (max a w.lower) (min b w.upper) steps = [] := if_neg hlt
  rcases le_or_gt b a with hab | hab
  · have hle : min b w.upper ≤ max a w.lower :=
      (min_le_left _ _).trans (hab.trans (le_max_left _ _))
    rw [hempty (not_lt.2 hle), spanTiles, if_neg (not_lt.2 hab)]
    rfl
  rw [spanTiles, if_pos hab, List.filter_reverse, List.map_reverse,
    clip_tilesBelow w hw h.isSteps.descends.within (h.fits_within hab)]
  rcases le_or_gt (min b w.upper) w.lower with hlow | hlow
  · rw [if_neg (not_lt.2 hlow), hempty (not_lt.2 (hlow.trans (le_max_right _ _))),
      List.reverse_nil]
  rw [if_pos hlow]
  rcases le_or_gt (min b w.upper) a with ha | ha
  · have hnil : below (min b w.upper) (within a b steps) = [] :=
      List.dropWhile_eq_nil_iff.2 fun s hs => decide_eq_true (ha.trans (le_of_mem_above hs))
    rw [hempty (not_lt.2 (ha.trans (le_max_left _ _))), within, hnil]
    rfl
  · rw [within_span ha, min_eq_right (min_le_left b w.upper), spanTiles, if_pos (max_lt ha hlow)]

/-- The tiles of a span inside a window depend only on the steps within the window. -/
theorem spanTiles_congr {steps' : List Step} (h : within lo up steps = within lo up steps')
    (ha : lo ≤ a) (hb : b ≤ up) : spanTiles a b steps = spanTiles a b steps' := by
  rw [spanTiles, spanTiles]
  split
  · rename_i hab
    rw [← within_within ha hab hb, h, within_within ha hab hb]
  · rfl

end Ledger

/-! ## Recency -/

namespace Exposure

theorem le_recencyFrom (best : Instant) (tiles : List Rectangle) :
    best ≤ recencyFrom best tiles := by
  induction tiles generalizing best with
  | nil => exact le_rfl
  | cons r rest ih =>
    rw [recencyFrom]
    split
    · exact le_rfl
    · exact (le_max_left _ _).trans (ih _)

/-- No tile goes on past the recency in both times. The search may stop early, since the tiles after
a tile end no later in valid time. -/
theorem min_le_recencyFrom {best : Instant} {tiles : List Rectangle}
    (h : tiles.Pairwise fun r r' => r'.validTo ≤ r.validTo) {r : Rectangle} (hr : r ∈ tiles) :
    min r.validTo r.systemTo ≤ recencyFrom best tiles := by
  induction tiles generalizing best with
  | nil => cases hr
  | cons x rest ih =>
    rw [List.pairwise_cons] at h
    rw [recencyFrom]
    split
    · rename_i hx
      have hle : r.validTo ≤ x.validTo := by
        rcases List.mem_cons.1 hr with rfl | hr
        · exact le_rfl
        · exact h.1 r hr
      exact (min_le_left _ _).trans (hle.trans hx)
    · rcases List.mem_cons.1 hr with rfl | hr
      · exact (le_max_right _ _).trans (le_recencyFrom _ _)
      · exact ih h.2 hr

/-- The search ends with what it started from or with the lesser end of some tile. -/
theorem recencyFrom_cases (best : Instant) (tiles : List Rectangle) :
    recencyFrom best tiles = best ∨
      ∃ r ∈ tiles, recencyFrom best tiles = min r.validTo r.systemTo := by
  induction tiles generalizing best with
  | nil => exact .inl rfl
  | cons r rest ih =>
    rw [recencyFrom]
    split
    · exact .inl rfl
    rcases ih (max best (min r.validTo r.systemTo)) with h | ⟨x, hx, h⟩
    · rcases max_choice best (min r.validTo r.systemTo) with hbest | hbest
      · exact .inl (h.trans hbest)
      · exact .inr ⟨r, .head _, h.trans hbest⟩
    · exact .inr ⟨x, .tail _ hx, h⟩

variable {x : Exposure} {r : Rectangle}

/-- No tile goes on past the recency of an exposure in both times. -/
theorem min_le_recency (h : x.rectangles.Pairwise fun r r' => r.validTo ≤ r'.validTo)
    (hr : r ∈ x.rectangles) : min r.validTo r.systemTo ≤ x.recency :=
  min_le_recencyFrom (List.pairwise_reverse.2 h) (List.mem_reverse.2 hr)

/-- A stale exposure has no tile inside windows with these lower ends, whatever their upper ends
are and since whenever the version is known. -/
theorem intersects_eq_false_of_isStale {b : Bounds}
    (h : x.rectangles.Pairwise fun r r' => r.validTo ≤ r'.validTo)
    (hstale : x.isStale b.valid.lower b.system.lower) (hr : r ∈ x.rectangles)
    (systemFrom : Instant) :
    b.intersects r.validFrom r.validTo systemFrom r.systemTo = false := by
  rw [isStale, Bool.and_eq_true, decide_eq_true_eq, decide_eq_true_eq] at hstale
  rw [Bounds.intersects, Bool.and_eq_false_iff, Window.intersects, Window.intersects]
  rcases min_le_iff.1 (min_le_recency h hr) with hend | hend
  · exact .inl (by simp [not_lt.2 (hend.trans hstale.1)])
  · exact .inr (by simp [not_lt.2 (hend.trans hstale.2)])

end Exposure

/-- The tiles of a span go up in valid time. -/
theorem Ledger.pairwise_spanTiles {steps : List Step} {a b : Instant} (h : Ledger.Spans steps) :
    (spanTiles a b steps).Pairwise fun r r' => r.validTo ≤ r'.validTo := by
  rw [spanTiles]
  split
  · rename_i hab
    exact List.pairwise_reverse.2
      (pairwise_tilesBelow h.isSteps.descends.within (h.fits_within hab))
  · exact .nil

end Bitemporal
