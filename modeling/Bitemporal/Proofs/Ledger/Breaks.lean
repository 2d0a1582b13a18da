import Mathlib
import Bitemporal.Proofs.Ledger.Tiling

/-!
# Where steps break

Two ledgers may have the same ceilings everywhere and still cut a span into different tiles, since a
step may end where the next one goes on with the same ceiling. Steps are fixed by both: where they
break, and the ceiling at each valid time.

## Main definitions

* `Ledger.BreaksAt`: some step begins at a valid time.

## Main statements

* `Ledger.Spans.eq_of_breaksAt`: steps are fixed by where they break and by their ceilings.
* `Ledger.breaksAt_overwrite`: overwriting a span breaks the steps at its ends and nowhere between.
-/

namespace Bitemporal.Ledger

open scoped Linear

variable {s : Step} {steps steps' rest : List Step} {a b v t : Instant}

/-- Some step begins at a valid time. -/
def BreaksAt (steps : List Step) (v : Instant) : Prop := ∃ s ∈ steps, s.lower = v

@[simp] theorem not_breaksAt_nil : ¬ BreaksAt [] v := by simp [BreaksAt]

@[simp] theorem breaksAt_cons : BreaksAt (s :: rest) v ↔ s.lower = v ∨ BreaksAt rest v := by
  simp [BreaksAt]

@[simp] theorem breaksAt_append {xs ys : List Step} :
    BreaksAt (xs ++ ys) v ↔ BreaksAt xs v ∨ BreaksAt ys v := by
  simp [BreaksAt, or_and_right, exists_or]

/-! ## What fixes steps -/

theorem ceilingIn_lower (h : Descends steps) (hs : s ∈ steps) :
    ceilingIn steps s.lower = s.ceiling := by
  induction steps with
  | nil => cases hs
  | cons r rest ih =>
    rcases List.mem_cons.1 hs with rfl | hs
    · exact ceilingIn_cons_of_le le_rfl
    · rw [ceilingIn_cons_of_lt (h.fits s hs), ih h.of_cons hs]

theorem eq_map_ceilingIn (h : Descends steps) :
    steps = (steps.map (·.lower)).map fun v => ⟨v, ceilingIn steps v⟩ := by
  rw [List.map_map]
  conv_lhs => rw [← List.map_id steps]
  refine List.map_congr_left fun s hs => ?_
  simp [ceilingIn_lower h hs]

theorem lowers_eq_of_breaksAt (h : Descends steps) (h' : Descends steps')
    (hbreaks : ∀ v, BreaksAt steps v ↔ BreaksAt steps' v) :
    steps.map (·.lower) = steps'.map (·.lower) := by
  have hs : (steps.map (·.lower)).Pairwise (· > ·) := List.pairwise_map.2 h
  have hs' : (steps'.map (·.lower)).Pairwise (· > ·) := List.pairwise_map.2 h'
  refine hs.eq_of_mem_iff hs' fun v => ?_
  simpa [BreaksAt] using hbreaks v

/-- Steps are fixed by where they break and by their ceilings. -/
theorem Spans.eq_of_breaksAt (h : Spans steps) (h' : Spans steps')
    (hbreaks : ∀ v, BreaksAt steps v ↔ BreaksAt steps' v)
    (hceiling : ∀ v < Instant.never, ceilingIn steps v = ceilingIn steps' v) : steps = steps' := by
  have hlowers := lowers_eq_of_breaksAt h.isSteps.descends h'.isSteps.descends hbreaks
  rw [eq_map_ceilingIn h.isSteps.descends, eq_map_ceilingIn h'.isSteps.descends, ← hlowers]
  refine List.map_congr_left fun v hv => ?_
  obtain ⟨s, hs, rfl⟩ := List.mem_map.1 hv
  rw [hceiling s.lower (h.fits s hs)]

/-! ## Overwriting -/

theorem le_of_breaksAt (h : Descends (s :: rest)) (hv : BreaksAt (s :: rest) v) : v ≤ s.lower := by
  rcases breaksAt_cons.1 hv with rfl | ⟨r, hr, rfl⟩
  · exact le_rfl
  · exact (h.fits r hr).le

theorem breaksAt_above (h : Descends steps) (hreach : Reaches steps b) :
    BreaksAt (above b steps) v ↔ v = b ∨ b < v ∧ BreaksAt steps v := by
  induction steps with
  | nil => simp [Reaches] at hreach
  | cons r rest ih =>
    rcases lt_or_ge b r.lower with hr | hr
    · rw [above_cons_of_lt hr, breaksAt_cons, breaksAt_cons, ih h.of_cons (hreach.of_cons hr)]
      grind
    · have hnone : ¬ (b < v ∧ BreaksAt (r :: rest) v) := fun hv =>
        absurd (hv.1.trans_le (le_of_breaksAt h hv.2)) (not_lt.2 hr)
      rw [above_cons_of_le hr, or_iff_left hnone, breaksAt_cons, or_iff_left not_breaksAt_nil]
      exact eq_comm

theorem breaksAt_below (h : Descends steps) :
    BreaksAt (below a steps) v ↔ v < a ∧ BreaksAt steps v := by
  induction steps with
  | nil => simp
  | cons r rest ih =>
    rcases lt_or_ge r.lower a with hr | hr
    · rw [below_cons_of_lt hr]
      exact (and_iff_right_of_imp fun hv => (le_of_breaksAt h hv).trans_lt hr).symm
    · rw [below_cons_of_le hr, ih h.of_cons, breaksAt_cons]
      grind

/-- Overwriting a span breaks the steps at its ends and nowhere between. -/
theorem breaksAt_overwrite (h : Spans steps) :
    BreaksAt (overwrite steps t a b) v ↔
      (v = a ∨ v = b ∧ b ≠ .never) ∨ BreaksAt steps v ∧ ¬ (a ≤ v ∧ v ≤ b) := by
  have hdesc := h.isSteps.descends
  have hnever : BreaksAt steps v → v < .never := fun ⟨s, hs, hsv⟩ => hsv ▸ h.fits s hs
  have htop : BreaksAt (if b = .never then [] else above b steps) v ↔
      b ≠ .never ∧ (v = b ∨ b < v ∧ BreaksAt steps v) := by
    split
    · simp [*]
    · rw [breaksAt_above hdesc (h.isSteps.reaches b)]
      simp [*]
  rw [overwrite, breaksAt_append, htop, breaksAt_cons, breaksAt_below hdesc]
  grind

end Bitemporal.Ledger
