import Mathlib
import Bitemporal.Ledger.Basic
import Bitemporal.Proofs.Order

/-!
# Cutting and overwriting steps

The steps of a ledger are cut at two valid times, and what is left is the part of the ledger within
a window. Cutting twice is cutting at the inner ends, and overwriting a span changes the part within
a window only as far as the span reaches into it.

## Main definitions

* `Ledger.ceilingIn`: the ceiling of steps at a valid time.
* `Ledger.within`: the part of steps within a window.
* `Ledger.Reaches`: some step begins at or below a valid time.

## Main statements

* `Ledger.ceilingIn_overwrite`: overwriting sets the ceiling inside the span and nowhere else.
* `Ledger.IsSteps.overwrite`: overwriting keeps the steps descending to the start of time.
* `Ledger.within_within`: a window within a window.
* `Ledger.within_overwrite_of_le`, `Ledger.within_overwrite_of_ge`: a span outside of a window
  leaves the part within it as it is.
* `Ledger.within_overwrite_congr`: the part within a window after an overwrite depends only on the
  part within it before.
-/

namespace Bitemporal.Ledger

open scoped Linear

variable {s : Step} {steps rest xs ys : List Step} {a b v lo up t : Instant}

/-- The ceiling of steps at a valid time. -/
def ceilingIn (steps : List Step) (v : Instant) : Instant :=
  ((steps.find? fun s => s.lower ≤ v).map (·.ceiling)).getD .never

/-- The part of steps within `[lo, up)`. -/
def within (lo up : Instant) (steps : List Step) : List Step := above lo (below up steps)

/-- Some step begins at or below a valid time. -/
def Reaches (steps : List Step) (v : Instant) : Prop := ∃ s ∈ steps, s.lower ≤ v

/-- The lower ends strictly descend. -/
def Descends (steps : List Step) : Prop := steps.Pairwise fun s r => r.lower < s.lower

theorem IsSteps.descends (h : IsSteps steps) : Descends steps := List.pairwise_map.1 h.1

theorem IsSteps.reaches (h : IsSteps steps) (v : Instant) : Reaches steps v := by
  obtain ⟨s, hs, hlow⟩ := Option.map_eq_some_iff.1 h.2
  exact ⟨s, List.mem_of_getLast? hs, hlow ▸ Instant.start_le v⟩

/-- What the first step does not reach, a later one does. -/
theorem Reaches.of_cons (h : Reaches (s :: rest) v) (hs : v < s.lower) : Reaches rest v := by
  obtain ⟨r, hr, hlow⟩ := h
  rcases List.mem_cons.1 hr with rfl | hr
  · exact absurd hlow (not_le.2 hs)
  · exact ⟨r, hr, hlow⟩

theorem isSteps_empty : IsSteps empty.steps := by simp [IsSteps, empty]

/-! ## One step -/

@[simp] theorem above_nil : above v [] = [] := rfl

@[simp] theorem below_nil : below v [] = [] := rfl

theorem above_cons_of_lt (h : v < s.lower) : above v (s :: rest) = s :: above v rest := if_pos h

theorem above_cons_of_le (h : s.lower ≤ v) : above v (s :: rest) = [⟨v, s.ceiling⟩] :=
  if_neg (not_lt.2 h)

theorem below_cons_of_le (h : v ≤ s.lower) : below v (s :: rest) = below v rest :=
  List.dropWhile_cons_of_pos (by simpa using h)

theorem below_cons_of_lt (h : s.lower < v) : below v (s :: rest) = s :: rest :=
  List.dropWhile_cons_of_neg (by simpa using h)

theorem le_of_mem_above (h : s ∈ above v steps) : v ≤ s.lower := by
  induction steps with
  | nil => cases h
  | cons r rest ih =>
    rcases lt_or_ge v r.lower with hr | hr
    · rw [above_cons_of_lt hr] at h
      rcases List.mem_cons.1 h with rfl | h
      · exact hr.le
      · exact ih h
    · rw [above_cons_of_le hr, List.mem_singleton] at h
      simp [h]

theorem exists_mem_above (h : Reaches steps v) : ∃ s ∈ above v steps, s.lower = v := by
  induction steps with
  | nil => simp [Reaches] at h
  | cons r rest ih =>
    rcases lt_or_ge v r.lower with hr | hr
    · obtain ⟨x, hx, hxv⟩ := ih (h.of_cons hr)
      exact ⟨x, by rw [above_cons_of_lt hr]; exact .tail _ hx, hxv⟩
    · exact ⟨⟨v, r.ceiling⟩, by simp [above_cons_of_le hr], rfl⟩

/-! ## Concatenations -/

theorem above_append_of_reaches (h : Reaches xs v) : above v (xs ++ ys) = above v xs := by
  induction xs with
  | nil => simp [Reaches] at h
  | cons r rest ih =>
    rw [List.cons_append]
    rcases lt_or_ge v r.lower with hr | hr
    · rw [above_cons_of_lt hr, above_cons_of_lt hr, ih (h.of_cons hr)]
    · rw [above_cons_of_le hr, above_cons_of_le hr]

theorem above_append_of_forall (h : ∀ s ∈ xs, v < s.lower) :
    above v (xs ++ ys) = xs ++ above v ys := by
  induction xs with
  | nil => rfl
  | cons r rest ih =>
    rw [List.forall_mem_cons] at h
    rw [List.cons_append, above_cons_of_lt h.1, ih h.2, List.cons_append]

theorem below_append_of_forall (h : ∀ s ∈ xs, v ≤ s.lower) : below v (xs ++ ys) = below v ys := by
  induction xs with
  | nil => rfl
  | cons r rest ih =>
    rw [List.forall_mem_cons] at h
    rw [List.cons_append, below_cons_of_le h.1, ih h.2]

theorem below_append_of_exists (h : ∃ s ∈ xs, s.lower < v) :
    below v (xs ++ ys) = below v xs ++ ys := by
  induction xs with
  | nil => simp at h
  | cons r rest ih =>
    rw [List.cons_append]
    rcases lt_or_ge r.lower v with hr | hr
    · rw [below_cons_of_lt hr, below_cons_of_lt hr, List.cons_append]
    · rw [below_cons_of_le hr, below_cons_of_le hr, ih]
      obtain ⟨s, hs, hlow⟩ := h
      rcases List.mem_cons.1 hs with rfl | hs
      · exact absurd hlow (not_lt.2 hr)
      · exact ⟨s, hs, hlow⟩

/-! ## Cutting twice -/

theorem above_above_of_le (h : a ≤ b) : above b (above a steps) = above b steps := by
  induction steps with
  | nil => simp
  | cons r rest ih =>
    rcases lt_or_ge b r.lower with hb | hb
    · rw [above_cons_of_lt (h.trans_lt hb), above_cons_of_lt hb, above_cons_of_lt hb, ih]
    · rw [above_cons_of_le hb]
      rcases lt_or_ge a r.lower with ha | ha
      · rw [above_cons_of_lt ha, above_cons_of_le hb]
      · rw [above_cons_of_le ha, above_cons_of_le h]

theorem above_above_of_gt (h : b < a) : above b (above a steps) = above a steps := by
  have hall : ∀ s ∈ above a steps, b < s.lower := fun s hs => h.trans_le (le_of_mem_above hs)
  have happ := @above_append_of_forall (above a steps) [] b hall
  simpa using happ

theorem below_below_of_le (h : a ≤ b) : below a (below b steps) = below a steps := by
  induction steps with
  | nil => simp
  | cons r rest ih =>
    rcases lt_or_ge r.lower b with hb | hb
    · rw [below_cons_of_lt hb]
    · rw [below_cons_of_le hb, below_cons_of_le (h.trans hb), ih]

theorem below_below_of_ge (h : b ≤ a) : below a (below b steps) = below b steps := by
  induction steps with
  | nil => simp
  | cons r rest ih =>
    rcases lt_or_ge r.lower b with hb | hb
    · rw [below_cons_of_lt hb, below_cons_of_lt (hb.trans_le h)]
    · rw [below_cons_of_le hb, ih]

theorem below_above (h : lo < up) : below up (above lo steps) = above lo (below up steps) := by
  induction steps with
  | nil => simp
  | cons r rest ih =>
    rcases lt_or_ge r.lower up with hup | hup
    · rw [below_cons_of_lt hup]
      rcases lt_or_ge lo r.lower with hlo | hlo
      · rw [above_cons_of_lt hlo, below_cons_of_lt hup]
      · rw [above_cons_of_le hlo, below_cons_of_lt (by exact h)]
    · rw [below_cons_of_le hup, above_cons_of_lt (h.trans_le hup), below_cons_of_le hup, ih]

/-- A window within a window. -/
theorem within_within (hlo : lo ≤ a) (hab : a < b) (hup : b ≤ up) :
    within a b (within lo up steps) = within a b steps := by
  rw [within, within, below_above (hlo.trans_lt hab), below_below_of_le hup,
    above_above_of_le hlo, within]

/-- Cutting out a span and then a window that meets it cuts out what they share. -/
theorem within_span (ha : a < up) :
    within lo up (within a b steps) = within (max a lo) (min b up) steps := by
  rw [within, within, below_above ha, within]
  have hbelow : below up (below b steps) = below (min b up) steps := by
    rcases le_total b up with h | h
    · rw [below_below_of_ge h, min_eq_left h]
    · rw [below_below_of_le h, min_eq_right h]
  rw [hbelow]
  rcases lt_or_ge lo a with h | h
  · rw [above_above_of_gt h, max_eq_left h.le]
  · rw [above_above_of_le h, max_eq_right h]

/-! ## Overwriting -/

/-- What stands above an overwritten span. -/
theorem mem_top_overwrite {x : Step}
    (h : x ∈ (if b = .never then [] else above b steps)) : b ≤ x.lower := by
  split at h
  · cases h
  · exact le_of_mem_above h

theorem ceilingIn_append_of_forall (h : ∀ s ∈ xs, v < s.lower) :
    ceilingIn (xs ++ ys) v = ceilingIn ys v := by
  have : xs.find? (fun s => decide (s.lower ≤ v)) = none :=
    List.find?_eq_none.2 fun s hs => by simpa using h s hs
  rw [ceilingIn, List.find?_append, this, Option.none_or, ceilingIn]

theorem ceilingIn_cons_of_le (h : s.lower ≤ v) : ceilingIn (s :: rest) v = s.ceiling := by
  simp [ceilingIn, h]

theorem ceilingIn_cons_of_lt (h : v < s.lower) :
    ceilingIn (s :: rest) v = ceilingIn rest v := by
  simp [ceilingIn, not_le.2 h]

theorem ceilingIn_above_append (hb : b ≤ v) (h : Reaches steps b) :
    ceilingIn (above b steps ++ ys) v = ceilingIn steps v := by
  induction steps with
  | nil => simp [Reaches] at h
  | cons r rest ih =>
    rcases lt_or_ge b r.lower with hr | hr
    · have hrest := h.of_cons hr
      rw [above_cons_of_lt hr, List.cons_append]
      rcases lt_or_ge v r.lower with hv | hv
      · rw [ceilingIn_cons_of_lt hv, ceilingIn_cons_of_lt hv, ih hrest]
      · rw [ceilingIn_cons_of_le hv, ceilingIn_cons_of_le hv]
    · rw [above_cons_of_le hr, List.singleton_append, ceilingIn_cons_of_le (by exact hb),
        ceilingIn_cons_of_le (hr.trans hb)]

theorem ceilingIn_below (h : v < a) : ceilingIn (below a steps) v = ceilingIn steps v := by
  induction steps with
  | nil => rfl
  | cons r rest ih =>
    rcases lt_or_ge r.lower a with hr | hr
    · rw [below_cons_of_lt hr]
    · rw [below_cons_of_le hr, ih, ceilingIn_cons_of_lt (h.trans_le hr)]

/-- Overwriting sets the ceiling inside the span and nowhere else. -/
theorem ceilingIn_overwrite (h : IsSteps steps) (hv : v < .never) :
    ceilingIn (overwrite steps t a b) v = if a ≤ v ∧ v < b then t else ceilingIn steps v := by
  rw [overwrite]
  rcases lt_or_ge v b with hb | hb
  · rw [ceilingIn_append_of_forall fun s hs => hb.trans_le (mem_top_overwrite hs)]
    rcases lt_or_ge v a with ha | ha
    · rw [ceilingIn_cons_of_lt (by exact ha), ceilingIn_below ha, if_neg (by simp [ha])]
    · rw [ceilingIn_cons_of_le (by exact ha), if_pos ⟨ha, hb⟩]
  · rw [if_neg (hb.trans_lt hv).ne, ceilingIn_above_append hb (h.reaches b),
      if_neg (by simp [hb])]

theorem Descends.above (h : Descends steps) : Descends (above v steps) := by
  induction steps with
  | nil => exact .nil
  | cons r rest ih =>
    rcases lt_or_ge v r.lower with hr | hr
    · rw [above_cons_of_lt hr]
      refine List.pairwise_cons.2 ⟨fun x hx => ?_, ih h.of_cons⟩
      have hrest := (List.pairwise_cons.1 h).1
      clear ih h
      induction rest with
      | nil => cases hx
      | cons y rest ih =>
        rw [List.forall_mem_cons] at hrest
        rcases lt_or_ge v y.lower with hy | hy
        · rw [above_cons_of_lt hy] at hx
          rcases List.mem_cons.1 hx with rfl | hx
          · exact hrest.1
          · exact ih hx hrest.2
        · rw [above_cons_of_le hy, List.mem_singleton] at hx
          rw [hx]
          exact hr
    · rw [above_cons_of_le hr]
      exact List.pairwise_singleton ..

theorem Descends.below (h : Descends steps) : Descends (below v steps) :=
  h.sublist (List.dropWhile_sublist _)

theorem Descends.within (h : Descends steps) : Descends (within lo up steps) := h.below.above

theorem lt_of_mem_below (h : Descends steps) {x : Step} (hx : x ∈ below v steps) :
    x.lower < v := by
  induction steps with
  | nil => cases hx
  | cons r rest ih =>
    rcases lt_or_ge r.lower v with hr | hr
    · rw [below_cons_of_lt hr] at hx
      rcases List.mem_cons.1 hx with rfl | hx
      · exact hr
      · exact ((List.pairwise_cons.1 h).1 x hx).trans hr
    · rw [below_cons_of_le hr] at hx
      exact ih h.of_cons hx

theorem lt_of_mem_within (h : Descends steps) (hlo : lo < up) {x : Step}
    (hx : x ∈ within lo up steps) : x.lower < up := by
  rw [within, ← below_above hlo] at hx
  exact lt_of_mem_below h.above hx

theorem getLast?_below (h : a ≠ .start) (hlast : steps.getLast?.map (·.lower) = some .start) :
    (below a steps).getLast?.map (·.lower) = some .start := by
  have hpos : Instant.start < a := lt_of_le_of_ne (Instant.start_le a) (Ne.symm h)
  induction steps with
  | nil => simp at hlast
  | cons r rest ih =>
    rcases lt_or_ge r.lower a with hr | hr
    · rwa [below_cons_of_lt hr]
    · rw [below_cons_of_le hr]
      cases rest with
      | nil =>
        simp only [List.getLast?_singleton, Option.map_some, Option.some_inj] at hlast
        exact absurd hr (not_le.2 (hlast ▸ hpos))
      | cons y rest => exact ih (by simpa using hlast)

protected theorem IsSteps.overwrite (h : IsSteps steps) (hab : a < b) :
    IsSteps (overwrite steps t a b) := by
  constructor
  · refine List.pairwise_map.2 (List.pairwise_append.2 ⟨?_, ?_, ?_⟩)
    · split
      · exact .nil
      · exact h.descends.above
    · exact List.pairwise_cons.2
        ⟨fun x hx => lt_of_mem_below h.descends hx, h.descends.below⟩
    · intro x hx y hy
      have hbx := mem_top_overwrite hx
      rcases List.mem_cons.1 hy with rfl | hy
      · exact hab.trans_le hbx
      · exact (lt_of_mem_below h.descends hy).trans (hab.trans_le hbx)
  · rw [overwrite, List.getLast?_append_of_ne_nil _ (List.cons_ne_nil _ _)]
    by_cases ha : a = .start
    · subst ha
      have hnil : below .start steps = [] := List.eq_nil_iff_forall_not_mem.2 fun x hx =>
        Instant.not_lt_start _ (lt_of_mem_below h.descends hx)
      simp [hnil]
    · have hlast := getLast?_below ha h.2
      cases hb : below a steps with
      | nil => simp [hb] at hlast
      | cons x xs =>
        rw [hb] at hlast
        simpa using hlast

/-! ## Overwriting, seen within a window -/

/-- The span lies above the window. -/
theorem within_overwrite_of_le (hab : a < b) (h : up ≤ a) :
    within lo up (overwrite steps t a b) = within lo up steps := by
  rw [within, overwrite,
    below_append_of_forall fun s hs => (h.trans hab.le).trans (mem_top_overwrite hs),
    below_cons_of_le (by exact h), below_below_of_le h, within]

/-- What stays above a span that ends below the top of a window. -/
theorem below_overwrite (hr : Reaches steps b) (h : b < up) :
    below up (overwrite steps t a b) =
      above b (below up steps) ++ ⟨a, t⟩ :: below a steps := by
  obtain ⟨x, hx, hxb⟩ := exists_mem_above hr
  rw [overwrite, if_neg (h.trans_le (Instant.le_never up)).ne,
    below_append_of_exists ⟨x, hx, hxb ▸ h⟩, below_above h]

theorem Reaches.below (hr : Reaches steps v) (h : v < up) : Reaches (below up steps) v := by
  obtain ⟨s, hs, hsv⟩ := hr
  induction steps with
  | nil => cases hs
  | cons r rest ih =>
    rcases lt_or_ge r.lower up with hup | hup
    · rw [below_cons_of_lt hup]
      exact ⟨s, hs, hsv⟩
    · rw [below_cons_of_le hup]
      rcases List.mem_cons.1 hs with rfl | hs
      · exact absurd (hsv.trans_lt h) (not_lt.2 hup)
      · exact ih hs

/-- The span lies below the window. -/
theorem within_overwrite_of_ge (hr : Reaches steps b) (h : b ≤ lo) (hlo : lo < up) :
    within lo up (overwrite steps t a b) = within lo up steps := by
  have hb : b < up := h.trans_lt hlo
  obtain ⟨x, hx, hxb⟩ := exists_mem_above (hr.below hb)
  rw [within, below_overwrite hr hb, above_append_of_reaches ⟨x, hx, hxb ▸ h⟩,
    above_above_of_le h, within]

/-- The part within a window after an overwrite, from the part before it. -/
theorem within_overwrite (hr : Reaches steps b) (ha : a < up) (hb : lo < b) :
    within lo up (overwrite steps t a b) =
      (if b < up then above b (within lo up steps) else []) ++
        (if a ≤ lo then [⟨lo, t⟩] else ⟨a, t⟩ :: within lo a (within lo up steps)) := by
  have hlow : above lo (⟨a, t⟩ :: below a steps) =
      if a ≤ lo then [⟨lo, t⟩] else ⟨a, t⟩ :: within lo a (within lo up steps) := by
    split
    · rename_i h
      rw [above_cons_of_le (by exact h)]
    · rename_i h
      rw [above_cons_of_lt (by exact not_le.1 h), within_within le_rfl (not_le.1 h) ha.le, within]
  split
  · rename_i h
    have htop : above b (within lo up steps) = above b (below up steps) := above_above_of_le hb.le
    rw [within, below_overwrite hr h,
      above_append_of_forall fun s hs => hb.trans_le (le_of_mem_above hs), hlow, htop]
  · rename_i h
    rw [within, overwrite,
      below_append_of_forall fun s hs => (not_lt.1 h).trans (mem_top_overwrite hs),
      below_cons_of_lt (by exact ha), hlow, List.nil_append]

/-- The part within a window after an overwrite depends only on the part within it before. -/
theorem within_overwrite_congr {steps' : List Step} (h : IsSteps steps) (h' : IsSteps steps')
    (hab : a < b) (hlo : lo < up) (heq : within lo up steps = within lo up steps') :
    within lo up (overwrite steps t a b) = within lo up (overwrite steps' t a b) := by
  rcases le_or_gt up a with ha | ha
  · rw [within_overwrite_of_le hab ha, within_overwrite_of_le hab ha, heq]
  rcases le_or_gt b lo with hb | hb
  · rw [within_overwrite_of_ge (h.reaches b) hb hlo, within_overwrite_of_ge (h'.reaches b) hb hlo,
      heq]
  · rw [within_overwrite (h.reaches b) ha hb, within_overwrite (h'.reaches b) ha hb, heq]

end Bitemporal.Ledger
