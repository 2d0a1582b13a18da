import Mathlib
import Bitemporal.Page.Summary
import Bitemporal.Proofs.Order
import Bitemporal.Proofs.Page.Bloom

/-!
# Page summaries

The summary of a page covers each of its rows: the row lies within its bounds of both times, its
filter does not deny the entity, and it knows of every erase.

## Main definitions

* `PageSummary.Covers`: a summary covers a row.

## Main statements

* `Page.covers_summary`: the summary of a page covers its rows.
-/

namespace Bitemporal

open scoped Linear

namespace PageSummary

variable {s : PageSummary} {f : Fact}

/-- What a summary says holds of a row. -/
structure Covers (s : PageSummary) (f : Fact) : Prop where
  systemFrom : s.minSystemFrom ≤ f.systemFrom
  validFrom : s.minValidFrom ≤ f.validFrom
  validTo : f.validTo ≤ s.maxValidTo
  entity : s.entities.Holds f.entity
  erase : f.isErase → s.hasErase

theorem covers_addRow (h : s.entities.words ≠ []) (f : Fact) : (s.addRow f).Covers f where
  systemFrom := min_le_right _ _
  validFrom := min_le_right _ _
  validTo := le_max_right _ _
  entity := Bloom.holds_insert h f.entity
  erase hf := by simp [addRow, hf]

theorem Covers.addRow (h : s.Covers f) (g : Fact) : (s.addRow g).Covers f where
  systemFrom := (min_le_left _ _).trans h.systemFrom
  validFrom := (min_le_left _ _).trans h.validFrom
  validTo := h.validTo.trans (le_max_left _ _)
  entity := h.entity.insert g.entity
  erase hf := by simp [PageSummary.addRow, h.erase hf]

theorem words_addRow_ne_nil (h : s.entities.words ≠ []) (f : Fact) :
    (s.addRow f).entities.words ≠ [] := by
  rw [← List.length_pos_iff] at h ⊢
  rwa [addRow, Bloom.length_insert]

theorem words_foldl_ne_nil (h : s.entities.words ≠ []) (rows : List Fact) :
    (rows.foldl addRow s).entities.words ≠ [] := by
  induction rows generalizing s with
  | nil => exact h
  | cons f rest ih => exact ih (words_addRow_ne_nil h f)

theorem Covers.foldl (h : s.Covers f) (rows : List Fact) :
    (rows.foldl PageSummary.addRow s).Covers f := by
  induction rows generalizing s with
  | nil => exact h
  | cons g rest ih => exact ih (h.addRow g)

theorem covers_foldl (h : s.entities.words ≠ []) {rows : List Fact} (hf : f ∈ rows) :
    (rows.foldl addRow s).Covers f := by
  induction rows generalizing s with
  | nil => cases hf
  | cons g rest ih =>
    rw [List.foldl_cons]
    rcases List.mem_cons.1 hf with rfl | hf
    · exact (covers_addRow h f).foldl rest
    · exact ih (words_addRow_ne_nil h g) hf

theorem rowCount_foldl (s : PageSummary) (rows : List Fact) :
    (rows.foldl addRow s).rowCount = s.rowCount + rows.length := by
  induction rows generalizing s with
  | nil => rfl
  | cons f rest ih =>
    have hrow : (s.addRow f).rowCount = s.rowCount + 1 := rfl
    rw [List.foldl_cons, ih, hrow, List.length_cons]
    omega

theorem words_ofBits_ne_nil (bloomBits : Nat) : (ofBits bloomBits).entities.words ≠ [] := by
  simp [ofBits, Bloom.ofBits]

end PageSummary

namespace Page

variable {pg : Page} {f : Fact}

theorem words_summary_ne_nil (pg : Page) (bloomBits : Nat) :
    (pg.summary bloomBits).entities.words ≠ [] :=
  PageSummary.words_foldl_ne_nil (PageSummary.words_ofBits_ne_nil bloomBits) pg.rows

theorem rowCount_summary (pg : Page) (bloomBits : Nat) :
    (pg.summary bloomBits).rowCount = pg.size :=
  (PageSummary.rowCount_foldl _ pg.rows).trans (Nat.zero_add _)

/-- The summary of a page covers its rows. -/
theorem covers_summary (hf : f ∈ pg.rows) (bloomBits : Nat) :
    (pg.summary bloomBits).Covers f := by
  have h := PageSummary.covers_foldl (PageSummary.words_ofBits_ne_nil bloomBits) hf
  exact ⟨h.systemFrom, h.validFrom, h.validTo, h.entity, h.erase⟩

end Page

end Bitemporal
