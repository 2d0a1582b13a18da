import Mathlib
import Bitemporal.Proofs.Ledger.Resolved
import Bitemporal.Proofs.Scan.History

/-!
# Recency and staleness

The search for the recency of an exposure goes down from its last tile and stops early, which misses
nothing where the valid times ascend: a tile further down ends no later in valid time. So recency is
the greatest of the lesser ends of the tiles, and a query whose windows begin at or beyond it, on
both axes, sees none of them.

## Main statements

* `Ledger.pairwise_validTimes_of_resolve`: the valid times of what is left of a version ascend.
* `Exposure.recency_exact`: recency is the greatest lesser end, and the test for staleness changes
  no rows.
-/

namespace Bitemporal

open scoped Linear

/-- The valid times of what is left of a version ascend. -/
theorem Ledger.pairwise_validTimes_of_resolve {l : Ledger} (h : Spans l.steps) {t a b : Instant}
    {x : Exposure} (hx : l.resolve t a b = .ok x) : x.validTimes.Pairwise (· < ·) := by
  by_cases ht : t > l.last
  · rw [resolve, checkOrder, if_pos ht] at hx
    cases hx
  rcases le_or_gt b a with hab | hab
  · simp only [resolve, checkOrder, if_neg ht, if_pos hab] at hx
    cases hx
    exact .nil
  · obtain ⟨y, hy, htiles⟩ := tiles_of_resolve h (not_lt.1 ht) hab
    obtain rfl := Except.ok.inj (hx.symm.trans hy)
    exact htiles.ascends

namespace Exposure

variable {x : Exposure}

theorem validTo_mem_of_mem_tiles {times ends : List Instant} {r : Rectangle}
    (hr : r ∈ tiles times ends) : r.validTo ∈ times.tail := by
  fun_induction tiles times ends with
  | case1 a b times s ends ih =>
    rcases List.mem_cons.1 hr with rfl | hr
    · exact .head _
    · exact .tail _ (ih hr)
  | case2 => cases hr

/-- Where the valid times ascend, so do the tiles. -/
theorem pairwise_rectangles (h : x.validTimes.Pairwise (· < ·)) :
    x.rectangles.Pairwise fun r r' => r.validTo ≤ r'.validTo := by
  obtain ⟨times, ends⟩ := x
  rw [rectangles]
  fun_induction tiles times ends with
  | case1 a b times s ends ih =>
    have hrest := (List.pairwise_cons.1 h).2
    refine List.pairwise_cons.2 ⟨fun r hr => ?_, ih hrest⟩
    exact ((List.pairwise_cons.1 hrest).1 _ (validTo_mem_of_mem_tiles hr)).le
  | case2 => exact .nil

/-- The recency of tiles that ascend is the greatest of their lesser ends. -/
theorem isGreatest_recency (h : x.rectangles.Pairwise fun r r' => r.validTo ≤ r'.validTo)
    (hne : x.rectangles ≠ []) :
    IsGreatest {m | ∃ r ∈ x.rectangles, m = min r.validTo r.systemTo} x.recency := by
  refine ⟨?_, ?_⟩
  · rcases recencyFrom_cases .start x.rectangles.reverse with hstart | ⟨r, hr, hmin⟩
    · obtain ⟨r, hr⟩ := List.exists_mem_of_ne_nil _ hne
      have hle : min r.validTo r.systemTo ≤ .start := (min_le_recency h hr).trans hstart.le
      exact ⟨r, hr, hstart.trans (le_antisymm (Instant.start_le _) hle)⟩
    · exact ⟨r, List.mem_reverse.1 hr, hmin⟩
  · rintro m ⟨r, hr, rfl⟩
    exact min_le_recency h hr

/-- What is left of a version after any calls has ascending valid times. The recency of an exposure
with ascending valid times is the greatest of the lesser ends of its tiles, or the start of time if
it has none. Where such an exposure is stale, windows with these lower ends meet none of its tiles,
so a version shows the same rows whether or not staleness is tested first. -/
theorem recency_exact :
    (∀ calls t a b x, (Recording.of calls).ledger.resolve t a b = .ok x →
      x.validTimes.Pairwise (· < ·)) ∧
    ∀ x : Exposure, x.validTimes.Pairwise (· < ·) →
      (x.rectangles = [] → x.recency = .start) ∧
      (x.rectangles ≠ [] →
        IsGreatest {m | ∃ r ∈ x.rectangles, m = min r.validTo r.systemTo} x.recency) ∧
      (∀ validLower systemLower, x.isStale validLower systemLower → ∀ b : Bounds,
        b.valid.lower = validLower → b.system.lower = systemLower →
          ∀ systemFrom, ∀ r ∈ x.rectangles,
            b.intersects r.validFrom r.validTo systemFrom r.systemTo = false) ∧
      ∀ (q : Query) (f : Fact), q.rowsOf f x = q.rowsOn f x := by
  refine ⟨fun calls t a b x hx => ?_, fun x hx => ⟨fun hnil => ?_, ?_, ?_, fun q f => ?_⟩⟩
  · exact Ledger.pairwise_validTimes_of_resolve (Recording.isTrue_of calls).spans hx
  · rw [recency, hnil]
    rfl
  · exact isGreatest_recency (pairwise_rectangles hx)
  · rintro _ _ hstale b rfl rfl systemFrom r hr
    exact intersects_eq_false_of_isStale (pairwise_rectangles hx) hstale hr systemFrom
  · exact Query.rowsOf_eq_rowsOn (pairwise_rectangles hx)

/-- Three tiles under falling ends: the lowest of them goes on longest in both times. -/
theorem recency_exact_falling :
    [10, 12, 15, (18 : Instant)].Pairwise (· < ·) ∧
      IsGreatest {m | ∃ r ∈ (⟨[10, 12, 15, 18], [8, 6, 3]⟩ : Exposure).rectangles,
        m = min r.validTo r.systemTo} 8 := by
  have hascends : [10, 12, 15, (18 : Instant)].Pairwise (· < ·) := by decide
  exact ⟨hascends, (recency_exact.2 ⟨[10, 12, 15, 18], [8, 6, 3]⟩ hascends).2.1 (by decide)⟩

end Exposure

end Bitemporal
