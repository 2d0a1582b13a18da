import Mathlib
import Bitemporal.Proofs.Segment.Holding

/-!
# Results of a write

A write that refuses oversized leaves either fails or does what a write does that allows them. So
whatever the settings are, the segment that a write leaves is one that is written with oversized
leaves allowed.

## Main definitions

* `MemorySegment.IsWriteOf`: a segment in memory that some write of facts leaves.

## Main statements

* `Writer.of_trie_write`: what a write that succeeds has made.
* `MemorySegment.isWriteOf_iff`: whether oversized leaves are allowed does not show.
-/

namespace Bitemporal

variable {w : BucketWidth} {rows : List Fact} {wr : Writer}

namespace Writer

/-- Where no leaf is refused, every leaf becomes a page. -/
theorem fst_fill {leaves : List (Path × List Fact)} (h : (wr.fill leaves).value.2 = none) :
    (wr.fill leaves).value.1 = leaves.map fun l => ⟨l.2⟩ := by
  induction leaves with
  | nil => rfl
  | cons l rest ih =>
    rw [fill] at h ⊢
    split at h
    · cases h
    · rename_i hfits
      rw [if_neg hfits]
      simpa using ih h

/-- A write that succeeds was given ordered facts, and made what an allowing write makes. -/
theorem of_trie_write {t : HashTrie} (h : (wr.write rows).value.trie = .ok t) :
    Fact.IsOrdered rows ∧ (wr.write rows).value = ⟨wr.pagesOf rows, .ok (wr.trieOf rows)⟩ := by
  unfold write at h ⊢
  cases hdisorder : Fact.firstDisorder? rows with
  | some d => simp [hdisorder] at h
  | none =>
    refine ⟨Fact.firstDisorder?_eq_none_iff.1 hdisorder, ?_⟩
    simp only [hdisorder, Logged.value_bind] at h ⊢
    cases hrefused : (wr.fill (Layout.ofRows wr.width wr.limit rows).leaves).value.2 with
    | some e => simp [hrefused] at h
    | none =>
      have hpages := fst_fill hrefused
      simp [pagesOf, trieOf, Trie.values, Function.comp_def, hpages]

end Writer

namespace MemorySegment

/-- The segment is what a write of facts leaves, under whatever settings of a level width. -/
def IsWriteOf (w : BucketWidth) (rows : List Fact) (s : MemorySegment) : Prop :=
  ∃ name settings, settings.check = .ok w ∧ (MemorySegment.write name rows settings).value = .ok s

variable {s : MemorySegment}

theorem IsWrittenFrom.isWriteOf (h : s.IsWrittenFrom w rows) : s.IsWriteOf w rows := by
  obtain ⟨name, settings, hcheck, -, hs⟩ := h.written
  exact ⟨name, settings, hcheck, hs⟩

/-- Whether oversized leaves are allowed does not show in what a write leaves. -/
theorem isWriteOf_iff : s.IsWriteOf w rows ↔ s.IsWrittenFrom w rows := by
  refine ⟨?_, IsWrittenFrom.isWriteOf⟩
  rintro ⟨name, settings, hcheck, hs⟩
  have hwriter (policy : OversizedPolicy) :
      Writer.ofSettings { settings with oversized := policy } =
        .ok ⟨w, settings.leafRowLimit, policy⟩ := by
    have hsame : Settings.check { settings with oversized := policy } = .ok w := hcheck
    rw [Writer.ofSettings, hsame]
    rfl
  rw [write, show Writer.ofSettings settings = _ from hwriter settings.oversized] at hs
  simp only [Logged.value_bind, Logged.value_pure] at hs
  cases htrie : (Writer.write ⟨w, settings.leafRowLimit, settings.oversized⟩ rows).value.trie with
  | error e => simp [ofOutput, htrie, bind, Except.bind] at hs
  | ok t =>
    obtain ⟨hordered, hout⟩ := Writer.of_trie_write htrie
    rw [hout] at hs
    refine ⟨hordered, name, { settings with oversized := .allow }, hcheck, rfl, ?_⟩
    -- Neither the pages nor the trie depend on the policy.
    rw [value_write (hwriter .allow) rfl hordered, ← hs]
    exact (ofParts_eq (Writer.divides_write _ rows)).symm

end MemorySegment

end Bitemporal
