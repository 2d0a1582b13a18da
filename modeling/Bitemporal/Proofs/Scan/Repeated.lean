import Mathlib
import Bitemporal.Proofs.Compaction.Erased
import Bitemporal.Proofs.Ledger.Breaks

/-!
# Facts that are read twice

A fact that is read a second time stands behind its first copy in the history of its entity, among
the versions of one system time. That group supersedes its spans at its own system time, so none of
its versions shows anything once the whole group was recorded, and recording the group again leaves
the steps as they are, down to where they break.

## Main definitions

* `supersedeAll`: the steps after several versions are recorded.
* `Fact.recordedAt`: the versions of one system time.

## Main statements

* `supersedeAll_supersedeAll`: recording versions of one system time again changes no step.
* `Query.shownFrom_append_self`: a group of versions shows nothing when it is read again.
* `Query.answerAll_append_self`: facts that are read twice show what they show when read once.
-/

namespace Bitemporal

open scoped Linear
open Ledger
open Stable (IsPreorder)

variable {q : Query} {e : EntityId} {f : Fact} {fs rows a b l : List Fact} {steps : List Step}
  {v t : Instant}

/-! ## Recording several versions -/

/-- The steps after several versions are recorded, the first of them first. -/
def supersedeAll (fs : List Fact) (steps : List Step) : List Step :=
  fs.foldl (fun steps f => supersede f steps) steps

@[simp] theorem supersedeAll_nil : supersedeAll [] steps = steps := rfl

@[simp] theorem supersedeAll_cons :
    supersedeAll (f :: fs) steps = supersedeAll fs (supersede f steps) := rfl

theorem Ledger.Spans.supersedeAll (h : Spans steps) (fs : List Fact) :
    Spans (supersedeAll fs steps) := by
  induction fs generalizing steps with
  | nil => exact h
  | cons f fs ih => exact ih h.supersede

theorem breaksAt_supersede (h : Spans steps) :
    BreaksAt (supersede f steps) v ↔
      (f.validFrom < f.validTo ∧ (v = f.validFrom ∨ v = f.validTo ∧ f.validTo ≠ .never)) ∨
        BreaksAt steps v ∧ ¬ (f.validFrom < f.validTo ∧ f.validFrom ≤ v ∧ v ≤ f.validTo) := by
  unfold supersede
  split
  · rw [breaksAt_overwrite h]
    simp [*]
  · simp [*]

/-- Whether the steps break at a valid time is settled by the versions, or left as it was. -/
theorem exists_breaksAt_supersedeAll (fs : List Fact) :
    ∃ made gone : Instant → Prop, ∀ steps, Spans steps → ∀ v,
      BreaksAt (supersedeAll fs steps) v ↔ made v ∨ BreaksAt steps v ∧ ¬ gone v := by
  induction fs with
  | nil => exact ⟨fun _ => False, fun _ => False, by simp⟩
  | cons f fs ih =>
    obtain ⟨made, gone, hfs⟩ := ih
    refine ⟨fun v => made v ∨ (f.validFrom < f.validTo ∧
        (v = f.validFrom ∨ v = f.validTo ∧ f.validTo ≠ .never)) ∧ ¬ gone v,
      fun v => gone v ∨ (f.validFrom < f.validTo ∧ f.validFrom ≤ v ∧ v ≤ f.validTo), ?_⟩
    intro steps h v
    rw [supersedeAll_cons, hfs _ h.supersede, breaksAt_supersede h]
    tauto

/-- Versions of one system time set the ceiling to it in all of their spans. -/
theorem ceilingIn_supersedeAll (h : Spans steps) (hfs : ∀ f ∈ fs, f.systemFrom = t)
    (hv : v < .never) : ceilingIn (supersedeAll fs steps) v =
      if ∃ f ∈ fs, f.validFrom ≤ v ∧ v < f.validTo then t else ceilingIn steps v := by
  induction fs generalizing steps with
  | nil => simp
  | cons f fs ih =>
    rw [List.forall_mem_cons] at hfs
    rw [supersedeAll_cons, ih h.supersede hfs.2, ceilingIn_supersede h hv, hfs.1]
    by_cases hf : f.validFrom ≤ v ∧ v < f.validTo <;> simp [hf]

/-- Recording versions of one system time again changes no step. -/
theorem supersedeAll_supersedeAll (h : Spans steps) (hfs : ∀ f ∈ fs, f.systemFrom = t) :
    supersedeAll fs (supersedeAll fs steps) = supersedeAll fs steps := by
  obtain ⟨made, gone, hbreaks⟩ := exists_breaksAt_supersedeAll fs
  have hspans := h.supersedeAll fs
  refine (hspans.supersedeAll fs).eq_of_breaksAt hspans (fun v => ?_) fun v hv => ?_
  · rw [hbreaks _ hspans, hbreaks _ h]
    tauto
  · rw [ceilingIn_supersedeAll hspans hfs hv, ceilingIn_supersedeAll h hfs hv]
    split <;> rfl

/-! ## What a group shows -/

namespace Query

theorem shownFrom_append (q : Query) (steps : List Step) (rows rest : List Fact) :
    q.shownFrom steps (rows ++ rest) = q.shownFrom steps rows ++
      if rows.any (·.isErase) then []
      else q.shownFrom (supersedeAll (rows.filter (q.bounds.knows ·.systemFrom)) steps) rest := by
  induction rows generalizing steps with
  | nil => simp [shownFrom]
  | cons f rows ih =>
    rw [List.cons_append, shownFrom, shownFrom]
    split
    · simp [*]
    split
    · simp [*]
    · rename_i herase hknows
      rw [not_not] at hknows
      simp [*]

theorem shownFrom_append_congr {rest rest' : List Fact} (h : Spans steps)
    (heq : ∀ steps, Spans steps → q.shownFrom steps rest = q.shownFrom steps rest') :
    q.shownFrom steps (rows ++ rest) = q.shownFrom steps (rows ++ rest') := by
  rw [shownFrom_append, shownFrom_append, heq _ (h.supersedeAll _)]

/-- A version shows nothing where the ceiling has come down to its system time. -/
theorem rowsAgainst_eq_nil_of_ceilingIn (h : Spans steps)
    (hceiling : ∀ v, f.validFrom ≤ v → v < f.validTo → ceilingIn steps v ≤ f.systemFrom) :
    q.rowsAgainst f steps = [] := by
  have hnone : (spanTiles f.validFrom f.validTo steps).filter (q.sees f.systemFrom) = [] := by
    refine List.filter_eq_nil_iff.2 fun r hr hsees => ?_
    obtain ⟨hlow, hproper, hup⟩ := bounds_of_mem_spanTiles h hr
    obtain ⟨x, hx, hsystem⟩ := filter_spanTiles h hlow (hproper.trans_le hup)
    have hrx : r = x := by
      have : r ∈ [x] := hx ▸ List.mem_filter.2 ⟨hr, by simp [hproper]⟩
      simpa using this
    have hle := hceiling r.validFrom hlow (hproper.trans_le hup)
    rw [← hsystem, ← hrx] at hle
    simp only [sees, Rectangle.isProper, Bool.and_eq_true, decide_eq_true_eq] at hsees
    exact absurd hsees.1.2 (not_lt.2 hle)
  rw [rowsAgainst, hnone]
  cases q.shownDoc? f <;> rfl

/-- Versions of one system time show nothing where the ceiling has come down to it. -/
theorem shownFrom_eq_nil_of_ceilingIn (h : Spans steps) (hrows : ∀ f ∈ rows, f.systemFrom = t)
    (hceiling : ∀ f ∈ rows, q.bounds.knows f.systemFrom → ∀ v, f.validFrom ≤ v → v < f.validTo →
      ceilingIn steps v ≤ t) : q.shownFrom steps rows = [] := by
  induction rows generalizing steps with
  | nil => rfl
  | cons f rest ih =>
    rw [List.forall_mem_cons] at hrows hceiling
    rw [shownFrom]
    split
    · rfl
    split
    · exact ih h hrows.2 hceiling.2
    rename_i hknows
    have hnext : ∀ g ∈ rest, q.bounds.knows g.systemFrom → ∀ v, g.validFrom ≤ v →
        v < g.validTo → ceilingIn (supersede f steps) v ≤ t := by
      intro g hg hgknows v hlow hup
      rw [ceilingIn_supersede h (hup.trans_le (Instant.le_never _))]
      split
      · exact hrows.1.le
      · exact hceiling.2 g hg hgknows v hlow hup
    have hnow := hceiling.1 (not_not.1 hknows)
    rw [rowsAgainst_eq_nil_of_ceilingIn h (hrows.1.symm ▸ hnow), ih h.supersede hrows.2 hnext,
      List.nil_append]

/-- A group of versions of one system time shows nothing when it is read again, and changes nothing
for what comes after it. -/
theorem shownFrom_append_self (h : Spans steps) (hl : ∀ f ∈ l, f.systemFrom = t)
    (rest : List Fact) : q.shownFrom steps (l ++ (l ++ rest)) = q.shownFrom steps (l ++ rest) := by
  rw [shownFrom_append, shownFrom_append q steps l rest]
  congr 1
  split
  · rfl
  rename_i herase
  have hknown : ∀ f ∈ l.filter (q.bounds.knows ·.systemFrom), f.systemFrom = t := fun f hf =>
    hl f (List.mem_filter.1 hf).1
  have hnone :
      q.shownFrom (supersedeAll (l.filter (q.bounds.knows ·.systemFrom)) steps) l = [] := by
    refine shownFrom_eq_nil_of_ceilingIn (h.supersedeAll _) hl fun f hf hknows v hlow hup => ?_
    rw [ceilingIn_supersedeAll h hknown (hup.trans_le (Instant.le_never _)), if_pos]
    exact ⟨f, List.mem_filter.2 ⟨hf, hknows⟩, hlow, hup⟩
  rw [shownFrom_append, if_neg herase, hnone, supersedeAll_supersedeAll h hknown, List.nil_append]

end Query

/-! ## One system time after the other -/

namespace Fact

/-- Whether a fact is recorded no earlier than another one. -/
def notOlder (f g : Fact) : Bool := g.systemFrom ≤ f.systemFrom

theorem isPreorder_notOlder : IsPreorder notOlder where
  trans a b c hab hbc := by
    simp only [notOlder, decide_eq_true_eq] at *
    exact hbc.trans hab
  total a b := by simpa [notOlder] using le_total b.systemFrom a.systemFrom

theorem before_iff_notOlder (he : ∀ f ∈ rows, f.entity = e) {f g : Fact} (hf : f ∈ rows)
    (hg : g ∈ rows) : f.before g ↔ f.notOlder g := by
  rw [before_iff_of_entity_eq ((he f hf).trans (he g hg).symm), notOlder, decide_eq_true_eq]

theorem IsOrdered.pairwise_notOlder (h : IsOrdered rows) (he : ∀ f ∈ rows, f.entity = e) :
    rows.Pairwise (notOlder · ·) :=
  List.Pairwise.imp_of_mem (fun hf hg hfg => (before_iff_notOlder he hf hg).1 hfg) h

/-- The facts of one system time. -/
def recordedAt (t : Instant) (rows : List Fact) : List Fact := rows.filter (·.systemFrom = t)

theorem recordedAt_append (t : Instant) (a b : List Fact) :
    recordedAt t (a ++ b) = recordedAt t a ++ recordedAt t b := List.filter_append ..

theorem mem_recordedAt : f ∈ recordedAt t rows ↔ f ∈ rows ∧ f.systemFrom = t := by
  simp [recordedAt]

/-- The system times of facts, each once. -/
def times (rows : List Fact) : List Instant := (rows.map (·.systemFrom)).dedup

theorem mem_times : t ∈ times rows ↔ ∃ f ∈ rows, f.systemFrom = t := by simp [times]

/-- The system times of a history descend. -/
theorem IsOrdered.pairwise_times (h : IsOrdered rows) (he : ∀ f ∈ rows, f.entity = e) :
    (times rows).Pairwise (· > ·) := by
  have hle : (rows.map (·.systemFrom)).Pairwise (· ≥ ·) :=
    List.pairwise_map.2 ((h.pairwise_notOlder he).imp of_decide_eq_true)
  have hsub := hle.sublist (List.dedup_sublist _)
  exact (hsub.and (List.nodup_dedup _)).imp fun h => lt_of_le_of_ne h.1 h.2.symm

/-- The history of an entity is its versions, one system time after the other. -/
theorem flatMap_recordedAt (he : ∀ f ∈ rows, f.entity = e) {ts : List Instant}
    (hts : ts.Pairwise (· > ·)) (hmem : ∀ f ∈ rows, f.systemFrom ∈ ts) :
    (ts.flatMap fun t => recordedAt t rows) = sort rows := by
  have hgroup (t : Instant) : (sort rows).filter (·.systemFrom = t) = recordedAt t rows := by
    rw [filter_sort]
    refine sort_eq_self (List.pairwise_of_forall_mem_list fun f hf g hg => ?_)
    obtain ⟨hf, hft⟩ := mem_recordedAt.1 hf
    obtain ⟨hg, hgt⟩ := mem_recordedAt.1 hg
    exact (before_iff_notOlder he hf hg).2 (decide_eq_true (hgt.trans hft.symm).le)
  simp only [← hgroup]
  have hsorted := (isOrdered_sort rows).pairwise_notOlder fun f hf => he f (mem_sort.1 hf)
  refine Stable.flatMap_filter isPreorder_notOlder hsorted (fun t f => decide (f.systemFrom = t)) ?_
    fun f hf => ⟨_, hmem f (mem_sort.1 hf), by simp⟩
  refine hts.imp fun {s t} hlt a b ha hb hba => ?_
  simp only [notOlder, decide_eq_true_eq] at ha hb hba
  subst ha hb
  exact absurd hba (not_le.2 hlt)

end Fact

namespace Query

/-- System time by system time, reading some of the versions again shows nothing new. -/
theorem shownFrom_flatMap_append_self (h : Spans steps) (ts : List Instant) :
    q.shownFrom steps (ts.flatMap fun t => Fact.recordedAt t (a ++ (l ++ (l ++ b)))) =
      q.shownFrom steps (ts.flatMap fun t => Fact.recordedAt t (a ++ (l ++ b))) := by
  induction ts generalizing steps with
  | nil => rfl
  | cons t ts ih =>
    simp only [List.flatMap_cons, Fact.recordedAt_append, List.append_assoc] at ih ⊢
    refine shownFrom_append_congr h fun steps h => ?_
    rw [shownFrom_append_self h fun f hf => (Fact.mem_recordedAt.1 hf).2]
    refine shownFrom_append_congr h fun steps h => ?_
    exact shownFrom_append_congr h fun steps h => ih h

/-- A history in which some versions are read twice shows what it shows with one copy of them. -/
theorem shown_append_self (ha : ∀ f ∈ a, f.entity = e) (hl : ∀ f ∈ l, f.entity = e)
    (hb : ∀ f ∈ b, f.entity = e) :
    q.shown (Fact.sort (a ++ (l ++ (l ++ b)))) = q.shown (Fact.sort (a ++ (l ++ b))) := by
  have he : ∀ f ∈ a ++ (l ++ b), f.entity = e := by simp only [List.mem_append]; grind
  have he' : ∀ f ∈ a ++ (l ++ (l ++ b)), f.entity = e := by simp only [List.mem_append]; grind
  have hts := (Fact.isOrdered_sort (a ++ (l ++ b))).pairwise_times fun f hf =>
    he f (Fact.mem_sort.1 hf)
  have hmem : ∀ f ∈ a ++ (l ++ b), f.systemFrom ∈ Fact.times (Fact.sort (a ++ (l ++ b))) :=
    fun f hf => Fact.mem_times.2 ⟨f, Fact.mem_sort.2 hf, rfl⟩
  have hmem' : ∀ f ∈ a ++ (l ++ (l ++ b)),
      f.systemFrom ∈ Fact.times (Fact.sort (a ++ (l ++ b))) := by
    intro f hf
    apply hmem
    simp only [List.mem_append] at hf ⊢
    tauto
  rw [← Fact.flatMap_recordedAt he hts hmem, ← Fact.flatMap_recordedAt he' hts hmem', shown, shown]
  exact shownFrom_flatMap_append_self spans_empty _

/-- Facts that are read twice show what they show when they are read once. -/
theorem answerAll_append_self (q : Query) (a l b : List Fact) :
    q.answerAll (a ++ (l ++ (l ++ b))) = q.answerAll (a ++ (l ++ b)) := by
  have hsub : ∀ f ∈ a ++ (l ++ (l ++ b)), f ∈ a ++ (l ++ b) := by
    simp only [List.mem_append]
    tauto
  have he (e : EntityId) (rows : List Fact) : ∀ f ∈ Fact.versions e rows, f.entity = e :=
    fun f hf => (Fact.mem_versions.1 hf).2
  rw [q.answerAll_eq_of_subset hsub, answerAll]
  apply answer_congr
  intro e _ _
  simp only [Fact.versions_sort, Fact.versions_append]
  exact shown_append_self (he e a) (he e l) (he e b)

end Query

end Bitemporal
