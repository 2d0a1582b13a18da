import Mathlib
import Bitemporal.Proofs.Scan.Memory

/-!
# What is visible at a point

At a point of both times inside the windows of a query, a scan shows at most one row of an entity:
that of the newest version of the entity that covers the point, if this version is a put whose
document satisfies the predicates and no erase is newer.

## Main definitions

* `Fact.IsDecisive`: the version of an entity that decides what is visible at a point.

## Main statements

* `Fact.isDecisive_iff`: the decisive version is found in the history of its entity.
* `Query.filter_answerAll`: what facts show at a point.
* `Scan.collect_visible`: what a scan shows at a point.
-/

namespace Bitemporal

open scoped Linear

variable {q : Query} {e : EntityId} {f : Fact} {rows : List Fact} {v t : Instant}

namespace Fact

/-- The first version of an entity that is no erase and covers a point, with no erase of the entity
before it. -/
structure IsDecisive (rows : List Fact) (e : EntityId) (v t : Instant) (f : Fact) : Prop where
  entity : f.entity = e
  not_erase : f.isErase = false
  covers : f.covers v t
  first : ∃ before after, rows = before ++ f :: after ∧
    ∀ g ∈ before, g.entity = e → g.isErase = false ∧ g.covers v t = false

theorem isDecisive_cons_of_ne {g : Fact} (h : g.entity ≠ e) :
    IsDecisive (g :: rows) e v t f ↔ IsDecisive rows e v t f := by
  constructor
  · rintro ⟨hentity, herase, hcovers, before, after, heq, hbefore⟩
    obtain - | ⟨x, before⟩ := before
    · exact absurd ((List.cons.inj heq).1 ▸ hentity) h
    · obtain ⟨rfl, rfl⟩ := List.cons.inj heq
      exact ⟨hentity, herase, hcovers, before, after, rfl, fun y hy => hbefore y (.tail _ hy)⟩
  · rintro ⟨hentity, herase, hcovers, before, after, rfl, hbefore⟩
    refine ⟨hentity, herase, hcovers, g :: before, after, rfl, fun y hy hye => ?_⟩
    rcases List.mem_cons.1 hy with rfl | hy
    · exact absurd hye h
    · exact hbefore y hy hye

theorem isDecisive_cons_of_eq {g : Fact} (h : g.entity = e) :
    IsDecisive (g :: rows) e v t f ↔ g.isErase = false ∧
      (g.covers v t ∧ f = g ∨ g.covers v t = false ∧ IsDecisive rows e v t f) := by
  constructor
  · rintro ⟨hentity, herase, hcovers, before, after, heq, hbefore⟩
    obtain - | ⟨x, before⟩ := before
    · obtain ⟨rfl, -⟩ := List.cons.inj heq
      exact ⟨herase, .inl ⟨hcovers, rfl⟩⟩
    · obtain ⟨rfl, rfl⟩ := List.cons.inj heq
      obtain ⟨hxerase, hxcovers⟩ := hbefore g (.head _) h
      exact ⟨hxerase, .inr ⟨hxcovers, hentity, herase, hcovers, before, after, rfl,
        fun y hy => hbefore y (.tail _ hy)⟩⟩
  · rintro ⟨hgerase, ⟨hgcovers, rfl⟩ | ⟨hgcovers, hentity, herase, hcovers, before, after, rfl, hb⟩⟩
    · exact ⟨h, hgerase, hgcovers, [], rows, rfl, by simp⟩
    · refine ⟨hentity, herase, hcovers, g :: before, after, rfl, fun y hy hye => ?_⟩
      rcases List.mem_cons.1 hy with rfl | hy
      · exact ⟨hgerase, hgcovers⟩
      · exact hb y hy hye

/-- The decisive version is found in the history of its entity. -/
theorem isDecisive_iff :
    IsDecisive rows e v t f ↔ decisive? v t (versions e rows) = some f := by
  induction rows with
  | nil =>
    simp only [versions_nil, decisive?, reduceCtorEq, iff_false]
    rintro ⟨-, -, -, before, after, heq, -⟩
    simp at heq
  | cons g rows ih =>
    by_cases hg : g.entity = e
    · rw [isDecisive_cons_of_eq hg, ih, versions_cons_of_eq hg, decisive?]
      by_cases herase : g.isErase
      · simp [herase]
      · by_cases hcovers : g.covers v t
        · simp [herase, hcovers, eq_comm]
        · simp [herase, hcovers]
    · rw [isDecisive_cons_of_ne hg, ih, versions_cons_of_ne hg]

end Fact

theorem OutputRow.filter_entity_covers (out : List OutputRow) (e : EntityId) (v t : Instant) :
    out.filter (fun r => r.entity = e && r.covers v t) =
      (out.filter fun r => r.entity = e).filter (OutputRow.covers v t) := by
  rw [List.filter_filter]
  exact List.filter_congr fun r _ => Bool.and_comm ..

namespace Query

/-- A row of a history is a row of one of its versions. -/
theorem exists_of_mem_shownFrom {steps : List Step} {r : OutputRow}
    (hr : r ∈ q.shownFrom steps rows) : ∃ f ∈ rows, ∃ steps', r ∈ q.rowsAgainst f steps' := by
  induction rows generalizing steps with
  | nil => cases hr
  | cons f rest ih =>
    have hlater {steps : List Step} (hr : r ∈ q.shownFrom steps rest) :
        ∃ g ∈ f :: rest, ∃ steps', r ∈ q.rowsAgainst g steps' := by
      obtain ⟨g, hg, hr⟩ := ih hr
      exact ⟨g, .tail f hg, hr⟩
    rw [shownFrom] at hr
    split at hr
    · cases hr
    split at hr
    · exact hlater hr
    · rcases List.mem_append.1 hr with hr | hr
      · exact ⟨f, .head rest, steps, hr⟩
      · exact hlater hr

theorem entity_of_mem_shownFrom {steps : List Step} {r : OutputRow}
    (hr : r ∈ q.shownFrom steps rows) (h : ∀ f ∈ rows, f.entity = e) : r.entity = e := by
  obtain ⟨f, hf, steps', hr⟩ := exists_of_mem_shownFrom hr
  rw [rowsAgainst] at hr
  split at hr
  · cases hr
  · obtain ⟨x, -, rfl⟩ := List.mem_map.1 hr
    exact h f hf

theorem entity_of_mem_answer {r : OutputRow}
    (hr : r ∈ if q.selects e then q.shown (Fact.versions e rows) else []) : r.entity = e := by
  split at hr
  · exact entity_of_mem_shownFrom hr fun f hf => (Fact.mem_versions.1 hf).2
  · cases hr

/-- Rows are taken out of an answer by their entities as the entities are. -/
theorem filter_entity_answer (keep : EntityId → Bool) (ids : List EntityId) (rows : List Fact) :
    (q.answer ids rows).filter (fun r => keep r.entity) = q.answer (ids.filter keep) rows := by
  induction ids with
  | nil => rfl
  | cons e ids ih =>
    rw [answer, List.flatMap_cons, ← answer, List.filter_append, ih]
    by_cases he : keep e
    · rw [List.filter_cons_of_pos he, answer, answer, List.flatMap_cons, List.filter_eq_self.2]
      exact fun r hr => entity_of_mem_answer hr ▸ he
    · rw [List.filter_cons_of_neg he, List.filter_eq_nil_iff.2, List.nil_append]
      exact fun r hr => entity_of_mem_answer hr ▸ he

/-- Among the rows of an answer, those of one entity are what its history shows. -/
theorem filter_answer {ids : List EntityId} (hids : ids.Pairwise (· < ·))
    (hmem : ∀ f ∈ rows, f.entity ∈ ids) : (q.answer ids rows).filter (fun r => r.entity = e) =
      if q.selects e then q.shown (Fact.versions e rows) else [] := by
  rw [filter_entity_answer (fun d => decide (d = e))]
  by_cases he : e ∈ ids
  · have hself : ids.filter (fun d => d = e) = [e] := by
      have hnodup : ids.Nodup := hids.imp ne_of_lt
      rw [List.filter_eq, List.count_eq_one_of_mem hnodup he, List.replicate_one]
    rw [hself, answer, List.flatMap_singleton]
  · have hother : ids.filter (fun d => d = e) = [] :=
      List.filter_eq_nil_iff.2 fun d hd hde => he (of_decide_eq_true hde ▸ hd)
    have hnone : Fact.versions e rows = [] :=
      List.filter_eq_nil_iff.2 fun f hf hfe => he (of_decide_eq_true hfe ▸ hmem f hf)
    rw [hother, hnone]
    simp [answer, shown, shownFrom]

theorem shownDoc?_eq_some_iff {doc : Document} :
    q.shownDoc? f = some doc ↔ f.action = .put doc ∧ q.accepts doc := by
  rw [shownDoc?]
  cases f.action with
  | put doc' =>
    by_cases hacc : q.accepts doc'
    · simp only [hacc, if_true, Option.some_inj, Action.put.injEq]
      constructor
      · rintro rfl
        exact ⟨rfl, hacc⟩
      · exact fun h => h.1
    · simp only [hacc, Bool.false_eq_true, if_false, reduceCtorEq, Action.put.injEq, false_iff]
      rintro ⟨rfl, h⟩
      exact hacc h
  | delete => simp
  | erase => simp

/-- What facts show of an entity at a point: the document of the decisive version. -/
theorem filter_answerAll (hv : q.bounds.valid.holds v) (ht : q.bounds.system.holds t) :
    ((q.answerAll rows).filter fun r => r.entity = e && r.covers v t).map (·.doc) =
      if q.selects e then
        (((Fact.decisive? v t (Fact.versions e (Fact.sort rows))).bind q.shownDoc?).map
          q.project).toList
      else [] := by
  have hordered := Fact.isOrdered_sort rows
  have hentity := filter_answer (q := q) (e := e) hordered.pairwise_entities
    fun f hf => Fact.mem_entities.2 ⟨f, hf, rfl⟩
  rw [OutputRow.filter_entity_covers, answerAll, hentity]
  split
  · exact filter_covers_shown hv ht (hordered.pairwise_versions e)
  · rfl

end Query

namespace Scan

variable {w : BucketWidth} {segs : List MemorySegment} {cut : List (List Fact)}

/-- At every point inside its windows, a scan shows at most one row of an entity. There is one
exactly when the entity is selected and its decisive version is a put whose document satisfies the
predicates, and it carries the columns asked for of this document. -/
theorem collect_visible
    (h : List.Forall₂ (fun rows s => MemorySegment.IsWrittenFrom w rows s) cut segs) (d : Disk)
    (q : Query) : ∃ out, (Scan.collect d (segs.map .memory) q).result = .ok out ∧
      ∀ e v t, q.bounds.valid.holds v → q.bounds.system.holds t →
        (out.filter fun r => r.entity = e && r.covers v t).length ≤ 1 ∧
        ((∃ r ∈ out, r.entity = e ∧ r.covers v t) ↔ q.selects e ∧ ∃ f doc,
          Fact.IsDecisive (Fact.sort cut.flatten) e v t f ∧ f.action = .put doc ∧
            q.accepts doc) ∧
        ∀ r ∈ out, r.entity = e → r.covers v t → ∀ f doc,
          Fact.IsDecisive (Fact.sort cut.flatten) e v t f → f.action = .put doc →
            r.doc = q.project doc := by
  refine ⟨_, collect_memory h d q, fun e v t hv ht => ?_⟩
  have hshown := @Query.filter_answerAll q e cut.flatten v t hv ht
  have hdoc (shown : Document) :
      (∃ r ∈ q.answerAll cut.flatten, (r.entity = e ∧ r.covers v t) ∧ r.doc = shown) ↔
        q.selects e ∧ ∃ f doc, (Fact.IsDecisive (Fact.sort cut.flatten) e v t f ∧
          f.action = .put doc ∧ q.accepts doc) ∧ q.project doc = shown := by
    have hmem := congrArg (shown ∈ ·) hshown
    simp only [List.mem_map, List.mem_filter, Bool.and_eq_true, decide_eq_true_eq, and_assoc,
      eq_iff_iff] at hmem
    simp only [and_assoc, hmem]
    by_cases hselected : q.selects e
    · simp [hselected, Fact.isDecisive_iff, Query.shownDoc?_eq_some_iff, Option.bind_eq_some_iff,
        and_assoc]
    · simp [hselected]
  refine ⟨?_, ?_, fun r hr hre hrc f doc hf hput => ?_⟩
  · have hlength := congrArg List.length hshown
    rw [List.length_map] at hlength
    rw [hlength]
    split
    · exact Option.length_toList_le
    · exact Nat.zero_le _
  · constructor
    · rintro ⟨r, hr, hat⟩
      obtain ⟨hselected, f, doc, hf, -⟩ := (hdoc r.doc).1 ⟨r, hr, hat, rfl⟩
      exact ⟨hselected, f, doc, hf⟩
    · rintro ⟨hselected, f, doc, hf⟩
      obtain ⟨r, hr, hat, -⟩ := (hdoc (q.project doc)).2 ⟨hselected, f, doc, hf, rfl⟩
      exact ⟨r, hr, hat⟩
  · obtain ⟨-, f', doc', ⟨hf', hput', -⟩, hproject⟩ := (hdoc r.doc).1 ⟨r, hr, ⟨hre, hrc⟩, rfl⟩
    rw [Fact.isDecisive_iff] at hf hf'
    obtain rfl := Option.some_inj.1 (hf.symm.trans hf')
    obtain rfl := Action.put.inj (hput.symm.trans hput')
    exact hproject.symm

/-- The earlier put is seen beside the part of valid time that is deleted, not within it. -/
theorem collect_visible_single :
    ∃ out, (Scan.collect .empty [.memory (.single .two Fact.retraction),
        .memory (.single .two Fact.assertion)] {}).result = .ok out ∧
      (∃ r ∈ out, r.entity = .ofNat 1 ∧ r.covers 2 9 ∧ r.doc = .empty) ∧
      ¬ ∃ r ∈ out, r.entity = .ofNat 1 ∧ r.covers 4 9 := by
  obtain ⟨out, hout, h⟩ := collect_visible
    (.cons (MemorySegment.isWrittenFrom_single .two Fact.retraction)
      (.cons (MemorySegment.isWrittenFrom_single .two Fact.assertion) .nil)) .empty {}
  have hsort : Fact.sort [[Fact.retraction], [Fact.assertion]].flatten =
      [Fact.retraction, Fact.assertion] := Fact.sort_eq_self Fact.isOrdered_retraction_assertion
  rw [hsort] at h
  obtain ⟨-, hshown, hdoc⟩ := h (.ofNat 1) 2 9 (by decide) (by decide)
  obtain ⟨-, hhidden, -⟩ := h (.ofNat 1) 4 9 (by decide) (by decide)
  have hassertion : Fact.IsDecisive [Fact.retraction, Fact.assertion] (.ofNat 1) 2 9
      Fact.assertion := ⟨rfl, rfl, rfl, [Fact.retraction], [], rfl, by decide⟩
  refine ⟨out, hout, ?_, ?_⟩
  · obtain ⟨r, hr, he, hc⟩ := hshown.2 ⟨rfl, Fact.assertion, .empty, hassertion, rfl, rfl⟩
    exact ⟨r, hr, he, hc, hdoc r hr he hc _ _ hassertion rfl⟩
  · rw [hhidden]
    rintro ⟨-, f, doc, hf, hput, -⟩
    rw [Fact.isDecisive_iff] at hf
    cases hf
    cases hput

end Scan

end Bitemporal
