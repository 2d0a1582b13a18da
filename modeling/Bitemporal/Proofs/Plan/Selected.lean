import Mathlib
import Bitemporal.Proofs.Merge.Rows
import Bitemporal.Proofs.Plan.Cover

/-!
# Plans for selected entities

An id under a path is under every prefix of it, so a walk that refuses the paths without a selected
id loses no task below them: it has the tasks of the whole walk whose paths have one.

## Main definitions

* `Selector.halvedSelects?`, `Selector.halvedUnder?`: whether an entity is selected, and whether one
  lies under a path, found by halving.

## Main statements

* `Selector.halvedSelects?_eq`, `Selector.halvedUnder?_eq`: halving finds what a search through all
  selected entities finds.
* `Plan.filterMap_visitsFrom`: a walk that refuses paths has some of the tasks of the whole walk.
* `Plan.ofQuery_selected`: a plan for the entities of a list.
-/

namespace Bitemporal

open scoped Linear

/-! ## Halving the selected entities -/

namespace Selector

/-- The first selected entity from an id on, if there is one, found by halving. -/
def firstFrom? (s : Selector) (x : EntityId) : Option (Option EntityId) :=
  (boundary? (fun i => s.ids[i]?.map (· < x)) s.ids.length).map (s.ids[·]?)

/-- Whether an entity is selected, by the first selected one from it on. -/
def halvedSelects? (s : Selector) (e : EntityId) : Option Bool :=
  (s.firstFrom? e).map (· = some e)

/-- Whether some selected entity lies under a path, by the first selected one from the least id
under it on. -/
def halvedUnder? (s : Selector) (w : BucketWidth) (p : Path) : Option Bool :=
  match s.firstFrom? (w.first p) with
  | .none => .none
  | some .none => some false
  | some (some e) => (w.compare? e p).map (· = .eq)

theorem exists_append_of_pairwise {ids : List EntityId} (h : ids.Pairwise (· < ·)) (x : EntityId) :
    ∃ before after, ids = before ++ after ∧ (∀ e ∈ before, e < x) ∧ ∀ e ∈ after, x ≤ e := by
  induction ids with
  | nil => exact ⟨[], [], rfl, by simp, by simp⟩
  | cons e ids ih =>
    rw [List.pairwise_cons] at h
    rcases lt_or_ge e x with hlt | hge
    · obtain ⟨before, after, rfl, hbefore, hafter⟩ := ih h.2
      exact ⟨e :: before, after, rfl, List.forall_mem_cons.2 ⟨hlt, hbefore⟩, hafter⟩
    · refine ⟨[], e :: ids, rfl, by simp, List.forall_mem_cons.2 ⟨hge, fun d hd => ?_⟩⟩
      exact hge.trans (h.1 d hd).le

/-- Halving finds the first selected entity from an id on, since all before it are less. -/
theorem firstFrom?_eq (s : Selector) (x : EntityId) :
    s.firstFrom? x = some (s.ids.find? fun e => x ≤ e) := by
  obtain ⟨before, after, hids, hbefore, hafter⟩ := exists_append_of_pairwise s.sorted x
  have hnone : before.find? (fun e => x ≤ e) = .none :=
    List.find?_eq_none.2 fun e he => by simpa using hbefore e he
  have hposition := boundary?_eq_length (fun e => some (decide (e < x))) before after
    (fun e he => by simp [hbefore e he]) (fun e he => by simp [not_lt.2 (hafter e he)])
  rw [firstFrom?, hids, List.find?_append, hnone, Option.none_or]
  simp only [Option.map_eq_bind, Function.comp_def]
  rw [hposition, Option.bind_some, List.getElem?_append_right le_rfl, Nat.sub_self]
  cases after with
  | nil => rfl
  | cons e after => simp [hafter e (.head _)]

theorem halvedSelects?_eq (s : Selector) (e : EntityId) :
    s.halvedSelects? e = some (s.selects e) := by
  rw [halvedSelects?, firstFrom?_eq, Option.map_some, Option.some_inj, selects, Bool.eq_iff_iff,
    decide_eq_true_iff, List.contains_iff_mem]
  constructor
  · exact List.mem_of_find?_eq_some
  · intro he
    cases hfind : s.ids.find? fun d => e ≤ d with
    | none => exact absurd (decide_eq_true le_rfl) (List.find?_eq_none.1 hfind e he)
    | some d =>
      have hde := le_of_find?_eq_some hfind he (decide_eq_true le_rfl)
      have hed : e ≤ d := by simpa using List.find?_some hfind
      rw [le_antisymm hde hed]

theorem halvedUnder?_eq (s : Selector) (w : BucketWidth) (p : Path) :
    s.halvedUnder? w p = s.under? w p := by
  rw [halvedUnder?, under?, firstFrom?_eq]
  cases s.ids.find? fun e => w.first p ≤ e <;> rfl

end Selector

namespace Plan

variable {w : BucketWidth} {segments : List Segment} {accept sought : Path → Bool} {p : Path}
  {height : Nat} {kept : Path → List PageRef}

/-! ## Walks that refuse paths -/

theorem path_of_taskFor {v : Visit} {t : MergeTask} (h : taskFor kept v = some t) :
    t.path = v.path := by
  rw [taskFor] at h
  split_ifs at h
  cases h
  rfl

/-- A walk that accepts the paths that are sought, and with a path all its prefixes, has the tasks
of the whole walk at these paths. Where a path is refused, none is sought below it. -/
theorem filterMap_visitsFrom (hclosed : ∀ {q r : Path}, q <+: r → sought r → sought q)
    (haccept : ∀ q, q.length ≤ p.length + height → accept q = sought q) :
    (visitsFrom w accept height (partsAt segments p) p).filterMap (taskFor kept) =
      ((visitsFrom w (fun _ => true) height (partsAt segments p) p).filterMap
        (taskFor kept)).filter fun t => sought t.path := by
  induction height using Nat.strong_induction_on generalizing p with
  | h height ih =>
    have hp : accept p = sought p := haccept p (by omega)
    by_cases hsought : sought p
    swap
    · have hrefused : ¬ accept p := by rwa [hp]
      rw [visitsFrom_of_refused hrefused]
      refine (List.filter_eq_nil_iff.2 fun t ht hpath => ?_).symm
      obtain ⟨v, hv, ht⟩ := List.mem_filterMap.1 ht
      exact hsought (hclosed (pairwise_visitsFrom.1 v hv) (path_of_taskFor ht ▸ hpath))
    have haccepted : accept p := by rwa [hp]
    by_cases hleaf : ∀ part ∈ partsAt segments p, part.node.isLeaf
    · rw [visitsFrom_of_leaves haccepted hleaf, visitsFrom_of_leaves rfl hleaf]
      refine (List.filter_eq_self.2 fun t ht => ?_).symm
      obtain ⟨v, hv, ht⟩ := List.mem_filterMap.1 ht
      obtain rfl := List.mem_singleton.1 hv
      rwa [path_of_taskFor ht]
    cases height with
    | zero =>
      rw [visitsFrom_zero haccepted hleaf, visitsFrom_zero rfl hleaf]
      rfl
    | succ n =>
      have hnone : taskFor kept ⟨p, none⟩ = none := rfl
      rw [visitsFrom_succ haccepted hleaf, visitsFrom_succ rfl hleaf, List.filterMap_cons, hnone,
        List.filterMap_cons, hnone]
      dsimp only
      rw [List.filterMap_flatMap, List.filterMap_flatMap, List.filter_flatMap]
      apply List.flatMap_congr
      intro b _
      split
      · rfl
      · exact ih n n.lt_succ_self fun q hq => haccept q (by simp at hq; omega)

/-- The tasks of a walk from the root that accepts the paths that are sought. -/
theorem tasks_eq_filter (hheight : ∀ s ∈ segments, s.trie.root.height ≤ w.maxDepth)
    (hclosed : ∀ {q r : Path}, q <+: r → sought r → sought q)
    (haccept : ∀ q, q.length ≤ w.maxDepth → accept q = sought q) :
    (visits w segments accept).filterMap (taskFor kept) =
      ((visits w segments fun _ => true).filterMap (taskFor kept)).filter
        fun t => sought t.path := by
  rw [visits, visits, roots_eq]
  split
  · rfl
  · refine filterMap_visitsFrom hclosed fun q hq => haccept q (hq.trans ?_)
    rw [List.length_nil, Nat.zero_add]
    exact foldl_height_le hheight

/-! ## Plans for a list of entities -/

/-- A list of entities in any order, with repetitions, or an empty one. Its selector selects its
elements. Under a path that fits an id, whatever its buckets are, it finds one exactly if one of
them lies there. Both answers are also found by halving. Over segments in memory with regular tries,
the plan of a query for these entities has the tasks of the plan over every page whose paths have
one of them, in the same order and with the same pages. -/
theorem ofQuery_selected (ids : List EntityId) (w : BucketWidth) :
    (∀ e, ((Selector.ofList ids).selects e = true ↔ e ∈ ids) ∧
      (Selector.ofList ids).halvedSelects? e = some ((Selector.ofList ids).selects e)) ∧
    (∀ p : Path, p.length ≤ w.maxDepth →
      (Selector.ofList ids).under? w p = some (ids.any (EntityId.isUnder w p)) ∧
      (Selector.ofList ids).halvedUnder? w p = some (ids.any (EntityId.isUnder w p))) ∧
    ∀ segments, (∀ s ∈ segments, s.width = w ∧ s.trie.IsRegular ∧ ∃ m, s = .memory m) →
      ∀ q : Query, ∃ tasks, (Plan.all segments).result = .ok tasks ∧
        (ofQuery segments { q with selector := some (.ofList ids) }).result =
          .ok (tasks.filter fun t => ids.any (EntityId.isUnder w t.path)) := by
  have hunder (p : Path) (hp : p.length ≤ w.maxDepth) :
      (Selector.ofList ids).under? w p = some (ids.any (EntityId.isUnder w p)) := by
    rw [Selector.under?_eq _ hp, Selector.any_ofList]
  refine ⟨fun e => ⟨?_, Selector.halvedSelects?_eq _ e⟩, fun p hp => ⟨hunder p hp, ?_⟩,
    fun segments h q => ?_⟩
  · rw [Selector.selects, List.contains_iff_mem, Selector.mem_ofList]
  · rw [Selector.halvedUnder?_eq, hunder p hp]
  by_cases hne : segments = []
  · subst hne
    exact ⟨[], rfl, rfl⟩
  have hwidth : ∀ s ∈ segments, s.width = w := fun s hs => (h s hs).1
  have hheight : ∀ s ∈ segments, s.trie.root.height ≤ w.maxDepth := by
    intro s hs
    obtain ⟨rfl, hregular, -⟩ := h s hs
    exact hregular.height_le
  have hclosed {q r : Path} (hqr : q <+: r) (hr : ids.any (EntityId.isUnder w r)) :
      ids.any (EntityId.isUnder w q) := by
    rw [List.any_eq_true] at hr ⊢
    exact hr.imp fun e he => ⟨he.1, EntityId.isUnder_of_prefix hqr he.2⟩
  have hasks (p : Path) (hp : p.length ≤ w.maxDepth) :
      (asksUnder segments { q with selector := some (.ofList ids) } p).getD true =
        ids.any (EntityId.isUnder w p) := by
    rw [asksUnder, width_head hwidth hne]
    exact congrArg (·.getD true) (hunder p hp)
  refine ⟨_, (all_yields hwidth hheight).result, ?_⟩
  rw [← tasks_eq_filter hheight hclosed hasks]
  exact (ofQuery_memory_yields hwidth hheight (fun s hs => (h s hs).2.2) hne _).result

/-- One id, named twice, of a trie with two leaves. No bucket of two bits is 4, though the bits of 4
that count are those of the id. -/
theorem ofQuery_selected_twice :
    (Selector.ofList [.ofNat 0, .ofNat 0]).under? .two [4] = some false ∧
    (ofQuery [.memory ⟨"branch", ⟨.branch [.leaf 0, .absent, .absent, .leaf 1], .two⟩, []⟩]
      { selector := some (.ofList [.ofNat 0, .ofNat 0]) }).result =
        .ok [⟨[0], [⟨0, 0⟩]⟩] := by
  have hmemory : ∀ s ∈ [Segment.memory
      ⟨"branch", ⟨.branch [.leaf 0, .absent, .absent, .leaf 1], .two⟩, []⟩],
      s.width = .two ∧ s.trie.IsRegular ∧ ∃ m, s = .memory m := by
    simp [Segment.width, Segment.trie, HashTrie.IsRegular, Trie.IsRegular, Trie.AreRegular,
      BucketWidth.maxDepth, BucketWidth.bits, BucketWidth.fanOut]
  obtain ⟨-, hunder, hplans⟩ := ofQuery_selected [.ofNat 0, .ofNat 0] .two
  obtain ⟨tasks, htasks, hselected⟩ := hplans _ hmemory {}
  obtain rfl : [⟨[0], [⟨0, 0⟩]⟩, ⟨[3], [⟨0, 1⟩]⟩] = tasks := Except.ok.inj htasks
  exact ⟨(hunder [4] (by decide)).1, hselected⟩

end Plan

end Bitemporal
