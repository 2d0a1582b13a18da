import Mathlib
import Bitemporal.Proofs.Trie.Interval
import Bitemporal.Query.Selector

/-!
# Selected entities under a path

The least id under a path bounds the ids under it from below, and an id between this bound and an
id under the path is under it too. The first selected entity from the bound on therefore decides
whether any selected entity is under the path.

## Main statements

* `BucketWidth.first_le_of_isUnder`, `BucketWidth.isUnder_of_first_le`: the ids under a path and
  its least id.
* `Selector.under?_of_selects`: a selected entity is found under each of its paths.
* `Selector.under?_eq`: the answer for paths that fit an id.
-/

namespace Bitemporal

open scoped Linear

namespace BucketWidth

variable {w : BucketWidth} {e d : EntityId} {p : Path}

/-- Ids lie under paths with buckets in range only. -/
theorem lt_fanOut_of_isUnder (h : e.isUnder w p) : ∀ b ∈ p, b < w.fanOut := by
  intro b hb
  exact EntityId.lt_fanOut_of_mem_path ((EntityId.isUnder_iff.1 h).subset hb)

/-- The ids under a path are no less than its least id. -/
theorem first_le_of_isUnder (h : e.isUnder w p) : w.first p ≤ e := by
  have hlen := EntityId.length_le_of_isUnder h
  have hplace := (EntityId.isUnder_iff_place hlen).1 h
  rw [← not_lt, ← place_eq_lt_iff hlen (lt_fanOut_of_isUnder h), hplace]
  decide

/-- What lies between the least id of a path and an id under the path is under it. -/
theorem isUnder_of_first_le (h : e.isUnder w p) (hfirst : w.first p ≤ d) (hd : d ≤ e) :
    d.isUnder w p := by
  have hlen := EntityId.length_le_of_isUnder h
  have hbefore := place_eq_lt_iff (e := d) hlen (lt_fanOut_of_isUnder h)
  have hmono := place_mono hd hlen
  rw [EntityId.isUnder_iff_place hlen] at h ⊢
  cases hplace : w.place d 0 p with
  | eq => rfl
  | gt => simp [hmono.2 hplace] at h
  | lt => exact absurd (hbefore.1 hplace) (not_lt.2 hfirst)

end BucketWidth

namespace Selector

variable {s : Selector} {w : BucketWidth} {e d : EntityId} {p : Path}

/-- The first selected entity that satisfies a condition is the least one that does. -/
theorem le_of_find?_eq_some {f : EntityId → Bool} (hfind : s.ids.find? f = some d)
    (he : e ∈ s.ids) (hf : f e) : d ≤ e := by
  obtain ⟨-, before, after, hids, hbefore⟩ := List.find?_eq_some_iff_append.1 hfind
  rw [hids, List.mem_append, List.mem_cons] at he
  rcases he with he | rfl | he
  · simpa [hf] using hbefore e he
  · exact le_rfl
  · have hsorted := s.sorted
    rw [hids] at hsorted
    exact ((List.pairwise_cons.1 (List.pairwise_append.1 hsorted).2.1).1 e he).le

/-- A selected entity is found under each of its paths. -/
theorem under?_of_selects (hs : s.selects e) (he : e.isUnder w p) : s.under? w p = some true := by
  have hmem : e ∈ s.ids := List.contains_iff_mem.1 hs
  have hfirst : decide (w.first p ≤ e) := decide_eq_true (BucketWidth.first_le_of_isUnder he)
  rw [under?]
  cases hfind : s.ids.find? fun e => w.first p ≤ e with
  | none => exact absurd hfirst (List.find?_eq_none.1 hfind e hmem)
  | some d =>
    have hle := le_of_find?_eq_some hfind hmem hfirst
    have hd : w.first p ≤ d := by simpa using List.find?_some hfind
    have hunder := BucketWidth.isUnder_of_first_le he hd hle
    rw [EntityId.isUnder_iff_compare? (EntityId.length_le_of_isUnder he)] at hunder
    simp [hunder]

/-- The answer for a path that fits an id, whatever its buckets are. -/
theorem under?_eq (s : Selector) (hp : p.length ≤ w.maxDepth) :
    s.under? w p = some (s.ids.any (EntityId.isUnder w p)) := by
  cases hany : s.ids.any (EntityId.isUnder w p) with
  | true =>
    obtain ⟨e, he, hunder⟩ := List.any_eq_true.1 hany
    exact under?_of_selects (List.contains_iff_mem.2 he) hunder
  | false =>
    rw [under?]
    cases hfind : s.ids.find? fun e => w.first p ≤ e with
    | none => rfl
    | some d =>
      have hd : ¬ d.isUnder w p := List.any_eq_false.1 hany d (List.mem_of_find?_eq_some hfind)
      rw [EntityId.isUnder_iff_place hp] at hd
      simp [BucketWidth.compare?_eq_place hp, hd]

/-- The selector of a list has its elements, in any order and with repetitions. -/
@[simp] theorem mem_ofList {ids : List EntityId} : e ∈ (ofList ids).ids ↔ e ∈ ids := by
  have hfold (s : Selector) : e ∈ (ids.foldl add s).ids ↔ e ∈ s.ids ∨ e ∈ ids := by
    induction ids generalizing s with
    | nil => simp
    | cons x ids ih =>
      have hadd : e ∈ (s.add x).ids ↔ e = x ∨ e ∈ s.ids := EntityId.mem_insertInto
      rw [List.foldl_cons, ih, hadd, List.mem_cons, or_assoc, or_left_comm]
  rw [ofList, hfold]
  simp [Selector.none]

theorem any_ofList {ids : List EntityId} (f : EntityId → Bool) :
    (ofList ids).ids.any f = ids.any f := by
  rw [Bool.eq_iff_iff]
  simp

end Selector

end Bitemporal
