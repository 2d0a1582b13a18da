import Bitemporal.Page.Summary
import Bitemporal.Trie.Path

/-!
# Selections of entities

A selector narrows a query to some entities. They are kept in ascending order, so the first of
them at or after the least id under a path decides whether any lies under it.

## Main definitions

* `Selector.ofList`: the selector of a list in any order, with repetitions.
* `Selector.selects`: whether an entity is selected.
* `Selector.under?`: whether some selected entity lies under a path.
* `Selector.mayMatch?`: whether a page may hold a selected entity.
-/

namespace Bitemporal

namespace EntityId

theorem lt_trans {a b c : EntityId} (h : a < b) (k : b < c) : a < c :=
  Nat.lt_trans (m := b.bits.toNat) h k

theorem lt_of_not_lt_of_ne {a b : EntityId} (h : ¬ a < b) (hne : a ≠ b) : b < a := by
  have hn : a.bits.toNat ≠ b.bits.toNat := fun e => hne (by
    cases a; cases b; exact congrArg EntityId.mk (BitVec.eq_of_toNat_eq e))
  have h' : ¬ a.bits.toNat < b.bits.toNat := h
  show b.bits.toNat < a.bits.toNat
  omega

/-- Puts an entity in its place among ascending ones; one that is there stays. -/
def insertInto (e : EntityId) : List EntityId → List EntityId
  | [] => [e]
  | x :: rest =>
    if e < x then e :: x :: rest
    else if e = x then x :: rest
    else x :: insertInto e rest

theorem mem_insertInto {e x : EntityId} {ids : List EntityId} :
    x ∈ insertInto e ids ↔ x = e ∨ x ∈ ids := by
  induction ids with
  | nil => simp [insertInto]
  | cons y rest ih => grind [insertInto]

theorem pairwise_insertInto {e : EntityId} {ids : List EntityId} (h : ids.Pairwise (· < ·)) :
    (insertInto e ids).Pairwise (· < ·) := by
  induction ids with
  | nil => simp [insertInto]
  | cons x rest ih =>
    rw [List.pairwise_cons] at h
    unfold insertInto
    split
    · rename_i hlt
      refine List.pairwise_cons.2 ⟨fun y hy => ?_, List.pairwise_cons.2 h⟩
      rcases List.mem_cons.1 hy with rfl | hy
      · exact hlt
      · exact lt_trans hlt (h.1 y hy)
    · split
      · exact List.pairwise_cons.2 h
      · rename_i hlt hne
        refine List.pairwise_cons.2 ⟨fun y hy => ?_, ih h.2⟩
        rcases mem_insertInto.1 hy with rfl | hy
        · exact lt_of_not_lt_of_ne hlt hne
        · exact h.1 y hy

end EntityId

/-- Some entities. -/
structure Selector where
  /-- Their ids. -/
  ids : List EntityId
  /-- They ascend, no id twice. -/
  sorted : ids.Pairwise (· < ·)
deriving Repr

namespace Selector

/-- No entity. -/
def none : Selector := ⟨[], .nil⟩

instance : Inhabited Selector := ⟨none⟩

/-- The selector with one more entity. -/
def add (s : Selector) (e : EntityId) : Selector :=
  ⟨e.insertInto s.ids, EntityId.pairwise_insertInto s.sorted⟩

/-- The selector of entities in any order. -/
def ofList (ids : List EntityId) : Selector := ids.foldl add none

/-- Whether exactly one entity is selected. -/
def isExact (s : Selector) : Bool := s.ids.length = 1

/-- Whether an entity is selected. -/
def selects (s : Selector) (e : EntityId) : Bool := s.ids.contains e

/-- Whether some selected entity lies under a path. -/
def under? (s : Selector) (w : BucketWidth) (path : Path) : Option Bool :=
  match s.ids.find? fun e => w.first path ≤ e with
  | .none => some false
  | some e => (w.compare? e path).map (· = .eq)

/-- Whether some of the entities may be in a filter, asked one after the other. -/
def anyContained? (b : Bloom) : List EntityId → Option Bool
  | [] => some false
  | e :: rest =>
    match b.mightContain? e with
    | .none => .none
    | some true => some true
    | some false => anyContained? b rest

/-- Whether a page may hold a selected entity. -/
def mayMatch? (s : Selector) (p : PageSummary) : Option Bool := anyContained? p.entities s.ids

end Selector

end Bitemporal
