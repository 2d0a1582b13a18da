import Mathlib
import Bitemporal.Fact.Basic
import Bitemporal.Time.Window

/-!
# Linear orders

Instants and ids are linearly ordered. Facts are ordered by their keys: ascending ids, and
descending system times within one id. Two facts of one key precede each other, so this order of
facts is total and transitive but tells no two versions of one system time apart.

## Main statements

* `Fact.before_iff`: the order of facts by their keys.
* `Fact.before_trans`, `Fact.before_total`: it is a total preorder.
-/

namespace Bitemporal

/-! ## Instants -/

namespace Linear

/-- The order of instants. -/
scoped instance instant : LinearOrder Int64 where
  le_refl _ := Std.le_refl _
  le_trans _ _ _ := Std.le_trans
  le_antisymm _ _ := Std.le_antisymm
  le_total _ _ := Std.le_total
  lt_iff_le_not_ge _ _ := Std.lt_iff_le_and_not_ge
  toDecidableLE := inferInstance
  toDecidableLT := inferInstance
  toDecidableEq := inferInstance
  min_def _ _ := rfl
  max_def _ _ := rfl

end Linear

open scoped Linear

namespace Instant

@[simp] theorem start_le (t : Instant) : start ≤ t := Int64.minValue_le t

@[simp] theorem le_never (t : Instant) : t ≤ never := Int64.le_maxValue t

theorem not_lt_start (t : Instant) : ¬ t < start := not_lt.2 (start_le t)

end Instant

/-! ## Ids -/

namespace EntityId

theorem ext_toNat {a b : EntityId} (h : a.bits.toNat = b.bits.toNat) : a = b := by
  cases a
  cases b
  exact congrArg EntityId.mk (BitVec.eq_of_toNat_eq h)

theorem le_iff {a b : EntityId} : a ≤ b ↔ a.bits.toNat ≤ b.bits.toNat := Iff.rfl

end EntityId

/-- The order of ids. -/
scoped instance Linear.entity : LinearOrder EntityId where
  le_refl a := Nat.le_refl a.bits.toNat
  le_trans a b c := Nat.le_trans (m := b.bits.toNat)
  le_antisymm _ _ h k := EntityId.ext_toNat (Nat.le_antisymm h k)
  le_total a b := Nat.le_total a.bits.toNat b.bits.toNat
  lt_iff_le_not_ge a b := Nat.lt_iff_le_and_not_ge
  toDecidableLE := inferInstance
  toDecidableLT := inferInstance
  toDecidableEq := inferInstance

/-! ## Facts -/

namespace Fact

variable {a b c : Fact}

theorem before_iff : a.before b ↔
    a.entity < b.entity ∨ a.entity = b.entity ∧ b.systemFrom ≤ a.systemFrom := by
  simp [before]

theorem before_trans (hab : a.before b) (hbc : b.before c) : a.before c := by
  simp only [before_iff] at *
  grind

theorem before_total (a b : Fact) : a.before b || b.before a := by
  rw [Bool.or_eq_true, before_iff, before_iff]
  grind

theorem entity_le_of_before (h : a.before b) : a.entity ≤ b.entity := by
  rw [before_iff] at h
  grind

/-- Within one entity, the order is that of system times, newest first. -/
theorem before_iff_of_entity_eq (h : a.entity = b.entity) :
    a.before b ↔ b.systemFrom ≤ a.systemFrom := by
  simp [before_iff, h]

end Fact

end Bitemporal
