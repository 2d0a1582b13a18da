import Mathlib
import Bitemporal.Proofs.Query.Predicate

/-!
# Predicates on integers

Two integers are ordered as they are if both fit 64 bits with a sign, and by their doubles if one
does not. Equality never looks at doubles. So a predicate says of two integers what it says of the
numbers, unless they are tied: different, with one double, and one of them past the signed range.
Tied integers pass every comparison that admits equality, and no strict one.

## Main definitions

* `Number.AreTied`: different integers that are not told apart by order.

## Main statements

* `Number.AreTied.large`: tied integers lie near or past the end of the signed range.
* `Predicate.order?_int`, `Predicate.order?_int_of_areTied`: the order of two integers.
* `Predicate.holds_int`: what a predicate says of an integer.
* `Predicate.not_holds_tied`: a strict comparison that is lost.
-/

namespace Bitemporal

namespace Number

variable {a b : Int}

/-- Different integers that have one double, one of them past the signed integers of 64 bits. -/
structure AreTied (a b : Int) : Prop where
  ne : a ≠ b
  unsigned : 2 ^ 63 ≤ a ∨ 2 ^ 63 ≤ b
  same : (Binary64.ofInt a).signedUnits = (Binary64.ofInt b).signedUnits

/-- The doubles below `2 ^ 63` end at `2 ^ 63 - 1024`, and the integers up to half way from there
are rounded down. -/
theorem AreTied.large (h : AreTied a b) : 2 ^ 63 - 512 ≤ a ∧ 2 ^ 63 - 512 ≤ b := by
  have hgap : (Binary64.ofInt (2 ^ 63 - 513)).signedUnits <
      (Binary64.ofInt (2 ^ 63)).signedUnits := by decide +kernel
  have happart {m n : Int} (hm : m ≤ 2 ^ 63 - 513) (hn : 2 ^ 63 ≤ n) :
      (Binary64.ofInt m).signedUnits < (Binary64.ofInt n).signedUnits :=
    (Binary64.signedUnits_ofInt_mono hm).trans_lt
      (hgap.trans_le (Binary64.signedUnits_ofInt_mono hn))
  have hsame := h.same
  rcases h.unsigned with ha | hb
  · exact ⟨by omega, by_contra fun hb => (happart (by omega) ha).ne hsame.symm⟩
  · exact ⟨by_contra fun ha => (happart (by omega) hb).ne hsame, by omega⟩

/-- The doubles of integers are in the order of the integers, unless different integers share
one. -/
theorem compare_toBinary64
    (h : a ≠ b → (Binary64.ofInt a).signedUnits ≠ (Binary64.ofInt b).signedUnits) :
    (Binary64.ofInt a).compare (Binary64.ofInt b) = compare a b := by
  rw [Binary64.compare]
  rcases lt_trichotomy a b with hlt | rfl | hgt
  · rw [compare_lt_iff_lt.2 hlt, compare_lt_iff_lt]
    exact (Binary64.signedUnits_ofInt_mono hlt.le).lt_of_ne (h hlt.ne)
  · simp
  · rw [compare_gt_iff_gt.2 hgt, compare_gt_iff_gt]
    exact (Binary64.signedUnits_ofInt_mono hgt.le).lt_of_ne (h hgt.ne').symm

end Number

namespace Predicate

open Number

variable {p : Predicate} {doc : Document} {a b : Int}

theorem toSigned?_int (i : Int) :
    (Number.int i).toSigned? = if i < 2 ^ 63 then some i else none := rfl

theorem order?_of_signed (ha : a < 2 ^ 63) (hb : b < 2 ^ 63) :
    order? (.int a) (.int b) = some (compare a b) := by
  simp only [Json.int, order?, toSigned?_int, if_pos ha, if_pos hb]

theorem order?_of_unsigned (h : 2 ^ 63 ≤ a ∨ 2 ^ 63 ≤ b) :
    order? (.int a) (.int b) = some ((Binary64.ofInt a).compare (Binary64.ofInt b)) := by
  simp only [Json.int, order?, toSigned?_int, toBinary64]
  split
  next i j hi hj =>
    simp only [Option.ite_none_right_eq_some] at hi hj
    omega
  · rfl

/-- Integers that are not tied are ordered as they are. -/
theorem order?_int (h : ¬AreTied a b) : order? (.int a) (.int b) = some (compare a b) := by
  by_cases hunsigned : 2 ^ 63 ≤ a ∨ 2 ^ 63 ≤ b
  · rw [order?_of_unsigned hunsigned,
      compare_toBinary64 fun hne hsame => h ⟨hne, hunsigned, hsame⟩]
  · push Not at hunsigned
    exact order?_of_signed hunsigned.1 hunsigned.2

/-- Tied integers are ordered as if they were equal. -/
theorem order?_int_of_areTied (h : AreTied a b) : order? (.int a) (.int b) = some .eq := by
  rw [order?_of_unsigned h.unsigned, Binary64.compare, h.same]
  simp

theorem holds_iff_accepts (hv : doc.get? p.column = some (.int a)) :
    p.holds doc ↔ p.accepts (.int a) := by
  rw [holds, hv, Json.int]

/-- What a comparison by order says of two integers, it says of their order. -/
theorem accepts_iff_of_order {o : Ordering} (hbound : p.bound = .int b)
    (horder : order? (.int a) (.int b) = some o) : p.accepts (.int a) ↔
      match p.comparison with
      | .eq => a = b
      | .ge => o.isGE
      | .gt => o.isGT
      | .le => o.isLE
      | .lt => o.isLT := by
  have hsame : (Json.int a).same (.int b) = (a == b) := by
    simp [Json.int, Json.same, Number.same]
  rw [accepts, hbound]
  cases p.comparison <;> simp [horder, hsame]

/-- A predicate says of an integer what its comparison says of the two numbers, unless it is a
comparison by order and they are tied. Of tied integers it says what admits equality. -/
theorem holds_int (hv : doc.get? p.column = some (.int a)) (hbound : p.bound = .int b) :
    (p.comparison = .eq ∨ ¬AreTied a b → (p.holds doc ↔ p.comparison.Relates a b)) ∧
      (AreTied a b → (p.holds doc ↔ p.comparison = .ge ∨ p.comparison = .le)) := by
  rw [holds_iff_accepts hv]
  by_cases htied : AreTied a b
  · have hne := htied.ne
    rw [accepts_iff_of_order hbound (order?_int_of_areTied htied)]
    cases hcomparison : p.comparison <;> simp [htied, hne, Comparison.Relates]
  · rw [accepts_iff_of_order hbound (order?_int htied)]
    cases hcomparison : p.comparison <;>
      simp [htied, Comparison.Relates, Std.isGE_compare, Std.isLE_compare, compare_gt_iff_gt,
        compare_lt_iff_lt]

/-- The integers about the last gap between the doubles below `2 ^ 63`. -/
theorem holds_int_gap :
    let doc := Document.empty.set "a" (.int (2 ^ 63))
    let p : Predicate := ⟨"a", .gt, .int (2 ^ 63 - 513)⟩
    doc.get? p.column = some (.int (2 ^ 63)) ∧ p.bound = .int (2 ^ 63 - 513) ∧
      ¬AreTied (2 ^ 63) (2 ^ 63 - 513) ∧
      (p.holds doc ↔ p.comparison.Relates (2 ^ 63) (2 ^ 63 - 513)) := by
  intro doc p
  have hclear : ¬AreTied (2 ^ 63) (2 ^ 63 - 513) := fun h => absurd h.large.2 (by decide)
  exact ⟨rfl, rfl, hclear, (holds_int rfl rfl).1 (.inr hclear)⟩

/-- The last signed integer and the first one past it: the greater does not count as greater. -/
theorem not_holds_tied :
    let doc := Document.empty.set "a" (.int (2 ^ 63))
    let p : Predicate := ⟨"a", .gt, .int (2 ^ 63 - 1)⟩
    AreTied (2 ^ 63) (2 ^ 63 - 1) ∧ p.comparison.Relates (2 ^ 63) (2 ^ 63 - 1) ∧
      p.holds doc = false := by
  refine ⟨⟨by decide, .inl le_rfl, by decide +kernel⟩, ?_, by decide +kernel⟩
  show (2 ^ 63 - 1 : Int) < 2 ^ 63
  decide

end Predicate

end Bitemporal
