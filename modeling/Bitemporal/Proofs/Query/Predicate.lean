import Mathlib
import Bitemporal.Proofs.Number.Binary64
import Bitemporal.Proofs.Page.Columns
import Bitemporal.Query.Predicate

/-!
# Testing a page by its numbers

The range of a column holds the nearest double of every number in it. Rounding keeps the order of
integers but may make different ones equal, so a page that has a row to show is never ruled out by
a comparison that admits equality. A strict one rules a page out wrongly where all its integers that
satisfy it share the double of the bound.

## Main definitions

* `NumberRange.Holds`: a number lies within a range.
* `Predicate.IsBlurred`: a strict comparison of two integers that share a double.

## Main statements

* `Page.exists_range?_summary`: the range of a column holds its numbers.
* `Predicate.mayHold_of_holds`: what holds of a row may hold of its page.
* `Predicate.not_mayHold_blurred`: a row that is missed.
-/

namespace Bitemporal

/-! ## The range of a column -/

namespace NumberRange

variable {r : NumberRange} {x y : Binary64}

/-- A number lies within a range. -/
structure Holds (r : NumberRange) (x : Binary64) : Prop where
  least : r.least.signedUnits ≤ x.signedUnits
  greatest : x.signedUnits ≤ r.greatest.signedUnits

theorem min_signedUnits (x y : Binary64) :
    (x.min y).signedUnits = min x.signedUnits y.signedUnits := by
  rw [Binary64.min, Binary64.lt]
  split <;> simp_all [le_of_lt]

theorem max_signedUnits (x y : Binary64) :
    (x.max y).signedUnits = max x.signedUnits y.signedUnits := by
  rw [Binary64.max, Binary64.lt]
  split <;> simp_all [le_of_lt]

theorem holds_add (r : Option NumberRange) (x : Binary64) : (add r x).Holds x := by
  cases r with
  | none => exact ⟨le_rfl, le_rfl⟩
  | some r => exact ⟨by simp [add, min_signedUnits], by simp [add, max_signedUnits]⟩

theorem Holds.add (h : r.Holds y) (x : Binary64) : (NumberRange.add (some r) x).Holds y :=
  ⟨by simp [NumberRange.add, min_signedUnits, h.least],
    by simp [NumberRange.add, max_signedUnits, h.greatest]⟩

theorem Holds.foldl (h : r.Holds y) (xs : List Binary64) :
    ∃ s, xs.foldl (fun r x => some (NumberRange.add r x)) (some r) = some s ∧ s.Holds y := by
  induction xs generalizing r with
  | nil => exact ⟨r, rfl, h⟩
  | cons x xs ih => exact ih (h.add x)

theorem exists_foldl {xs : List Binary64} (hx : x ∈ xs) (r : Option NumberRange) :
    ∃ s, xs.foldl (fun r x => some (NumberRange.add r x)) r = some s ∧ s.Holds x := by
  induction xs generalizing r with
  | nil => cases hx
  | cons y xs ih =>
    rcases List.mem_cons.1 hx with rfl | hx
    · exact (holds_add r x).foldl xs
    · exact ih hx _

end NumberRange

namespace Page

variable {pg : Page} {f : Fact} {name : String} {v : Json} {x : Binary64}

/-- The range of a column holds every number in it. -/
theorem exists_range?_summary (hf : f ∈ pg.rows) (hv : f.doc.get? name = some v)
    (hx : v.toBinary64? = some x) (bloomBits : Nat) :
    ∃ r, (pg.summary bloomBits).range? name = some r ∧ r.Holds x := by
  have hname : name ∈ pg.columnNames :=
    mem_columnNames hf (List.mem_map_of_mem (Document.get?_eq_some_iff.1 hv))
  rw [PageSummary.range?, summary, lookup_filterMap, if_pos hname, numberRange?]
  refine NumberRange.exists_foldl ?_ none
  exact List.mem_filterMap.2 ⟨some v, List.mem_map.2 ⟨f, hf, hv⟩, hx⟩

end Page

/-! ## Comparisons -/

namespace Comparison

variable {c : Comparison} {m n : Int}

/-- What a comparison says of two numbers. -/
def Relates : Comparison → Int → Int → Prop
  | .eq, m, n => m = n
  | .ge, m, n => n ≤ m
  | .gt, m, n => n < m
  | .le, m, n => m ≤ n
  | .lt, m, n => m < n

/-- Whether a comparison tells equal numbers apart. -/
def IsStrict (c : Comparison) : Prop := c = .gt ∨ c = .lt

/-- Rounding keeps what a comparison says, but a strict one may be lost. -/
theorem Relates.signedUnits_ofInt (h : c.Relates m n)
    (hapart : c.IsStrict → m ≠ n →
      (Binary64.ofInt m).signedUnits ≠ (Binary64.ofInt n).signedUnits) :
    c.Relates (Binary64.ofInt m).signedUnits (Binary64.ofInt n).signedUnits := by
  cases c with
  | eq => exact congrArg (fun i => (Binary64.ofInt i).signedUnits) h
  | ge => exact Binary64.signedUnits_ofInt_mono h
  | gt =>
    have hlt : n < m := h
    exact (Binary64.signedUnits_ofInt_mono hlt.le).lt_of_ne (hapart (.inl rfl) hlt.ne').symm
  | le => exact Binary64.signedUnits_ofInt_mono h
  | lt =>
    have hlt : m < n := h
    exact (Binary64.signedUnits_ofInt_mono hlt.le).lt_of_ne (hapart (.inr rfl) hlt.ne)

end Comparison

namespace Predicate

variable {p : Predicate} {doc : Document} {v : Json} {b : Number} {pg : Page} {f : Fact}

/-- A strict comparison of two different integers that share a double. -/
def IsBlurred (p : Predicate) (doc : Document) : Prop :=
  p.comparison.IsStrict ∧ ∃ i j, doc.get? p.column = some (.int i) ∧ p.bound = .int j ∧
    i ≠ j ∧ (Binary64.ofInt i).signedUnits = (Binary64.ofInt j).signedUnits

/-- Different integers that share a double have 54 bits or more. -/
theorem IsBlurred.large (h : p.IsBlurred doc) : ∃ i j, doc.get? p.column = some (.int i) ∧
    p.bound = .int j ∧ 2 ^ 53 ≤ i.natAbs ∧ 2 ^ 53 ≤ j.natAbs := by
  obtain ⟨-, i, j, hv, hbound, hne, hsame⟩ := h
  refine ⟨i, j, hv, hbound, ?_⟩
  by_contra hsmall
  rcases hne.lt_or_gt with hlt | hgt
  · exact (Binary64.signedUnits_ofInt_lt hlt (by omega)).ne hsame
  · exact (Binary64.signedUnits_ofInt_lt hgt (by omega)).ne' hsame

/-- Only numbers are ordered with a number: integers by their value, all others by their doubles. -/
theorem of_order? {good : Ordering → Bool} (h : (order? v (.number b)).any good) :
    ∃ a, v = .number a ∧ ((∃ i j, a = .int i ∧ b = .int j ∧ good (compare i j)) ∨
      good (compare a.toBinary64.signedUnits b.toBinary64.signedUnits)) := by
  cases v with
  | number a =>
    refine ⟨a, rfl, ?_⟩
    rw [order?] at h
    split at h
    next i j hi hj =>
      left
      cases a <;> cases b <;> simp_all [Number.toSigned?]
    next => exact .inr h
  | _ => simp [order?] at h

/-- What is accepted under a numeric bound is a number. Two integers are related as the comparison
says, and so are the doubles of all others. -/
theorem relates_of_accepts (hbound : p.bound = .number b) (h : p.accepts v) :
    ∃ a, v = .number a ∧
      ((∃ i j, a = .int i ∧ b = .int j ∧ p.comparison.Relates i j) ∨
        p.comparison.Relates a.toBinary64.signedUnits b.toBinary64.signedUnits) := by
  rw [accepts, hbound] at h
  cases hcomparison : p.comparison <;> rw [hcomparison] at h
  case eq =>
    cases v with
    | number a =>
      refine ⟨a, rfl, ?_⟩
      cases a <;> cases b <;> simp_all [Json.same, Number.same, Binary64.same, Number.toBinary64,
        Comparison.Relates]
    | _ => simp [Json.same] at h
  case ge => simpa [Comparison.Relates, Std.isGE_compare] using of_order? h
  case gt => simpa [Comparison.Relates, compare_gt_iff_gt] using of_order? h
  case le => simpa [Comparison.Relates, Std.isLE_compare] using of_order? h
  case lt => simpa [Comparison.Relates, compare_lt_iff_lt] using of_order? h

/-- A double within the range of a column and related to the bound lets the page pass. -/
theorem mayHold_of_relates {s : PageSummary} {r : NumberRange} {x : Binary64}
    (hbound : p.bound = .number b) (hrange : s.range? p.column = some r) (hx : r.Holds x)
    (h : p.comparison.Relates x.signedUnits b.toBinary64.signedUnits) : p.mayHold s := by
  obtain ⟨hleast, hgreatest⟩ := hx
  simp only [mayHold, hbound, Json.toBinary64?, hrange]
  cases hcomparison : p.comparison <;> rw [hcomparison] at h <;>
    simp only [Comparison.Relates] at h <;> simp [Binary64.le, Binary64.lt] <;> omega

/-- A predicate that holds of a row may hold of its page, unless it is a strict comparison of two
different integers that share a double. -/
theorem mayHold_of_holds (hf : f ∈ pg.rows) (hput : f.action = .put doc) (h : p.holds doc)
    (hclear : ¬p.IsBlurred doc) (bloomBits : Nat) : p.mayHold (pg.summary bloomBits) := by
  have hdoc : f.doc = doc := by rw [Fact.doc, hput]
  obtain ⟨v, hv, haccepts⟩ : ∃ v, doc.get? p.column = some v ∧ p.accepts v := by
    rw [holds] at h
    split at h
    · cases h
    · cases h
    next v _ hv => exact ⟨v, hv, h⟩
  cases hbound : p.bound with
  | number b =>
    obtain ⟨a, rfl, hrelates⟩ := relates_of_accepts hbound haccepts
    obtain ⟨r, hrange, ha⟩ := Page.exists_range?_summary hf (hdoc ▸ hv) rfl bloomBits
    refine mayHold_of_relates hbound hrange ha ?_
    rcases hrelates with ⟨i, j, rfl, rfl, hrelates⟩ | hrelates
    · exact hrelates.signedUnits_ofInt fun hstrict hne hsame =>
        hclear ⟨hstrict, i, j, hv, hbound, hne, hsame⟩
    · exact hrelates
  | _ => simp [mayHold, hbound, Json.toBinary64?]

/-- A strict bound on integers of few bits. -/
theorem mayHold_of_holds_small :
    let doc := Document.empty.set "a" (.int 5)
    let page : Page := ⟨[⟨.ofNat 1, .start, .never, 5, .put doc⟩]⟩
    let p : Predicate := ⟨"a", .gt, .int 4⟩
    p.holds doc ∧ ¬p.IsBlurred doc ∧ p.mayHold (page.summary 64) := by
  intro doc page p
  have hclear : ¬p.IsBlurred doc := by
    intro h
    obtain ⟨i, j, -, hbound, -, hlarge⟩ := h.large
    obtain rfl : 4 = j := by simpa [p, Json.int] using hbound
    exact absurd hlarge (by decide)
  have hholds : p.holds doc := by decide +kernel
  exact ⟨hholds, hclear, mayHold_of_holds (List.mem_singleton.2 rfl) rfl hholds hclear 64⟩

/-- The first two integers that share a double: the greater one is missed by a strict bound. -/
theorem not_mayHold_blurred :
    let doc := Document.empty.set "a" (.int (2 ^ 53 + 1))
    let page : Page := ⟨[⟨.ofNat 1, .start, .never, 5, .put doc⟩]⟩
    let p : Predicate := ⟨"a", .gt, .int (2 ^ 53)⟩
    p.holds doc ∧ p.IsBlurred doc ∧ p.mayHold (page.summary 64) = false := by
  refine ⟨by decide +kernel, ?_, by decide +kernel⟩
  exact ⟨.inl rfl, 2 ^ 53 + 1, 2 ^ 53, rfl, rfl, by decide, by decide +kernel⟩

end Predicate

end Bitemporal
