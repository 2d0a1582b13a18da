import Mathlib
import Bitemporal.Proofs.Page.Bloom
import Bitemporal.Query.Basic

/-!
# Asking filters

To ask a filter for an entity takes a remainder by its number of bits and the words at which its
bits stand, so it can go wrong in two ways. Only one of them occurs: a word that is asked for is
always there, and the remainder is by zero exactly for a filter without words.

## Main definitions

* `Bloom.Fault`: what can go wrong.
* `Bloom.ask`, `Selector.ask`, `Query.test`: the questions to a filter and to a page, step by step.
* `Query.Asks`: whether a query comes to ask the filter of a page.

## Main statements

* `Query.test_eq`: the answers, step by step, are those of the query.
* `Query.test_eq_error_iff`: when a test goes wrong, and how.
-/

namespace Bitemporal

namespace Bloom

/-- What can go wrong with a question to a filter. -/
inductive Fault where
  /-- A remainder by zero. -/
  | division
  /-- A word that is not there. -/
  | index
deriving DecidableEq, Repr

/-- Whether the bit of a hash value is set. -/
def probe (b : Bloom) (h : UInt64) : Except Fault Bool :=
  if b.bitCount = 0 then .error .division
  else
    let position := h.toNat % b.bitCount
    match b.words[position / 64]? with
    | none => .error .index
    | some x => .ok (x &&& (1 <<< UInt64.ofNat (position % 64)) ≠ 0)

/-- Whether the bits of an entity are set, up to the first that is not. -/
def ask (b : Bloom) (e : EntityId) : Except Fault Bool := (hashes e).allM b.probe

variable {b : Bloom} {e : EntityId} {α ε : Type} {f : α → Except ε Bool} {g : α → Bool}
  {xs : List α}

theorem allM_eq_ok (h : ∀ x ∈ xs, f x = .ok (g x)) : xs.allM f = .ok (xs.all g) := by
  induction xs with
  | nil => rfl
  | cons x xs ih =>
    rw [List.forall_mem_cons] at h
    rw [List.allM_cons, h.1, ih h.2, List.all_cons]
    cases g x <;> rfl

theorem anyM_eq_ok (h : ∀ x ∈ xs, f x = .ok (g x)) : xs.anyM f = .ok (xs.any g) := by
  induction xs with
  | nil => rfl
  | cons x xs ih =>
    rw [List.forall_mem_cons] at h
    rw [List.anyM_cons, h.1, ih h.2, List.any_cons]
    cases g x <;> rfl

theorem bitCount_eq_zero_iff : b.bitCount = 0 ↔ b.words = [] := by
  rw [← List.length_eq_zero_iff, bitCount]
  omega

/-- A filter with words has the word of every bit. -/
theorem probe_eq_ok (h : b.words ≠ []) (x : UInt64) :
    b.probe x = .ok (testBit b.words (x.toNat % b.bitCount)) := by
  have hpos : 0 < b.bitCount := Nat.pos_of_ne_zero (bitCount_eq_zero_iff.not.2 h)
  have hlt : x.toNat % b.bitCount / 64 < b.words.length := by
    have := Nat.mod_lt x.toNat hpos
    rw [bitCount] at this ⊢
    omega
  rw [probe, if_neg hpos.ne']
  simp only [List.getElem?_eq_getElem hlt, testBit, List.getD_eq_getElem?_getD, Option.getD_some]

/-- A question is answered, or it goes wrong with a remainder by zero. -/
theorem ask_eq (b : Bloom) (e : EntityId) :
    b.ask e = (b.mightContain? e).elim (.error .division) .ok := by
  by_cases h : b.words = []
  · have hprobe : b.probe e.high = .error .division := if_pos (bitCount_eq_zero_iff.2 h)
    have hnone : b.mightContain? e = none := by simp [mightContain?, probes?, h]
    rw [hnone, ask, hashes, List.allM_cons, hprobe]
    rfl
  · have hsome : b.mightContain? e =
        some ((hashes e).all fun x => testBit b.words (x.toNat % b.bitCount)) := by
      rw [mightContain?, probes?, if_neg (by simpa using h), Option.map_some, List.all_map]
      rfl
    rw [hsome, ask, allM_eq_ok fun x _ => probe_eq_ok h x]
    rfl

theorem mightContain?_eq_none_iff : b.mightContain? e = none ↔ b.words = [] := by
  simp [mightContain?, probes?]

end Bloom

namespace Selector

variable {s : Selector} {p : PageSummary}

/-- Whether some selected entity may be in a filter, up to the first that may. -/
def ask (s : Selector) (b : Bloom) : Except Bloom.Fault Bool := s.ids.anyM b.ask

theorem ask_eq (s : Selector) (p : PageSummary) :
    s.ask p.entities = (s.mayMatch? p).elim (.error .division) .ok := by
  rw [ask, mayMatch?]
  induction s.ids with
  | nil => rfl
  | cons e ids ih =>
    rw [List.anyM_cons, Bloom.ask_eq, anyContained?, ih]
    cases p.entities.mightContain? e with
    | none => rfl
    | some c => cases c <;> rfl

/-- Only a filter without words cannot be asked, and only if some entity is selected. -/
theorem mayMatch?_eq_none_iff :
    s.mayMatch? p = .none ↔ s.ids ≠ [] ∧ p.entities.words = [] := by
  constructor
  · intro hnone
    by_contra hasked
    have hanswers : ∀ e ∈ s.ids,
        p.entities.ask e = .ok ((p.entities.mightContain? e).getD false) := by
      intro e he
      have hwords : p.entities.words ≠ [] := fun hnil => hasked ⟨List.ne_nil_of_mem he, hnil⟩
      obtain ⟨c, hc⟩ := Bloom.exists_mightContain?_eq hwords e
      rw [Bloom.ask_eq, hc]
      rfl
    have hask := s.ask_eq p
    rw [ask, Bloom.anyM_eq_ok hanswers, hnone] at hask
    cases hask
  · rintro ⟨hids, hwords⟩
    obtain ⟨e, ids, hids⟩ := List.exists_cons_of_ne_nil hids
    rw [mayMatch?, hids, anyContained?, Bloom.mightContain?_eq_none_iff.2 hwords]

end Selector

namespace Query

variable {q : Query} {s : PageSummary} {fault : Bloom.Fault}

/-- Whether a page can hold rows that matter, step by step. -/
def test (q : Query) (s : PageSummary) : Except Bloom.Fault Bool :=
  if s.overlaps q.bounds then
    match q.selector with
    | none => .ok true
    | some selector => selector.ask s.entities
  else .ok false

/-- The query comes to ask the filter of a page: the page overlaps its windows, and it asks for
some entities only. -/
def Asks (q : Query) (s : PageSummary) : Prop :=
  s.overlaps q.bounds ∧ ∃ selector, q.selector = some selector ∧ selector.ids ≠ []

/-- Step by step the answer is the same. -/
theorem test_eq (q : Query) (s : PageSummary) :
    q.test s = (q.relevant? s).elim (.error .division) .ok := by
  rw [test, relevant?]
  split
  · cases q.selector with
    | none => rfl
    | some selector => exact selector.ask_eq s
  · rfl

theorem relevant?_eq_none_iff :
    q.relevant? s = none ↔ q.Asks s ∧ s.entities.words = [] := by
  rw [relevant?, Asks]
  by_cases hoverlaps : s.overlaps q.bounds
  · cases hselector : q.selector with
    | none => simp [hoverlaps]
    | some selector => simp [hoverlaps, Selector.mayMatch?_eq_none_iff]
  · simp [hoverlaps]

/-- A test goes wrong only with a remainder by zero, and only where a filter without words is
asked. -/
theorem test_eq_error_iff : q.test s = .error fault ↔
    fault = .division ∧ q.Asks s ∧ s.entities.words = [] := by
  rw [test_eq, ← relevant?_eq_none_iff]
  cases q.relevant? s <;> simp [eq_comm]

end Query

end Bitemporal
