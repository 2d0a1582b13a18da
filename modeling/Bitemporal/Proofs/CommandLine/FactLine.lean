import Mathlib
import Bitemporal.CommandLine.Input
import Bitemporal.Proofs.Order
import Bitemporal.Proofs.Scan.Workspace
import Bitemporal.Proofs.Text.Lines

/-!
# The facts of lines

A record states one version: its fields name instants, those that are left out have their defaults,
and its kind decides which of them count. A line is a fact exactly if it is such a record. Lines
have numbers, from one on and with blank ones counted, and are refused at the first that is neither
blank nor a fact.

## Main definitions

* `FactLine.Names`, `FactLine.NamesOr`: the instant that a field names, or has by default.
* `FactLine.States`: the version that a record states.
* `Fact.IsStatedBy`: the version that a line states.
* `CommandInput.numbered`: the lines that are not blank, with their numbers.

## Main statements

* `FactLine.toFact_eq_ok_iff`, `Fact.parseLine_eq_ok_iff`: what records and lines are read as.
* `FactLine.States.spans`: a version spans all of valid time if it is an erase, and some of it else.
* `CommandInput.facts_numbered_eq_ok_iff`, `CommandInput.facts_numbered_eq_error`: what lines are
  read as, and the number of the line at which they are refused.
-/

namespace Bitemporal

open scoped Linear

theorem bind_eq_ok_iff {α β ε : Type} {x : Except ε α} {g : α → Except ε β} {b : β} :
    x >>= g = .ok b ↔ ∃ a, x = .ok a ∧ g a = .ok b := by
  cases x <;> simp [bind, Except.bind]

namespace FactLine

variable {l : FactLine} {f : Fact} {field : String} {t default : Instant}

/-- The instant that a value names: a number of microseconds, or a text of an instant. -/
inductive Names : Json → Instant → Prop where
  | number {n : Number} {i : Int} (h : n.toSigned? = some i) : Names (.number n) (Int64.ofInt i)
  | text {s : String} {t : Instant} (h : Instant.parse s = .ok t) : Names (.string s) t

/-- The instant that an optional field names, or has by default. -/
inductive NamesOr (default : Instant) : Option Json → Instant → Prop where
  | none : NamesOr default none default
  | some {v : Json} {t : Instant} (h : Names v t) : NamesOr default (some v) t

/-- The version that a record states. A put and a delete span some valid time, from their system
time on and for ever unless the record says otherwise. An erase spans all of it, though instants
that its record names must be such. Only a put has content. -/
inductive States (l : FactLine) : Fact → Prop where
  | put {s a b : Instant} (hkind : l.kind.getD .put = .put) (hs : Names l.systemFrom s)
      (ha : NamesOr s l.validFrom a) (hb : NamesOr .never l.validTo b) (hspan : a < b) :
      States l ⟨.ofJsonKey l.id, a, b, s, .put (l.doc.getD .empty)⟩
  | delete {s a b : Instant} (hkind : l.kind = some .delete) (hs : Names l.systemFrom s)
      (ha : NamesOr s l.validFrom a) (hb : NamesOr .never l.validTo b) (hspan : a < b)
      (hdoc : l.doc = none) : States l ⟨.ofJsonKey l.id, a, b, s, .delete⟩
  | erase {s a b : Instant} (hkind : l.kind = some .erase) (hs : Names l.systemFrom s)
      (ha : NamesOr s l.validFrom a) (hb : NamesOr .never l.validTo b) (hdoc : l.doc = none) :
      States l ⟨.ofJsonKey l.id, .start, .never, s, .erase⟩

theorem instant_eq_ok_iff {v : Json} : instant field v = .ok t ↔ Names v t := by
  constructor
  · intro h
    cases v with
    | number n =>
      rw [instant] at h
      split at h
      · rename_i i hi
        cases h
        exact .number hi
      · cases h
    | string s =>
      rw [instant] at h
      cases hparse : Instant.parse s with
      | error e => simp [hparse, Except.mapError] at h
      | ok t' =>
        obtain rfl : t' = t := by simpa [hparse, Except.mapError] using h
        exact .text hparse
    | _ => cases h
  · rintro (h | h)
    · rw [instant, h]
    · rw [instant, h]
      rfl

theorem instantOr_eq_ok_iff {v : Option Json} :
    instantOr default field v = .ok t ↔ NamesOr default v t := by
  cases v with
  | none =>
    refine ⟨fun h => ?_, ?_⟩
    · cases h
      exact .none
    · rintro ⟨⟩
      rfl
  | some v =>
    rw [instantOr, instant_eq_ok_iff]
    refine ⟨.some, ?_⟩
    rintro (- | h)
    exact h

/-- A record is read as the version that it states. -/
theorem toFact_eq_ok_iff : l.toFact = .ok f ↔ l.States f := by
  simp only [toFact, bind_eq_ok_iff, instant_eq_ok_iff, instantOr_eq_ok_iff]
  constructor
  · rintro ⟨s, hs, a, ha, b, hb, h⟩
    split_ifs at h with hspan hdoc
    have hnone (hput : l.kind.getD .put ≠ .put) : l.doc = none :=
      Option.not_isSome_iff_eq_none.1 fun hsome => hdoc ⟨hput, hsome⟩
    have hlt (herase : l.kind.getD .put ≠ .erase) : a < b :=
      not_le.1 fun hle => hspan ⟨herase, hle⟩
    cases hkind : l.kind.getD .put with
    | put =>
      rw [hkind] at h hlt
      cases h
      exact .put hkind hs ha hb (hlt (by decide))
    | delete =>
      rw [hkind] at h hlt hnone
      cases h
      have hkind := (Option.getD_eq_iff.1 hkind).resolve_right (by simp)
      exact .delete hkind hs ha hb (hlt (by decide)) (hnone (by decide))
    | erase =>
      rw [hkind] at h hnone
      cases h
      have hkind := (Option.getD_eq_iff.1 hkind).resolve_right (by simp)
      exact .erase hkind hs ha hb (hnone (by decide))
  · rintro (⟨hkind, hs, ha, hb, hspan⟩ | ⟨hkind, hs, ha, hb, hspan, hdoc⟩ |
      ⟨hkind, hs, ha, hb, hdoc⟩)
    · refine ⟨_, hs, _, ha, _, hb, ?_⟩
      rw [hkind, if_neg fun h => not_le.2 hspan h.2, if_neg (by simp)]
      rfl
    · refine ⟨_, hs, _, ha, _, hb, ?_⟩
      rw [hkind, hdoc, if_neg fun h => not_le.2 hspan h.2, if_neg (by simp)]
      rfl
    · refine ⟨_, hs, _, ha, _, hb, ?_⟩
      rw [hkind, hdoc, if_neg (by simp), if_neg (by simp)]
      rfl

/-- An erase spans all of valid time, and any other version some of it. -/
theorem States.spans (h : l.States f) :
    f = .eraseOf f.entity f.systemFrom ∨ f.validFrom < f.validTo := by
  cases h with
  | put _ _ _ _ hspan => exact .inr hspan
  | delete _ _ _ _ hspan _ => exact .inr hspan
  | erase => exact .inl rfl

end FactLine

namespace Fact

variable {f : Fact} {line : String}

/-- A line states a version if it is a record that does. -/
def IsStatedBy (f : Fact) (line : String) : Prop :=
  ∃ l, (Json.Source.ofString? line).bind FactLine.ofSource? = some l ∧ l.States f

/-- A line is read as the version that it states. -/
theorem parseLine_eq_ok_iff : parseLine line = .ok f ↔ f.IsStatedBy line := by
  rw [parseLine, IsStatedBy]
  cases (Json.Source.ofString? line).bind FactLine.ofSource? with
  | none => simp
  | some l => simp [FactLine.toFact_eq_ok_iff]

/-- A line that states nothing is not read. -/
theorem exists_parseLine_eq_error (h : ∀ f : Fact, ¬ f.IsStatedBy line) :
    ∃ fault, parseLine line = .error fault := by
  cases hparse : parseLine line with
  | error fault => exact ⟨fault, rfl⟩
  | ok f => exact absurd (parseLine_eq_ok_iff.1 hparse) (h f)

/-- Versions that lines state span all of valid time if they are erases, and some of it else. -/
theorem spans_of_forall₂ {lines : List String} {rows : List Fact}
    (h : List.Forall₂ (fun line f => Fact.IsStatedBy f line) lines rows) :
    ∀ f ∈ rows, f = .eraseOf f.entity f.systemFrom ∨ f.validFrom < f.validTo := by
  induction h with
  | nil => simp
  | cons hstated _ ih =>
    obtain ⟨l, -, hl⟩ := hstated
    exact List.forall_mem_cons.2 ⟨hl.spans, ih⟩

end Fact

/-! ## Numbered lines -/

namespace CommandInput

variable {lines front back : List String} {line : String} {rows : List Fact}

/-- The lines that are not blank, with their numbers from `first` on. -/
def numbered (first : Nat) (lines : List String) : List (Nat × String) :=
  (lines.zipIdx first).filterMap fun (line, n) =>
    if (Text.trim line).isEmpty then none else some (n, line)

theorem numbered_cons (first : Nat) (line : String) (rest : List String) :
    numbered first (line :: rest) = if Text.IsBlank line then numbered (first + 1) rest
      else (first, line) :: numbered (first + 1) rest := by
  rw [numbered, List.zipIdx_cons]
  split_ifs with hblank
  · exact List.filterMap_cons_none (if_pos (Text.isEmpty_trim_iff.2 hblank))
  · exact List.filterMap_cons_some (if_neg (mt Text.isEmpty_trim_iff.1 hblank))

theorem map_snd_numbered (first : Nat) (lines : List String) :
    (numbered first lines).map (·.2) = lines.filter fun line => ¬ Text.IsBlank line := by
  induction lines generalizing first with
  | nil => rfl
  | cons line rest ih =>
    rw [numbered_cons]
    split_ifs with hblank <;> simp [hblank, ih]

theorem fact_eq_ok_iff {n : Nat} {f : Fact} : fact n line = .ok f ↔ f.IsStatedBy line := by
  rw [← Fact.parseLine_eq_ok_iff, fact]
  cases Fact.parseLine line <;> simp [Except.mapError]

/-- Numbered lines are read as facts if each that is not blank states one. -/
theorem facts_numbered_eq_ok_iff (first : Nat) : facts (numbered first lines) = .ok rows ↔
    List.Forall₂ (fun line f => Fact.IsStatedBy f line)
      (lines.filter fun line => ¬ Text.IsBlank line) rows := by
  rw [facts, mapM_eq_ok_iff, ← map_snd_numbered first, List.forall₂_map_left_iff]
  simp only [fact_eq_ok_iff]

/-- Of lines that are neither blank nor facts, one comes first. -/
theorem exists_first_unstated
    (h : ∃ line ∈ lines, ¬ Text.IsBlank line ∧ ∀ f : Fact, ¬ f.IsStatedBy line) :
    ∃ front line back, lines = front ++ line :: back ∧
      (∀ l ∈ front, Text.IsBlank l ∨ ∃ f : Fact, f.IsStatedBy l) ∧
      ¬ Text.IsBlank line ∧ ∀ f : Fact, ¬ f.IsStatedBy line := by
  classical
  let isBad (line : String) : Bool := ¬ Text.IsBlank line ∧ ∀ f : Fact, ¬ f.IsStatedBy line
  obtain ⟨line, hfirst⟩ := Option.isSome_iff_exists.1
    (List.find?_isSome (p := isBad).2 (by simpa [isBad] using h))
  obtain ⟨hbad, front, back, rfl, hfront⟩ := List.find?_eq_some_iff_append.1 hfirst
  have hbad := of_decide_eq_true hbad
  refine ⟨front, line, back, rfl, fun l hl => ?_, hbad.1, hbad.2⟩
  have hl := hfront l hl
  simp only [isBad] at hl
  grind

theorem facts_cons (n : Nat) (line : String) (rest : List (Nat × String)) :
    facts ((n, line) :: rest) = do return (← fact n line) :: (← facts rest) := List.mapM_cons

/-- Lines that are blank or facts are read before those that come after them. -/
theorem exists_facts_numbered_append (first : Nat)
    (hfront : ∀ l ∈ front, Text.IsBlank l ∨ ∃ f : Fact, f.IsStatedBy l) :
    ∃ rows, ∀ rest, facts (numbered first (front ++ rest)) =
      (facts (numbered (first + front.length) rest)).map (rows ++ ·) := by
  induction front generalizing first with
  | nil =>
    refine ⟨[], fun rest => ?_⟩
    cases hrest : facts (numbered first rest) <;> simp [hrest, Except.map]
  | cons l front ih =>
    rw [List.forall_mem_cons] at hfront
    obtain ⟨rows, hrows⟩ := ih (first + 1) hfront.2
    have hlength : first + 1 + front.length = first + (l :: front).length := by
      rw [List.length_cons, Nat.add_assoc, Nat.add_comm 1]
    by_cases hl : Text.IsBlank l
    · refine ⟨rows, fun rest => ?_⟩
      rw [List.cons_append, numbered_cons, if_pos hl, hrows, hlength]
    · obtain ⟨f, hf⟩ := hfront.1.resolve_left hl
      refine ⟨f :: rows, fun rest => ?_⟩
      rw [List.cons_append, numbered_cons, if_neg hl, facts_cons, fact_eq_ok_iff.2 hf, hrows,
        hlength]
      cases facts (numbered (first + (l :: front).length) rest) <;> rfl

/-- Lines that are blank or facts are read, in one way. -/
theorem exists_forall₂_iff (h : ∀ l ∈ lines, Text.IsBlank l ∨ ∃ f : Fact, f.IsStatedBy l) :
    ∃ rows, ∀ rs, List.Forall₂ (fun line f => Fact.IsStatedBy f line)
      (lines.filter fun line => ¬ Text.IsBlank line) rs ↔ rs = rows := by
  obtain ⟨rows, hrows⟩ := exists_facts_numbered_append 1 h
  have hall : facts (numbered 1 lines) = .ok rows := by
    simpa [numbered, facts, pure, Except.pure, Except.map] using hrows []
  refine ⟨rows, fun rs => ?_⟩
  rw [← facts_numbered_eq_ok_iff 1, hall, Except.ok.injEq, eq_comm]

/-- Numbered lines are refused at the first that is not blank and states nothing. -/
theorem facts_numbered_eq_error {fault : FactLineFault} {first : Nat}
    (hfront : ∀ l ∈ front, Text.IsBlank l ∨ ∃ f : Fact, f.IsStatedBy l)
    (hblank : ¬ Text.IsBlank line) (hfault : Fact.parseLine line = .error fault)
    (back : List String) : facts (numbered first (front ++ line :: back)) =
      .error ⟨.input, s!"line {first + front.length}: {fault.message}"⟩ := by
  obtain ⟨rows, hrows⟩ := exists_facts_numbered_append first hfront
  have hfact (n : Nat) : fact n line = .error ⟨.input, s!"line {n}: {fault.message}"⟩ := by
    rw [fact, hfault]
    rfl
  rw [hrows, numbered_cons, if_neg hblank, facts_cons, hfact]
  rfl

end CommandInput

end Bitemporal
