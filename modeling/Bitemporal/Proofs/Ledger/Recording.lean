import Mathlib
import Bitemporal.Proofs.Ledger.Columns

/-!
# What a ledger has recorded

A ledger is a function of valid time: at each valid time it gives the system time of the last log
that was accepted over it, which is the least of these, since logs are accepted newest first only.
This holds after any calls, whatever their arguments are.

## Main definitions

* `Log`: a span that is superseded from a system time on.
* `Call`: what a ledger is asked to do.
* `Recording.of`: the ledger after some calls, with the logs that it accepted.
* `Recording.IsTrue`: the ledger is a record of these logs.
* `Ledger.Reflects`: what the ends and the ceilings of a ledger say of some logs.

## Main statements

* `Recording.IsTrue.after`: a call keeps a ledger a record.
* `Recording.isTrue_of`: after any calls, a ledger is a record.
* `Ledger.reflects_calls`: what a ledger says after any calls.
-/

namespace Bitemporal

open scoped Linear
open Ledger (Spans ceilingIn)

/-- A span of valid time that is superseded from a system time on. -/
structure Log where
  /-- The system time. -/
  systemFrom : Instant
  /-- The first valid time of the span. -/
  validFrom : Instant
  /-- The end of the span. -/
  validTo : Instant
deriving DecidableEq, Repr

namespace Log

/-- Whether a valid time lies in the span. -/
def covers (v : Instant) (g : Log) : Bool := g.validFrom ≤ v ∧ v < g.validTo

/-- The system time of the first of some logs over a valid time, or the end of time. -/
def firstOver (logs : List Log) (v : Instant) : Instant :=
  ((logs.find? (covers v)).map (·.systemFrom)).getD .never

end Log

/-- What a ledger is asked to do. -/
inductive Call where
  | reset
  | record (log : Log)
deriving DecidableEq, Repr

/-- What comes of a call, and the ledger after it. A refusal leaves the ledger as it was. -/
def Ledger.call (l : Ledger) : Call → Except Rising Unit × Ledger
  | .reset => (.ok (), .empty)
  | .record g =>
    match l.record g.systemFrom g.validFrom g.validTo with
    | .error e => (.error e, l)
    | .ok l' => (.ok (), l')

/-- The same in columns, all of which are written in place. -/
def Columns.call? (c : Columns) : Call → Option (Except Rising Unit × Columns)
  | .reset => some (.ok (), { c with validTimes := [.never, .start], ceilings := [.never],
                                     last := .never })
  | .record g => c.record? g.systemFrom g.validFrom g.validTo

/-- A ledger and the logs that it accepted since the last reset, newest first. Logs of empty spans
are left out. -/
structure Recording where
  ledger : Ledger
  logs : List Log

namespace Recording

/-- The logs after a call, given what came of it. -/
def keep (logs : List Log) : Call → Except Rising Unit → List Log
  | .reset, _ => []
  | .record _, .error _ => logs
  | .record g, .ok () => if g.validFrom < g.validTo then g :: logs else logs

/-- The recording after a call. -/
def after (x : Recording) (c : Call) : Recording :=
  ⟨(x.ledger.call c).2, keep x.logs c (x.ledger.call c).1⟩

/-- The recording after some calls to a new ledger. -/
def of (calls : List Call) : Recording := calls.foldl after ⟨.empty, []⟩

/-- The ledger is a record of the logs. -/
structure IsTrue (x : Recording) : Prop where
  spans : Spans x.ledger.steps
  ceiling : ∀ v < .never, ceilingIn x.ledger.steps v = Log.firstOver x.logs v
  last : x.ledger.last = (x.logs.head?.map (·.systemFrom)).getD .never
  falling : x.logs.Pairwise fun g older => g.systemFrom ≤ older.systemFrom

end Recording

/-- What the ends and the ceilings of a ledger say of some logs, newest first. -/
structure Ledger.Reflects (l : Ledger) (logs : List Log) : Prop where
  /-- The ends strictly descend, from the end of time to its start. -/
  descends : l.validTimes.Pairwise (· > ·)
  first : l.validTimes.head? = some .never
  last : l.validTimes.getLast? = some .start
  /-- There is a ceiling between every two ends. -/
  length : l.validTimes.length = l.ceilings.length + 1
  /-- One range holds a valid time. -/
  range : ∀ v < .never, ∀ i, l.rangeIndex v = i ↔
    ∃ upper lower, l.validTimes[i]? = some upper ∧ l.validTimes[i + 1]? = some lower ∧
      lower ≤ v ∧ v < upper
  /-- Its ceiling is the system time of the newest log over the valid time. -/
  ceiling : ∀ v < .never, l.ceilings[l.rangeIndex v]? = some (Log.firstOver logs v)
  /-- No log over the valid time has a lesser one. -/
  least : ∀ v, ∀ g ∈ logs, g.covers v → Log.firstOver logs v ≤ g.systemFrom

theorem Log.firstOver_cons (g : Log) (logs : List Log) (v : Instant) :
    Log.firstOver (g :: logs) v =
      if g.validFrom ≤ v ∧ v < g.validTo then g.systemFrom else Log.firstOver logs v := by
  rw [Log.firstOver, List.find?_cons]
  by_cases hv : g.validFrom ≤ v ∧ v < g.validTo
  · simp [Log.covers, hv]
  · simp [Log.covers, hv, Log.firstOver]

/-- A log is refused, or changes nothing since its span is empty, or overwrites its span. -/
theorem Ledger.call_record_cases (l : Ledger) (g : Log) :
    (∃ e, l.checkOrder g.systemFrom = .error e ∧ l.call (.record g) = (.error e, l)) ∨
    (l.checkOrder g.systemFrom = .ok () ∧ g.validTo ≤ g.validFrom ∧
      l.call (.record g) = (.ok (), l)) ∨
    (l.checkOrder g.systemFrom = .ok () ∧ g.validFrom < g.validTo ∧
      l.call (.record g) =
        (.ok (), ⟨overwrite l.steps g.systemFrom g.validFrom g.validTo, g.systemFrom⟩)) := by
  rw [call, record]
  cases l.checkOrder g.systemFrom with
  | error e => exact .inl ⟨e, rfl, rfl⟩
  | ok =>
    rcases le_or_gt g.validTo g.validFrom with hspan | hspan
    · exact .inr (.inl ⟨rfl, hspan, by simp only [if_pos hspan]⟩)
    · exact .inr (.inr ⟨rfl, hspan, by simp only [if_neg (not_le.2 hspan)]⟩)

namespace Recording

variable {x : Recording}

/-! ## One call -/

theorem isTrue_empty : IsTrue ⟨.empty, []⟩ where
  spans := Ledger.spans_empty
  ceiling v _ := by simp [ceilingIn, Ledger.empty, Log.firstOver]
  last := rfl
  falling := .nil

/-- A log is refused if it is newer than the last one that was accepted. -/
theorem IsTrue.checkOrder_eq_error_iff (h : x.IsTrue) (t : Instant) :
    (∃ e, x.ledger.checkOrder t = .error e) ↔
      ∃ newest, x.logs.head? = some newest ∧ newest.systemFrom < t := by
  rw [Ledger.checkOrder, h.last]
  cases x.logs.head? with
  | none => simp [not_lt.2 (Instant.le_never t)]
  | some newest => by_cases ht : newest.systemFrom < t <;> simp [ht]

/-- What is accepted is no newer than the logs so far. -/
theorem IsTrue.systemFrom_le (h : x.IsTrue) {t : Instant} (ht : x.ledger.checkOrder t = .ok ())
    {g : Log} (hg : g ∈ x.logs) : t ≤ g.systemFrom := by
  obtain ⟨newest, hnewest⟩ : ∃ newest, x.logs.head? = some newest :=
    Option.isSome_iff_exists.1 (List.isSome_head?.2 (List.ne_nil_of_mem hg))
  have hle : t ≤ newest.systemFrom := by
    by_contra hlt
    obtain ⟨e, he⟩ := (h.checkOrder_eq_error_iff t).2 ⟨newest, hnewest, not_le.1 hlt⟩
    cases ht.symm.trans he
  have hfalling := h.falling
  obtain ⟨rest, hrest⟩ := List.head?_eq_some_iff.1 hnewest
  rw [hrest] at hg hfalling
  rcases List.mem_cons.1 hg with rfl | hg
  · exact hle
  · exact hle.trans ((List.pairwise_cons.1 hfalling).1 g hg)

/-- A call keeps a ledger a record. -/
protected theorem IsTrue.after (h : x.IsTrue) (c : Call) : (x.after c).IsTrue := by
  cases c with
  | reset => exact isTrue_empty
  | record g =>
    rw [Recording.after]
    rcases x.ledger.call_record_cases g with
      ⟨e, -, hcall⟩ | ⟨-, hspan, hcall⟩ | ⟨horder, hspan, hcall⟩
    · rw [hcall]
      exact h
    · simpa only [hcall, keep, if_neg (not_lt.2 hspan)] using h
    · simp only [hcall, keep, if_pos hspan]
      exact {
        spans := h.spans.overwrite hspan
        ceiling := fun v hv => by
          rw [Ledger.ceilingIn_overwrite h.spans.isSteps hv, h.ceiling v hv, Log.firstOver_cons]
        last := rfl
        falling := List.pairwise_cons.2 ⟨fun _ hg => h.systemFrom_le horder hg, h.falling⟩ }

/-! ## Many calls -/

/-- After any calls, a ledger is a record. -/
theorem isTrue_of (calls : List Call) : (of calls).IsTrue := by
  induction calls using List.reverseRecOn with
  | nil => exact isTrue_empty
  | append_singleton calls c ih =>
    rw [of, List.foldl_append]
    exact ih.after c

end Recording

/-! ## What a record says -/

namespace Ledger

variable {l : Ledger} {s : Step} {top rest : List Step} {v : Instant}

/-- The ends above a valid time are those of the range that holds it and of the ranges above. -/
theorem SplitsAt.lt_validTime_iff (h : SplitsAt v top s rest) (hsteps : l.steps = top ++ s :: rest)
    (hv : v < .never) {i : Nat} {t : Instant} (ht : l.validTimes[i]? = some t) :
    v < t ↔ i ≤ top.length := by
  have htimes : l.validTimes = (.never :: top.map (·.lower)) ++ s.lower :: rest.map (·.lower) := by
    simp [validTimes, hsteps]
  rw [htimes] at ht
  rcases le_or_gt i top.length with hi | hi
  · rw [List.getElem?_append_left (by simp; omega)] at ht
    have hmem := List.mem_of_getElem? ht
    simp only [List.mem_cons, List.mem_map] at hmem
    obtain rfl | ⟨x, hx, rfl⟩ := hmem
    · exact iff_of_true hv hi
    · exact iff_of_true (h.above x hx) hi
  · rw [List.getElem?_append_right (by simp; omega)] at ht
    have hmem := List.mem_of_getElem? ht
    simp only [List.mem_cons, List.mem_map] at hmem
    obtain rfl | ⟨x, hx, rfl⟩ := hmem
    · exact iff_of_false (not_lt.2 h.reaches) (not_le.2 hi)
    · exact iff_of_false (not_lt.2 ((h.below x hx).le.trans h.reaches)) (not_le.2 hi)

theorem ceilings_rangeIndex (h : Spans l.steps) (v : Instant) :
    l.ceilings[l.rangeIndex v]? = some (ceilingIn l.steps v) := by
  obtain ⟨top, s, rest, hsteps, hsplit⟩ :=
    exists_splitsAt h.isSteps.descends (h.isSteps.reaches v)
  rw [hsplit.rangeIndex_eq hsteps, ceilings, hsteps, ceilingIn_append_of_forall hsplit.above,
    ceilingIn_cons_of_le hsplit.reaches]
  simp

end Ledger

theorem Log.firstOver_le {logs : List Log}
    (h : logs.Pairwise fun g older => g.systemFrom ≤ older.systemFrom) {g : Log} (hg : g ∈ logs)
    {v : Instant} (hv : g.covers v) : Log.firstOver logs v ≤ g.systemFrom := by
  induction logs with
  | nil => cases hg
  | cons newest logs ih =>
    rw [List.pairwise_cons] at h
    rw [firstOver_cons]
    split
    · rcases List.mem_cons.1 hg with rfl | hg
      · exact le_rfl
      · exact h.1 g hg
    · rename_i hnewest
      rcases List.mem_cons.1 hg with rfl | hg
      · exact absurd (of_decide_eq_true hv) hnewest
      · exact ih h.2 hg

theorem Recording.IsTrue.reflects {x : Recording} (h : x.IsTrue) : x.ledger.Reflects x.logs where
  descends := by
    refine List.pairwise_cons.2 ⟨fun t ht => ?_, h.spans.isSteps.1⟩
    obtain ⟨s, hs, rfl⟩ := List.mem_map.1 ht
    exact h.spans.fits s hs
  first := rfl
  last := by
    have hlast := h.spans.isSteps.2
    rw [← List.getLast?_map] at hlast
    rw [Ledger.validTimes, List.getLast?_cons, hlast]
    rfl
  length := by simp [Ledger.validTimes, Ledger.ceilings]
  range v hv i := by
    obtain ⟨top, s, rest, hsteps, hsplit⟩ :=
      Ledger.exists_splitsAt h.spans.isSteps.descends (h.spans.isSteps.reaches v)
    rw [hsplit.rangeIndex_eq hsteps]
    constructor
    · rintro rfl
      have hupper : top.length < x.ledger.validTimes.length := by
        simp [Ledger.validTimes, hsteps]
      have hlower : top.length + 1 < x.ledger.validTimes.length := by
        simp [Ledger.validTimes, hsteps]
      refine ⟨_, _, List.getElem?_eq_getElem hupper, List.getElem?_eq_getElem hlower, ?_, ?_⟩
      · rw [← not_lt, hsplit.lt_validTime_iff hsteps hv (List.getElem?_eq_getElem hlower)]
        omega
      · rw [hsplit.lt_validTime_iff hsteps hv (List.getElem?_eq_getElem hupper)]
    · rintro ⟨upper, lower, hupper, hlower, hle, hlt⟩
      rw [hsplit.lt_validTime_iff hsteps hv hupper] at hlt
      rw [← not_lt, hsplit.lt_validTime_iff hsteps hv hlower] at hle
      omega
  ceiling v hv := by rw [Ledger.ceilings_rangeIndex h.spans, h.ceiling v hv]
  least _ _ hg hv := Log.firstOver_le h.falling hg hv

/-! ## In columns -/

/-- A call to the columns of a ledger misses no position and does what it does to the ledger. -/
theorem Ledger.call?_columns {l : Ledger} (h : Spans l.steps) (c : Call) :
    l.columns.call? c = some ((l.call c).1, (l.call c).2.columns) := by
  cases c with
  | reset => rfl
  | record g =>
    rw [Columns.call?, Ledger.record?_columns h, Ledger.call]
    cases l.record g.systemFrom g.validFrom g.validTo <;> rfl

/-- The columns after some calls. -/
def Columns.run? (c : Columns) (calls : List Call) : Option Columns :=
  calls.foldlM (fun c call => (c.call? call).map (·.2)) c

theorem Recording.run?_columns (calls : List Call) :
    Columns.new.run? calls = some (of calls).ledger.columns := by
  induction calls using List.reverseRecOn with
  | nil => rfl
  | append_singleton calls c ih =>
    rw [Columns.run?] at ih ⊢
    have hlast : of (calls ++ [c]) = (of calls).after c := by rw [of, List.foldl_append]; rfl
    rw [List.foldlM_append, ih, hlast]
    simp [Ledger.call?_columns (isTrue_of calls).spans c, after]

namespace Ledger

/-- After any calls, with resets and refusals among them, the ledger is the same whether it is kept
in steps or in columns, of which no position is missed. Its ends and its ceilings reflect the logs
that it accepted since the last reset. The next log is refused exactly if it is newer than the last
of these, and a refused log or one of an empty span changes nothing. -/
theorem reflects_calls (calls : List Call) :
    let x := Recording.of calls
    Columns.new.run? calls = some x.ledger.columns ∧
    x.ledger.Reflects x.logs ∧
    (∀ v, x.ledger.columns.rangeIndex? v = some (x.ledger.rangeIndex v)) ∧
    ∀ g : Log, ∃ result ledger, x.ledger.call (.record g) = (result, ledger) ∧
      x.ledger.columns.call? (.record g) = some (result, ledger.columns) ∧
      ((∃ e, result = .error e) ↔
        ∃ newest, x.logs.head? = some newest ∧ newest.systemFrom < g.systemFrom) ∧
      ((∃ e, result = .error e) ∨ g.validTo ≤ g.validFrom → ledger = x.ledger) := by
  intro x
  have h : x.IsTrue := Recording.isTrue_of calls
  refine ⟨Recording.run?_columns calls, h.reflects, rangeIndex?_columns h.spans, fun g => ?_⟩
  have hcolumns := call?_columns h.spans (.record g)
  rw [← h.checkOrder_eq_error_iff]
  rcases x.ledger.call_record_cases g with
    ⟨e, horder, hcall⟩ | ⟨horder, -, hcall⟩ | ⟨horder, hspan, hcall⟩
  · rw [hcall] at hcolumns
    exact ⟨_, _, hcall, hcolumns, by simp [horder], fun _ => rfl⟩
  · rw [hcall] at hcolumns
    exact ⟨_, _, hcall, hcolumns, by simp [horder], fun _ => rfl⟩
  · rw [hcall] at hcolumns
    refine ⟨_, _, hcall, hcolumns, by simp [horder], ?_⟩
    rintro (⟨e, he⟩ | hempty)
    · cases he
    · exact absurd hspan (not_lt.2 hempty)

/-- Two logs with a shared end and a later one across both. -/
example : (Recording.of [.record ⟨5, 10, 20⟩, .record ⟨5, 20, .never⟩, .record ⟨3, 15, 25⟩,
    .record ⟨4, 0, 1⟩]).ledger.validTimes = [.never, 25, 15, 10, .start] := by decide

end Ledger

end Bitemporal
