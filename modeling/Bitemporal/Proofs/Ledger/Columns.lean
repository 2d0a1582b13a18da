import Mathlib
import Bitemporal.Proofs.Ledger.Tiling
import Bitemporal.Proofs.Merge.Rows

/-!
# A ledger in two columns

A ledger can be kept in two columns, the ends of its ranges and their ceilings. Both are searched by
halving and written over in place, at positions that are read one by one, and any of these reads
might miss. On the columns of a ledger none of them does, and the columns change as the steps do.

## Main definitions

* `Columns`: the two columns, and the system time of the last version recorded.
* `Columns.record?`: supersedes a span in place.
* `Columns.resolve?`: writes the exposure of a version over another one.
* `Ledger.columns`: the columns of a ledger.

## Main statements

* `Ledger.rangeIndex?_columns`: the range that holds a valid time.
* `Ledger.record?_columns`: recording in the columns is recording in the ledger.
* `Ledger.resolve?_columns`: resolving against the columns is resolving against the ledger.
-/

namespace Bitemporal

open scoped Linear

/-- A ledger in two columns. There is one more valid time than there are ceilings. -/
structure Columns where
  /-- The ends of the ranges, from the end of time down to its start. -/
  validTimes : List Instant
  /-- The ceilings of the ranges, from the top down. -/
  ceilings : List Instant
  /-- The system time of the last version recorded, or the end of time. -/
  last : Instant
deriving DecidableEq, Repr

/-- The list with `items` in the place of its positions from `first` up to `past`, if it has
them. -/
def splice? {α : Type} (first past : Nat) (items xs : List α) : Option (List α) :=
  if first ≤ past ∧ past ≤ xs.length then some (xs.take first ++ items ++ xs.drop past) else none

namespace Exposure

/-- The exposure without its tiles. -/
def cleared (x : Exposure) : Exposure := { x with validTimes := [], systemTos := [] }

/-- The exposure with one more tile on top, up to a valid time. -/
def push (x : Exposure) (validTo systemTo : Instant) : Exposure :=
  ⟨x.validTimes ++ [validTo], x.systemTos ++ [systemTo]⟩

end Exposure

namespace Columns

/-- Nothing is superseded. -/
def new : Columns := ⟨[.never, .start], [.never], .never⟩

/-- The position of the first end at or below a valid time. -/
def firstEnd? (c : Columns) (v : Instant) : Option Nat :=
  boundary? (fun i => c.validTimes[i]?.bind fun t => some (decide (v < t))) c.validTimes.length

/-- The position of the range that holds a valid time. -/
def rangeIndex? (c : Columns) (v : Instant) : Option Nat := (c.firstEnd? v).map (· - 1)

/-- Refuses a version newer than the last one recorded. -/
def checkOrder (c : Columns) (systemFrom : Instant) : Except Rising Unit :=
  if systemFrom > c.last then .error ⟨systemFrom, c.last⟩ else .ok ()

/-- Records a span in place. The ends inside the span give way to its own two; the lower one may be
there already, and where it is not, the range that it cuts goes on below it. -/
def record? (c : Columns) (systemFrom validFrom validTo : Instant) :
    Option (Except Rising Unit × Columns) :=
  match c.checkOrder systemFrom with
  | .error e => some (.error e, c)
  | .ok () =>
    if validFrom ≥ validTo then some (.ok (), c)
    else do
      let first ← c.firstEnd? validTo
      let past ← c.firstEnd? validFrom
      let met ← c.validTimes[past]?
      let cut ← past.ppred
      let beneath ← c.ceilings[cut]?
      let validTimes ← splice? first past
        (validTo :: if met = validFrom then [] else [validFrom]) c.validTimes
      let ceilings ← splice? first past
        (systemFrom :: if met = validFrom then [] else [beneath]) c.ceilings
      return (.ok (), ⟨validTimes, ceilings, systemFrom⟩)

/-- Goes up from a range, one tile for each, to the range that holds the end of a span. Nothing is
above the first range. -/
def climb? (c : Columns) (validTo : Instant) (i : Nat) (x : Exposure) : Option Exposure := do
  let upper ← c.validTimes[i]?
  let ceiling ← c.ceilings[i]?
  if upper ≥ validTo then return x.push validTo ceiling
  else
    match i with
    | 0 => none
    | i + 1 => c.climb? validTo i (x.push upper ceiling)

/-- Resolves a version: what came of it, the columns after it, and the exposure that is written over
the one before. -/
def resolve? (c : Columns) (x : Exposure) (systemFrom validFrom validTo : Instant) :
    Option (Except Rising Unit × Columns × Exposure) :=
  match c.checkOrder systemFrom with
  | .error e => some (.error e, c, x.cleared)
  | .ok () =>
    if validFrom ≥ validTo then some (.ok (), c, x.cleared)
    else do
      let i ← c.rangeIndex? validFrom
      let x ← c.climb? validTo i { x.cleared with validTimes := [validFrom] }
      return (.ok (), c, x)

end Columns

theorem splice?_eq {α : Type} {first past : Nat} {xs : List α} (hfirst : first ≤ past)
    (hpast : past ≤ xs.length) (items : List α) :
    splice? first past items xs = some (xs.take first ++ items ++ xs.drop past) :=
  if_pos ⟨hfirst, hpast⟩

namespace Ledger

variable {l : Ledger} {s : Step} {steps top rest : List Step} {a b v t : Instant}

/-- The ledger in two columns. -/
def columns (l : Ledger) : Columns := ⟨l.validTimes, l.ceilings, l.last⟩

/-! ## Splitting steps at a valid time -/

/-- Steps fall to a valid time: some stand above it, the next one reaches it, the rest are below. -/
structure SplitsAt (v : Instant) (top : List Step) (s : Step) (rest : List Step) : Prop where
  above : ∀ x ∈ top, v < x.lower
  reaches : s.lower ≤ v
  below : ∀ x ∈ rest, x.lower < s.lower

theorem exists_splitsAt (h : Descends steps) (hr : Reaches steps v) :
    ∃ top s rest, steps = top ++ s :: rest ∧ SplitsAt v top s rest := by
  induction steps with
  | nil => simp [Reaches] at hr
  | cons r steps ih =>
    rcases lt_or_ge v r.lower with hv | hv
    · obtain ⟨top, s, rest, rfl, hsplit⟩ := ih h.of_cons (hr.of_cons hv)
      exact ⟨r :: top, s, rest, rfl, List.forall_mem_cons.2 ⟨hv, hsplit.above⟩, hsplit.reaches,
        hsplit.below⟩
    · exact ⟨[], r, steps, rfl, by simp, hv, h.fits⟩

namespace SplitsAt

variable (h : SplitsAt v top s rest)
include h

theorem above_eq : Ledger.above v (top ++ s :: rest) = top ++ [⟨v, s.ceiling⟩] := by
  rw [above_append_of_forall h.above, above_cons_of_le h.reaches]

theorem below_eq :
    Ledger.below v (top ++ s :: rest) = if s.lower = v then rest else s :: rest := by
  rw [below_append_of_forall fun x hx => (h.above x hx).le]
  split
  · rename_i heq
    rw [below_cons_of_le heq.ge]
    obtain - | ⟨r, rest⟩ := rest
    · rfl
    · exact below_cons_of_lt (heq ▸ h.below r (.head _))
  · rename_i hne
    exact below_cons_of_lt (lt_of_le_of_ne h.reaches hne)

/-- The ends from the one at or below a valid time on, with the valid time itself. -/
theorem lowers_below : v :: (Ledger.below v (top ++ s :: rest)).map (·.lower) =
    (if s.lower = v then [] else [v]) ++ s.lower :: rest.map (·.lower) := by
  rw [h.below_eq]
  split
  · simp [*]
  · rfl

theorem ceilings_below : (Ledger.below v (top ++ s :: rest)).map (·.ceiling) =
    (if s.lower = v then [] else [s.ceiling]) ++ rest.map (·.ceiling) := by
  rw [h.below_eq]
  split <;> rfl

theorem rangeIndex_eq (hsteps : l.steps = top ++ s :: rest) : l.rangeIndex v = top.length := by
  have hnone : ∀ x ∈ top, ¬ x.lower ≤ v := fun x hx => not_le.2 (h.above x hx)
  rw [rangeIndex, hsteps, List.findIdx_append, if_neg, List.findIdx_cons]
  · simp [h.reaches]
  · simpa [List.findIdx_lt_length] using hnone

theorem firstEnd?_eq (hsteps : l.steps = top ++ s :: rest) (hv : v < .never) :
    l.columns.firstEnd? v = some (top.length + 1) := by
  have htimes : l.columns.validTimes =
      (.never :: top.map (·.lower)) ++ s.lower :: rest.map (·.lower) := by
    simp [columns, validTimes, hsteps]
  have hfound := boundary?_eq_length (fun t => some (decide (v < t)))
    (.never :: top.map (·.lower)) (s.lower :: rest.map (·.lower)) ?_ ?_
  · rw [Columns.firstEnd?, htimes, hfound]
    simp
  · simpa [hv] using h.above
  · simpa [h.reaches] using fun x hx => (h.below x hx).le.trans h.reaches

end SplitsAt

/-- Of two valid times, the lesser one lies further down. -/
theorem length_le_of_splitsAt {top' rest' : List Step} {s' : Step}
    (heq : top ++ s :: rest = top' ++ s' :: rest') (h : SplitsAt b top s rest)
    (h' : SplitsAt a top' s' rest') (hab : a ≤ b) : top.length ≤ top'.length := by
  by_contra hlt
  have hs' : s' ∈ top := by
    have hget := congrArg (·[top'.length]?) heq
    simp only [List.getElem?_append_left (not_le.1 hlt),
      List.getElem?_append_right le_rfl, Nat.sub_self, List.getElem?_cons_zero] at hget
    exact List.mem_of_getElem? hget
  exact absurd ((h.above s' hs').trans_le (h'.reaches.trans hab)) (lt_irrefl b)

/-! ## The range that holds a valid time -/

theorem firstEnd?_never : l.columns.firstEnd? .never = some 0 :=
  boundary?_eq_length (fun t => some (decide (Instant.never < t))) [] l.columns.validTimes
    (by simp) (fun t _ => by simp)

/-- The range that holds a valid time is found in the columns. -/
theorem rangeIndex?_columns (h : Spans l.steps) (v : Instant) :
    l.columns.rangeIndex? v = some (l.rangeIndex v) := by
  obtain ⟨top, s, rest, hsteps, hsplit⟩ :=
    exists_splitsAt h.isSteps.descends (h.isSteps.reaches v)
  rcases (Instant.le_never v).lt_or_eq with hv | rfl
  · rw [Columns.rangeIndex?, hsplit.firstEnd?_eq hsteps hv, hsplit.rangeIndex_eq hsteps]
    rfl
  · have htop : top = [] := List.eq_nil_iff_forall_not_mem.2 fun x hx =>
      absurd (hsplit.above x hx) (not_lt.2 (Instant.le_never _))
    rw [Columns.rangeIndex?, firstEnd?_never, hsplit.rangeIndex_eq hsteps, htop]
    rfl

/-! ## Recording -/

/-- The part of the steps that stays above a span. -/
def aboveSpan (b : Instant) (steps : List Step) : List Step :=
  if b = .never then [] else above b steps

/-- What a splice keeps in front of a span is what stays above it. -/
theorem exists_firstEnd? (h : Spans l.steps) (hab : a < b) (hsteps : l.steps = top ++ s :: rest)
    (hsplit : SplitsAt a top s rest) :
    ∃ n, l.columns.firstEnd? b = some n ∧ n ≤ top.length + 1 ∧
      l.validTimes.take n ++ [b] = .never :: (aboveSpan b l.steps).map (·.lower) ∧
      l.ceilings.take n = (aboveSpan b l.steps).map (·.ceiling) := by
  rcases (Instant.le_never b).lt_or_eq with hb | rfl
  · obtain ⟨top', s', rest', hsteps', hsplit'⟩ :=
      exists_splitsAt h.isSteps.descends (h.isSteps.reaches b)
    have hle := length_le_of_splitsAt (hsteps'.symm.trans hsteps) hsplit' hsplit hab.le
    have habove : aboveSpan b l.steps = top' ++ [⟨b, s'.ceiling⟩] := by
      rw [aboveSpan, if_neg hb.ne, hsteps', hsplit'.above_eq]
    have hcolumn : l.ceilings =
        (top'.map (·.ceiling) ++ [s'.ceiling]) ++ rest'.map (·.ceiling) := by
      simp [ceilings, hsteps']
    refine ⟨_, hsplit'.firstEnd?_eq hsteps' hb, by omega, ?_, ?_⟩
    · rw [habove, validTimes, hsteps']
      simp
    · rw [habove, hcolumn, List.take_left' (by simp)]
      simp
  · exact ⟨0, firstEnd?_never, Nat.zero_le _, by simp [aboveSpan], by simp [aboveSpan]⟩

/-- The splices that record a span turn the columns of a ledger into those of the steps that are
written over. -/
theorem exists_splices (h : Spans l.steps) (t : Instant) (hab : a < b)
    (hsteps : l.steps = top ++ s :: rest) (hsplit : SplitsAt a top s rest) :
    ∃ n, l.columns.firstEnd? b = some n ∧
      splice? n (top.length + 1) (b :: if s.lower = a then [] else [a]) l.columns.validTimes =
        some (.never :: (overwrite l.steps t a b).map (·.lower)) ∧
      splice? n (top.length + 1) (t :: if s.lower = a then [] else [s.ceiling])
        l.columns.ceilings = some ((overwrite l.steps t a b).map (·.ceiling)) := by
  obtain ⟨n, hn, hle, htimes, hceilings⟩ := exists_firstEnd? h hab hsteps hsplit
  have hover : overwrite l.steps t a b = aboveSpan b l.steps ++ ⟨a, t⟩ :: below a l.steps := rfl
  have htimesRest : l.validTimes.drop (top.length + 1) = s.lower :: rest.map (·.lower) := by
    simp [validTimes, hsteps]
  have hceilingsRest : l.ceilings.drop (top.length + 1) = rest.map (·.ceiling) := by
    simp [ceilings, hsteps, List.drop_append]
  refine ⟨n, hn, ?_, ?_⟩
  · rw [splice?_eq hle (by simp [columns, validTimes, hsteps])]
    refine congrArg some ?_
    calc
      _ = (l.validTimes.take n ++ [b]) ++
            ((if s.lower = a then [] else [a]) ++ s.lower :: rest.map (·.lower)) := by
        simp [columns, htimesRest]
      _ = _ := by
        rw [htimes, ← hsplit.lowers_below, ← hsteps, hover]
        simp
  · rw [splice?_eq hle (by simp [columns, ceilings, hsteps])]
    refine congrArg some ?_
    calc
      _ = l.ceilings.take n ++
            t :: ((if s.lower = a then [] else [s.ceiling]) ++ rest.map (·.ceiling)) := by
        simp [columns, hceilingsRest]
      _ = _ := by
        rw [hceilings, ← hsplit.ceilings_below, ← hsteps, hover]
        simp

/-- Recording in the columns of a ledger misses no position and leaves the columns of the ledger
after it; a refusal leaves them as they were. -/
theorem record?_columns (h : Spans l.steps) (t a b : Instant) :
    l.columns.record? t a b = some (match l.record t a b with
      | .error e => (.error e, l.columns)
      | .ok l' => (.ok (), l'.columns)) := by
  have horder : l.columns.checkOrder t = l.checkOrder t := rfl
  rw [Columns.record?, record, horder]
  cases l.checkOrder t with
  | error e => rfl
  | ok =>
    by_cases hab : a ≥ b
    · simp only [if_pos hab]
    obtain ⟨top, s, rest, hsteps, hsplit⟩ :=
      exists_splitsAt h.isSteps.descends (h.isSteps.reaches a)
    have ha : a < .never := (not_le.1 hab).trans_le (Instant.le_never b)
    have hmet : l.columns.validTimes[top.length + 1]? = some s.lower := by
      simp [columns, validTimes, hsteps]
    have hbeneath : l.columns.ceilings[top.length]? = some s.ceiling := by
      simp [columns, ceilings, hsteps]
    obtain ⟨n, hn, htimes, hceilings⟩ := exists_splices h t (not_le.1 hab) hsteps hsplit
    simp only [if_neg hab, hn, hsplit.firstEnd?_eq hsteps ha, hmet, Nat.ppred_succ, hbeneath,
      htimes, hceilings, Option.bind_eq_bind, Option.bind_some]
    rfl

/-! ## Resolving -/

theorem zip_validTimes (l : Ledger) :
    l.validTimes.zip l.ceilings = rangesBelow .never l.steps :=
  List.reverse_injective l.ascending_eq

theorem rangesBelow_append (upper : Instant) (top : List Step) (s : Step) (rest : List Step) :
    rangesBelow upper (top ++ s :: rest) =
      rangesBelow upper (top ++ [s]) ++ rangesBelow s.lower rest := by
  induction top generalizing upper with
  | nil => rfl
  | cons x top ih => simp [rangesBelow, ih]

theorem lt_of_mem_rangesBelow {upper : Instant} (h : ∀ x ∈ top, v < x.lower) (hv : v < upper)
    {r : Instant × Instant} (hr : r ∈ rangesBelow upper (top ++ [s])) : v < r.1 := by
  induction top generalizing upper with
  | nil =>
    obtain rfl := List.mem_singleton.1 hr
    exact hv
  | cons x top ih =>
    rw [List.forall_mem_cons] at h
    rcases List.mem_cons.1 hr with rfl | hr
    · exact hv
    · exact ih h.2 h.1 hr

theorem length_rangesBelow (upper : Instant) (steps : List Step) :
    (rangesBelow upper steps).length = steps.length := by
  induction steps generalizing upper with
  | nil => rfl
  | cons s rest ih => simp [rangesBelow, ih]

/-- Going up from a range of a ledger reads the ranges up to the end of the span and no position
beyond the first range, since that one reaches to the end of time. -/
theorem climb?_columns {ranges lower : List (Instant × Instant)} {x : Exposure}
    (hranges : rangesBelow .never l.steps = ranges ++ lower)
    (htop : ∃ r, ranges.head? = some r ∧ b ≤ r.1) :
    l.columns.climb? b (ranges.length - 1) x =
      some ⟨x.validTimes ++ (upTo b ranges.reverse).map (·.1),
        x.systemTos ++ (upTo b ranges.reverse).map (·.2)⟩ := by
  induction ranges using List.reverseRecOn generalizing x lower with
  | nil => simp at htop
  | append_singleton ranges r ih =>
    have hread : l.validTimes[ranges.length]? = some r.1 ∧
        l.ceilings[ranges.length]? = some r.2 := by
      rw [← List.getElem?_zip_eq_some, zip_validTimes, hranges]
      simp
    have hupper : l.columns.validTimes[ranges.length]? = some r.1 := hread.1
    have hceiling : l.columns.ceilings[ranges.length]? = some r.2 := hread.2
    rw [List.length_append, List.length_singleton, Nat.add_sub_cancel, List.reverse_concat,
      Columns.climb?.eq_def, hupper, hceiling, upTo]
    by_cases hb : r.1 ≥ b
    · simp [if_pos hb, Exposure.push]
    obtain - | ⟨first, ranges⟩ := ranges
    · obtain ⟨_, hr, hrb⟩ := htop
      obtain rfl := Option.some_inj.1 hr
      exact absurd hrb hb
    · have hrest : rangesBelow .never l.steps = first :: ranges ++ r :: lower := by
        simpa using hranges
      have hnext := ih (x := x.push r.1 r.2) hrest (by simpa using htop)
      rw [List.length_cons, Nat.add_sub_cancel] at hnext
      simp only [Option.bind_eq_bind, Option.bind_some, if_neg hb, List.length_cons, hnext]
      simp [Exposure.push]

/-- From the range that holds a valid time up, the ranges end above it. -/
theorem SplitsAt.dropWhile_ascending (h : Spans l.steps) (hsplit : SplitsAt a top s rest)
    (hsteps : l.steps = top ++ s :: rest) (ha : a < .never) :
    l.ascending.dropWhile (fun r => r.1 ≤ a) = (rangesBelow .never (top ++ [s])).reverse := by
  have hdesc := h.isSteps.descends
  rw [hsteps] at hdesc
  have hrest : Descends rest := (List.pairwise_append.1 hdesc).2.1.of_cons
  have hnone : (rangesBelow s.lower rest).reverse.dropWhile (fun r => r.1 ≤ a) = [] := by
    refine List.dropWhile_eq_nil_iff.2 fun r hr => decide_eq_true ?_
    exact (le_of_mem_rangesBelow hrest hsplit.below (List.mem_reverse.1 hr)).trans hsplit.reaches
  rw [ascending_eq, hsteps, rangesBelow_append, List.reverse_append, List.dropWhile_append, hnone,
    if_pos List.isEmpty_nil, List.dropWhile_eq_self_iff]
  intro hpos
  have hlast := List.mem_reverse.1 (List.getElem_mem hpos)
  simpa using lt_of_mem_rangesBelow hsplit.above ha hlast

/-- Resolving against the columns of a ledger misses no position, gives what the ledger resolves to
and leaves the columns as they were. A refusal and an empty span leave no tiles, whatever the
exposure held. -/
theorem resolve?_columns (h : Spans l.steps) (x : Exposure) (t a b : Instant) :
    l.columns.resolve? x t a b = some (match l.resolve t a b with
      | .error e => (.error e, l.columns, .empty)
      | .ok y => (.ok (), l.columns, y)) := by
  have horder : l.columns.checkOrder t = l.checkOrder t := rfl
  rw [Columns.resolve?, resolve, horder]
  cases l.checkOrder t with
  | error e => rfl
  | ok =>
    by_cases hab : a ≥ b
    · simp only [if_pos hab]
      rfl
    obtain ⟨top, s, rest, hsteps, hsplit⟩ :=
      exists_splitsAt h.isSteps.descends (h.isSteps.reaches a)
    have ha : a < .never := (not_le.1 hab).trans_le (Instant.le_never b)
    have hclimb := climb?_columns (b := b) (x := { x.cleared with validTimes := [a] })
      ((congrArg _ hsteps).trans (rangesBelow_append .never top s rest))
      (by cases top <;> simp [rangesBelow])
    rw [length_rangesBelow, List.length_append, List.length_singleton, Nat.add_sub_cancel] at hclimb
    simp only [if_neg hab, rangeIndex?_columns h, hsplit.rangeIndex_eq hsteps, hclimb,
      hsplit.dropWhile_ascending h hsteps ha, Option.bind_eq_bind, Option.bind_some]
    rfl

end Ledger

end Bitemporal
