import Mathlib
import Bitemporal.Proofs.Json.Printer
import Bitemporal.Proofs.Text.Blank
import Bitemporal.Query.Predicate

/-!
# Written predicates

A text is split at its first sign. The signs overlap, so this is the same as seeking each of them
everywhere and taking the leftmost that is found, and the longest of those at one place. No sign in
a bound can win against the sign in front of it, and none can become a part of that one, because the
text of a bound does not begin with a sign. So a predicate is read as it was written, whatever its
bound is.

## Main definitions

* `Comparison.leftmost?`: the leftmost sign of a text, by search for each of the signs.
* `Predicate.search`: reading a text by that search.
* `Predicate.IsPlain`: a column that can stand in front of a sign.

## Main statements

* `Comparison.leftmost?_append`: the leftmost sign stands behind what is free of signs.
* `Predicate.search_eq_parse`: both ways to read a text agree.
* `Predicate.parse_text_eq`: how the text of a predicate is read.
* `Predicate.parse_text`: a predicate is read as it was written.
-/

namespace Bitemporal

open Predicate (isSign splitSign)

namespace Comparison

/-- All comparisons, in the order in which their signs are sought. -/
def all : List Comparison := [.ge, .le, .gt, .lt, .eq]

theorem mem_all (c : Comparison) : c ∈ all := by cases c <;> decide

/-- The first place of the sign of a comparison in a text. -/
def find? (c : Comparison) : List Char → Option Nat
  | [] => none
  | x :: cs =>
    if c.symbol.toList.isPrefixOf (x :: cs) then some 0 else (c.find? cs).map (· + 1)

/-- A sign and where it was found. -/
abbrev Finding := Nat × Comparison

/-- Whether a sign stands further left than another, or is the longer one at its place. -/
def Finding.precedes (f g : Finding) : Bool :=
  f.1 < g.1 || (f.1 = g.1 && g.2.symbol.length < f.2.symbol.length)

/-- The better of two findings; the earlier one, if the other does not precede it. -/
def Finding.better (best : Option Finding) (f : Finding) : Option Finding :=
  match best with
  | none => some f
  | some b => if f.precedes b then some f else some b

/-- The signs that are found in a text, each at its first place. -/
def findings (cs : List Char) : List Finding := all.filterMap fun c => (c.find? cs).map (·, c)

/-- The leftmost sign of a text, and the longest of those at its place. -/
def leftmost? (cs : List Char) : Option Finding := (findings cs).foldl Finding.better none

variable {c d : Comparison} {x : Char} {cs : List Char} {f g : Finding} {fs : List Finding}

/-! ## The best of several findings -/

theorem Finding.precedes_iff : f.precedes g ↔
    f.1 < g.1 ∨ f.1 = g.1 ∧ g.2.symbol.length < f.2.symbol.length := by
  simp [precedes]

/-- A finding that precedes all others is the best of them. -/
theorem Finding.foldl_better (hf : f ∈ fs ∨ g = f) (hg : g = f ∨ f.precedes g)
    (h : ∀ e ∈ fs, e = f ∨ f.precedes e) : fs.foldl better (some g) = some f := by
  induction fs generalizing g with
  | nil => simpa using hf
  | cons e fs ih =>
    obtain ⟨he, hfs⟩ := List.forall_mem_cons.1 h
    rw [List.foldl_cons, better]
    have hbetter : e.precedes g → e = f ∨ g ≠ f := by
      rintro hprecedes
      rcases he with rfl | he
      · exact .inl rfl
      · right
        rintro rfl
        rw [precedes_iff] at hprecedes he
        omega
    split_ifs with hprecedes
    · refine ih ?_ he hfs
      rcases hf with hf | rfl
      · exact (List.mem_cons.1 hf).symm.imp_right Eq.symm
      · exact .inr ((hbetter hprecedes).resolve_right (not_not.2 rfl))
    · refine ih ?_ hg hfs
      rcases hf with hf | rfl
      · rcases List.mem_cons.1 hf with rfl | hf
        · exact .inr (hg.resolve_right hprecedes)
        · exact .inl hf
      · exact .inr rfl

theorem Finding.foldl_better_none (hf : f ∈ fs) (h : ∀ e ∈ fs, e = f ∨ f.precedes e) :
    fs.foldl better none = some f := by
  cases fs with
  | nil => cases hf
  | cons e fs =>
    obtain ⟨he, hfs⟩ := List.forall_mem_cons.1 h
    rw [List.foldl_cons, better]
    exact foldl_better ((List.mem_cons.1 hf).symm.imp_right Eq.symm) he hfs

/-! ## Signs at the front of a text -/

theorem isSign_of_isPrefixOf (h : c.symbol.toList.isPrefixOf (x :: cs)) : isSign x := by
  cases c <;> simp [symbol] at h <;> grind [isSign]

/-- What follows a sign does not make it a longer one. -/
def Ends (c : Comparison) (rest : List Char) : Prop := c = .gt ∨ c = .lt → rest.head? ≠ some '='

theorem splitSign_append {rest : List Char} (h : c.Ends rest) :
    splitSign (c.symbol.toList ++ rest) = some (c, rest) := by
  cases rest with
  | nil => cases c <;> rfl
  | cons y rest =>
    cases c
    case eq | ge | le => rfl
    all_goals
      have hy : y ≠ '=' := by simpa [Ends] using h
      simp [symbol, splitSign, hy]

/-- Every text with a sign in front has one that ends there. -/
theorem exists_eq_append (h : isSign x) (cs : List Char) :
    ∃ (c : Comparison) (rest : List Char), x :: cs = c.symbol.toList ++ rest ∧ c.Ends rest := by
  simp only [isSign, Bool.or_eq_true, decide_eq_true_eq] at h
  by_cases heq : cs.head? = some '='
  · obtain ⟨tail, rfl⟩ := List.head?_eq_some_iff.1 heq
    rcases h with (rfl | rfl) | rfl
    · exact ⟨.le, tail, rfl, by simp [Ends]⟩
    · exact ⟨.ge, tail, rfl, by simp [Ends]⟩
    · exact ⟨.eq, '=' :: tail, rfl, by simp [Ends]⟩
  · rcases h with (rfl | rfl) | rfl
    · exact ⟨.lt, cs, rfl, fun _ => heq⟩
    · exact ⟨.gt, cs, rfl, fun _ => heq⟩
    · exact ⟨.eq, cs, rfl, fun _ => heq⟩

/-- No longer sign stands where a sign ends. -/
theorem eq_or_shorter_of_isPrefixOf {rest : List Char} (h : c.Ends rest)
    (hd : d.symbol.toList.isPrefixOf (c.symbol.toList ++ rest)) :
    d = c ∨ d.symbol.length < c.symbol.length := by
  have hgt : ">".length < ">=".length := by decide
  have hlt : "<".length < "<=".length := by decide
  cases rest <;> cases c <;> cases d <;> simp [symbol] at hd <;> grind [Ends, Comparison.symbol]

theorem find?_append (hcs : ∀ y ∈ cs, ¬isSign y) (ds : List Char) :
    c.find? (cs ++ ds) = (c.find? ds).map (· + cs.length) := by
  induction cs with
  | nil => simp
  | cons y cs ih =>
    obtain ⟨hy, hcs⟩ := List.forall_mem_cons.1 hcs
    have hprefix : ¬c.symbol.toList.isPrefixOf (y :: (cs ++ ds)) :=
      fun h => hy (isSign_of_isPrefixOf h)
    rw [List.cons_append, find?, if_neg hprefix, ih hcs, Option.map_map]
    rfl

theorem mem_findings : f ∈ findings cs ↔ f.2.find? cs = some f.1 := by
  rw [findings, List.mem_filterMap]
  constructor
  · rintro ⟨c, -, hc⟩
    obtain ⟨i, hi, rfl⟩ := Option.map_eq_some_iff.1 hc
    exact hi
  · intro hf
    exact ⟨f.2, mem_all f.2, by rw [hf]; rfl⟩

/-- The leftmost sign stands behind what is free of signs. -/
theorem leftmost?_append {rest : List Char} (hcs : ∀ y ∈ cs, ¬isSign y) (h : c.Ends rest) :
    leftmost? (cs ++ (c.symbol.toList ++ rest)) = some (cs.length, c) := by
  have hfront : c.find? (c.symbol.toList ++ rest) = some 0 := by
    cases c <;> simp [symbol, find?]
  refine Finding.foldl_better_none ?_ fun f hf => ?_
  · rw [mem_findings, find?_append hcs, hfront]
    simp
  · rw [mem_findings, find?_append hcs, Option.map_eq_some_iff] at hf
    obtain ⟨i, hi, hplace⟩ := hf
    cases i with
    | succ i => exact .inr (Finding.precedes_iff.2 (.inl (by omega)))
    | zero =>
      have hd : f.2.symbol.toList.isPrefixOf (c.symbol.toList ++ rest) := by
        cases hfront : c.symbol.toList ++ rest with
        | nil => simp [hfront, find?] at hi
        | cons x tail =>
          rw [hfront, find?] at hi
          split at hi
          · assumption
          · simp at hi
      rcases eq_or_shorter_of_isPrefixOf h hd with hsame | hshort
      · exact .inl (Prod.ext (by omega) hsame)
      · exact .inr (Finding.precedes_iff.2 (.inr ⟨by omega, hshort⟩))

/-- A text is free of signs, or the first of them stands behind what is. -/
theorem forall_or_exists_eq_append (cs : List Char) : (∀ y ∈ cs, ¬isSign y) ∨
    ∃ (front : List Char) (c : Comparison) (rest : List Char),
      cs = front ++ (c.symbol.toList ++ rest) ∧ (∀ y ∈ front, ¬isSign y) ∧ c.Ends rest := by
  induction cs with
  | nil => exact .inl (by simp)
  | cons x cs ih =>
    by_cases hx : isSign x
    · obtain ⟨c, rest, heq, hends⟩ := exists_eq_append hx cs
      exact .inr ⟨[], c, rest, heq, by simp, hends⟩
    · rcases ih with hfree | ⟨front, c, rest, rfl, hfront, hends⟩
      · exact .inl (List.forall_mem_cons.2 ⟨hx, hfree⟩)
      · exact .inr ⟨x :: front, c, rest, rfl, List.forall_mem_cons.2 ⟨hx, hfront⟩, hends⟩

theorem leftmost?_of_forall (h : ∀ y ∈ cs, ¬isSign y) : leftmost? cs = none := by
  have hfind (c : Comparison) : c.find? cs = none := by
    simpa [find?] using c.find?_append h []
  simp [leftmost?, findings, hfind]

end Comparison

open Comparison

namespace Predicate

variable {p : Predicate} {s : String} {c : Comparison} {front rest : List Char}

/-- The predicate of a text, by search for each of the signs. -/
def search (s : String) : Except Error Predicate :=
  match leftmost? s.toList with
  | none => .error (.malformed s!"no operator in filter '{s}'")
  | some (place, comparison) =>
    let column := Text.trimChars (s.toList.take place)
    let raw := String.ofList <|
      Text.trimChars (s.toList.drop (place + comparison.symbol.toList.length))
    if column.isEmpty then .error (.malformed s!"no column in filter '{s}'")
    else .ok ⟨String.ofList column, comparison, (Json.ofString? raw).getD (.string raw)⟩

/-- The predicate of a text that is split at a sign. -/
def ofParts (s : String) (front : List Char) (c : Comparison) (rest : List Char) :
    Except Error Predicate :=
  let raw := String.ofList (Text.trimChars rest)
  if (Text.trimChars front).isEmpty then .error (.malformed s!"no column in filter '{s}'")
  else .ok ⟨String.ofList (Text.trimChars front), c, (Json.ofString? raw).getD (.string raw)⟩

theorem parse_of_append (hs : s.toList = front ++ (c.symbol.toList ++ rest))
    (hfront : ∀ y ∈ front, ¬isSign y) (hends : c.Ends rest) :
    parse s = ofParts s front c rest := by
  have hsplit : (s.toList.takeWhile fun c => ¬isSign c) = front ∧
      (s.toList.dropWhile fun c => ¬isSign c) = c.symbol.toList ++ rest := by
    rw [hs, List.takeWhile_append_of_pos (by simpa using hfront),
      List.dropWhile_append_of_pos (by simpa using hfront)]
    cases c <;> simp [symbol, isSign]
  simp only [parse, hsplit, splitSign_append hends, ofParts]

theorem search_of_append (hs : s.toList = front ++ (c.symbol.toList ++ rest))
    (hfront : ∀ y ∈ front, ¬isSign y) (hends : c.Ends rest) :
    search s = ofParts s front c rest := by
  simp only [search, hs, leftmost?_append hfront hends, ofParts, List.take_left,
    ← List.drop_drop, List.drop_left]

/-- Both ways to read a text agree. -/
theorem search_eq_parse (s : String) : search s = parse s := by
  rcases forall_or_exists_eq_append s.toList with hfree | ⟨front, c, rest, hs, hfront, hends⟩
  · have hnone : s.toList.dropWhile (fun c => ¬isSign c) = [] := by
      simpa using hfree
    simp only [search, leftmost?_of_forall hfree, parse, hnone, splitSign]
  · rw [search_of_append hs hfront hends, parse_of_append hs hfront hends]

/-- A column that can stand in front of a sign. -/
structure IsPlain (column : String) : Prop where
  ne_empty : column ≠ ""
  trimmed : Text.IsTrimmed column.toList
  unsigned : ∀ c ∈ column.toList, ¬isSign c

/-- The text of a predicate is split as it was joined. -/
theorem parse_text_eq (h : IsPlain p.column) : parse p.text =
    .ok ⟨p.column, p.comparison,
      (Json.ofString? p.bound.compact).getD (.string p.bound.compact)⟩ := by
  have htext : p.text.toList =
      p.column.toList ++ (p.comparison.symbol.toList ++ p.bound.compact.toList) := by
    simp [text]
  have hends : p.comparison.Ends p.bound.compact.toList := by
    intro _ hhead
    have hedge := Json.toNat_of_isEdge (Json.isEdge_of_head_or_last (.inl hhead))
    exact absurd hedge.2.2 (by decide)
  rw [parse_of_append htext h.unsigned hends, ofParts, Text.trimChars_eq_self h.trimmed,
    Text.trimChars_eq_self p.bound.isTrimmed_compact, String.ofList_toList, String.ofList_toList,
    if_neg]
  simpa using h.ne_empty

/-- A predicate is read as it was written, at the first sign and by search for each of them, if the
text of its bound is read as the bound. -/
theorem parse_text (hcolumn : IsPlain p.column)
    (hbound : Json.ofString? p.bound.compact = some p.bound) :
    parse p.text = .ok p ∧ search p.text = .ok p := by
  rw [search_eq_parse, parse_text_eq hcolumn, hbound]
  exact ⟨rfl, rfl⟩

/-- A bound whose text is full of signs, behind a sign that could be longer. -/
theorem parse_text_nested :
    let p : Predicate := ⟨"a \"b", .gt, .object [("=", .string ">= <\"=")]⟩
    IsPlain p.column ∧ Json.ofString? p.bound.compact = some p.bound ∧
      p.text = "a \"b>\x7b\"=\":\">= <\\\"=\"\x7d" ∧
        parse p.text = .ok p ∧ search p.text = .ok p := by
  intro p
  have hcolumn : IsPlain p.column := {
    ne_empty := by decide
    trimmed := by constructor <;> simp [p, Text.isBlank, Text.blankRanges]
    unsigned := by simp [p, isSign] }
  have htext : p.bound.compact = "\x7b\"=\":\">= <\\\"=\"\x7d" := by decide +kernel
  have hbound : Json.ofString? p.bound.compact = some p.bound := by
    rw [htext]
    cbv
  exact ⟨hcolumn, hbound, by decide +kernel, parse_text hcolumn hbound⟩

end Predicate

end Bitemporal
