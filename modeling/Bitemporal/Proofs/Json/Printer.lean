import Mathlib
import Bitemporal.Json.Lexer
import Bitemporal.Json.Printer
import Bitemporal.Proofs.Text.Blank

/-!
# The ends of JSON text

Compact text begins and ends with a bracket, a quote, or a character of a number or a constant. So
whatever the value is, neither end of its text is a blank or a sign of comparison.

## Main definitions

* `Json.IsWord`: characters that can stand in a number or a constant.
* `Json.isEdge`: the characters that the text of a value may begin or end with.

## Main statements

* `Json.isWord_renderNumber`: the characters of a number.
* `Json.isEdge_of_head_or_last`: the ends of compact text.
* `Json.isTrimmed_compact`: neither of them is a blank.
-/

namespace Bitemporal.Json

variable {c : Char} {cs ds : List Char}

/-! ## Numbers -/

/-- Characters that can stand in a number or a constant. -/
def IsWord (cs : List Char) : Prop := ∀ c ∈ cs, isWordChar c

instance (cs : List Char) : Decidable (IsWord cs) := List.decidableBAll _ cs

theorem isWord_append : IsWord (cs ++ ds) ↔ IsWord cs ∧ IsWord ds := List.forall_mem_append

theorem isWord_replicate_zero (n : Nat) : IsWord (List.replicate n '0') := by
  intro c hc
  rw [List.eq_of_mem_replicate hc]
  rfl

theorem IsWord.of_sublist (h : IsWord ds) (hsub : cs.Sublist ds) : IsWord cs :=
  fun c hc => h c (hsub.mem hc)

theorem isWord_toDigits (n : Nat) : IsWord (Nat.toDigits 10 n) := by
  intro c hc
  have hdigit : c.isDigit := Nat.isDigit_of_mem_toDigits (by decide) le_rfl hc
  simp [isWordChar, Char.isAlphanum, hdigit]

theorem isWord_significantDigits (n : Nat) : IsWord (Binary64.significantDigits n) := by
  intro c hc
  rw [Binary64.significantDigits, List.mem_reverse] at hc
  exact isWord_toDigits n c (List.mem_reverse.1 ((List.dropWhile_sublist _).mem hc))

theorem isWord_positional (h : IsWord cs) (lead : Int) : IsWord (Binary64.positional cs lead) := by
  rw [Binary64.positional]
  split
  · rw [isWord_append, isWord_append]
    exact ⟨⟨by decide, isWord_replicate_zero _⟩, h⟩
  · have hfraction : IsWord (if (cs.drop (lead.toNat + 1)).isEmpty then ['0']
        else cs.drop (lead.toNat + 1)) := by
      split
      · decide
      · exact h.of_sublist (List.drop_sublist _ cs)
    rw [isWord_append, isWord_append, isWord_append]
    exact ⟨⟨⟨h.of_sublist (List.take_sublist _ cs), isWord_replicate_zero _⟩, by decide⟩, hfraction⟩

theorem isWord_scientific (h : IsWord cs) (lead : Int) : IsWord (Binary64.scientific cs lead) := by
  have hpoint : IsWord (if (cs.drop 1).isEmpty then [] else '.' :: cs.drop 1) := by
    split
    · decide
    · exact List.forall_mem_cons.2 ⟨rfl, h.of_sublist (List.drop_sublist 1 cs)⟩
  have hsign : IsWord [if lead < 0 then '-' else '+'] := by split <;> decide
  rw [Binary64.scientific]
  simp only [isWord_append]
  exact ⟨⟨⟨⟨h.of_sublist (List.take_sublist 1 cs), hpoint⟩, by decide⟩, hsign⟩, isWord_toDigits _⟩

theorem isWord_render (layout : Binary64.DecimalLayout) (x : Binary64) :
    IsWord (x.render layout).toList := by
  have hsign : IsWord (if x.negative then ['-'] else []) := by split <;> decide
  rw [Binary64.render]
  split <;> rw [String.toList_ofList, isWord_append]
  · exact ⟨hsign, by decide⟩
  · refine ⟨hsign, ?_⟩
    split
    · exact isWord_positional (isWord_significantDigits _) _
    · exact isWord_scientific (isWord_significantDigits _) _

/-- A number is written with the characters of words. -/
theorem isWord_renderNumber (n : Number) : IsWord (renderNumber n).toList := by
  cases n with
  | float x => exact isWord_render numberLayout x
  | int i =>
    rw [renderNumber, Int.toString_eq_repr]
    cases i with
    | ofNat m =>
      rw [Int.repr, Nat.toList_repr]
      exact isWord_toDigits m
    | negSucc m =>
      rw [Int.repr, String.toList_append, isWord_append, Nat.toList_repr]
      exact ⟨by decide, isWord_toDigits _⟩

/-! ## All values -/

/-- The characters that the text of a value may begin or end with. -/
def isEdge (c : Char) : Bool :=
  isWordChar c || c = '"' || c = '[' || c = ']' || c = '\x7b' || c = '\x7d'

/-- Whatever stands between two characters, they are its ends. -/
theorem isEdge_of_enclosed {opening closing : Char} (hcs : cs = opening :: ds ++ [closing])
    (hopening : isEdge opening) (hclosing : isEdge closing)
    (h : c ∈ cs.head? ∨ c ∈ cs.getLast?) : isEdge c := by
  subst hcs
  rcases h with h | h
  · obtain rfl : opening = c := by simpa using h
    exact hopening
  · rw [List.getLast?_concat] at h
    obtain rfl : closing = c := by simpa using h
    exact hclosing

/-- The text of a value begins and ends with a bracket, a quote or a character of a word. -/
theorem isEdge_of_head_or_last {v : Json}
    (h : c ∈ v.compact.toList.head? ∨ c ∈ v.compact.toList.getLast?) : isEdge c := by
  have hword (hall : IsWord v.compact.toList) : isEdge c := by
    simp [isEdge, hall c (h.elim List.mem_of_mem_head? List.mem_of_mem_getLast?)]
  cases v with
  | null => exact hword (by rw [compact]; decide)
  | bool b => cases b <;> exact hword (by rw [compact]; decide)
  | number n => exact hword (by rw [compact]; exact isWord_renderNumber n)
  | string s =>
    have hquote : (string s).compact.toList = '"' :: s.toList.flatMap escapeChar ++ ['"'] := by
      rw [compact, quote, String.toList_ofList]
    exact isEdge_of_enclosed hquote rfl rfl h
  | array items =>
    have hlist : (array items).compact.toList =
        '[' :: (",".intercalate (compactItems items)).toList ++ [']'] := by
      rw [compact, String.toList_append, String.toList_append]
      rfl
    exact isEdge_of_enclosed hlist rfl rfl h
  | object fields =>
    have hobject : (object fields).compact.toList =
        '\x7b' :: (",".intercalate (compactFields fields)).toList ++ ['\x7d'] := by
      rw [compact, String.toList_append, String.toList_append]
      rfl
    exact isEdge_of_enclosed hobject rfl rfl h

/-- The ends of a text are visible characters of the first 128, and no signs of comparison. -/
theorem toNat_of_isEdge (h : isEdge c) :
    33 < c.toNat ∧ c.toNat < 127 ∧ (c.toNat < 60 ∨ 62 < c.toNat) := by
  have hval (d : Char) : d.val.toNat = d.toNat := rfl
  simp only [isEdge, isWordChar, Char.isAlphanum, Char.isAlpha, Char.isUpper, Char.isLower,
    Char.isDigit, Bool.or_eq_true, Bool.and_eq_true, decide_eq_true_eq, ge_iff_le,
    UInt32.le_iff_toNat_le, hval, Char.reduceToNat] at h
  rcases h with (((((h | rfl) | rfl) | rfl) | rfl) | rfl)
  · rcases h with ((h | rfl) | rfl) | rfl
    · omega
    all_goals decide
  all_goals decide

/-- No blank stands at an end of the text of a value. -/
theorem isTrimmed_compact (v : Json) : Text.IsTrimmed v.compact.toList := by
  have hedge {c : Char} (h : isEdge c) : ¬Text.isBlank c := by
    obtain ⟨hlow, hhigh, -⟩ := toNat_of_isEdge h
    simp [Text.isBlank, Text.blankRanges]
    omega
  exact ⟨fun c hc => hedge (isEdge_of_head_or_last (.inl hc)),
    fun c hc => hedge (isEdge_of_head_or_last (.inr hc))⟩

end Bitemporal.Json
