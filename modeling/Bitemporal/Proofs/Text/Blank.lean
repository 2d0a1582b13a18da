import Mathlib
import Bitemporal.Text.Blank

/-!
# Trimmed texts

A text is left as it is by trimming if neither of its ends is a blank.

## Main definitions

* `Text.IsTrimmed`: a text without blanks at its ends.

## Main statements

* `Text.trimChars_eq_self`: trimming leaves such a text as it is.
-/

namespace Bitemporal.Text

variable {cs : List Char}

/-- A text without blanks at its ends. -/
structure IsTrimmed (cs : List Char) : Prop where
  head : ∀ c ∈ cs.head?, ¬isBlank c
  last : ∀ c ∈ cs.getLast?, ¬isBlank c

theorem trimLeft_eq_self (h : ∀ c ∈ cs.head?, ¬isBlank c) : trimLeft cs = cs := by
  cases cs with
  | nil => rfl
  | cons c cs => exact List.dropWhile_cons_of_neg (h c rfl)

theorem trimChars_eq_self (h : IsTrimmed cs) : trimChars cs = cs := by
  rw [trimChars, trimLeft_eq_self h.head, trimLeft_eq_self (by simpa using h.last),
    List.reverse_reverse]

end Bitemporal.Text
