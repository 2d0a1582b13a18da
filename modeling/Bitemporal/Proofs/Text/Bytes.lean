import Mathlib
import Bitemporal.Text.Bytes

/-!
# Texts as bytes

## Main definitions

* `Bytes.AgreeOutside`: byte strings that differ in some bytes side by side at most.

## Main statements

* `Bytes.text?_ofString`: the UTF-8 form of a text is read back as the text.
* `Bytes.AgreeOutside.exists_eq_append`: such strings have the same front and the same back.
-/

namespace Bitemporal.Bytes

theorem toList_loop_eq (b : ByteArray) (i : Nat) (r : List UInt8) :
    ByteArray.toList.loop b i r = r.reverse ++ b.data.toList.drop i := by
  induction h : b.size - i generalizing i r with
  | zero =>
    rw [ByteArray.toList.loop, if_neg (by omega), List.drop_eq_nil_of_le, List.append_nil]
    simpa using show b.size ≤ i by omega
  | succ n ih =>
    have hi : i < b.data.size := show i < b.size by omega
    have hdrop : b.data.toList.drop i = b.data[i] :: b.data.toList.drop (i + 1) :=
      List.drop_eq_getElem_cons (by simpa using hi)
    rw [ByteArray.toList.loop, if_pos (by omega), ih _ _ (by omega), hdrop]
    simp [ByteArray.get!, getElem!_pos b.data i hi]

theorem toList_eq (b : ByteArray) : b.toList = b.data.toList := by
  rw [ByteArray.toList, toList_loop_eq]
  rfl

@[simp] theorem text?_ofString (s : String) : text? (ofString s) = some s := by
  have hbytes : (⟨(ofString s).toArray⟩ : ByteArray) = s.toByteArray := by
    rw [ofString, toList_eq, String.toUTF8_eq_toByteArray]
  rw [text?, hbytes, String.fromUTF8?, dif_pos s.isValidUTF8]
  rfl

/-! ## Damage -/

variable {start count : Nat} {a b : Bytes}

/-- Byte strings of one length agree but for some bytes side by side. -/
structure AgreeOutside (start count : Nat) (a b : Bytes) : Prop where
  length : a.length = b.length
  outside : ∀ i, i < start ∨ start + count ≤ i → a[i]? = b[i]?

theorem AgreeOutside.exists_eq_append (h : a.AgreeOutside start count b) :
    ∃ front x y back, a = front ++ x ++ back ∧ b = front ++ y ++ back ∧ x.length = y.length ∧
      x.length ≤ count := by
  have hfront : a.take start = b.take start := by
    apply List.ext_getElem?
    intro i
    have := h.outside i
    grind
  have hback : a.drop (start + count) = b.drop (start + count) := by
    apply List.ext_getElem?
    intro i
    have := h.outside (start + count + i) (.inr (by omega))
    grind
  have hsplit (c : Bytes) :
      c = c.take start ++ (c.drop start).take count ++ c.drop (start + count) := by
    rw [List.append_assoc, ← List.drop_drop, List.take_append_drop, List.take_append_drop]
  refine ⟨_, (a.drop start).take count, (b.drop start).take count, _, hsplit a, ?_, ?_, ?_⟩
  · rw [hfront, hback]
    exact hsplit b
  · simp [h.length]
  · simp

/-- Bytes that are overwritten side by side. -/
theorem agreeOutside_overwrite {x : Bytes} (h : start + x.length ≤ b.length) :
    AgreeOutside start x.length (b.take start ++ x ++ b.drop (start + x.length)) b where
  length := by grind
  outside i hi := by
    have hlength : (b.take start ++ x).length = start + x.length := by grind
    rcases hi with hi | hi
    · rw [List.append_assoc, List.getElem?_append_left (by grind), List.getElem?_take_of_lt hi]
    · rw [List.getElem?_append_right (hlength ▸ hi), hlength, List.getElem?_drop,
        Nat.add_sub_cancel' hi]

end Bitemporal.Bytes
