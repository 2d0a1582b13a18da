import Mathlib
import Bitemporal.Proofs.Text.Blank
import Bitemporal.Proofs.Text.Bytes

/-!
# The lines of a text

Lines are cut between bytes, before these are read as characters. No character but the line feed has
the byte of a line feed in its UTF-8 form, and the same holds of the carriage return, so the lines
are those of the characters.

## Main definitions

* `Text.IsLines`: the lines that characters stand in.
* `Text.IsBlank`: a line that holds nothing but blanks.

## Main statements

* `Text.exists_isLines`, `Text.exists_isLines_iff`: characters stand in lines, in one way.
* `Text.isLines_iff`: these are the lines that are read from the UTF-8 form of a text.
* `Text.isEmpty_trim_iff`: trimming leaves nothing of a blank line only.
-/

namespace Bitemporal

namespace Text

/-- The lines that characters stand in. A line feed ends a line, and a carriage return just before
it is part of the end. What comes after the last line feed is a line unless it is nothing. -/
inductive IsLines : List Char → List String → Prop where
  | nil : IsLines [] []
  | last {line : List Char} (hne : line ≠ []) (hline : '\n' ∉ line) :
      IsLines line [String.ofList line]
  | feed {line rest : List Char} {lines : List String} (hline : '\n' ∉ line)
      (hreturn : line.getLast? ≠ some '\r') (hrest : IsLines rest lines) :
      IsLines (line ++ '\n' :: rest) (String.ofList line :: lines)
  | returnFeed {line rest : List Char} {lines : List String} (hline : '\n' ∉ line)
      (hrest : IsLines rest lines) :
      IsLines (line ++ '\r' :: '\n' :: rest) (String.ofList line :: lines)

/-- Characters stand in lines: the first line feed ends the first of them. -/
theorem exists_isLines (cs : List Char) : ∃ lines, IsLines cs lines := by
  induction hn : cs.length using Nat.strong_induction_on generalizing cs with
  | _ n ih =>
    by_cases hfeed : '\n' ∈ cs
    · obtain ⟨line, rest, rfl, hline⟩ := List.eq_append_cons_of_mem hfeed
      obtain ⟨lines, hlines⟩ := ih rest.length (by simp at hn; omega) rest rfl
      by_cases hreturn : line.getLast? = some '\r'
      · obtain ⟨line, rfl⟩ := List.getLast?_eq_some_iff.1 hreturn
        rw [List.append_assoc]
        exact ⟨_, .returnFeed (fun h => hline (List.mem_append_left _ h)) hlines⟩
      · exact ⟨_, .feed hline hreturn hlines⟩
    · by_cases hne : cs = []
      · exact ⟨[], hne ▸ .nil⟩
      · exact ⟨_, .last hne hfeed⟩

/-- A line that holds nothing but blanks. -/
def IsBlank (line : String) : Prop := ∀ c ∈ line.toList, isBlank c

instance (line : String) : Decidable (IsBlank line) :=
  decidable_of_iff (line.toList.all isBlank) List.all_eq_true

/-- Trimming leaves nothing of a blank line only. -/
theorem isEmpty_trim_iff {line : String} : (trim line).isEmpty ↔ IsBlank line := by
  have hleft (cs : List Char) : trimLeft cs = [] ↔ ∀ c ∈ cs, isBlank c := List.dropWhile_eq_nil_iff
  have hempty : (trim line).isEmpty ↔ trimLeft (trimLeft line.toList).reverse = [] := by
    simp [trim, trimChars]
  rw [hempty, hleft, IsBlank]
  refine ⟨fun h c hc => ?_, fun h c hc => ?_⟩
  · rw [← List.takeWhile_append_dropWhile (p := isBlank) (l := line.toList), List.mem_append] at hc
    rcases hc with hfront | hrest
    · exact List.mem_takeWhile_imp hfront
    · exact h c (List.mem_reverse.2 hrest)
  · exact h c ((List.dropWhile_sublist _).mem (List.mem_reverse.1 hc))

end Text

namespace Bytes

/-! ## Characters as bytes -/

theorem ofString_ofList (cs : List Char) :
    ofString (String.ofList cs) = cs.flatMap String.utf8EncodeChar := by
  rw [ofString, toList_eq, String.toUTF8_eq_toByteArray, String.toByteArray_ofList]
  simp [List.utf8Encode]

theorem ofString_ofList_append (cs ds : List Char) : ofString (String.ofList (cs ++ ds)) =
    ofString (String.ofList cs) ++ ofString (String.ofList ds) := by
  simp only [ofString_ofList, List.flatMap_append]

/-- A character is a byte below 128, or several bytes that are not. -/
theorem utf8EncodeChar_cases (c : Char) :
    (c.toNat < 128 ∧ String.utf8EncodeChar c = [UInt8.ofNat c.toNat]) ∨
      128 ≤ c.toNat ∧ String.utf8EncodeChar c ≠ [] ∧
        ∀ b ∈ String.utf8EncodeChar c, 128 ≤ b.toNat := by
  have hval : c.val.toNat = c.toNat := rfl
  unfold String.utf8EncodeChar
  extract_lets v
  split_ifs with h₁ h₂ h₃
  · exact .inl ⟨by omega, rfl⟩
  all_goals
    refine .inr ⟨by omega, by simp, ?_⟩
    simp only [List.forall_mem_cons, List.not_mem_nil, false_imp_iff, implies_true, and_true,
      UInt8.toNat_ofNat']
    omega

/-- The byte of a character below 128 stands for no other character. -/
theorem mem_utf8EncodeChar_iff {a c : Char} (ha : a.toNat < 128) :
    UInt8.ofNat a.toNat ∈ String.utf8EncodeChar c ↔ c = a := by
  have hbyte {n : Nat} (hn : n < 128) : (UInt8.ofNat n).toNat = n :=
    UInt8.toNat_ofNat_of_lt' (hn.trans (by decide))
  rcases utf8EncodeChar_cases c with ⟨hc, heq⟩ | ⟨hc, -, hbytes⟩
  · rw [heq, List.mem_singleton, ← UInt8.toNat_inj, hbyte ha, hbyte hc]
    exact ⟨fun h => (Char.toNat_inj.1 h).symm, fun h => congrArg Char.toNat h.symm⟩
  · refine iff_of_false (fun h => ?_) fun h => ?_
    · have := hbytes _ h
      rw [hbyte ha] at this
      omega
    · subst h
      omega

theorem utf8EncodeChar_ne_nil (c : Char) : String.utf8EncodeChar c ≠ [] := by
  rcases utf8EncodeChar_cases c with ⟨-, heq⟩ | ⟨-, hne, -⟩
  · rw [heq]
    exact List.cons_ne_nil _ _
  · exact hne

variable {a : Char} {cs : List Char}

theorem ofString_ofList_eq_nil_iff : ofString (String.ofList cs) = [] ↔ cs = [] := by
  rw [ofString_ofList, List.flatMap_eq_nil_iff, List.eq_nil_iff_forall_not_mem]
  exact forall₂_congr fun c _ => iff_false_intro (utf8EncodeChar_ne_nil c)

theorem mem_ofString_ofList_iff (ha : a.toNat < 128) :
    UInt8.ofNat a.toNat ∈ ofString (String.ofList cs) ↔ a ∈ cs := by
  rw [ofString_ofList, List.mem_flatMap]
  simp only [mem_utf8EncodeChar_iff ha, exists_eq_right]

theorem getLast?_ofString_ofList_iff (ha : a.toNat < 128) :
    (ofString (String.ofList cs)).getLast? = some (UInt8.ofNat a.toNat) ↔
      cs.getLast? = some a := by
  rw [ofString_ofList]
  induction cs using List.reverseRecOn with
  | nil => simp
  | append_singleton front c _ =>
    rw [List.flatMap_append, List.flatMap_singleton,
      List.getLast?_append_of_ne_nil _ (utf8EncodeChar_ne_nil c), List.getLast?_concat,
      Option.some_inj]
    refine ⟨fun h => (mem_utf8EncodeChar_iff ha).1 (List.mem_of_getLast? h), fun h => ?_⟩
    subst h
    rcases utf8EncodeChar_cases c with ⟨-, heq⟩ | ⟨hc, -⟩
    · rw [heq]
      rfl
    · omega

/-! ## Bytes between line feeds -/

variable {line rest : Bytes}

/-- What one more byte does to the line that it stands in and to the lines before. -/
def pushByte (acc : Bytes × List (Bytes × Bool)) (b : UInt8) : Bytes × List (Bytes × Bool) :=
  if b = 10 then ([], (acc.1, true) :: acc.2) else (b :: acc.1, acc.2)

theorem rawLines_eq (bs : Bytes) : rawLines bs =
    let acc := bs.foldl pushByte ([], [])
    (if acc.1.isEmpty then acc.2 else (acc.1, false) :: acc.2).reverse.map
      fun l => (l.1.reverse, l.2) := rfl

theorem foldl_pushByte_of_not_mem (h : 10 ∉ line) (acc : Bytes × List (Bytes × Bool)) :
    line.foldl pushByte acc = (line.reverse ++ acc.1, acc.2) := by
  induction line generalizing acc with
  | nil => rfl
  | cons b line ih =>
    rw [List.mem_cons, not_or] at h
    rw [List.foldl_cons, ih h.2, pushByte, if_neg (Ne.symm h.1)]
    simp

/-- Lines that are finished stay. -/
theorem foldl_pushByte_append (bs current : Bytes) (done more : List (Bytes × Bool)) :
    bs.foldl pushByte (current, done ++ more) =
      ((bs.foldl pushByte (current, done)).1, (bs.foldl pushByte (current, done)).2 ++ more) := by
  induction bs generalizing current done with
  | nil => rfl
  | cons b bs ih =>
    rw [List.foldl_cons, List.foldl_cons, pushByte, pushByte]
    split
    · exact ih [] ((current, true) :: done)
    · exact ih (b :: current) done

theorem rawLines_of_not_mem (h : 10 ∉ line) (hne : line ≠ []) :
    rawLines line = [(line, false)] := by
  rw [rawLines_eq, foldl_pushByte_of_not_mem h]
  simp [hne]

theorem rawLines_append_feed (h : 10 ∉ line) (rest : Bytes) :
    rawLines (line ++ 10 :: rest) = (line, true) :: rawLines rest := by
  have hrest := foldl_pushByte_append rest [] [] [(line.reverse, true)]
  rw [rawLines_eq, rawLines_eq, List.foldl_append, foldl_pushByte_of_not_mem h, List.foldl_cons,
    pushByte, if_pos rfl, List.append_nil]
  rw [List.nil_append] at hrest
  rw [hrest]
  dsimp only
  split <;> simp

/-! ## Texts of lines -/

theorem readLines_eq (read : List String) (lines : List (Bytes × Bool)) :
    readLines read lines =
      (read.reverse ++ (readLines [] lines).1, (readLines [] lines).2) := by
  induction lines generalizing read with
  | nil => simp [readLines]
  | cons line rest ih =>
    rw [readLines, readLines]
    cases text? (dropReturn line) with
    | none => simp
    | some s =>
      dsimp only
      rw [ih, ih [s]]
      simp

/-- A line that is read comes before the rest. -/
theorem lines_append_feed {s : String} (h : 10 ∉ line)
    (hs : text? (dropReturn (line, true)) = some s)
    (rest : Bytes) : lines (line ++ 10 :: rest) = (s :: (lines rest).1, (lines rest).2) := by
  rw [lines, rawLines_append_feed h, readLines, hs]
  exact readLines_eq [s] _

end Bytes

namespace Text

open Bytes (ofString)

/-- The lines of the UTF-8 form of a text are those of its characters. -/
theorem IsLines.lines_eq {cs : List Char} {lines : List String} (h : IsLines cs lines) :
    Bytes.lines (ofString (String.ofList cs)) = (lines, false) := by
  have hends (rest : List Char) :
      ofString (String.ofList ('\n' :: rest)) = 10 :: ofString (String.ofList rest) := by
    rw [Bytes.ofString_ofList, Bytes.ofString_ofList]
    rfl
  have hfeed {line : List Char} (hline : '\n' ∉ line) : 10 ∉ ofString (String.ofList line) :=
    fun h => hline ((Bytes.mem_ofString_ofList_iff (a := '\n') (by decide)).1 h)
  induction h with
  | nil =>
    rw [Bytes.ofString_ofList]
    rfl
  | @last line hne hline =>
    have hbytes : ofString (String.ofList line) ≠ [] := by
      rwa [Ne, Bytes.ofString_ofList_eq_nil_iff]
    rw [Bytes.lines, Bytes.rawLines_of_not_mem (hfeed hline) hbytes, Bytes.readLines,
      Bytes.dropReturn, if_neg (by simp), Bytes.text?_ofString]
    rfl
  | @feed line rest lines hline hreturn hrest ih =>
    have hkept : Bytes.dropReturn (ofString (String.ofList line), true) =
        ofString (String.ofList line) := by
      refine if_neg fun h => hreturn ?_
      exact (Bytes.getLast?_ofString_ofList_iff (a := '\r') (by decide)).1 h.2
    rw [Bytes.ofString_ofList_append, hends, Bytes.lines_append_feed (hfeed hline)
      (hkept.symm ▸ Bytes.text?_ofString _), ih]
  | @returnFeed line rest lines hline hrest ih =>
    have hreturn : ofString (String.ofList (line ++ ['\r'])) =
        ofString (String.ofList line) ++ [13] := by
      rw [Bytes.ofString_ofList_append, Bytes.ofString_ofList ['\r']]
      rfl
    have hdropped : Bytes.dropReturn (ofString (String.ofList (line ++ ['\r'])), true) =
        ofString (String.ofList line) := by
      rw [Bytes.dropReturn, hreturn, if_pos ⟨rfl, List.getLast?_concat⟩, List.dropLast_concat]
    have hline' : '\n' ∉ line ++ ['\r'] := by simpa using hline
    rw [List.append_cons, Bytes.ofString_ofList_append, hends, Bytes.lines_append_feed
      (hfeed hline') (hdropped.symm ▸ Bytes.text?_ofString _), ih]

/-- The lines that a text stands in are those that are read from its bytes. -/
theorem isLines_iff {text : String} {lines : List String} :
    IsLines text.toList lines ↔ Bytes.lines (ofString text) = (lines, false) := by
  have hread {ls : List String} (h : IsLines text.toList ls) :
      Bytes.lines (ofString text) = (ls, false) := by
    rw [← String.ofList_toList (s := text)]
    exact h.lines_eq
  refine ⟨hread, fun h => ?_⟩
  obtain ⟨ls, hls⟩ := exists_isLines text.toList
  rwa [(Prod.mk.inj ((hread hls).symm.trans h)).1] at hls

/-- A text stands in lines in one way. -/
theorem exists_isLines_iff (text : String) :
    ∃ lines, ∀ ls, IsLines text.toList ls ↔ ls = lines := by
  obtain ⟨lines, hlines⟩ := exists_isLines text.toList
  refine ⟨lines, fun ls => ?_⟩
  rw [isLines_iff, isLines_iff.1 hlines, Prod.mk.injEq, and_iff_left rfl, eq_comm]

end Text

end Bitemporal
