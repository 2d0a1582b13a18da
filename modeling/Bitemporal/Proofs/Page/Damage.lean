import Mathlib
import Bitemporal.Error
import Bitemporal.Proofs.Digest.Crc32
import Bitemporal.Proofs.Page.Record

/-!
# Damaged records

A record is checked before anything in it is read: it has to begin with its own length and to end
with its own check. Of byte strings that differ in four bytes side by side at most, one alone passes
both. So damage of this kind to a record is always found, wherever it is, and told by its length or
by its check.

## Main definitions

* `Record.IsSealed`: a byte string has its length in front and its check behind.
* `Record.damage`: what is wrong with a byte string that is not sealed.

## Main statements

* `Record.eq_of_agreeOutside`: sealed strings that differ in four bytes at most are equal.
* `PageColumns.decode_of_not_isSealed`: what is not sealed is not read.
* `Page.decode_damaged`: damage to four bytes side by side is found.
-/

namespace Bitemporal

namespace Record

variable {bytes a b : Bytes} {start : Nat}

theorem toNat_word (h : bytes.length ≤ 4) : (Crc32.word bytes).toNat = littleEndianValue bytes := by
  induction bytes with
  | nil => simp [Crc32.word, littleEndianValue]
  | cons x rest ih =>
    have hrest : rest.length < 4 := h
    rw [Crc32.toNat_word_cons x (Crc32.word_lt hrest), ih hrest.le, littleEndianValue]

/-- A byte string begins with its length and ends with the check of all that comes before. -/
structure IsSealed (bytes : Bytes) : Prop where
  length : littleEndianValue (bytes.take 4) = bytes.length
  checksum : littleEndianValue (bytes.drop (bytes.length - 4)) =
    (Crc32.checksum (bytes.take (bytes.length - 4))).toNat

theorem isSealed_frame (h : (frame bytes).length < 2 ^ 32) : IsSealed (frame bytes) :=
  ⟨stored_frame h, checksum_frame bytes⟩

/-- All sealed strings leave the same remainder. -/
theorem IsSealed.foldl_feed (h : IsSealed bytes) (hlength : 4 ≤ bytes.length) :
    bytes.foldl Crc32.feed (BitVec.allOnes 32) = Crc32.residue := by
  have hlast : (bytes.drop (bytes.length - 4)).length = 4 := by
    rw [List.length_drop]
    omega
  have hcheck := h.checksum
  rw [← toNat_word hlast.le] at hcheck
  have hresidue := (Crc32.checksum_eq_word_iff hlast).1 (BitVec.eq_of_toNat_eq hcheck.symm)
  rwa [List.take_append_drop] at hresidue

theorem eq_of_agreeOutside (ha : IsSealed a) (hb : IsSealed b) (hlength : 4 ≤ a.length)
    (hagree : a.AgreeOutside start 4 b) : a = b := by
  apply Crc32.eq_of_foldl_feed_eq hagree
  rw [ha.foldl_feed hlength, hb.foldl_feed (hagree.length ▸ hlength)]

/-- What is wrong with a byte string that is not sealed: its length, or else its check. -/
def damage (bytes : Bytes) : Defect :=
  let stored := littleEndianValue (bytes.take 4)
  if stored ≠ bytes.length then .wrongLength stored bytes.length
  else .wrongChecksum (Crc32.checksum (bytes.take (bytes.length - 4))).toNat
    (littleEndianValue (bytes.drop (bytes.length - 4)))

end Record

open Record

theorem PageColumns.decode_of_not_isSealed {bytes : Bytes} (h : ¬IsSealed bytes)
    (hlength : minLength ≤ bytes.length) (index : Nat) :
    PageColumns.decode bytes index = .error (damage bytes) := by
  rw [PageColumns.decode, if_neg (by omega), damage]
  by_cases hstored : littleEndianValue (bytes.take 4) = bytes.length
  · have hchecksum := fun hcheck => h ⟨hstored, hcheck⟩
    simp [hstored, Ne.symm hchecksum]
  · simp [hstored]

namespace Page

variable {pg : Page} {index start : Nat} {bytes : Bytes}

theorem minLength_le_length_encode (index : Nat) (pg : Page) :
    minLength ≤ (pg.encode index).length := by
  rw [length_encode]
  omega

/-- A byte string that differs from the record of a page in four bytes side by side at most, and is
not the record, is refused as corrupt, by its length or by its check. -/
theorem decode_damaged (hfits : (pg.encode index).length < 2 ^ 32)
    (hagree : bytes.AgreeOutside start 4 (pg.encode index)) (hne : bytes ≠ pg.encode index)
    (other : Nat) :
    (Page.decode bytes other).mapError (fun d => Error.corruption d.message) =
      .error (.corruption (Record.damage bytes).message) := by
  have hlong := minLength_le_length_encode index pg
  have hopen : ¬IsSealed bytes := fun hsealed =>
    hne (eq_of_agreeOutside hsealed (isSealed_frame hfits)
      (hagree.length ▸ (show 4 ≤ minLength by decide).trans hlong) hagree)
  rw [Page.decode, PageColumns.decode_of_not_isSealed hopen (hagree.length ▸ hlong)]
  rfl

/-- Four bytes, the last two of a body and the first two of its check. -/
theorem decode_damaged_across :
    let pg : Page := ⟨[⟨.ofNat 1, .start, .never, 5, .put (Document.empty.set "a" (.int 7))⟩]⟩
    let record := pg.encode 3
    let bytes := record.take 66 ++ [1, 2, 3, 4] ++ record.drop 70
    record.length = 72 ∧ bytes.AgreeOutside 66 4 record ∧ bytes ≠ record ∧
      (Page.decode bytes 3).mapError (fun d => Error.corruption d.message) =
        .error (.corruption (Record.damage bytes).message) := by
  intro pg record bytes
  have hlength : record.length = 72 := by decide +kernel
  have hfits : 66 + ([1, 2, 3, 4] : Bytes).length ≤ record.length := by simp [hlength]
  have hagree : bytes.AgreeOutside 66 4 record := Bytes.agreeOutside_overwrite hfits
  have hne : bytes ≠ record := by decide +kernel
  exact ⟨hlength, hagree, hne, decode_damaged (by rw [hlength]; decide) hagree hne 3⟩

end Page

end Bitemporal
