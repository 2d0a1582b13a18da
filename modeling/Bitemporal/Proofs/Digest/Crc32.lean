import Mathlib
import Bitemporal.Digest.Crc32
import Bitemporal.Proofs.Text.Bytes

/-!
# What a check finds

No step of the remainder loses anything: the polynomial has the highest bit, so this bit tells what
was shifted out. Up to four bytes are fed like one number, which is added to the remainder before
all their steps. So two byte strings that differ in four bytes side by side, and nowhere else, have
different remainders, and a string with its check behind it leaves one remainder, whatever it says.

## Main definitions

* `Crc32.word`: some bytes as one number.
* `Crc32.residue`: the remainder of a string with its check.

## Main statements

* `Crc32.shifts_injective`: different remainders stay different.
* `Crc32.foldl_feed_eq`: up to four bytes are fed at once.
* `Crc32.eq_of_foldl_feed_eq`: differences in four bytes side by side change the remainder.
* `Crc32.checksum_eq_word_iff`: a string with its check behind it leaves the residue.
-/

namespace Bitemporal.Crc32

variable {a b r : BitVec 32} {n : Nat} {bytes xs ys : Bytes}

/-! ## Steps -/

theorem shift_xor (a b : BitVec 32) : shift (a ^^^ b) = shift a ^^^ shift b := by
  have hself : polynomial ^^^ polynomial = 0#32 := BitVec.xor_self
  simp only [shift, BitVec.getLsbD_xor, BitVec.ushiftRight_xor_distrib]
  cases a.getLsbD 0 <;> cases b.getLsbD 0 <;> grind

/-- The highest bit after a step is the bit that the step took out. -/
theorem getLsbD_shift (r : BitVec 32) : (shift r).getLsbD 31 = r.getLsbD 0 := by
  rw [shift]
  split <;> simp_all [polynomial]

theorem shift_injective : Function.Injective shift := by
  intro a b h
  have hlast : a.getLsbD 0 = b.getLsbD 0 := by rw [← getLsbD_shift, h, getLsbD_shift]
  have hrest : a >>> 1 = b >>> 1 := by
    simp only [shift, hlast] at h
    split at h
    · exact (BitVec.xor_left_inj polynomial).1 h
    · exact h
  apply BitVec.eq_of_getLsbD_eq
  intro i hi
  cases i with
  | zero => exact hlast
  | succ i => simpa [Nat.add_comm] using congrArg (fun x => x.getLsbD i) hrest

theorem shifts_xor (n : Nat) (a b : BitVec 32) :
    shifts n (a ^^^ b) = shifts n a ^^^ shifts n b := by
  induction n generalizing a b with
  | zero => rfl
  | succ n ih => rw [shifts, shift_xor, ih, shifts, shifts]

/-- Different remainders stay different. -/
theorem shifts_injective (n : Nat) : Function.Injective (shifts n) := by
  induction n with
  | zero => exact fun a b h => h
  | succ n ih => exact ih.comp shift_injective

theorem shifts_add (m n : Nat) (r : BitVec 32) : shifts (m + n) r = shifts n (shifts m r) := by
  induction m generalizing r with
  | zero => rw [Nat.zero_add, shifts]
  | succ m ih => rw [Nat.succ_add, shifts, ih, shifts]

/-- Zeros that are shifted in at the low end are shifted out again. -/
theorem shifts_shiftLeft (h : ∀ i, 32 ≤ i + n → r.getLsbD i = false) :
    shifts n (r <<< n) = r := by
  induction n with
  | zero => simp [shifts]
  | succ n ih =>
    have hstep : shift (r <<< (n + 1)) = r <<< n := by
      rw [shift, if_neg (by simp)]
      apply BitVec.eq_of_getLsbD_eq
      intro i hi
      have := h (i - n)
      grind
    rw [shifts, hstep, ih fun i hi => h i (by omega)]

/-! ## Bytes -/

/-- Some bytes as one number, the first byte at the low end. -/
def word : Bytes → BitVec 32
  | [] => 0
  | b :: rest => b.toBitVec.setWidth 32 ^^^ (word rest <<< 8)

theorem toNat_word_cons (x : UInt8) (h : (word xs).toNat < 2 ^ 24) :
    (word (x :: xs)).toNat = x.toNat + 256 * (word xs).toNat := by
  have hx := x.toNat_lt
  have hapart : x.toBitVec.setWidth 32 &&& (word xs <<< 8) = 0#32 := by
    apply BitVec.eq_of_getLsbD_eq
    grind
  have hor : word (x :: xs) = x.toBitVec.setWidth 32 ||| (word xs <<< 8) := by
    apply BitVec.eq_of_getLsbD_eq
    intro i _
    have := congrArg (fun y => y.getLsbD i) hapart
    grind [word]
  rw [hor, ← BitVec.add_eq_or_of_and_eq_zero _ _ hapart]
  simp
  omega

theorem toNat_word_lt (h : bytes.length ≤ 4) : (word bytes).toNat < 256 ^ bytes.length := by
  induction bytes with
  | nil => simp [word]
  | cons x rest ih =>
    have hx := x.toNat_lt
    have hrest := ih (by grind)
    have hpow : 256 ^ rest.length ≤ 256 ^ 3 := Nat.pow_le_pow_right (by omega) (by grind)
    rw [toNat_word_cons x (by omega), List.length_cons, Nat.pow_succ']
    omega

theorem word_lt (h : bytes.length < 4) : (word bytes).toNat < 2 ^ 24 := by
  have hlt := toNat_word_lt h.le
  have hpow : 256 ^ bytes.length ≤ 256 ^ 3 := Nat.pow_le_pow_right (by omega) (by omega)
  omega

theorem eq_of_word_eq (hlength : xs.length = ys.length) (hshort : xs.length ≤ 4)
    (h : word xs = word ys) : xs = ys := by
  induction xs generalizing ys with
  | nil => exact (List.eq_nil_of_length_eq_zero hlength.symm).symm
  | cons x xs ih =>
    obtain ⟨y, ys, rfl⟩ : ∃ y zs, ys = y :: zs := List.exists_cons_of_length_eq_add_one hlength.symm
    have hx := x.toNat_lt
    have hy := y.toNat_lt
    have hnat := congrArg BitVec.toNat h
    simp only [List.length_cons] at hlength hshort
    rw [toNat_word_cons x (word_lt (by omega)), toNat_word_cons y (word_lt (by omega))] at hnat
    have hhead : x = y := UInt8.toNat_inj.1 (by omega)
    have htail : word xs = word ys := BitVec.eq_of_toNat_eq (by omega)
    rw [hhead, ih (by omega) (by omega) htail]

/-- Up to four bytes are fed at once. A byte is fed by eight steps, and these take the bytes behind
it down to where they are to be fed. -/
theorem foldl_feed_eq (h : bytes.length ≤ 4) (r : BitVec 32) :
    bytes.foldl feed r = shifts (8 * bytes.length) (r ^^^ word bytes) := by
  induction bytes generalizing r with
  | nil => simp [word, shifts]
  | cons x rest ih =>
    have hdown : shifts 8 (word rest <<< 8) = word rest := by
      have hlt : (word rest).toNat < 2 ^ 24 := word_lt (by grind)
      refine shifts_shiftLeft fun i hi => Nat.testBit_lt_two_pow (hlt.trans_le ?_)
      exact Nat.pow_le_pow_right (by omega) (by omega)
    calc (x :: rest).foldl feed r
        = shifts (8 * rest.length) (feed r x ^^^ word rest) := by
          rw [List.foldl_cons, ih (by grind)]
      _ = shifts (8 * rest.length) (shifts 8 (r ^^^ word (x :: rest))) := by
          rw [word, ← BitVec.xor_assoc, shifts_xor 8 (r ^^^ _), hdown, feed]
      _ = shifts (8 * (x :: rest).length) (r ^^^ word (x :: rest)) := by
          rw [← shifts_add, List.length_cons, Nat.mul_succ, Nat.add_comm]

theorem feed_injective (x : UInt8) : Function.Injective fun r => feed r x := by
  intro a b h
  exact (BitVec.xor_left_inj _).1 (shifts_injective 8 h)

theorem foldl_feed_injective (bytes : Bytes) :
    Function.Injective fun r => bytes.foldl feed r := by
  induction bytes with
  | nil => exact fun a b h => h
  | cons x rest ih => exact fun a b h => feed_injective x (ih h)

/-- Byte strings that leave the same remainder are equal, if they differ in four bytes side by side
at most. What comes after these bytes keeps their remainders apart, and what comes before them is
the same. -/
theorem eq_of_foldl_feed_eq (hagree : xs.AgreeOutside n 4 ys)
    (h : xs.foldl feed r = ys.foldl feed r) : xs = ys := by
  obtain ⟨front, x, y, back, rfl, rfl, hlength, hshort⟩ := hagree.exists_eq_append
  simp only [List.foldl_append] at h
  generalize front.foldl feed r = s at h
  have hfed : x.foldl feed s = y.foldl feed s := foldl_feed_injective back h
  rw [foldl_feed_eq hshort, foldl_feed_eq (hlength ▸ hshort), hlength] at hfed
  have hword : word x = word y := (BitVec.xor_right_inj s).1 (shifts_injective _ hfed)
  rw [eq_of_word_eq hlength hshort hword]

/-! ## A string with its check -/

/-- The remainder of a string with its check behind it. -/
def residue : BitVec 32 := shifts 32 (BitVec.allOnes 32)

/-- Four bytes are the check of a string exactly if they leave the residue behind it. -/
theorem checksum_eq_word_iff (h : xs.length = 4) :
    checksum bytes = word xs ↔ (bytes ++ xs).foldl feed (BitVec.allOnes 32) = residue := by
  rw [List.foldl_append, foldl_feed_eq h.le, h, residue, (shifts_injective 32).eq_iff, checksum]
  generalize bytes.foldl feed (BitVec.allOnes 32) = r
  rw [← BitVec.xor_allOnes]
  constructor <;> rintro h <;> rw [← h, ← BitVec.xor_assoc, BitVec.xor_self, BitVec.zero_xor]

end Bitemporal.Crc32
