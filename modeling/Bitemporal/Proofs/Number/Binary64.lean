import Mathlib
import Bitemporal.Number.Binary64

/-!
# Rounding of integers

The nearest double of an integer never falls where the integer grows. It tells integers below
`2 ^ 53` from all others; from there on neighbours share a double.

## Main statements

* `Binary64.divHalfEven_le`, `Binary64.le_divHalfEven`: rounding does not go past a whole number.
* `Binary64.roundUnits_mul_two_pow`: numbers of up to 53 bits are kept.
* `Binary64.roundUnits_mono`: rounding to 53 bits is monotone.
* `Binary64.signedUnits_ofInt_mono`: so is the nearest double.
* `Binary64.signedUnits_ofInt_lt`: it tells integers below `2 ^ 53` from all others.
-/

namespace Bitemporal.Binary64

variable {num den k m n : Nat} {i j : Int}

/-! ## Quotients -/

theorem div_le_divHalfEven (num den : Nat) : num / den ≤ divHalfEven num den := by
  simp only [divHalfEven]
  split_ifs <;> omega

theorem divHalfEven_le_succ (num den : Nat) : divHalfEven num den ≤ num / den + 1 := by
  simp only [divHalfEven]
  split_ifs <;> omega

theorem divHalfEven_mul (hden : 0 < den) (k : Nat) : divHalfEven (k * den) den = k := by
  simp only [divHalfEven, Nat.mul_mod_left, Nat.mul_div_cancel k hden]
  exact if_pos (by omega)

theorem divHalfEven_mono (h : m ≤ n) (den : Nat) : divHalfEven m den ≤ divHalfEven n den := by
  rcases (Nat.div_le_div_right (c := den) h).lt_or_eq with hlt | heq
  · calc divHalfEven m den ≤ m / den + 1 := divHalfEven_le_succ m den
      _ ≤ n / den := hlt
      _ ≤ divHalfEven n den := div_le_divHalfEven n den
  · have hm := Nat.div_add_mod m den
    have hn := Nat.div_add_mod n den
    rw [heq] at hm
    simp only [divHalfEven, heq]
    split_ifs <;> omega

/-- What is at most a whole number is not rounded past it. -/
theorem divHalfEven_le (hden : 0 < den) (h : num ≤ k * den) : divHalfEven num den ≤ k :=
  (divHalfEven_mono h den).trans_eq (divHalfEven_mul hden k)

theorem le_divHalfEven (hden : 0 < den) (h : k * den ≤ num) : k ≤ divHalfEven num den :=
  (divHalfEven_mul hden k).symm.trans_le (divHalfEven_mono h den)

/-! ## 53 bits -/

theorem roundUnits_one (n : Nat) :
    roundUnits n 1 = divHalfEven n (2 ^ droppedBits n) * 2 ^ droppedBits n := by
  simp [roundUnits]

/-- What has no bits to drop is rounded to itself. -/
theorem roundUnits_eq_self (h : 2 ^ droppedBits n ∣ n) : roundUnits n 1 = n := by
  rw [roundUnits_one]
  generalize droppedBits n = d at h
  obtain ⟨r, rfl⟩ := h
  rw [Nat.mul_comm (2 ^ d) r, divHalfEven_mul (Nat.two_pow_pos d)]

theorem log2_mono (h : m ≤ n) : m.log2 ≤ n.log2 := by
  rw [Nat.log2_eq_log_two, Nat.log2_eq_log_two]
  exact Nat.log_mono_right h

/-- Numbers of up to 53 bits are kept, whatever their exponent. -/
theorem roundUnits_mul_two_pow (h : n ≤ 2 ^ 53) (k : Nat) :
    roundUnits (n * 2 ^ k) 1 = n * 2 ^ k := by
  refine roundUnits_eq_self ?_
  have hbits : n * 2 ^ k ≤ 2 ^ (53 + k) := by
    rw [Nat.pow_add]
    exact Nat.mul_le_mul_right _ h
  rcases hbits.lt_or_eq with hlt | heq
  · refine (Nat.pow_dvd_pow 2 ?_).trans (Nat.dvd_mul_left (2 ^ k) n)
    by_cases hzero : n * 2 ^ k = 0
    · simp [hzero, droppedBits]
    · have := (Nat.log2_lt hzero).2 hlt
      rw [droppedBits]
      omega
  · rw [heq, droppedBits, Nat.log2_two_pow]
    exact Nat.pow_dvd_pow 2 (by omega)

/-- No number is rounded past a power of two above it. -/
theorem roundUnits_le_two_pow (h : n ≤ 2 ^ k) : roundUnits n 1 ≤ 2 ^ k := by
  rw [roundUnits_one]
  have hle : droppedBits n ≤ k := by
    have := log2_mono h
    rw [Nat.log2_two_pow] at this
    rw [droppedBits]
    omega
  have hsplit : 2 ^ (k - droppedBits n) * 2 ^ droppedBits n = 2 ^ k := by
    rw [← Nat.pow_add, Nat.sub_add_cancel hle]
  rw [← hsplit]
  exact Nat.mul_le_mul_right _ (divHalfEven_le (Nat.two_pow_pos _) (hsplit ▸ h))

/-- No number is rounded past the power of two below it. -/
theorem two_pow_log2_le_roundUnits (hn : n ≠ 0) : 2 ^ n.log2 ≤ roundUnits n 1 := by
  rw [roundUnits_one]
  have hsplit : 2 ^ (n.log2 - droppedBits n) * 2 ^ droppedBits n = 2 ^ n.log2 := by
    rw [← Nat.pow_add, droppedBits, Nat.sub_add_cancel (Nat.sub_le _ _)]
  rw [← hsplit]
  exact Nat.mul_le_mul_right _
    (le_divHalfEven (Nat.two_pow_pos _) (hsplit ▸ Nat.log2_self_le hn))

/-- Numbers of one length drop the same bits, and between numbers of different lengths lies a power
of two that neither is rounded past. -/
theorem roundUnits_mono (h : m ≤ n) : roundUnits m 1 ≤ roundUnits n 1 := by
  rcases (log2_mono h).lt_or_eq with hlt | heq
  · have hn : n ≠ 0 := by
      rintro rfl
      simp at hlt
    have hm : m ≤ 2 ^ n.log2 :=
      Nat.lt_log2_self.le.trans (Nat.pow_le_pow_right (by decide) hlt)
    exact (roundUnits_le_two_pow hm).trans (two_pow_log2_le_roundUnits hn)
  · have hdropped : droppedBits m = droppedBits n := by rw [droppedBits, heq, droppedBits]
    rw [roundUnits_one, roundUnits_one, hdropped]
    exact Nat.mul_le_mul_right _ (divHalfEven_mono h _)

/-! ## Integers -/

theorem exists_one_eq : ∃ k, one = 2 ^ k := by
  unfold one
  generalize 1074 = k
  exact ⟨k, rfl⟩

theorem signedUnits_ofInt_of_nonneg (h : 0 ≤ i) :
    (ofInt i).signedUnits = roundUnits (i.natAbs * one) 1 := by
  simp [ofInt, signedUnits, not_lt.2 h]

theorem signedUnits_ofInt_of_neg (h : i < 0) :
    (ofInt i).signedUnits = -(roundUnits (i.natAbs * one) 1 : Int) := by
  simp [ofInt, signedUnits, h]

/-- A greater integer has no lesser double. -/
theorem signedUnits_ofInt_mono (h : i ≤ j) : (ofInt i).signedUnits ≤ (ofInt j).signedUnits := by
  have hmono {m n : Nat} (h : m ≤ n) : roundUnits (m * one) 1 ≤ roundUnits (n * one) 1 :=
    roundUnits_mono (Nat.mul_le_mul_right _ h)
  by_cases hi : i < 0
  · rw [signedUnits_ofInt_of_neg hi]
    by_cases hj : j < 0
    · rw [signedUnits_ofInt_of_neg hj]
      have := hmono (show j.natAbs ≤ i.natAbs by omega)
      omega
    · rw [signedUnits_ofInt_of_nonneg (not_lt.1 hj)]
      omega
  · rw [signedUnits_ofInt_of_nonneg (not_lt.1 hi), signedUnits_ofInt_of_nonneg (by omega)]
    have := hmono (show i.natAbs ≤ j.natAbs by omega)
    omega

/-- Integers of up to 53 bits are doubles. -/
theorem signedUnits_ofInt (h : i.natAbs ≤ 2 ^ 53) : (ofInt i).signedUnits = i * one := by
  have hexact : roundUnits (i.natAbs * one) 1 = i.natAbs * one := by
    obtain ⟨k, hone⟩ := exists_one_eq
    rw [hone]
    exact roundUnits_mul_two_pow h k
  by_cases hi : i < 0
  · rw [signedUnits_ofInt_of_neg hi, hexact, Nat.cast_mul, ← Int.neg_mul]
    congr 1
    omega
  · rw [signedUnits_ofInt_of_nonneg (not_lt.1 hi), hexact, Nat.cast_mul]
    congr 1
    omega

theorem signedUnits_ofInt_lt_succ (hi : i.natAbs ≤ 2 ^ 53) (hj : (i + 1).natAbs ≤ 2 ^ 53) :
    (ofInt i).signedUnits < (ofInt (i + 1)).signedUnits := by
  rw [signedUnits_ofInt hi, signedUnits_ofInt hj]
  have hone : (0 : Int) < one := by
    obtain ⟨k, hone⟩ := exists_one_eq
    exact Int.natCast_pos.2 (hone ▸ Nat.two_pow_pos k)
  linarith

/-- The nearest double tells an integer below `2 ^ 53` from any other. -/
theorem signedUnits_ofInt_lt (h : i < j) (hsmall : i.natAbs < 2 ^ 53 ∨ j.natAbs < 2 ^ 53) :
    (ofInt i).signedUnits < (ofInt j).signedUnits := by
  rcases hsmall with hi | hj
  · exact (signedUnits_ofInt_lt_succ hi.le (by omega)).trans_le (signedUnits_ofInt_mono h)
  · have hstep := signedUnits_ofInt_lt_succ (i := j - 1) (by omega) (by simpa using hj.le)
    rw [sub_add_cancel] at hstep
    exact (signedUnits_ofInt_mono (by omega)).trans_lt hstep

end Bitemporal.Binary64
