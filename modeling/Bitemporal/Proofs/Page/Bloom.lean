import Mathlib
import Bitemporal.Page.Bloom

/-!
# Filters of entities

An entity that went into a filter is never denied by it, and two filters that share an entity
intersect.

## Main statements

* `Bloom.Holds.insert`, `Bloom.holds_insert`: nothing that was inserted is lost.
* `Bloom.Holds.intersects`: filters of a common entity intersect.
-/

namespace Bitemporal.Bloom

variable {a b : Bloom} {e : EntityId} {words : List UInt64} {x y : UInt64} {k p q : Nat}

/-! ## Bits of words -/

theorem toNat_bit (hk : k < 64) : (1 <<< UInt64.ofNat k : UInt64).toNat = 2 ^ k := by
  rw [UInt64.toNat_shiftLeft, UInt64.toNat_ofNat', Nat.mod_eq_of_lt (hk.trans (by decide)),
    Nat.mod_eq_of_lt hk, UInt64.toNat_one, Nat.one_shiftLeft,
    Nat.mod_eq_of_lt (Nat.pow_lt_pow_right (by decide) hk)]

theorem and_bit_ne_zero_iff (hk : k < 64) :
    x &&& 1 <<< UInt64.ofNat k ≠ 0 ↔ x.toNat.testBit k := by
  rw [Ne, ← UInt64.toNat_inj, UInt64.toNat_and, toNat_bit hk, Nat.and_two_pow]
  cases x.toNat.testBit k <;> simp

theorem testBit_iff :
    testBit words p ↔ ∃ x, words[p / 64]? = some x ∧ x.toNat.testBit (p % 64) := by
  have hp : p % 64 < 64 := Nat.mod_lt _ (by omega)
  rw [testBit, decide_eq_true_eq, and_bit_ne_zero_iff hp, List.getD_eq_getElem?_getD]
  cases words[p / 64]? <;> simp

theorem length_setBit : (setBit words p).length = words.length := List.length_modify ..

theorem testBit_setBit_of_testBit (h : testBit words q) : testBit (setBit words p) q := by
  rw [testBit_iff] at h ⊢
  obtain ⟨x, hx, hbit⟩ := h
  rw [setBit, List.getElem?_modify, hx]
  split
  · exact ⟨_, rfl, by simp [hbit]⟩
  · exact ⟨x, rfl, hbit⟩

theorem testBit_setBit_self (h : p / 64 < words.length) : testBit (setBit words p) p := by
  have hp : p % 64 < 64 := Nat.mod_lt _ (by omega)
  have hget : (setBit words p)[p / 64]? = some (words[p / 64] ||| 1 <<< UInt64.ofNat (p % 64)) := by
    simp [setBit, h]
  rw [testBit_iff, hget]
  exact ⟨_, rfl, by simp [UInt64.toNat_or, toNat_bit hp]⟩

theorem length_foldl_setBit (ps : List Nat) :
    (ps.foldl setBit words).length = words.length := by
  induction ps generalizing words with
  | nil => rfl
  | cons p ps ih => rw [List.foldl_cons, ih, length_setBit]

theorem testBit_foldl_of_testBit (ps : List Nat) (h : testBit words q) :
    testBit (ps.foldl setBit words) q := by
  induction ps generalizing words with
  | nil => exact h
  | cons p ps ih => exact ih (testBit_setBit_of_testBit h)

theorem testBit_foldl_of_mem {ps : List Nat} (hq : q ∈ ps) (h : q / 64 < words.length) :
    testBit (ps.foldl setBit words) q := by
  induction ps generalizing words with
  | nil => cases hq
  | cons p ps ih =>
    rw [List.foldl_cons]
    rcases List.mem_cons.1 hq with rfl | hq
    · exact testBit_foldl_of_testBit ps (testBit_setBit_self h)
    · exact ih hq (by rwa [length_setBit])

/-! ## Entities -/

/-- The filter does not deny the entity. -/
def Holds (b : Bloom) (e : EntityId) : Prop := b.mightContain? e = some true

theorem length_insert (b : Bloom) (e : EntityId) : (b.insert e).words.length = b.words.length :=
  length_foldl_setBit _

theorem exists_mightContain?_eq (h : b.words ≠ []) (e : EntityId) :
    ∃ c, b.mightContain? e = some c := by
  rw [mightContain?, probes?, if_neg (by simpa using h)]
  exact ⟨_, rfl⟩

theorem holds_iff (h : b.words ≠ []) :
    b.Holds e ↔ ∀ x ∈ hashes e, testBit b.words (x.toNat % b.bitCount) := by
  rw [Holds, mightContain?, probes?, if_neg (by simpa using h)]
  simp

theorem Holds.words_ne_nil (h : b.Holds e) : b.words ≠ [] := by
  intro hnil
  simp [Holds, mightContain?, probes?, hnil] at h

theorem holds_insert (h : b.words ≠ []) (e : EntityId) : (b.insert e).Holds e := by
  have hlength := length_insert b e
  have hinsert : (b.insert e).words ≠ [] := by
    rwa [← List.length_pos_iff, hlength, List.length_pos_iff]
  rw [holds_iff hinsert, bitCount, hlength, ← bitCount]
  intro x hx
  rw [insert, probes?, if_neg (by simpa using h)]
  refine testBit_foldl_of_mem (List.mem_map_of_mem hx) ?_
  have hpos : 0 < b.words.length := List.length_pos_iff.2 h
  have := Nat.mod_lt x.toNat (show 0 < b.bitCount by rw [bitCount]; omega)
  rw [bitCount] at this ⊢
  omega

theorem Holds.insert (h : b.Holds e) (d : EntityId) : (b.insert d).Holds e := by
  have hlength := length_insert b d
  have hinsert : (b.insert d).words ≠ [] := by
    rw [← List.length_pos_iff, hlength, List.length_pos_iff]
    exact h.words_ne_nil
  rw [holds_iff h.words_ne_nil] at h
  rw [holds_iff hinsert, bitCount, hlength, ← bitCount]
  exact fun x hx => testBit_foldl_of_testBit _ (h x hx)

/-- Filters of one size share the probes of a common entity; filters of different sizes always
intersect. -/
theorem Holds.intersects (ha : a.Holds e) (hb : b.Holds e) : a.intersects b := by
  rw [Bloom.intersects]
  split
  · rfl
  rename_i hlength
  have hlength : a.words.length = b.words.length := not_not.1 hlength
  rw [holds_iff ha.words_ne_nil] at ha
  rw [holds_iff hb.words_ne_nil, bitCount, ← hlength, ← bitCount] at hb
  obtain ⟨x, hx, hxbit⟩ := testBit_iff.1 (ha e.high (.head _))
  obtain ⟨y, hy, hybit⟩ := testBit_iff.1 (hb e.high (.head _))
  refine List.any_eq_true.2 ⟨(x, y), ?_, ?_⟩
  · refine List.mem_of_getElem? (i := e.high.toNat % a.bitCount / 64) ?_
    rw [List.getElem?_zip_eq_some]
    exact ⟨hx, hy⟩
  · have hbit : (x &&& y).toNat.testBit (e.high.toNat % a.bitCount % 64) := by simp [hxbit, hybit]
    simp only [ne_eq, decide_not, Bool.not_eq_eq_eq_not, Bool.not_true, decide_eq_false_iff_not]
    intro hzero
    simp [hzero] at hbit

end Bitemporal.Bloom
