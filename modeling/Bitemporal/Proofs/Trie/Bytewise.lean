import Mathlib
import Bitemporal.Proofs.Page.Record
import Bitemporal.Proofs.Trie.Interval

/-!
# Paths in bytes

An id is kept in sixteen bytes and a bucket in one, so the bits of a bucket are shifted out of the
byte they lie in, and back into it. A path is counted up in place, from its last bucket on. All of
this computes what is computed with the number of an id.

## Main definitions

* `Bytewise.bucket?`, `Bytewise.compare?`, `Bytewise.pathOf`: the buckets of sixteen bytes.
* `Bytewise.first`: the least bytes under a path.
* `Bytewise.next?`: the next path.

## Main statements

* `Bytewise.setBucket_toBytes`: shifting a bucket into the bytes of an id.
* `EntityId.lt_iff_toBytes_lt`: the order of ids is that of their bytes.
* `Bytewise.bucket?_toBytes`, `Bytewise.compare?_toBytes`, `Bytewise.pathOf_toBytes`,
  `Bytewise.first_eq_toBytes`, `Bytewise.map_next?`: bytes and numbers agree.
* `BucketWidth.path_interval`: paths are intervals of ids.
-/

namespace Bitemporal

open scoped Linear

namespace Bytewise

variable {w : BucketWidth} {e : EntityId} {level n : Nat} {p : Bytes}

/-- The low bits of a byte, as many as a bucket has. -/
def mask (w : BucketWidth) : UInt8 := UInt8.ofNat (w.fanOut - 1)

/-- The byte that the bits of a level lie in. -/
def index (w : BucketWidth) (level : Nat) : Nat := level * w.bits / 8

/-- How many bits of that byte stand behind those of the level. -/
def shift (w : BucketWidth) (level : Nat) : UInt8 := UInt8.ofNat (8 - w.bits - level * w.bits % 8)

/-- The bucket of bytes at a level. -/
def bucket? (w : BucketWidth) (bytes : Bytes) (level : Nat) : Option UInt8 :=
  bytes[index w level]?.map fun byte => (byte >>> shift w level) &&& mask w

/-- Compares the buckets of bytes from a level on with those of a path. -/
def compareFrom? (w : BucketWidth) (bytes : Bytes) (level : Nat) : Bytes → Option Ordering
  | [] => some .eq
  | b :: rest =>
    match bucket? w bytes level with
    | none => none
    | some x =>
      match compare x b with
      | .eq => compareFrom? w bytes (level + 1) rest
      | o => some o

/-- Where bytes stand to those under a path. -/
def compare? (w : BucketWidth) (bytes path : Bytes) : Option Ordering :=
  compareFrom? w bytes 0 path

/-- The path of bytes down to a depth, or to the last level. -/
def pathOf (w : BucketWidth) (bytes : Bytes) (depth : Nat) : Bytes :=
  (List.range (min depth w.maxDepth)).filterMap (bucket? w bytes)

/-- Sets the bits of buckets, from a level on. -/
def setFrom (w : BucketWidth) (bytes : Bytes) (level : Nat) : Bytes → Bytes
  | [] => bytes
  | b :: rest =>
    setFrom w (bytes.modify (index w level) (· ||| (b &&& mask w) <<< shift w level)) (level + 1)
      rest

/-- The least bytes under a path. -/
def first (w : BucketWidth) (path : Bytes) : Bytes :=
  setFrom w (List.replicate EntityId.byteCount 0) 0 (path.take w.maxDepth)

/-- Counts up a path in place, at the last of some leading buckets that has room. The full buckets
behind it are emptied on the way. -/
def nextIn? (w : BucketWidth) (path : Bytes) : Nat → Option Bytes
  | 0 => none
  | i + 1 =>
    match path[i]? with
    | none => none
    | some b => if b < mask w then some (path.set i (b + 1)) else nextIn? w (path.set i 0) i

/-- The next path of the same length, none after the last. -/
def next? (w : BucketWidth) (path : Bytes) : Option Bytes := nextIn? w path path.length

/-! ## The bits of a level -/

theorem toNat_mask (w : BucketWidth) : (mask w).toNat = 2 ^ w.bits - 1 := by cases w <;> rfl

theorem index_lt_iff : index w level < 16 ↔ level < w.maxDepth := by
  cases w <;> simp only [index, BucketWidth.bits, BucketWidth.maxDepth] <;> omega

theorem toNat_shift_add_le (w : BucketWidth) (level : Nat) :
    (shift w level).toNat + w.bits ≤ 8 := by
  cases w <;> simp only [shift, BucketWidth.bits, UInt8.toNat_ofNat'] <;> omega

theorem toNat_shift_mod (w : BucketWidth) (level : Nat) :
    (shift w level).toNat % 8 = (shift w level).toNat := by
  have hshift := toNat_shift_add_le w level
  have hbits : 0 < w.bits := by cases w <;> decide
  omega

/-- What a bucket counts in an id is what it counts in its byte, times what the byte counts. -/
theorem weight_eq (h : level < w.maxDepth) :
    w.weight level = 2 ^ (8 * (15 - index w level) + (shift w level).toNat) := by
  rw [BucketWidth.weight, Nat.pow_eq]
  congr 1
  cases w <;> simp only [shift, index, BucketWidth.bits, BucketWidth.maxDepth, UInt8.toNat_ofNat']
    at h ⊢ <;> omega

/-- A byte of an id. -/
theorem getElem?_toBytes {i : Nat} (h : i < 16) :
    e.toBytes[i]? = some (UInt8.ofNat (e.bits.toNat / 2 ^ (8 * (15 - i)))) := by
  have hpow (k : Nat) : 256 ^ k = 2 ^ (8 * k) := by rw [pow_mul]; rfl
  have hlast : 16 - 1 - i = 15 - i := by omega
  rw [EntityId.toBytes, EntityId.byteCount, List.getElem?_map,
    List.getElem?_reverse (by simpa using h), List.length_range, List.getElem?_range (by omega),
    hlast]
  simp [hpow]

theorem getElem?_toBytes_of_le {i : Nat} (h : 16 ≤ i) : e.toBytes[i]? = none :=
  List.getElem?_eq_none (by rwa [Record.length_toBytes])

/-! ## Buckets -/

/-- Bits that lie in one byte are those of the byte. -/
theorem div_mod_eq {m k s : Nat} (h : s + k ≤ 8) :
    m % 2 ^ 8 / 2 ^ s % 2 ^ k = m / 2 ^ s % 2 ^ k := by
  apply Nat.eq_of_testBit_eq
  intro i
  rw [Nat.testBit_mod_two_pow, Nat.testBit_mod_two_pow, Nat.testBit_div_two_pow,
    Nat.testBit_div_two_pow, Nat.testBit_mod_two_pow]
  grind

theorem toNat_and_mask (b : UInt8) : (b &&& mask w).toNat = b.toNat % w.fanOut := by
  rw [UInt8.toNat_and, toNat_mask, Nat.and_two_pow_sub_one_eq_mod]
  rfl

/-- The bits that are shifted out of a byte are the bucket of the id. -/
theorem bucket?_toBytes (w : BucketWidth) (e : EntityId) (level : Nat) :
    (bucket? w e.toBytes level).map UInt8.toNat = e.bucket? w level := by
  by_cases h : level < w.maxDepth
  · rw [EntityId.bucket?_eq h, BucketWidth.bucketAt, weight_eq h, bucket?,
      getElem?_toBytes (index_lt_iff.2 h), Option.map_some, Option.map_some, toNat_and_mask,
      UInt8.toNat_shiftRight, UInt8.toNat_ofNat', toNat_shift_mod,
      Nat.shiftRight_eq_div_pow, pow_add, ← Nat.div_div_eq_div_mul]
    exact congrArg some (div_mod_eq (toNat_shift_add_le w level))
  · have hindex : 16 ≤ index w level := by rwa [← not_lt, index_lt_iff]
    rw [EntityId.bucket?, if_neg h, bucket?, getElem?_toBytes_of_le hindex]
    rfl

theorem compare_toNat (a b : UInt8) : compare a.toNat b.toNat = compare a b := by
  rw [Nat.compare_eq_ite_lt]
  simp only [compare, compareOfLessAndEq, ← UInt8.lt_iff_toNat_lt]
  grind

/-- Bytes stand to a path as their id does. -/
theorem compare?_toBytes (w : BucketWidth) (e : EntityId) (p : Bytes) :
    compare? w e.toBytes p = w.compare? e (p.map UInt8.toNat) := by
  have hfrom (level : Nat) :
      compareFrom? w e.toBytes level p = w.compareFrom? e level (p.map UInt8.toNat) := by
    induction p generalizing level with
    | nil => rfl
    | cons b rest ih =>
      rw [compareFrom?, List.map_cons, BucketWidth.compareFrom?, ← bucket?_toBytes]
      cases bucket? w e.toBytes level with
      | none => rfl
      | some x => cases h : compare x b <;> simp [compare_toNat, h, ih]
  exact hfrom 0

theorem pathOf_toBytes (w : BucketWidth) (e : EntityId) (depth : Nat) :
    (pathOf w e.toBytes depth).map UInt8.toNat = w.pathOf e depth := by
  rw [pathOf, List.map_filterMap, BucketWidth.pathOf]
  simp only [bucket?_toBytes]

/-- The bytes of an id are its path if a bucket is a byte. -/
theorem map_toNat_toBytes (e : EntityId) : e.toBytes.map UInt8.toNat = e.path .eight := by
  have hdepth : BucketWidth.eight.maxDepth = 16 := rfl
  apply List.ext_getElem?
  intro i
  by_cases hi : i < 16
  · have hweight : 128 - 8 * (i + 1) = 8 * (15 - i) := by omega
    rw [EntityId.path_eq_map, hdepth, List.getElem?_map, List.getElem?_map, getElem?_toBytes hi,
      List.getElem?_range hi, Option.map_some, Option.map_some, UInt8.toNat_ofNat',
      BucketWidth.bucketAt, BucketWidth.weight, BucketWidth.bits, hweight]
    rfl
  · rw [List.getElem?_map, getElem?_toBytes_of_le (by omega),
      List.getElem?_eq_none (by simpa [hdepth] using hi)]
    rfl

/-! ## The least bytes under a path -/

theorem testBit_toNat_of_le (x : UInt8) {k : Nat} (h : 8 ≤ k) : x.toNat.testBit k = false :=
  Nat.testBit_lt_two_pow (x.toNat_lt.trans_le (Nat.pow_le_pow_right (by decide) h))

/-- A bit of a byte is a bit of the number. -/
theorem testBit_toNat_byte {i : Nat} (hi : i < 16) (n k : Nat) :
    (UInt8.ofNat ((EntityId.ofNat n).bits.toNat / 2 ^ (8 * (15 - i)))).toNat.testBit k =
      (decide (k < 8) && n.testBit (8 * (15 - i) + k)) := by
  rw [UInt8.toNat_ofNat', Nat.testBit_mod_two_pow, Nat.testBit_div_two_pow, EntityId.ofNat,
    BitVec.toNat_ofNat, Nat.testBit_mod_two_pow]
  grind

/-- Setting bits of a byte of an id sets them in its number. -/
theorem modify_toBytes {i : Nat} (hi : i < 16) (n : Nat) (x : UInt8) :
    (EntityId.ofNat n).toBytes.modify i (· ||| x) =
      (EntityId.ofNat (n ||| x.toNat * 2 ^ (8 * (15 - i)))).toBytes := by
  apply List.ext_getElem?
  intro j
  by_cases hj : j < 16
  · rw [List.getElem?_modify, getElem?_toBytes hj, getElem?_toBytes hj]
    simp only [Option.map_eq_map, Option.map_some, Option.some_inj]
    apply UInt8.toNat_inj.1
    apply Nat.eq_of_testBit_eq
    intro k
    rw [testBit_toNat_byte hj, Nat.testBit_or, Nat.testBit_mul_two_pow]
    rcases Nat.lt_trichotomy i j with hlt | rfl | hgt
    · rw [if_neg (by omega), testBit_toNat_byte hj]
      grind
    · rw [if_pos rfl, UInt8.toNat_or, Nat.testBit_or, testBit_toNat_byte hj]
      grind [testBit_toNat_of_le]
    · rw [if_neg (by omega), testBit_toNat_byte hj, testBit_toNat_of_le x (by omega)]
      grind
  · rw [List.getElem?_modify, getElem?_toBytes_of_le (by omega),
      getElem?_toBytes_of_le (by omega)]
    rfl

theorem toNat_shiftLeft (b : UInt8) :
    ((b &&& mask w) <<< shift w level).toNat = b.toNat % w.fanOut * 2 ^ (shift w level).toNat := by
  have hlt : b.toNat % w.fanOut * 2 ^ (shift w level).toNat < 2 ^ 8 :=
    calc _ < w.fanOut * 2 ^ (shift w level).toNat :=
          Nat.mul_lt_mul_of_pos_right (Nat.mod_lt _ w.fanOut_pos) (Nat.two_pow_pos _)
      _ = 2 ^ ((shift w level).toNat + w.bits) := by
          rw [BucketWidth.fanOut, Nat.pow_eq, pow_add, mul_comm]
      _ ≤ 2 ^ 8 := Nat.pow_le_pow_right (by decide) (toNat_shift_add_le w level)
  rw [UInt8.toNat_shiftLeft, toNat_and_mask, toNat_shift_mod, Nat.shiftLeft_eq,
    Nat.mod_eq_of_lt hlt]

/-- Shifting a bucket into the bytes of an id adds what it counts, as long as the bits of the id
from its level on are not set. -/
theorem setBucket_toBytes (h : level < w.maxDepth) (hn : 2 ^ (128 - w.bits * level) ∣ n)
    (b : UInt8) :
    (EntityId.ofNat n).toBytes.modify (index w level)
        (· ||| (b &&& mask w) <<< shift w level) =
      (EntityId.ofNat (n + b.toNat % w.fanOut * w.weight level)).toBytes := by
  have hbucket : ((b &&& mask w) <<< shift w level).toNat * 2 ^ (8 * (15 - index w level)) =
      b.toNat % w.fanOut * w.weight level := by
    rw [toNat_shiftLeft, weight_eq h, pow_add]
    ring
  have hlt : b.toNat % w.fanOut * w.weight level < 2 ^ (128 - w.bits * level) := by
    rw [← BucketWidth.weight_mul_fanOut h, mul_comm]
    exact Nat.mul_lt_mul_of_pos_left (Nat.mod_lt _ w.fanOut_pos) (Nat.two_pow_pos _)
  rw [modify_toBytes (index_lt_iff.2 h), hbucket]
  obtain ⟨c, rfl⟩ := hn
  rw [Nat.two_pow_add_eq_or_of_lt hlt c]

/-- Shifting the buckets of a path in, one level after the other. What a bucket adds leaves the bits
from the next level on as they are. -/
theorem setFrom_toBytes (hn : 2 ^ (128 - w.bits * level) ∣ n) :
    setFrom w (EntityId.ofNat n).toBytes level (p.take (w.maxDepth - level)) =
      (EntityId.ofNat (n + w.offset level (p.map UInt8.toNat))).toBytes := by
  induction p generalizing level n with
  | nil => simp [setFrom, BucketWidth.offset]
  | cons b rest ih =>
    rw [List.map_cons, BucketWidth.offset]
    split_ifs with h
    · have hroom : w.maxDepth - level = w.maxDepth - (level + 1) + 1 := by omega
      have hweight : w.weight level ∣ n :=
        (Dvd.intro _ (BucketWidth.weight_mul_fanOut h)).trans hn
      have hnext : w.weight level ∣ n + b.toNat % w.fanOut * w.weight level :=
        hweight.add (Dvd.intro_left _ rfl)
      rw [hroom, List.take_succ_cons, setFrom, setBucket_toBytes h hn, ih hnext, Nat.add_assoc]
    · have hroom : w.maxDepth - level = 0 := by omega
      rw [hroom, List.take_zero, setFrom, Nat.add_zero]

theorem first_eq_toBytes (w : BucketWidth) (p : Bytes) :
    first w p = (w.first (p.map UInt8.toNat)).toBytes := by
  have hzero : List.replicate EntityId.byteCount 0 = (EntityId.ofNat 0).toBytes := rfl
  have hset : setFrom w (EntityId.ofNat 0).toBytes 0 (p.take (w.maxDepth - 0)) = _ :=
    setFrom_toBytes (dvd_zero _)
  rwa [Nat.sub_zero, Nat.zero_add, ← hzero] at hset

/-! ## The next path -/

theorem lt_mask_iff (w : BucketWidth) (b : UInt8) : b < mask w ↔ b.toNat < w.fanOut - 1 := by
  rw [UInt8.lt_iff_toNat_lt, toNat_mask]
  rfl

/-- The carry works on the leading buckets alone. -/
theorem nextIn?_append (p q : Bytes) :
    (nextIn? w (p ++ q) p.length).map (List.map UInt8.toNat) =
      (w.next? (p.map UInt8.toNat)).map (· ++ q.map UInt8.toNat) := by
  induction p using List.reverseRecOn generalizing q with
  | nil => rfl
  | append_singleton p b ih =>
    have hget : (p ++ [b] ++ q)[p.length]? = some b := by simp
    have hset (c : UInt8) : (p ++ [b] ++ q).set p.length c = p ++ [c] ++ q := by simp
    rw [List.length_append, List.length_singleton, nextIn?, hget, List.map_append,
      List.map_singleton, BucketWidth.next?_concat]
    simp only [lt_mask_iff, hset]
    split_ifs with hb
    · have hadd : (b + 1).toNat = b.toNat + 1 := by
        have hfan : w.fanOut ≤ 2 ^ 8 := by cases w <;> decide
        rw [UInt8.toNat_add, UInt8.toNat_one, Nat.mod_eq_of_lt (by omega)]
      simp [hadd]
    · rw [List.append_assoc, ih]
      simp [Function.comp_def]

theorem map_next? (w : BucketWidth) (p : Bytes) :
    (next? w p).map (List.map UInt8.toNat) = w.next? (p.map UInt8.toNat) := by
  rw [next?]
  simpa using nextIn?_append (w := w) p []

end Bytewise

/-! ## The order of ids -/

namespace EntityId

variable {a b : EntityId}

theorem map_toNat_lt_iff {p q : Bytes} : p.map UInt8.toNat < q.map UInt8.toNat ↔ p < q := by
  induction p generalizing q with
  | nil => cases q <;> simp
  | cons x p ih =>
    cases q with
    | nil => simp
    | cons y q =>
      simp only [List.map_cons, List.cons_lt_cons_iff, ih, UInt8.lt_iff_toNat_lt, UInt8.toNat_inj]

/-- The order of ids is that of their bytes, the highest byte first. -/
theorem lt_iff_toBytes_lt : a < b ↔ a.toBytes < b.toBytes := by
  rw [lt_iff_path_lt (w := .eight), ← Bytewise.map_toNat_toBytes, ← Bytewise.map_toNat_toBytes,
    map_toNat_lt_iff]

end EntityId

/-! ## Paths as intervals -/

namespace BucketWidth

/-- For a path that fits an id, its buckets in range, the ids before it are those before the least
id under it, and the ids behind it those from the least id under the next path on. All others are
under it, and they are the ids that spell it; a greater id does not fall behind a lesser one. The
order of ids is that of the paths they spell down to the last level, so sorting ids sorts these
paths, and it is the order of their bytes. Shifting bits out of bytes and into them, and counting up
a path in place, computes the same, whatever the path is. -/
theorem path_interval (w : BucketWidth) :
    (∀ p : Path, p.length ≤ w.maxDepth → (∀ b ∈ p, b < w.fanOut) → ∀ e,
      (w.compare? e p = some .lt ↔ e < w.first p) ∧
      (w.compare? e p = some .gt ↔ ∃ q, w.next? p = some q ∧ w.first q ≤ e) ∧
      (w.compare? e p = some .eq ↔
        ¬e < w.first p ∧ ¬∃ q, w.next? p = some q ∧ w.first q ≤ e) ∧
      (w.compare? e p = some .eq ↔ w.pathOf e p.length = p) ∧
      ∀ d, e ≤ d → (w.compare? d p = some .lt → w.compare? e p = some .lt) ∧
        (w.compare? e p = some .gt → w.compare? d p = some .gt)) ∧
    (∀ a b, a < b ↔ w.pathOf a w.maxDepth < w.pathOf b w.maxDepth) ∧
    (∀ ids : List EntityId, (ids.mergeSort (· ≤ ·)).map (w.pathOf · w.maxDepth) =
      (ids.map (w.pathOf · w.maxDepth)).mergeSort (· ≤ ·)) ∧
    (∀ a b : EntityId, a < b ↔ a.toBytes < b.toBytes) ∧
    ∀ (e : EntityId) (p : Bytes),
      Bytewise.compare? w e.toBytes p = w.compare? e (p.map UInt8.toNat) ∧
      Bytewise.first w p = (w.first (p.map UInt8.toNat)).toBytes ∧
      (Bytewise.next? w p).map (List.map UInt8.toNat) = w.next? (p.map UInt8.toNat) ∧
      ∀ depth, (Bytewise.pathOf w e.toBytes depth).map UInt8.toNat = w.pathOf e depth := by
  refine ⟨fun p hlength hp e => ?_, fun a b => EntityId.lt_iff_path_lt, EntityId.map_path_mergeSort,
    fun a b => EntityId.lt_iff_toBytes_lt, fun e p => ⟨Bytewise.compare?_toBytes w e p,
      Bytewise.first_eq_toBytes w p, Bytewise.map_next? w p, Bytewise.pathOf_toBytes w e⟩⟩
  have hcompare (d : EntityId) (o : Ordering) : w.compare? d p = some o ↔ w.place d 0 p = o := by
    rw [compare?_eq_place hlength, Option.some_inj]
  simp only [hcompare]
  refine ⟨place_eq_lt_iff hlength hp, place_eq_gt_iff hlength hp, ?_, (pathOf_eq_iff hlength).symm,
    fun d hd => place_mono hd hlength⟩
  rw [← place_eq_lt_iff hlength hp, ← place_eq_gt_iff hlength hp]
  cases w.place e 0 p <;> simp

/-- The ids behind `[1, 3]` start with the least id under `[2, 0]`. -/
theorem path_interval_carry :
    (([1, 3] : Path).length ≤ maxDepth .two ∧ ∀ b ∈ ([1, 3] : Path), b < fanOut .two) ∧
      compare? .two (.ofNat (2 ^ 127)) [1, 3] = some .gt := by
  have hfits : ([1, 3] : Path).length ≤ maxDepth .two := by decide
  have hrange : ∀ b ∈ ([1, 3] : Path), b < fanOut .two := by decide
  have hgt := ((path_interval .two).1 [1, 3] hfits hrange (.ofNat (2 ^ 127))).2.1
  exact ⟨⟨hfits, hrange⟩, hgt.2 ⟨[2, 0], by decide, by decide⟩⟩

end BucketWidth

end Bitemporal
