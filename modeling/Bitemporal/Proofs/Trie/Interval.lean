import Mathlib
import Bitemporal.Proofs.Trie.Path

/-!
# Paths as intervals of ids

The buckets of a path are the digits of a number, with the buckets of a level as their base. For the
path that an id spells down to a level this is the number of the leading bits of the id, so an id
compares with a path as these two numbers do. The least id under a path is the number of the path
with zeros behind it, and the number of the next path is the next one: the ids under a path are
those from the least one under it up to the least one under the next path.

## Main definitions

* `BucketWidth.number`: the number that a path spells.

## Main statements

* `lt_iff_ofDigits_lt`: digits are ordered as the numbers they spell.
* `BucketWidth.place_eq_compare`: an id stands to a path as their numbers do.
* `BucketWidth.number_of_next?_eq_some`, `BucketWidth.number_of_next?_eq_none`: counting up a path.
* `BucketWidth.place_eq_lt_iff`, `BucketWidth.place_eq_gt_iff`: the ids before and after a path.
* `EntityId.lt_iff_path_lt`: the order of ids is that of their paths.
* `EntityId.map_path_mergeSort`: sorting ids is sorting their paths.
-/

namespace Bitemporal

open scoped Linear

/-! ## Digits -/

section Digits

variable {base a b x y : Nat} {p q : List Nat}

/-- The last digit decides where what stands before it does not. -/
theorem compare_mul_add (hx : x < base) (hy : y < base) :
    compare (a * base + x) (b * base + y) = (compare a b).then (compare x y) := by
  rcases Nat.lt_trichotomy a b with hlt | rfl | hgt
  · have hstep : (a + 1) * base ≤ b * base := Nat.mul_le_mul_right base hlt
    rw [Nat.compare_eq_lt.2 hlt, Nat.compare_eq_lt.2 (by grind)]
    rfl
  · simp [Nat.compare_eq_ite_lt]
  · have hstep : (b + 1) * base ≤ a * base := Nat.mul_le_mul_right base hgt
    rw [Nat.compare_eq_gt.2 hgt, Nat.compare_eq_gt.2 (by grind)]
    rfl

theorem ofDigits_reverse_cons (d : Nat) (p : List Nat) :
    Nat.ofDigits base (d :: p).reverse = d * base ^ p.length + Nat.ofDigits base p.reverse := by
  rw [List.reverse_cons, Nat.ofDigits_append, Nat.ofDigits_singleton, List.length_reverse]
  ring

theorem ofDigits_reverse_lt (hbase : 1 < base) (hp : ∀ d ∈ p, d < base) :
    Nat.ofDigits base p.reverse < base ^ p.length := by
  simpa using Nat.ofDigits_lt_base_pow_length hbase (l := p.reverse) (by simpa using hp)

/-- Digits of one length are ordered as the numbers they spell, the highest digit first. -/
theorem lt_iff_ofDigits_lt (hbase : 1 < base) (hlength : p.length = q.length)
    (hp : ∀ d ∈ p, d < base) (hq : ∀ d ∈ q, d < base) :
    p < q ↔ Nat.ofDigits base p.reverse < Nat.ofDigits base q.reverse := by
  induction p generalizing q with
  | nil => grind
  | cons x p ih =>
    obtain - | ⟨y, q⟩ := q
    · simp at hlength
    rw [List.length_cons, List.length_cons, Nat.add_right_cancel_iff] at hlength
    rw [List.forall_mem_cons] at hp hq
    have hrest : Nat.ofDigits base p.reverse < base ^ q.length :=
      hlength ▸ ofDigits_reverse_lt hbase hp.2
    rw [List.cons_lt_cons_iff, ih hlength hp.2 hq.2, ofDigits_reverse_cons, ofDigits_reverse_cons,
      hlength, ← Nat.compare_eq_lt (a := x * _ + _),
      compare_mul_add hrest (ofDigits_reverse_lt hbase hq.2), Ordering.then_eq_lt]
    simp only [Nat.compare_eq_lt, Nat.compare_eq_eq]

end Digits

namespace BucketWidth

variable {w : BucketWidth} {e a b : EntityId} {level : Nat} {p q : Path}

theorem one_lt_fanOut (w : BucketWidth) : 1 < w.fanOut := by cases w <;> decide

/-- The number that a path spells. -/
def number (w : BucketWidth) (p : Path) : Nat := Nat.ofDigits w.fanOut p.reverse

@[simp] theorem number_nil : w.number [] = 0 := rfl

theorem number_concat (p : Path) (b : Nat) : w.number (p ++ [b]) = w.number p * w.fanOut + b := by
  rw [number, List.reverse_concat, Nat.ofDigits_cons, number]
  simp [Nat.add_comm, Nat.mul_comm]

theorem number_lt (hp : ∀ b ∈ p, b < w.fanOut) : w.number p < w.fanOut ^ p.length :=
  ofDigits_reverse_lt w.one_lt_fanOut hp

theorem forall_mem_concat {b : Nat} :
    (∀ x ∈ p ++ [b], x < w.fanOut) ↔ (∀ x ∈ p, x < w.fanOut) ∧ b < w.fanOut := by
  rw [List.forall_mem_append, List.forall_mem_singleton]

/-! ## The path of an id -/

theorem pathOf_succ (h : level < w.maxDepth) :
    w.pathOf e (level + 1) = w.pathOf e level ++ [w.bucketAt e level] := by
  rw [EntityId.pathOf_eq_map h, EntityId.pathOf_eq_map (Nat.le_of_lt h), List.range_succ,
    List.map_append]
  rfl

theorem length_pathOf (h : level ≤ w.maxDepth) : (w.pathOf e level).length = level := by
  simp [EntityId.pathOf_eq_map h]

theorem lt_fanOut_of_mem_pathOf (h : level ≤ w.maxDepth) :
    ∀ x ∈ w.pathOf e level, x < w.fanOut := by
  simp [EntityId.pathOf_eq_map h, bucketAt_lt]

/-- The path of an id down to a level spells its leading bits. -/
theorem number_pathOf (h : level ≤ w.maxDepth) :
    w.number (w.pathOf e level) = w.leading e level := by
  induction level with
  | zero => simp [leading_zero, pathOf]
  | succ level ih => rw [pathOf_succ h, number_concat, leading_succ h, ih (by omega)]

theorem leading_lt (h : level ≤ w.maxDepth) : w.leading e level < w.fanOut ^ level := by
  simpa [number_pathOf h, length_pathOf h] using number_lt (lt_fanOut_of_mem_pathOf (e := e) h)

theorem pathOf_eq_take (h : level ≤ w.maxDepth) : w.pathOf e level = (e.path w).take level := by
  rw [EntityId.path_eq_map, EntityId.pathOf_eq_map h, ← List.map_take, List.take_range,
    Nat.min_eq_left h]

/-- An id lies under a path exactly if the path is the one it spells down to there. -/
theorem pathOf_eq_iff (h : p.length ≤ w.maxDepth) :
    w.pathOf e p.length = p ↔ w.place e 0 p = .eq := by
  rw [place_eq_eq_iff (by simpa using h), List.drop_zero, List.prefix_iff_eq_take,
    pathOf_eq_take h, eq_comm]

/-! ## Comparing -/

/-- An id stands to a path as its leading bits to the number of the path. -/
theorem place_eq_compare (h : p.length ≤ w.maxDepth) (hp : ∀ b ∈ p, b < w.fanOut) :
    w.place e 0 p = compare (w.leading e p.length) (w.number p) := by
  induction p using List.reverseRecOn with
  | nil => simp [place, leading_zero]
  | append_singleton p b ih =>
    rw [forall_mem_concat] at hp
    rw [List.length_append, List.length_singleton] at h ⊢
    rw [place_append, ih (by omega) hp.1, Nat.zero_add, leading_succ h, number_concat,
      compare_mul_add (w.bucketAt_lt e _) hp.2]
    simp [place]

/-! ## The least id under a path -/

theorem offset_concat {b : Nat} (h : level + p.length < w.maxDepth) :
    w.offset level (p ++ [b]) =
      w.offset level p + b % w.fanOut * w.weight (level + p.length) := by
  induction p generalizing level with
  | nil => simp [offset, show level < w.maxDepth from h]
  | cons x p ih =>
    rw [List.length_cons] at h
    have hlevel : level + 1 + p.length = level + (p.length + 1) := by omega
    rw [List.cons_append, offset, offset, if_pos (by omega), if_pos (by omega), ih (by omega),
      hlevel, List.length_cons, Nat.add_assoc]

theorem offset_eq (h : p.length ≤ w.maxDepth) (hp : ∀ b ∈ p, b < w.fanOut) :
    w.offset 0 p = w.number p * 2 ^ (128 - w.bits * p.length) := by
  induction p using List.reverseRecOn with
  | nil => simp [offset]
  | append_singleton p b ih =>
    rw [forall_mem_concat] at hp
    rw [List.length_append, List.length_singleton] at h ⊢
    rw [offset_concat (by omega), ih (by omega) hp.1, ← weight_mul_fanOut h, number_concat,
      Nat.mod_eq_of_lt hp.2, Nat.zero_add]
    change _ = _ * w.weight p.length
    ring

/-- The least id under a path is the number of the path with zeros behind it. -/
theorem toNat_first_eq (h : p.length ≤ w.maxDepth) (hp : ∀ b ∈ p, b < w.fanOut) :
    (w.first p).bits.toNat = w.number p * 2 ^ (128 - w.bits * p.length) := by
  have hpow : w.fanOut ^ p.length * 2 ^ (128 - w.bits * p.length) = 2 ^ 128 := by
    rw [fanOut, Nat.pow_eq, ← pow_mul, ← pow_add, Nat.add_sub_cancel' (w.bits_mul_le h)]
  have hlt : w.number p * 2 ^ (128 - w.bits * p.length) < 2 ^ 128 :=
    hpow ▸ Nat.mul_lt_mul_of_pos_right (number_lt hp) (Nat.two_pow_pos _)
  rw [first, EntityId.ofNat, BitVec.toNat_ofNat, offset_eq h hp, Nat.mod_eq_of_lt hlt]

theorem first_le_iff (h : p.length ≤ w.maxDepth) (hp : ∀ b ∈ p, b < w.fanOut) :
    w.first p ≤ e ↔ w.number p ≤ w.leading e p.length := by
  rw [EntityId.le_iff, toNat_first_eq h hp, leading, Nat.le_div_iff_mul_le (Nat.two_pow_pos _)]

theorem place_eq_lt_iff (h : p.length ≤ w.maxDepth) (hp : ∀ b ∈ p, b < w.fanOut) :
    w.place e 0 p = .lt ↔ e < w.first p := by
  rw [place_eq_compare h hp, Nat.compare_eq_lt, ← Nat.not_le, ← first_le_iff h hp, not_le]

/-! ## The next path -/

/-- Counting up starts at the last bucket, and a full one carries to those before it. -/
theorem next?_concat (p : Path) (b : Nat) :
    w.next? (p ++ [b]) =
      if b < w.fanOut - 1 then some (p ++ [b + 1]) else (w.next? p).map (· ++ [0]) := by
  induction p with
  | nil => simp [next?]
  | cons x p ih =>
    rw [List.cons_append, next?, next?, ih]
    by_cases hb : b < w.fanOut - 1
    · simp [hb]
    · cases w.next? p with
      | some q => simp [hb]
      | none => by_cases hx : x < w.fanOut - 1 <;> simp [hb, hx]

theorem number_of_next?_eq_some (hp : ∀ b ∈ p, b < w.fanOut) (h : w.next? p = some q) :
    q.length = p.length ∧ (∀ b ∈ q, b < w.fanOut) ∧ w.number q = w.number p + 1 := by
  induction p using List.reverseRecOn generalizing q with
  | nil => cases h
  | append_singleton p b ih =>
    rw [forall_mem_concat] at hp
    rw [next?_concat] at h
    split_ifs at h with hb
    · cases h
      rw [forall_mem_concat, number_concat, number_concat]
      exact ⟨by simp, ⟨hp.1, by omega⟩, by omega⟩
    · obtain ⟨q, hq, rfl⟩ := Option.map_eq_some_iff.1 h
      obtain ⟨hlength, hrange, hnumber⟩ := ih hp.1 hq
      -- the last bucket is full, so the carry makes up for it
      have hfull : b + 1 = w.fanOut := by omega
      rw [forall_mem_concat, number_concat, number_concat, hnumber, Nat.succ_mul]
      exact ⟨by simp [hlength], ⟨hrange, w.fanOut_pos⟩, by omega⟩

theorem number_of_next?_eq_none (hp : ∀ b ∈ p, b < w.fanOut) (h : w.next? p = none) :
    w.number p + 1 = w.fanOut ^ p.length := by
  induction p using List.reverseRecOn with
  | nil => simp
  | append_singleton p b ih =>
    rw [forall_mem_concat] at hp
    rw [next?_concat] at h
    split_ifs at h with hb
    have hfull : b + 1 = w.fanOut := by omega
    rw [number_concat, List.length_append, List.length_singleton, pow_succ,
      ← ih hp.1 (by simpa using h), Nat.succ_mul]
    omega

theorem place_eq_gt_iff (h : p.length ≤ w.maxDepth) (hp : ∀ b ∈ p, b < w.fanOut) :
    w.place e 0 p = .gt ↔ ∃ q, w.next? p = some q ∧ w.first q ≤ e := by
  rw [place_eq_compare h hp, Nat.compare_eq_gt]
  cases hnext : w.next? p with
  | none =>
    have hlast := number_of_next?_eq_none hp hnext
    have := leading_lt (e := e) h
    simp only [reduceCtorEq, false_and, exists_false, iff_false]
    omega
  | some q =>
    obtain ⟨hlength, hq, hnumber⟩ := number_of_next?_eq_some hp hnext
    have hfirst := first_le_iff (e := e) (hlength.trans_le h) hq
    rw [hnumber, hlength] at hfirst
    simp only [Option.some.injEq, exists_eq_left', hfirst]
    omega

end BucketWidth

/-! ## The order of ids -/

namespace EntityId

variable {w : BucketWidth} {a b : EntityId}

/-- The order of ids is the lexicographic order of the paths they spell. -/
theorem lt_iff_path_lt : a < b ↔ a.path w < b.path w := by
  rw [lt_iff_ofDigits_lt w.one_lt_fanOut (by simp) (fun _ => lt_fanOut_of_mem_path)
    (fun _ => lt_fanOut_of_mem_path)]
  have hnumber (e : EntityId) : Nat.ofDigits w.fanOut (e.path w).reverse = e.bits.toNat :=
    (BucketWidth.number_pathOf le_rfl).trans (BucketWidth.leading_maxDepth e)
  rw [hnumber, hnumber]
  rfl

theorem le_iff_path_le : a ≤ b ↔ a.path w ≤ b.path w := by
  rw [← not_lt, lt_iff_path_lt (w := w), not_lt]

/-- Sorting ids is sorting their paths. -/
theorem map_path_mergeSort (ids : List EntityId) :
    (ids.mergeSort (· ≤ ·)).map (path w) = (ids.map (path w)).mergeSort (· ≤ ·) :=
  List.map_mergeSort fun a _ b _ => by simp [le_iff_path_le (w := w)]

end EntityId

end Bitemporal
