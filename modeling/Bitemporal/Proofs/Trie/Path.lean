import Mathlib
import Bitemporal.Proofs.Order
import Bitemporal.Trie.Path

/-!
# Ids under a path

An id spells a whole path, one bucket for each level, and it lies under the prefixes of that path.
The order of ids is the lexicographic order of the paths they spell, so where an id stands to the
ids under a path is monotone in the id, and paths that part at a bucket keep their ids apart.

## Main definitions

* `EntityId.path`: the whole path of an id.
* `EntityId.isUnder`: whether an id lies under a path.
* `BucketWidth.place`: where an id stands to the ids under a path, from a level on.

## Main statements

* `BucketWidth.compare?_eq_place`: comparing an id with a path that fits its bits gives its place.
* `EntityId.isUnder_iff_compare?`: the ids under a path are those that compare equal to it.
* `BucketWidth.place_mono`: the place of an id is monotone in the id.
* `EntityId.lt_of_isUnder_append`: of two paths that part at a bucket, the one with the lesser
  bucket has the lesser ids.
* `EntityId.eq_of_isUnder`: under a path down to the last level there is one id.
-/

namespace Bitemporal

open scoped Linear

namespace BucketWidth

theorem bits_mul_maxDepth (w : BucketWidth) : w.bits * w.maxDepth = 128 := by cases w <;> rfl

theorem fanOut_pos (w : BucketWidth) : 0 < w.fanOut := Nat.two_pow_pos w.bits

theorem bits_mul_le (w : BucketWidth) {level : Nat} (h : level ≤ w.maxDepth) :
    w.bits * level ≤ 128 := by
  have := Nat.mul_le_mul_left w.bits h
  rwa [bits_mul_maxDepth] at this

/-- The bucket of an id at a level. -/
def bucketAt (w : BucketWidth) (e : EntityId) (level : Nat) : Nat :=
  e.bits.toNat / w.weight level % w.fanOut

/-- The number of the leading bits of an id, as many as the levels above a level consume. -/
def leading (w : BucketWidth) (e : EntityId) (level : Nat) : Nat :=
  e.bits.toNat / 2 ^ (128 - w.bits * level)

theorem bucketAt_lt (w : BucketWidth) (e : EntityId) (level : Nat) :
    w.bucketAt e level < w.fanOut := Nat.mod_lt _ w.fanOut_pos

/-- What the leading bits count in an id is what the next level shares out. -/
theorem weight_mul_fanOut {w : BucketWidth} {level : Nat} (h : level < w.maxDepth) :
    w.weight level * w.fanOut = 2 ^ (128 - w.bits * level) := by
  have hle : w.bits * (level + 1) ≤ 128 := w.bits_mul_le h
  rw [weight, fanOut, Nat.pow_eq, Nat.pow_eq, ← pow_add]
  congr 1
  rw [Nat.mul_succ] at hle ⊢
  omega

/-- One more level appends its bucket to the leading bits. -/
theorem leading_succ {w : BucketWidth} {level : Nat} (h : level < w.maxDepth) (e : EntityId) :
    w.leading e (level + 1) = w.leading e level * w.fanOut + w.bucketAt e level := by
  rw [leading, leading, bucketAt, ← weight_mul_fanOut h, ← Nat.div_div_eq_div_mul, weight]
  exact (Nat.div_add_mod' _ _).symm

theorem leading_mono {w : BucketWidth} {a b : EntityId} (h : a ≤ b) (level : Nat) :
    w.leading a level ≤ w.leading b level := Nat.div_le_div_right h

end BucketWidth

namespace EntityId

variable {w : BucketWidth} {e : EntityId} {p : Path}

theorem bucket?_eq {level : Nat} (h : level < w.maxDepth) :
    e.bucket? w level = some (w.bucketAt e level) := if_pos h

/-- The path that an id spells down to the last level. -/
def path (w : BucketWidth) (e : EntityId) : Path := w.pathOf e w.maxDepth

/-- Whether an id lies under a path. -/
def isUnder (w : BucketWidth) (p : Path) (e : EntityId) : Bool := p.isPrefixOf (e.path w)

theorem pathOf_eq_map {level : Nat} (h : level ≤ w.maxDepth) :
    w.pathOf e level = (List.range level).map (w.bucketAt e) := by
  rw [BucketWidth.pathOf, Nat.min_eq_left h, ← List.filterMap_eq_map]
  apply List.filterMap_congr
  intro n hn
  exact bucket?_eq (by grind)

theorem path_eq_map : e.path w = (List.range w.maxDepth).map (w.bucketAt e) :=
  pathOf_eq_map le_rfl

@[simp] theorem length_path : (e.path w).length = w.maxDepth := by simp [path_eq_map]

theorem drop_path {level : Nat} (h : level < w.maxDepth) :
    (e.path w).drop level = w.bucketAt e level :: (e.path w).drop (level + 1) := by
  rw [List.drop_eq_getElem_cons (by simpa using h)]
  simp [path_eq_map]

theorem lt_fanOut_of_mem_path {b : Nat} (h : b ∈ e.path w) : b < w.fanOut := by
  rw [path_eq_map, List.mem_map] at h
  obtain ⟨level, -, rfl⟩ := h
  exact w.bucketAt_lt e level

@[simp] theorem isUnder_iff : e.isUnder w p = true ↔ p <+: e.path w := List.isPrefixOf_iff_prefix

theorem length_le_of_isUnder (h : e.isUnder w p) : p.length ≤ w.maxDepth := by
  simpa using (isUnder_iff.1 h).length_le

theorem isUnder_of_prefix {q : Path} (hq : q <+: p) (h : e.isUnder w p) : e.isUnder w q :=
  isUnder_iff.2 (hq.trans (isUnder_iff.1 h))

/-- Below a path, an id lies under the bucket it has there and under no other. -/
theorem isUnder_concat_iff {b : Nat} : e.isUnder w (p ++ [b]) ↔
    e.isUnder w p ∧ p.length < w.maxDepth ∧ w.bucketAt e p.length = b := by
  simp only [isUnder_iff]
  constructor
  · intro h
    have hlt : p.length < w.maxDepth := by simpa using h.length_le
    have hp : p <+: e.path w := (List.prefix_append p [b]).trans h
    refine ⟨hp, hlt, ?_⟩
    rw [List.prefix_iff_eq_append] at hp
    rw [← hp, List.prefix_append_right_inj, drop_path hlt, List.cons_prefix_cons] at h
    exact h.1.symm
  · rintro ⟨hp, hlt, rfl⟩
    rw [List.prefix_iff_eq_append] at hp
    rw [← hp, List.prefix_append_right_inj, drop_path hlt]
    simp

end EntityId

/-! ## Comparing an id with a path -/

namespace BucketWidth

variable {w : BucketWidth} {e a b : EntityId}

/-- Where an id stands to the ids under a path from a level on. -/
def place (w : BucketWidth) (e : EntityId) (level : Nat) : Path → Ordering
  | [] => .eq
  | b :: rest => (compare (w.bucketAt e level) b).then (w.place e (level + 1) rest)

theorem compareFrom?_eq_place {level : Nat} {p : Path} (h : level + p.length ≤ w.maxDepth) :
    w.compareFrom? e level p = some (w.place e level p) := by
  induction p generalizing level with
  | nil => rfl
  | cons b rest ih =>
    rw [List.length_cons] at h
    rw [compareFrom?, place, EntityId.bucket?_eq (by omega)]
    cases hc : compare (w.bucketAt e level) b with
    | eq => simpa [hc] using ih (by omega)
    | lt => simp [hc]
    | gt => simp [hc]

theorem compare?_eq_place {p : Path} (h : p.length ≤ w.maxDepth) :
    w.compare? e p = some (w.place e 0 p) := compareFrom?_eq_place (by simpa using h)

theorem place_append (level : Nat) (p q : Path) :
    w.place e level (p ++ q) = (w.place e level p).then (w.place e (level + p.length) q) := by
  induction p generalizing level with
  | nil => rfl
  | cons b rest ih =>
    rw [List.cons_append, place, place, ih, Ordering.then_assoc, List.length_cons,
      Nat.add_right_comm, Nat.add_assoc]

theorem place_eq_eq_iff {level : Nat} {p : Path} (h : level + p.length ≤ w.maxDepth) :
    w.place e level p = .eq ↔ p <+: (e.path w).drop level := by
  induction p generalizing level with
  | nil => simp [place]
  | cons b rest ih =>
    rw [List.length_cons] at h
    have hlevel : level < w.maxDepth := by omega
    rw [place, Ordering.then_eq_eq, ih (by omega), EntityId.drop_path hlevel,
      List.cons_prefix_cons, Nat.compare_eq_eq, eq_comm]

/-- A greater id does not fall behind a lesser one. The induction keeps the leading bits equal,
since only then the buckets of the level decide; where these differ, they order the ids. -/
theorem place_from_mono (hab : a ≤ b) {level : Nat} {p : Path} (h : level + p.length ≤ w.maxDepth)
    (hlead : w.leading a level = w.leading b level) :
    (w.place b level p = .lt → w.place a level p = .lt) ∧
      (w.place a level p = .gt → w.place b level p = .gt) := by
  induction p generalizing level with
  | nil => simp [place]
  | cons x rest ih =>
    rw [List.length_cons] at h
    have hle : w.bucketAt a level ≤ w.bucketAt b level := by
      have := leading_mono (w := w) hab (level + 1)
      rw [leading_succ (by omega), leading_succ (by omega), hlead] at this
      omega
    simp only [place, Ordering.then_eq_lt, Ordering.then_eq_gt, Nat.compare_eq_lt,
      Nat.compare_eq_gt, Nat.compare_eq_eq]
    rcases Nat.lt_or_eq_of_le hle with hlt | heq
    · constructor <;> intro h <;> omega
    · have := ih (show level + 1 + rest.length ≤ w.maxDepth by omega)
        (by rw [leading_succ (by omega), leading_succ (by omega), hlead, heq])
      rw [heq]
      grind

theorem leading_zero (e : EntityId) : w.leading e 0 = 0 :=
  Nat.div_eq_of_lt (by simpa using e.bits.isLt)

theorem leading_maxDepth (e : EntityId) : w.leading e w.maxDepth = e.bits.toNat := by
  rw [leading, bits_mul_maxDepth, Nat.sub_self, pow_zero, Nat.div_one]

/-- The place of an id is monotone in the id. -/
theorem place_mono (hab : a ≤ b) (h : p.length ≤ w.maxDepth) :
    (w.place b 0 p = .lt → w.place a 0 p = .lt) ∧ (w.place a 0 p = .gt → w.place b 0 p = .gt) :=
  place_from_mono hab (by omega) (by rw [leading_zero, leading_zero])

end BucketWidth

namespace EntityId

variable {w : BucketWidth} {a b e : EntityId} {p : Path}

theorem isUnder_iff_place (h : p.length ≤ w.maxDepth) :
    e.isUnder w p ↔ w.place e 0 p = .eq := by
  rw [isUnder_iff, BucketWidth.place_eq_eq_iff (by simpa using h), List.drop_zero]

theorem isUnder_iff_compare? (h : p.length ≤ w.maxDepth) :
    e.isUnder w p ↔ w.compare? e p = some .eq := by
  rw [isUnder_iff_place h, BucketWidth.compare?_eq_place h, Option.some_inj]

theorem lt_of_isUnder_append {x y : Nat} {q r : Path} (hxy : x < y)
    (ha : a.isUnder w (p ++ x :: q)) (hb : b.isUnder w (p ++ y :: r)) : a < b := by
  have ha : a.isUnder w (p ++ [x]) := isUnder_of_prefix ⟨q, by simp⟩ ha
  have hb : b.isUnder w (p ++ [y]) := isUnder_of_prefix ⟨r, by simp⟩ hb
  have hlen := length_le_of_isUnder ha
  by_contra hba
  have hgt : w.place b 0 (p ++ [x]) = .gt := by
    rw [isUnder_concat_iff] at hb
    rw [BucketWidth.place_append, Nat.zero_add, (isUnder_iff_place (by omega)).1 hb.1]
    simp [BucketWidth.place, hb.2.2, Nat.compare_eq_gt.2 hxy]
  have hmono := BucketWidth.place_mono (not_lt.1 hba) hlen
  rw [(isUnder_iff_place hlen).1 ha] at hmono
  exact absurd (hmono.2 hgt) (by decide)

/-- The path of an id spells all its bits. -/
theorem eq_of_path_eq (h : a.path w = b.path w) : a = b := by
  have hbucket : ∀ level < w.maxDepth, w.bucketAt a level = w.bucketAt b level := by
    simpa [path_eq_map] using h
  have hleading (level : Nat) (hlevel : level ≤ w.maxDepth) :
      w.leading a level = w.leading b level := by
    induction level with
    | zero => rw [BucketWidth.leading_zero, BucketWidth.leading_zero]
    | succ level ih =>
      rw [BucketWidth.leading_succ hlevel, BucketWidth.leading_succ hlevel, ih (by omega),
        hbucket level hlevel]
  have hbits := hleading _ le_rfl
  rw [BucketWidth.leading_maxDepth, BucketWidth.leading_maxDepth] at hbits
  exact ext_toNat hbits

/-- Under a path down to the last level there is one id. -/
theorem eq_of_isUnder (hp : p.length = w.maxDepth) (ha : a.isUnder w p) (hb : b.isUnder w p) :
    a = b := by
  have hpath {e : EntityId} (he : e.isUnder w p) : p = e.path w :=
    (isUnder_iff.1 he).eq_of_length (by rw [hp, length_path])
  exact eq_of_path_eq ((hpath ha).symm.trans (hpath hb))

end EntityId

end Bitemporal
