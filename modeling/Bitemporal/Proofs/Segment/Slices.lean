import Mathlib
import Bitemporal.Proofs.Merge.Rows

/-!
# Writing slice by slice

Ordered facts under a path stand bucket by bucket, so the facts of each bucket are a slice of them
and halving finds where it starts. A write can then go down the slices, level by level, and put each
leaf behind the pages so far. Nothing it reads is missing, and it stores the layout of the facts.

## Main definitions

* `Layout.slices?`: the slices of facts, one for each bucket of a level.
* `Layout.write?`: the pages of facts and the trie over them, slice by slice.
* `Layout.Stores`: a write that puts a trie of facts behind the pages so far.

## Main statements

* `Layout.slices?_eq`: the slices of ordered facts under a path are the facts of each bucket.
* `Layout.write?_eq`: a write of ordered facts stores their layout.
-/

namespace Bitemporal

namespace Layout

/-- The position of the first fact whose bucket at a level is not below a bucket. -/
def start? (w : BucketWidth) (level : Nat) (rows : List Fact) (bucket : Nat) : Option Nat :=
  boundary? (fun i => rows[i]?.bind fun f =>
    (f.entity.bucket? w level).map fun b => decide (b < bucket)) rows.length

/-- The facts from one position up to another, if they are positions in that order. -/
def slice? (rows : List Fact) (first past : Nat) : Option (List Fact) :=
  if first ≤ past ∧ past ≤ rows.length then some ((rows.take past).drop first) else none

/-- One slice for each bucket, from its own start up to the next one. -/
def slices? (w : BucketWidth) (level : Nat) (rows : List Fact) : Option (List (List Fact)) := do
  let starts ← (List.range w.fanOut).mapM (start? w level rows)
  let ends := starts ++ [rows.length]
  (ends.zip ends.tail).mapM fun (first, past) => slice? rows first past

/-- Writes facts below a depth, slice by slice. A leaf is the page behind the pages so far. -/
def writeFrom? (w : BucketWidth) (limit depth : Nat) (rows : List Fact) :
    StateT (List Page) Option (Trie Nat) := do
  if rows.isEmpty then return .absent
  else if rows.length ≤ limit || isSolo rows || w.maxDepth ≤ depth then
    modifyGet fun pages => (.leaf pages.length, pages ++ [⟨rows⟩])
  else
    let slices ← slices? w depth rows
    return .branch (← slices.mapM fun slice => writeFrom? w limit (depth + 1) slice)
termination_by w.maxDepth - depth
decreasing_by simp_all; omega

/-- Writes facts behind no page. -/
def write? (w : BucketWidth) (limit : Nat) (rows : List Fact) : Option (Trie Nat × List Page) :=
  (writeFrom? w limit 0 rows).run []

variable {w : BucketWidth} {limit : Nat} {rows : List Fact} {p : Path}

/-! ## Slices -/

/-- The facts of the buckets below a bucket, one bucket after the other. -/
def below (w : BucketWidth) (level bucket : Nat) (rows : List Fact) : List Fact :=
  (List.range bucket).flatMap fun b => inBucket w level b rows

theorem bucket?_of_mem_inBucket {level b : Nat} {f : Fact} (hf : f ∈ inBucket w level b rows) :
    f.entity.bucket? w level = some b := by simpa using (List.mem_filter.1 hf).2

theorem below_succ (w : BucketWidth) (level b : Nat) (rows : List Fact) :
    below w level (b + 1) rows = below w level b rows ++ inBucket w level b rows := by
  simp [below, List.range_succ]

/-- Ordered facts under a path are cut at every bucket. -/
theorem exists_below_append (hrows : Fact.IsOrdered rows)
    (hp : ∀ f ∈ rows, f.entity.isUnder w p) (hlevel : p.length < w.maxDepth) {b : Nat}
    (hb : b ≤ w.fanOut) : ∃ back, below w p.length b rows ++ back = rows ∧
      ∀ f ∈ back, ∃ x, b ≤ x ∧ f.entity.bucket? w p.length = some x := by
  have hcut := flatMap_inBucket hrows hp hlevel
  rw [← Nat.add_sub_of_le hb, List.range_add, List.flatMap_append] at hcut
  refine ⟨_, hcut, fun f hf => ?_⟩
  obtain ⟨x, hx, hf⟩ := List.mem_flatMap.1 hf
  obtain ⟨i, -, rfl⟩ := List.mem_map.1 hx
  exact ⟨b + i, Nat.le_add_right b i, bucket?_of_mem_inBucket hf⟩

/-- Halving finds where the facts of a bucket start. -/
theorem start?_eq (hrows : Fact.IsOrdered rows) (hp : ∀ f ∈ rows, f.entity.isUnder w p)
    (hlevel : p.length < w.maxDepth) {b : Nat} (hb : b ≤ w.fanOut) :
    start? w p.length rows b = some (below w p.length b rows).length := by
  obtain ⟨back, hcut, hback⟩ := exists_below_append hrows hp hlevel hb
  have hfound := boundary?_eq_length
    (fun f => (f.entity.bucket? w p.length).map fun x => decide (x < b))
    (below w p.length b rows) back ?_ ?_
  · rwa [hcut] at hfound
  · intro f hf
    obtain ⟨x, hx, hf⟩ := List.mem_flatMap.1 hf
    simp [bucket?_of_mem_inBucket hf, List.mem_range.1 hx]
  · intro f hf
    obtain ⟨x, hx, hf⟩ := hback f hf
    simp [hf, hx]

theorem slice?_append (front slice back : List Fact) :
    slice? (front ++ slice ++ back) front.length (front ++ slice).length = some slice := by
  rw [slice?, if_pos (by simp), List.take_left, List.drop_left]

/-- From the start of a bucket up to the next start are the facts of the bucket. -/
theorem slice?_eq (hrows : Fact.IsOrdered rows) (hp : ∀ f ∈ rows, f.entity.isUnder w p)
    (hlevel : p.length < w.maxDepth) {b : Nat} (hb : b < w.fanOut) :
    slice? rows (below w p.length b rows).length (below w p.length (b + 1) rows).length =
      some (inBucket w p.length b rows) := by
  obtain ⟨back, hcut, -⟩ := exists_below_append hrows hp hlevel (Nat.succ_le_of_lt hb)
  have hslice := slice?_append (below w p.length b rows) (inBucket w p.length b rows) back
  rwa [← below_succ, hcut] at hslice

theorem mapM_eq_some_map {α β : Type} {f : α → Option β} {g : α → β} {xs : List α}
    (h : ∀ x ∈ xs, f x = some (g x)) : xs.mapM f = some (xs.map g) := by
  induction xs with
  | nil => rfl
  | cons x xs ih =>
    rw [List.forall_mem_cons] at h
    simp [List.mapM_cons, h.1, ih h.2]

/-- The slices of ordered facts under a path are the facts of each bucket. -/
theorem slices?_eq (hrows : Fact.IsOrdered rows) (hp : ∀ f ∈ rows, f.entity.isUnder w p)
    (hlevel : p.length < w.maxDepth) : slices? w p.length rows =
      some ((List.range w.fanOut).map fun b => inBucket w p.length b rows) := by
  have hall : below w p.length w.fanOut rows = rows := flatMap_inBucket hrows hp hlevel
  have hstarts : (List.range w.fanOut).mapM (start? w p.length rows) =
      some ((List.range w.fanOut).map fun b => (below w p.length b rows).length) :=
    mapM_eq_some_map fun b hb => start?_eq hrows hp hlevel (List.mem_range.1 hb).le
  have hends :
      (List.range w.fanOut).map (fun b => (below w p.length b rows).length) ++ [rows.length] =
        (List.range (w.fanOut + 1)).map fun b => (below w p.length b rows).length := by
    rw [List.range_succ, List.map_append, List.map_singleton, hall]
  have hpairs (c : Nat → Nat) (n : Nat) :
      ((List.range (n + 1)).map c).zip ((List.range (n + 1)).map c).tail =
        (List.range n).map fun b => (c b, c (b + 1)) := by
    apply List.ext_getElem <;> simp
  rw [slices?, hstarts]
  simp only [Option.bind_eq_bind, Option.bind_some, hends, hpairs, List.mapM_map]
  exact mapM_eq_some_map fun b hb => slice?_eq hrows hp hlevel (List.mem_range.1 hb)

/-! ## Writing slice by slice -/

/-- The write puts the values of a trie behind the pages, and gives the trie over them. -/
def Stores (write : StateT (List Page) Option (Trie Nat)) (t : Trie (List Fact)) : Prop :=
  ∀ pages, write.run pages =
    some ((t.number pages.length).1, pages ++ t.values.map Page.mk)

namespace Stores

theorem absent : Stores (pure .absent) .absent := by
  intro pages
  simp [Trie.number]

theorem leaf (rows : List Fact) :
    Stores (modifyGet fun pages => (.leaf pages.length, pages ++ [⟨rows⟩])) (.leaf rows) := by
  intro pages
  simp [Trie.number]

theorem children {f : List Fact → StateT (List Page) Option (Trie Nat)}
    {g : List Fact → Trie (List Fact)} {slices : List (List Fact)}
    (h : ∀ slice ∈ slices, Stores (f slice) (g slice)) (pages : List Page) :
    (slices.mapM f).run pages = some ((Trie.numberChildren pages.length (slices.map g)).1,
      pages ++ ((slices.map g).flatMap Trie.values).map Page.mk) := by
  induction slices generalizing pages with
  | nil => simp [Trie.numberChildren]
  | cons slice rest ih =>
    rw [List.forall_mem_cons] at h
    simp [List.mapM_cons, h.1 pages, ih h.2, Trie.numberChildren, Trie.number_snd]

theorem branch {f : List Fact → StateT (List Page) Option (Trie Nat)}
    {g : List Fact → Trie (List Fact)} {slices : List (List Fact)}
    (h : ∀ slice ∈ slices, Stores (f slice) (g slice)) :
    Stores (do return .branch (← slices.mapM f)) (.branch (slices.map g)) := by
  intro pages
  simp [children h, Trie.number]

end Stores

/-- Writing ordered facts slice by slice stores their layout. -/
theorem stores_writeFrom? (limit : Nat) {room : Nat} (hroom : p.length + room = w.maxDepth)
    (hrows : Fact.IsOrdered rows) (hp : ∀ f ∈ rows, f.entity.isUnder w p) :
    Stores (writeFrom? w limit p.length rows) (ofRowsAt w limit room rows) := by
  induction room generalizing p rows with
  | zero =>
    have hlast : decide (w.maxDepth ≤ p.length) = true := decide_eq_true hroom.ge
    rw [writeFrom?, ofRowsAt, hlast, Bool.or_true]
    simp only [↓reduceIte]
    split_ifs
    · exact .absent
    · exact .leaf rows
    · exact .leaf rows
  | succ room ih =>
    have hlevel : p.length < w.maxDepth := by omega
    have hat : w.maxDepth - (room + 1) = p.length := by omega
    have hslices := slices?_eq hrows hp hlevel
    rw [writeFrom?, ofRowsAt, hat, decide_eq_false (not_le.2 hlevel), Bool.or_false, hslices]
    split_ifs
    · exact .absent
    · exact .leaf rows
    · have hchildren : ∀ slice ∈ (List.range w.fanOut).map fun b => inBucket w p.length b rows,
          Stores (writeFrom? w limit (p.length + 1) slice) (ofRowsAt w limit room slice) := by
        intro slice hslice
        obtain ⟨b, -, rfl⟩ := List.mem_map.1 hslice
        have hlength : p.length + 1 = (p ++ [b]).length := by simp
        rw [hlength]
        exact ih (by omega) (hrows.filter _) fun f hf => isUnder_of_mem_inBucket hp hlevel hf
      have hbranch := Stores.branch hchildren
      rwa [List.map_map] at hbranch

/-- Writing ordered facts slice by slice gives the pages of their layout and the trie over them. -/
theorem write?_eq (h : Fact.IsOrdered rows) : write? w limit rows =
    some (((ofRows w limit rows).number 0).1, (ofRows w limit rows).values.map Page.mk) := by
  have hstores := stores_writeFrom? limit (p := []) (Nat.zero_add w.maxDepth) h
    fun _ _ => EntityId.isUnder_iff.2 List.nil_prefix
  simpa [write?, ofRows] using hstores []

end Layout

end Bitemporal
