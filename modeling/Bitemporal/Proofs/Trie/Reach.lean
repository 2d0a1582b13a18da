import Mathlib
import Bitemporal.Trie.Basic

/-!
# Following a path through a trie

A path leads down a trie until it meets a leaf, which reaches under every longer path, or nothing.
Numbering the leaves in order keeps the shape, so a path leads to a number exactly where it led to
the value of that number.

## Main definitions

* `Trie.reach`: what a path leads to.
* `Trie.values`: the values of the leaves in order.

## Main statements

* `Trie.reach_append`: following a path in two parts.
* `Trie.reach_number`: numbering commutes with following a path.
* `Trie.values_number`: the numbers of the leaves are successive.
* `Trie.IsRegular.reach`, `Trie.IsRegular.height_le`, `Trie.IsRegular.depth_le`: a regular trie is
  regular below every path, and its depth is bounded.
-/

namespace Bitemporal.Trie

variable {α β : Type}

/-- Induction on a trie, with the hypothesis for every child of a branch. -/
@[elab_as_elim, induction_eliminator]
theorem induct {motive : Trie α → Prop} (absent : motive .absent)
    (leaf : ∀ v, motive (.leaf v))
    (branch : ∀ children, (∀ c ∈ children, motive c) → motive (.branch children)) :
    ∀ t, motive t
  | .absent => absent
  | .leaf v => leaf v
  | .branch children => branch children fun c _ => induct absent leaf branch c

/-! ## Reaching -/

/-- What a path leads to; a leaf reaches under every path that goes on below it. -/
def reach : Trie α → Path → Trie α
  | .absent, _ => .absent
  | .leaf v, _ => .leaf v
  | .branch children, [] => .branch children
  | .branch children, b :: rest => (children.getD b .absent).reach rest
termination_by structural _ p => p

@[simp] theorem reach_absent (p : Path) : (.absent : Trie α).reach p = .absent := by
  cases p <;> rfl

@[simp] theorem reach_leaf (v : α) (p : Path) : (Trie.leaf v).reach p = .leaf v := by
  cases p <;> rfl

@[simp] theorem reach_nil (t : Trie α) : t.reach [] = t := by cases t <;> rfl

@[simp] theorem reach_branch (children : List (Trie α)) (b : Nat) (rest : Path) :
    (Trie.branch children).reach (b :: rest) = (children.getD b .absent).reach rest := rfl

theorem getD_map_range (f : Nat → Trie α) (n b : Nat) :
    ((List.range n).map f).getD b .absent = if b < n then f b else .absent := by
  by_cases hb : b < n <;> simp [List.getD_eq_getElem?_getD, hb]

theorem reach_append (t : Trie α) (p q : Path) : t.reach (p ++ q) = (t.reach p).reach q := by
  induction p generalizing t with
  | nil => simp
  | cons b rest ih =>
    cases t with
    | absent => simp
    | leaf v => simp
    | branch children => simpa using ih _

/-! ## Values -/

/-- The values of the leaves in the order of their paths. -/
def values (t : Trie α) : List α := t.leaves.map (·.2)

@[simp] theorem values_absent : (.absent : Trie α).values = [] := by simp [values, leaves]

@[simp] theorem values_leaf (v : α) : (Trie.leaf v).values = [v] := by simp [values, leaves]

theorem childLeaves_map_snd (b : Nat) (children : List (Trie α)) :
    (childLeaves b children).map (·.2) = children.flatMap values := by
  induction children generalizing b with
  | nil => simp [childLeaves]
  | cons t rest ih => simp [childLeaves, ih, values, Function.comp_def]

@[simp] theorem values_branch (children : List (Trie α)) :
    (Trie.branch children).values = children.flatMap values := by
  rw [values, leaves, childLeaves_map_snd]

/-! ## Numbering -/

theorem number_snd (t : Trie α) (n : Nat) : (t.number n).2 = n + t.values.length := by
  induction t generalizing n with
  | absent => simp [number]
  | leaf v => simp [number]
  | branch children ih =>
    rw [number, values_branch]
    induction children generalizing n with
    | nil => simp [numberChildren]
    | cons c rest ihc =>
      rw [List.forall_mem_cons] at ih
      simp only [numberChildren, ih.1, ihc ih.2, List.flatMap_cons, List.length_append]
      omega

theorem length_numberChildren (n : Nat) (children : List (Trie α)) :
    (numberChildren n children).1.length = children.length := by
  induction children generalizing n with
  | nil => rfl
  | cons c rest ih => simp [numberChildren, ih]

/-- A child is numbered from the number of the leaves before it on. -/
theorem getD_numberChildren (n b : Nat) (children : List (Trie α)) :
    ((numberChildren n children).1).getD b .absent =
      ((children.getD b .absent).number (n + ((children.take b).flatMap values).length)).1 := by
  induction children generalizing n b with
  | nil => simp [numberChildren, number]
  | cons c rest ih =>
    cases b with
    | zero => simp [numberChildren]
    | succ b =>
      simp only [numberChildren, List.getD_cons_succ, ih, number_snd, List.take_succ_cons,
        List.flatMap_cons, List.length_append, Nat.add_assoc]

/-- A path leads to values of the trie only. -/
theorem mem_values_of_reach {t : Trie α} {p : Path} {v : α} (h : t.reach p = .leaf v) :
    v ∈ t.values := by
  induction p generalizing t with
  | nil =>
    obtain rfl : t = .leaf v := by simpa using h
    simp
  | cons b rest ih =>
    cases t with
    | absent => simp at h
    | leaf v' => simpa using h.symm
    | branch children =>
      have hchild := ih (by rwa [reach_branch] at h)
      by_cases hb : b < children.length
      · rw [List.getD_eq_getElem _ _ hb] at hchild
        rw [values_branch]
        exact List.mem_flatMap.2 ⟨_, List.getElem_mem hb, hchild⟩
      · rw [List.getD_eq_default _ _ (not_lt.1 hb), values_absent] at hchild
        cases hchild

/-- A value of a child stands behind the values of the children before it. -/
theorem getElem?_flatMap_values {children : List (Trie α)} {b i : Nat} {v : α}
    (h : (children.getD b .absent).values[i]? = some v) :
    (children.flatMap values)[((children.take b).flatMap values).length + i]? = some v := by
  induction children generalizing b with
  | nil => simp at h
  | cons c rest ih =>
    cases b with
    | zero =>
      rw [List.getD_cons_zero] at h
      have hi := (List.getElem?_eq_some_iff.1 h).1
      simpa [List.getElem?_append_left hi] using h
    | succ b =>
      rw [List.getD_cons_succ] at h
      rw [List.take_succ_cons, List.flatMap_cons, List.flatMap_cons, List.length_append,
        List.getElem?_append_right (by omega), Nat.add_assoc, Nat.add_sub_cancel_left]
      exact ih h

/-- What a path leads to after numbering: the same, a leaf by the number of its value. -/
theorem reach_number (t : Trie α) (n : Nat) (p : Path) :
    match t.reach p with
    | .absent => (t.number n).1.reach p = .absent
    | .leaf v => ∃ i, (t.number n).1.reach p = .leaf (n + i) ∧ t.values[i]? = some v
    | .branch _ => ∃ children, (t.number n).1.reach p = .branch children := by
  induction p generalizing t n with
  | nil => cases t <;> simp [number]
  | cons b rest ih =>
    cases t with
    | absent => simp [number]
    | leaf v => simp [number]
    | branch children =>
      rw [number, reach_branch, reach_branch, getD_numberChildren]
      have := ih (children.getD b .absent) (n + ((children.take b).flatMap values).length)
      split <;> rename_i h <;> simp only [h] at this
      · exact this
      · obtain ⟨i, hi, hv⟩ := this
        refine ⟨((children.take b).flatMap values).length + i, by rw [hi, Nat.add_assoc], ?_⟩
        rw [values_branch]
        exact getElem?_flatMap_values hv
      · exact this

theorem values_number (t : Trie α) (n : Nat) :
    (t.number n).1.values = List.range' n t.values.length := by
  induction t generalizing n with
  | absent => simp [number]
  | leaf v => simp [number]
  | branch children ih =>
    rw [number, values_branch, values_branch]
    induction children generalizing n with
    | nil => simp [numberChildren]
    | cons c rest ihc =>
      rw [List.forall_mem_cons] at ih
      simp only [numberChildren, List.flatMap_cons, ih.1, ihc ih.2, number_snd,
        List.length_append, List.range'_append_1]

/-! ## Regular tries -/

theorem areRegular_iff {w : BucketWidth} {room : Nat} {children : List (Trie α)} :
    AreRegular w room children ↔ ∀ c ∈ children, IsRegular w room c := by
  induction children with
  | nil => simp [AreRegular]
  | cons c rest ih => simp [AreRegular, ih]

theorem isRegular_branch {w : BucketWidth} {room : Nat} {children : List (Trie α)} :
    IsRegular w room (.branch children) ↔
      0 < room ∧ children.length = w.fanOut ∧ ∀ c ∈ children, IsRegular w (room - 1) c := by
  rw [IsRegular, areRegular_iff]

theorem childHeight_le {n : Nat} {children : List (Trie α)}
    (h : ∀ c ∈ children, height c ≤ n) : childHeight children ≤ n := by
  induction children with
  | nil => simp [childHeight]
  | cons c rest ih =>
    rw [List.forall_mem_cons] at h
    exact max_le h.1 (ih h.2)

theorem height_le_childHeight {c : Trie α} {children : List (Trie α)} (h : c ∈ children) :
    height c ≤ childHeight children := by
  induction children with
  | nil => cases h
  | cons d rest ih =>
    rcases List.mem_cons.1 h with rfl | h
    · exact le_max_left _ _
    · exact (ih h).trans (le_max_right _ _)

theorem height_getD_lt {n b : Nat} {children : List (Trie α)}
    (h : (Trie.branch children).height ≤ n + 1) : (children.getD b .absent).height ≤ n := by
  rw [height] at h
  by_cases hb : b < children.length
  · rw [List.getD_eq_getElem _ _ hb]
    have := height_le_childHeight (List.getElem_mem hb)
    omega
  · rw [List.getD_eq_default _ _ (not_lt.1 hb), height]
    omega

theorem foldl_max_le_iff {ns : List Nat} {m k : Nat} :
    ns.foldl max m ≤ k ↔ m ≤ k ∧ ∀ n ∈ ns, n ≤ k := by
  induction ns generalizing m with
  | nil => simp
  | cons n ns ih => rw [List.foldl_cons, ih, max_le_iff, List.forall_mem_cons, and_assoc]

namespace IsRegular

variable {w : BucketWidth} {room : Nat} {t : Trie α}

theorem absent : IsRegular w room (.absent : Trie α) := trivial

theorem getD {children : List (Trie α)} (h : IsRegular w room (.branch children)) (b : Nat) :
    IsRegular w (room - 1) (children.getD b .absent) := by
  rw [isRegular_branch] at h
  by_cases hb : b < children.length
  · rw [List.getD_eq_getElem _ _ hb]
    exact h.2.2 _ (List.getElem_mem hb)
  · rw [List.getD_eq_default _ _ (not_lt.1 hb)]
    exact absent

protected theorem reach (h : IsRegular w room t) (p : Path) :
    IsRegular w (room - p.length) (t.reach p) := by
  induction p generalizing t room with
  | nil => simpa using h
  | cons b rest ih =>
    cases t with
    | absent => simpa using absent
    | leaf v => simp [IsRegular]
    | branch children =>
      have := ih (h.getD b)
      rwa [Nat.sub_sub, Nat.add_comm 1] at this

/-- Below as many levels as there is room for, nothing branches. -/
theorem reach_ne_branch (h : IsRegular w room t) {p : Path} (hp : room ≤ p.length)
    (children : List (Trie α)) : t.reach p ≠ .branch children := by
  intro heq
  have := h.reach p
  rw [heq, isRegular_branch] at this
  omega

theorem height_le (h : IsRegular w room t) : t.height ≤ room := by
  induction t generalizing room with
  | absent => simp [height]
  | leaf v => simp [height]
  | branch children ih =>
    rw [isRegular_branch] at h
    have := childHeight_le fun c hc => ih c hc (h.2.2 c hc)
    rw [height]
    omega

theorem length_path_le (h : IsRegular w room t) : ∀ l ∈ t.leaves, l.1.length ≤ room := by
  induction t generalizing room with
  | absent => simp [leaves]
  | leaf v => simp [leaves]
  | branch children ih =>
    rw [isRegular_branch] at h
    obtain ⟨hroom, -, hchild⟩ := h
    rw [leaves]
    generalize 0 = b
    induction children generalizing b with
    | nil => simp [childLeaves]
    | cons c rest ihc =>
      rw [List.forall_mem_cons] at ih hchild
      intro l hl
      rw [childLeaves, List.mem_append, List.mem_map] at hl
      rcases hl with ⟨x, hx, rfl⟩ | hl
      · have := ih.1 hchild.1 x hx
        rw [List.length_cons]
        omega
      · exact ihc ih.2 hchild.2 (b + 1) l hl

theorem depth_le (h : IsRegular w room t) : t.depth ≤ room := by
  refine foldl_max_le_iff.2 ⟨Nat.zero_le _, fun n hn => ?_⟩
  obtain ⟨l, hl, rfl⟩ := List.mem_map.1 hn
  exact h.length_path_le l hl

theorem number (h : IsRegular w room t) (n : Nat) : IsRegular w room (t.number n).1 := by
  induction t generalizing room n with
  | absent => exact h
  | leaf v => exact h
  | branch children ih =>
    rw [isRegular_branch] at h
    rw [Trie.number]
    refine isRegular_branch.2 ⟨h.1, by rw [length_numberChildren, h.2.1], ?_⟩
    have hchild := h.2.2
    clear h
    induction children generalizing n with
    | nil => simp [numberChildren]
    | cons c rest ihc =>
      rw [List.forall_mem_cons] at ih hchild
      simp only [numberChildren, List.forall_mem_cons]
      exact ⟨ih.1 hchild.1 n, ihc ih.2 _ hchild.2⟩

end IsRegular

end Bitemporal.Trie
