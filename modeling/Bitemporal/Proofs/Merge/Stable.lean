import Mathlib

/-!
# Stable order of lists

A total preorder does not tell all elements apart, so many orderings of a list respect it. A sorted
list is fixed by the order of the elements inside each group that the preorder ties. Sorting and
merging by halves both keep these orders, hence they agree wherever they meet.

## Main statements

* `Stable.eq_of_filter_tied`: sorted lists with the same tied groups are equal.
* `Stable.mergeSort_eq_of_filter_tied`: what is sorted with the groups of a list is its sort.
* `Stable.pairwise_merge`: what merging keeps.
* `Stable.foldr_merge`: merging sorted lists, the first before the rest, sorts their concatenation.
* `Stable.filter_append_filter_not`, `Stable.flatMap_filter`: a sorted list is cut at classes that
  follow one another.
-/

namespace Bitemporal.Stable

variable {α : Type} {le : α → α → Bool}

/-- Whether `le` does not tell `x` and `y` apart. -/
def tied (le : α → α → Bool) (x y : α) : Bool := le x y && le y x

/-- The order is total and transitive. -/
structure IsPreorder (le : α → α → Bool) : Prop where
  trans : ∀ a b c, le a b → le b c → le a c
  total : ∀ a b, le a b || le b a

namespace IsPreorder

variable (h : IsPreorder le)
include h

theorem refl (a : α) : le a a := by
  have := h.total a a
  simpa using this

theorem tied_self (a : α) : tied le a a := by simp [tied, h.refl a]

end IsPreorder

variable {l l₁ l₂ : List α}

/-- A sorted list is fixed by its tied groups. The induction compares the two heads: each has to
occur in the other list, so they are tied, and then they lead the same group. -/
theorem eq_of_filter_tied (h : IsPreorder le) (h₁ : l₁.Pairwise (le · ·))
    (h₂ : l₂.Pairwise (le · ·)) (heq : ∀ x, l₁.filter (tied le x) = l₂.filter (tied le x)) :
    l₁ = l₂ := by
  induction l₁ generalizing l₂ with
  | nil =>
    cases l₂ with
    | nil => rfl
    | cons y ys => simpa [h.tied_self y] using heq y
  | cons x xs ih =>
    cases l₂ with
    | nil => simpa [h.tied_self x] using heq x
    | cons y ys =>
      have hx : x ∈ y :: ys := by
        have : x ∈ (x :: xs).filter (tied le x) := by simp [h.tied_self x]
        rw [heq x] at this
        exact (List.mem_filter.1 this).1
      have hy : y ∈ x :: xs := by
        have : y ∈ (y :: ys).filter (tied le y) := by simp [h.tied_self y]
        rw [← heq y] at this
        exact (List.mem_filter.1 this).1
      have hyx : le y x := by
        rcases List.mem_cons.1 hx with rfl | hx
        · exact h.refl x
        · exact (List.pairwise_cons.1 h₂).1 x hx
      have hxy : le x y := by
        rcases List.mem_cons.1 hy with rfl | hy
        · exact h.refl y
        · exact (List.pairwise_cons.1 h₁).1 y hy
      have hhead : x = y := by
        have := heq x
        rw [List.filter_cons_of_pos (h.tied_self x),
          List.filter_cons_of_pos (by simp [tied, hxy, hyx])] at this
        exact (List.cons.inj this).1
      subst hhead
      congr 1
      apply ih h₁.of_cons h₂.of_cons
      intro z
      have := heq z
      simp only [List.filter_cons] at this
      split at this
      · exact (List.cons.inj this).2
      · exact this

/-! ## Sorting -/

theorem pairwise_mergeSort (h : IsPreorder le) (l : List α) :
    (l.mergeSort le).Pairwise (le · ·) :=
  List.pairwise_mergeSort h.trans h.total l

theorem pairwise_filter_tied (h : IsPreorder le) (x : α) (l : List α) :
    (l.filter (tied le x)).Pairwise (le · ·) := by
  refine List.Pairwise.imp_of_mem (R := fun _ _ => True) ?_ (by simp [List.pairwise_iff_getElem])
  intro a b ha hb _
  simp only [List.mem_filter, tied, Bool.and_eq_true] at ha hb
  exact h.trans _ _ _ ha.2.2 hb.2.1

/-- Sorting keeps the order inside each tied group. -/
theorem filter_tied_mergeSort (h : IsPreorder le) (x : α) (l : List α) :
    (l.mergeSort le).filter (tied le x) = l.filter (tied le x) := by
  have hsub : (l.filter (tied le x)).Sublist (l.mergeSort le) :=
    List.sublist_mergeSort h.trans h.total (pairwise_filter_tied h x l) List.filter_sublist
  have hsub' : (l.filter (tied le x)).Sublist ((l.mergeSort le).filter (tied le x)) := by
    simpa [List.filter_filter] using hsub.filter (tied le x)
  refine (hsub'.eq_of_length ?_).symm
  exact ((List.mergeSort_perm l le).filter _).length_eq.symm

theorem mergeSort_eq_of_filter_tied (h : IsPreorder le) (hs : l₁.Pairwise (le · ·))
    (heq : ∀ x, l₁.filter (tied le x) = l.filter (tied le x)) : l.mergeSort le = l₁ := by
  apply eq_of_filter_tied h (pairwise_mergeSort h l) hs
  intro x
  rw [filter_tied_mergeSort h, heq x]

theorem mergeSort_congr (h : IsPreorder le)
    (heq : ∀ x, l₁.filter (tied le x) = l₂.filter (tied le x)) :
    l₁.mergeSort le = l₂.mergeSort le := by
  apply mergeSort_eq_of_filter_tied h (pairwise_mergeSort h l₂)
  intro x
  rw [filter_tied_mergeSort h, heq x]

/-- Sorting commutes with leaving elements out. -/
theorem filter_mergeSort (h : IsPreorder le) (p : α → Bool) (l : List α) :
    (l.mergeSort le).filter p = (l.filter p).mergeSort le := by
  refine (mergeSort_eq_of_filter_tied h ((pairwise_mergeSort h l).filter _) fun x => ?_).symm
  rw [List.filter_comm, filter_tied_mergeSort h, List.filter_comm]

/-- A part of a list may be sorted first. -/
theorem mergeSort_append_mergeSort (h : IsPreorder le) (l₁ l l₂ : List α) :
    (l₁ ++ l.mergeSort le ++ l₂).mergeSort le = (l₁ ++ l ++ l₂).mergeSort le := by
  apply mergeSort_congr h
  intro x
  simp only [List.filter_append, filter_tied_mergeSort h]

/-! ## Merging -/

theorem filter_tied_merge (h : IsPreorder le) (h₁ : l₁.Pairwise (le · ·))
    (h₂ : l₂.Pairwise (le · ·)) (x : α) :
    (l₁.merge l₂ le).filter (tied le x) = l₁.filter (tied le x) ++ l₂.filter (tied le x) := by
  induction l₁ generalizing l₂ with
  | nil => simp
  | cons a as iha =>
    induction l₂ with
    | nil => simp
    | cons b bs ihb =>
      by_cases hab : le a b
      · rw [List.cons_merge_cons_pos _ _ _ hab]
        simp only [List.filter_cons (x := a), iha h₁.of_cons h₂]
        split <;> simp
      · rw [List.cons_merge_cons_neg _ _ _ hab, List.filter_cons, List.filter_cons (x := b)]
        split
        · rename_i hb
          -- Nothing on the left is tied with `b`, which comes strictly first.
          have hnone : (a :: as).filter (tied le x) = [] := by
            refine List.filter_eq_nil_iff.2 fun c hc hxc => hab ?_
            simp only [tied, Bool.and_eq_true] at hb hxc
            have hac : le a c := by
              rcases List.mem_cons.1 hc with rfl | hc
              · exact h.refl c
              · exact (List.pairwise_cons.1 h₁).1 c hc
            exact h.trans _ _ _ hac (h.trans _ _ _ hxc.2 hb.1)
          rw [ihb h₂.of_cons, hnone]
          simp
        · exact ihb h₂.of_cons

/-- Merging sorted lists sorts their concatenation; of tied elements the left ones come first. -/
theorem merge_eq_mergeSort (h : IsPreorder le) (h₁ : l₁.Pairwise (le · ·))
    (h₂ : l₂.Pairwise (le · ·)) : l₁.merge l₂ le = (l₁ ++ l₂).mergeSort le := by
  refine (mergeSort_eq_of_filter_tied h (List.pairwise_merge h.trans h.total l₁ l₂ h₁ h₂)
    fun x => ?_).symm
  rw [filter_tied_merge h h₁ h₂, List.filter_append]

theorem foldr_merge (h : IsPreorder le) {ls : List (List α)}
    (hs : ∀ l ∈ ls, l.Pairwise (le · ·)) :
    ls.foldr (fun l merged => l.merge merged le) [] = ls.flatten.mergeSort le := by
  induction ls with
  | nil => simp
  | cons l ls ih =>
    rw [List.forall_mem_cons] at hs
    rw [List.foldr_cons, ih hs.2, merge_eq_mergeSort h hs.1 (pairwise_mergeSort h _),
      List.flatten_cons]
    simpa using mergeSort_append_mergeSort h l ls.flatten []

/-- Merging keeps a transitive relation that follows what is compared: it holds of what goes first
and what it goes before. -/
theorem pairwise_merge {R : α → α → Prop} (htrans : ∀ {a b c}, R a b → R b c → R a c)
    (h₁ : l₁.Pairwise R) (h₂ : l₂.Pairwise R) (hpos : ∀ a ∈ l₁, ∀ b ∈ l₂, le a b → R a b)
    (hneg : ∀ a ∈ l₁, ∀ b ∈ l₂, ¬ le a b → R b a) : (l₁.merge l₂ le).Pairwise R := by
  induction l₁ generalizing l₂ with
  | nil => simpa using h₂
  | cons a as iha =>
    induction l₂ with
    | nil => simpa using h₁
    | cons b bs ihb =>
      obtain ⟨ha, has⟩ := List.pairwise_cons.1 h₁
      obtain ⟨hb, hbs⟩ := List.pairwise_cons.1 h₂
      by_cases hab : le a b
      · have hfirst := hpos a (.head _) b (.head _) hab
        rw [List.cons_merge_cons_pos _ _ _ hab]
        refine List.pairwise_cons.2 ⟨fun c hc => ?_, iha has h₂
          (fun c hc => hpos c (.tail _ hc)) fun c hc => hneg c (.tail _ hc)⟩
        rcases List.mem_merge.1 hc with hc | hc
        · exact ha c hc
        · rcases List.mem_cons.1 hc with rfl | hc
          · exact hfirst
          · exact htrans hfirst (hb c hc)
      · have hfirst := hneg a (.head _) b (.head _) hab
        rw [List.cons_merge_cons_neg _ _ _ hab]
        refine List.pairwise_cons.2 ⟨fun c hc => ?_, ihb hbs
          (fun c hc e he => hpos c hc e (.tail _ he)) fun c hc e he => hneg c hc e (.tail _ he)⟩
        rcases List.mem_merge.1 hc with hc | hc
        · rcases List.mem_cons.1 hc with rfl | hc
          · exact hfirst
          · exact htrans hfirst (ha c hc)
        · exact hb c hc

theorem mem_foldr_merge {a : α} {ls : List (List α)} :
    a ∈ ls.foldr (fun l merged => l.merge merged le) [] ↔ ∃ l ∈ ls, a ∈ l := by
  induction ls with
  | nil => simp
  | cons l ls ih => rw [List.foldr_cons, List.mem_merge, ih, List.exists_mem_cons_iff]

/-! ## Classes that follow one another -/

/-- A sorted list is cut in two by a class that nothing outside of it may precede. -/
theorem filter_append_filter_not (hs : l.Pairwise (le · ·)) {p : α → Bool}
    (hp : ∀ a ∈ l, ∀ b ∈ l, p a → ¬ p b → ¬ le b a) :
    l.filter p ++ l.filter (fun a => !p a) = l := by
  induction l with
  | nil => rfl
  | cons x xs ih =>
    have ih := ih hs.of_cons fun a ha b hb => hp a (.tail _ ha) b (.tail _ hb)
    by_cases hx : p x
    · simp only [List.filter_cons, hx, if_true, Bool.not_true]
      simpa using ih
    · have hnone : xs.filter p = [] := List.filter_eq_nil_iff.2 fun a ha hpa =>
        hp a (.tail _ ha) x (.head _) hpa hx ((List.pairwise_cons.1 hs).1 a ha)
      rw [hnone, List.nil_append] at ih
      simp [hx, hnone, ih]

/-- A sorted list is the concatenation of its classes, when the classes follow one another and
leave nothing out. -/
theorem flatMap_filter (h : IsPreorder le) (hs : l.Pairwise (le · ·)) {β : Type}
    {ps : List β} (mem : β → α → Bool)
    (hp : ps.Pairwise fun p q => ∀ a b, mem p a → mem q b → ¬ le b a)
    (hc : ∀ a ∈ l, ∃ p ∈ ps, mem p a) : (ps.flatMap fun p => l.filter (mem p)) = l := by
  induction ps generalizing l with
  | nil =>
    cases l with
    | nil => rfl
    | cons a l => simpa using hc a (.head _)
  | cons p ps ih =>
    rw [List.pairwise_cons] at hp
    have hrest : ∀ a ∈ l.filter (fun a => !mem p a), ∃ q ∈ ps, mem q a := by
      intro a ha
      rw [List.mem_filter] at ha
      obtain ⟨q, hq, hqa⟩ := hc a ha.1
      rcases List.mem_cons.1 hq with rfl | hq
      · simp [hqa] at ha
      · exact ⟨q, hq, hqa⟩
    have hcut : l.filter (mem p) ++ l.filter (fun a => !mem p a) = l := by
      apply filter_append_filter_not hs
      intro a _ b hb hpa hpb
      obtain ⟨q, hq, hqb⟩ := hrest b (by simp [hb, hpb])
      exact hp.1 q hq a b hpa hqb
    have hsame : ∀ q ∈ ps, l.filter (mem q) = (l.filter fun a => !mem p a).filter (mem q) := by
      intro q hq
      rw [List.filter_filter]
      apply List.filter_congr
      intro a _
      by_cases hqa : mem q a
      · have : ¬ mem p a := fun hpa => hp.1 q hq a a hpa hqa (h.refl a)
        simp [hqa, this]
      · simp [hqa]
    rw [List.flatMap_cons, List.flatMap_congr hsame, ih (hs.filter _) hp.2 hrest, hcut]

end Bitemporal.Stable
