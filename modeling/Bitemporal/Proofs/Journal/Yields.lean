import Mathlib
import Bitemporal.Journal.Logged

/-!
# What a computation yields

A computation yields a value if that is its answer, or if it fails for a reason that is excused.
Without an excuse it has to answer.

Where the answer is not known, a computation ensures something of its answer and of its failures.

## Main definitions

* `Engine.Yields`: a computation has an answer, or an excused failure.
* `Engine.Ensures`: what answers satisfy, and which failures there may be.

## Main statements

* `Engine.Yields.bind`, `Engine.Yields.mapM`: computations in sequence.
* `Engine.Ensures.bind`, `Engine.Ensures.mapM`: the same for what is ensured.
-/

namespace Bitemporal.Engine

variable {α β : Type} {excuse : Prop} {x : Engine α} {a : α}

/-- The answer is `a`, or there is a failure and `excuse` holds. -/
def Yields (excuse : Prop) (x : Engine α) (a : α) : Prop :=
  x.result = .ok a ∨ excuse ∧ ∃ f, x.result = .error f

namespace Yields

theorem of_result (h : x.result = .ok a) : x.Yields excuse a := .inl h

theorem congr {y : Engine α} (h : x.Yields excuse a) (hsame : y.result = x.result) :
    y.Yields excuse a := by rwa [Yields, hsame]

theorem result (h : x.Yields False a) : x.result = .ok a := h.resolve_right fun h => h.1

protected theorem pure (a : α) : Engine.Yields excuse (pure a : Engine α) a := .inl rfl

protected theorem bind {b : β} {f : α → Engine β} (h : x.Yields excuse a)
    (hf : (f a).Yields excuse b) : (x >>= f).Yields excuse b := by
  rw [Yields, result_bind]
  rcases h with h | ⟨hexcuse, e, h⟩
  · rw [h]
    exact hf
  · exact .inr ⟨hexcuse, e, by rw [h]; rfl⟩

/-- One after the other; the values are collected in reverse on the way. -/
protected theorem mapM {xs : List α} {f : α → Engine β} {g : α → β}
    (h : ∀ x ∈ xs, (f x).Yields excuse (g x)) : (xs.mapM f).Yields excuse (xs.map g) := by
  have hloop (acc : List β) :
      (List.mapM.loop f xs acc).Yields excuse (acc.reverse ++ xs.map g) := by
    induction xs generalizing acc with
    | nil => simpa [List.mapM.loop] using Yields.pure acc.reverse
    | cons x xs ih =>
      rw [List.forall_mem_cons] at h
      rw [List.mapM.loop]
      refine h.1.bind ?_
      simpa using ih h.2 (g x :: acc)
  simpa [List.mapM] using hloop []

end Yields

/-! ## Answers that are not known -/

variable {allowed : Failure → Prop} {P : α → Prop} {Q : β → Prop}

/-- An answer satisfies `P`, and a failure is an allowed one. -/
structure Ensures (allowed : Failure → Prop) (x : Engine α) (P : α → Prop) : Prop where
  answer : ∀ a, x.result = .ok a → P a
  failure : ∀ f, x.result = .error f → allowed f

namespace Ensures

protected theorem pure (h : P a) : Engine.Ensures allowed (pure a : Engine α) P where
  answer b hb := by
    cases hb
    exact h
  failure f hf := by cases hf

theorem of_error {f : Failure} (hx : x.result = .error f) (h : allowed f) :
    x.Ensures allowed P where
  answer b hb := by
    rw [hx] at hb
    cases hb
  failure g hg := by
    rw [hx] at hg
    cases hg
    exact h

theorem of_result (hx : x.result = .ok a) (h : P a) : x.Ensures allowed P where
  answer b hb := by
    rw [hx] at hb
    cases hb
    exact h
  failure f hf := by
    rw [hx] at hf
    cases hf

theorem congr {y : Engine α} (h : x.Ensures allowed P) (hsame : y.result = x.result) :
    y.Ensures allowed P :=
  ⟨fun a ha => h.answer a (hsame ▸ ha), fun f hf => h.failure f (hsame ▸ hf)⟩

theorem mono {P' : α → Prop} (h : x.Ensures allowed P) (hP : ∀ a, P a → P' a) :
    x.Ensures allowed P' := ⟨fun a ha => hP a (h.answer a ha), h.failure⟩

protected theorem bind {f : α → Engine β} (h : x.Ensures allowed P)
    (hf : ∀ a, P a → (f a).Ensures allowed Q) : (x >>= f).Ensures allowed Q := by
  cases hx : x.result with
  | ok a =>
    have hrest := hf a (h.answer a hx)
    have hsame : (x >>= f).result = (f a).result := by
      rw [result_bind, hx]
      rfl
    exact ⟨fun b hb => hrest.answer b (hsame ▸ hb), fun e he => hrest.failure e (hsame ▸ he)⟩
  | error e =>
    have hfails : (x >>= f).result = .error e := by
      rw [result_bind, hx]
      rfl
    exact of_error hfails (h.failure e hx)

/-- A computation whose answer is known comes first. -/
theorem bind_yields {f : α → Engine β} (h : x.Yields False a)
    (hf : (f a).Ensures allowed Q) : (x >>= f).Ensures allowed Q :=
  .bind (P := fun b => b = a) (.of_result h.result rfl) fun _ hb => hb ▸ hf

/-- One after the other; the values are collected in reverse on the way. -/
protected theorem mapM {xs : List α} {f : α → Engine β} {P : α → β → Prop}
    (h : ∀ x ∈ xs, (f x).Ensures allowed (P x)) :
    (xs.mapM f).Ensures allowed fun ys => ∀ y ∈ ys, ∃ x ∈ xs, P x y := by
  have hloop (acc : List β) : (List.mapM.loop f xs acc).Ensures allowed
      fun ys => ∀ y ∈ ys, y ∈ acc ∨ ∃ x ∈ xs, P x y := by
    induction xs generalizing acc with
    | nil =>
      refine .pure fun y hy => .inl ?_
      simpa using hy
    | cons x xs ih =>
      rw [List.forall_mem_cons] at h
      rw [List.mapM.loop]
      refine h.1.bind fun z hz => (ih h.2 (z :: acc)).mono fun ys hys y hy => ?_
      rcases hys y hy with hacc | ⟨x', hx', hy⟩
      · rcases List.mem_cons.1 hacc with rfl | hacc
        · exact .inr ⟨x, .head _, hz⟩
        · exact .inl hacc
      · exact .inr ⟨x', .tail _ hx', hy⟩
  exact (hloop []).mono fun ys hys y hy => (hys y hy).resolve_left (by simp)

end Ensures

end Bitemporal.Engine
