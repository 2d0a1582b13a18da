import Mathlib
import Bitemporal.Journal.Logged

/-!
# What a computation counts

Counts are added up componentwise, so what is counted by computations in sequence is the sum of what
each of them counts, and computations with a journal obey the laws of sequencing.

## Main definitions

* `Engine.Charges`: what a computation counts if it has an answer.
* `Engine.Accounts`: a computation keeps some of the pages that it is offered and counts the others.

## Main statements

* `Engine.exists_of_bind`: an answer of computations in sequence, and what they count.
* `Engine.Charges.mapM`, `Engine.Accounts.mapM`: one computation after the other.
-/

namespace Bitemporal

/-! ## Sums of counts -/

namespace Counting

scoped instance zero : Zero Metrics := ⟨{}⟩

/-- Counts add up componentwise. -/
scoped instance metrics : AddCommMonoid Metrics where
  add_assoc a b c := by
    show Metrics.add (Metrics.add a b) c = Metrics.add a (Metrics.add b c)
    simp only [Metrics.add, add_assoc]
  zero_add a := by
    show Metrics.add {} a = a
    simp only [Metrics.add, zero_add]
  add_zero a := by
    show Metrics.add a {} = a
    simp only [Metrics.add, add_zero]
  add_comm a b := by
    show Metrics.add a b = Metrics.add b a
    simp only [Metrics.add, add_comm]
  nsmul := nsmulRec

end Counting

open scoped Counting

namespace Metrics

/-- Some pages that a plan left out. -/
def pruned (n : Nat) : Metrics := { pagesPruned := UInt64.ofNat n }

theorem pruned_add (m n : Nat) : pruned (m + n) = pruned m + pruned n := by
  show _ = Metrics.add _ _
  simp [pruned, Metrics.add]

end Metrics

/-! ## Sequencing -/

namespace Logged

variable {α β : Type}

@[simp] theorem counts_pure (a : α) : (pure a : Logged α).counts = 0 := rfl

@[simp] theorem counts_bind (x : Logged α) (f : α → Logged β) :
    (x >>= f).counts = x.counts + (f x.value).counts := rfl

end Logged

/-- The journal of a sequence does not depend on how it is bracketed. -/
scoped instance Counting.logged : LawfulMonad Logged := LawfulMonad.mk' Logged
  (fun x => by
    show (⟨x.value, x.entries ++ [], x.counts + 0⟩ : Logged _) = x
    rw [List.append_nil, add_zero])
  (fun a f => by
    show (⟨(f a).value, [] ++ (f a).entries, 0 + (f a).counts⟩ : Logged _) = f a
    rw [List.nil_append, zero_add])
  (fun x f g => by
    show (⟨_, _ ++ _, _ + _⟩ : Logged _) = ⟨_, _ ++ (_ ++ _), _ + (_ + _)⟩
    rw [← List.append_assoc, ← add_assoc]
    rfl)

namespace Engine

variable {α β : Type} {x : Engine α} {f : α → Engine β} {b : β}

/-- The counts up to the answer or the failure. -/
def counts (x : Engine α) : Metrics := x.run.counts

theorem counts_bind_of_ok {a : α} (h : x.result = .ok a) :
    (x >>= f).counts = x.counts + (f a).counts := by
  rw [result] at h
  rw [counts, ExceptT.run_bind, Logged.counts_bind, h]
  rfl

/-- An answer of two computations in sequence comes from an answer of each. -/
theorem exists_of_bind (h : (x >>= f).result = .ok b) : ∃ a, x.result = .ok a ∧
    (f a).result = .ok b ∧ (x >>= f).counts = x.counts + (f a).counts := by
  cases hx : x.result with
  | error e =>
    rw [result_bind, hx] at h
    cases h
  | ok a =>
    refine ⟨a, rfl, ?_, counts_bind_of_ok hx⟩
    rwa [result_bind, hx] at h

/-- With an answer comes a certain count. -/
def Charges (x : Engine α) (m : Metrics) : Prop := ∀ a, x.result = .ok a → x.counts = m

namespace Charges

variable {m n : Metrics}

theorem of_error {e : Failure} (h : x.result = .error e) : x.Charges m := by
  intro a ha
  rw [h] at ha
  cases ha

protected theorem pure (a : α) : Engine.Charges (pure a : Engine α) 0 := fun _ _ => rfl

theorem count (m : Metrics) : (Engine.count m).Charges m := fun _ _ => rfl

theorem log (entries : List LogEntry) : (Engine.log entries).Charges 0 := fun _ _ => rfl

protected theorem bind (h : x.Charges m) (hf : ∀ a, x.result = .ok a → (f a).Charges n) :
    (x >>= f).Charges (m + n) := by
  intro b hb
  obtain ⟨a, ha, hfa, hcounts⟩ := exists_of_bind hb
  rw [hcounts, h a ha, hf a ha b hfa]

/-- One after the other; the values are collected in reverse on the way. -/
protected theorem mapM {xs : List α} (h : ∀ x ∈ xs, (f x).Charges m) :
    (xs.mapM f).Charges (xs.length • m) := by
  have hloop (acc : List β) : (List.mapM.loop f xs acc).Charges (xs.length • m) := by
    induction xs generalizing acc with
    | nil =>
      rw [List.length_nil, zero_nsmul]
      exact .pure acc.reverse
    | cons x xs ih =>
      rw [List.forall_mem_cons] at h
      rw [List.mapM.loop, List.length_cons, succ_nsmul']
      exact h.1.bind fun y _ => ih h.2 (y :: acc)
  exact hloop []

end Charges

/-- Of so many pages that are offered, an answer keeps some, and the others are counted as left
out. -/
def Accounts (x : Engine α) (offered : Nat) (kept : α → Nat) : Prop :=
  ∀ a, x.result = .ok a → ∃ n, x.counts = .pruned n ∧ n + kept a = offered

namespace Accounts

variable {offered : Nat} {kept : α → Nat} {left : β → Nat}

theorem of_error {e : Failure} (h : x.result = .error e) : x.Accounts offered kept := by
  intro a ha
  rw [h] at ha
  cases ha

protected theorem pure {a : α} (h : kept a = offered) :
    Engine.Accounts (pure a : Engine α) offered kept := by
  intro b hb
  cases hb
  exact ⟨0, rfl, by omega⟩

theorem log (entries : List LogEntry) : (Engine.log entries).Accounts offered fun _ => offered :=
  fun _ _ => ⟨0, rfl, Nat.zero_add _⟩

/-- What one computation keeps is offered to the next. -/
protected theorem bind (h : x.Accounts offered kept)
    (hf : ∀ a, x.result = .ok a → (f a).Accounts (kept a) left) :
    (x >>= f).Accounts offered left := by
  intro b hb
  obtain ⟨a, ha, hfa, hcounts⟩ := exists_of_bind hb
  obtain ⟨m, hm, hkept⟩ := h a ha
  obtain ⟨n, hn, hleft⟩ := hf a ha b hfa
  exact ⟨m + n, by rw [hcounts, hm, hn, Metrics.pruned_add], by omega⟩

/-- Pages that are put aside are offered to none and kept. -/
theorem add (h : x.Accounts offered kept) (n : Nat) :
    x.Accounts (offered + n) fun a => kept a + n := by
  intro a ha
  obtain ⟨m, hm, hkept⟩ := h a ha
  refine ⟨m, hm, ?_⟩
  show m + (kept a + n) = offered + n
  omega

/-- One after the other; the values are collected in reverse on the way. -/
protected theorem mapM {xs : List α} {offered : α → Nat}
    (h : ∀ x ∈ xs, (f x).Accounts (offered x) left) :
    (xs.mapM f).Accounts (xs.map offered).sum fun ys => (ys.map left).sum := by
  have hloop (acc : List β) : (List.mapM.loop f xs acc).Accounts
      ((xs.map offered).sum + (acc.map left).sum) fun ys => (ys.map left).sum := by
    induction xs generalizing acc with
    | nil => exact .pure (by simp)
    | cons x xs ih =>
      rw [List.forall_mem_cons] at h
      have hfirst := h.1.add ((xs.map offered).sum + (acc.map left).sum)
      rw [← add_assoc] at hfirst
      rw [List.mapM.loop, List.map_cons, List.sum_cons]
      refine hfirst.bind fun y _ => ?_
      have hrest := ih h.2 (y :: acc)
      rw [List.map_cons, List.sum_cons] at hrest
      convert hrest using 1
      omega
  have h := hloop []
  rwa [List.map_nil, List.sum_nil, add_zero] at h

end Accounts

end Engine

end Bitemporal
