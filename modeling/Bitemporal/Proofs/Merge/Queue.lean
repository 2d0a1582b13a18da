import Mathlib
import Bitemporal.Merge.Queue
import Bitemporal.Proofs.Merge.Rows

/-!
# The queue of a task and its merge

The queue gives the rows of a task one at a time in the order of the merge, in whatever order the
rows of the pages stand. The merge of some lists starts with the first of those of their rows at the
front that no row at the front of a list goes before. The queue holds an entry for the front of each
page, so its greatest entry is the one that the merge starts with. Each request moves one page on by
one row and keeps one entry for each page that has rows left.

## Main definitions

* `TaskRows.IsQueued`: the queue holds the next row of each page.
* `TaskRows.merged`: the merge of the rows that are left.

## Main statements

* `QueueEntry.pop?_spec`: the entry that is taken out.
* `MergedRow.mergeAll_eq_cons`: what a merge starts with.
* `TaskRows.IsQueued.next?_cases`: one request.
* `TaskRows.IsQueued.requests?_eq`: any number of requests.
* `TaskRows.mergeRows?_eq_map`: the rows at the start.
-/

namespace Bitemporal

open scoped Linear

variable {w : BucketWidth} {p : Path} {pages : List Page}

/-! ## Entries -/

namespace QueueEntry

variable {a b c e g : QueueEntry} {queue others : List QueueEntry}

/-- An entry is less if its row comes later. -/
theorem isLT_compare_iff : (compare a b).isLT ↔ b.entity < a.entity ∨ b.entity = a.entity ∧
    (a.systemFrom < b.systemFrom ∨ a.systemFrom = b.systemFrom ∧ b.page < a.page) := by
  have heq {α : Type} [LinearOrder α] {x y : α} : compareOfLessAndEq x y = .eq ↔ x = y := by
    unfold compareOfLessAndEq
    grind
  simp only [compare, compareKeys, Ordering.isLT_iff_eq_lt, Ordering.then_eq_lt,
    compareOfLessAndEq_eq_lt, heq]

theorem not_isLT_of_isLT (h : (compare a b).isLT) : ¬ (compare b a).isLT := by
  rw [isLT_compare_iff] at *
  grind

theorem not_isLT_trans (hab : ¬ (compare a b).isLT) (hbc : ¬ (compare b c).isLT) :
    ¬ (compare a c).isLT := by
  rw [isLT_compare_iff] at *
  grind

theorem pop?_eq_none_iff : pop? queue = none ↔ queue = [] := by
  cases queue with
  | nil => simp [pop?]
  | cons e rest =>
    simp only [pop?, reduceCtorEq, iff_false]
    grind

/-- The entry that is taken out is not less than any of the others. -/
theorem pop?_spec (h : pop? queue = some (g, others)) :
    queue.Perm (g :: others) ∧ ∀ e ∈ others, ¬ (compare g e).isLT := by
  induction queue generalizing g others with
  | nil => cases h
  | cons e rest ih =>
    rw [pop?] at h
    split at h
    next hnone =>
      rw [pop?_eq_none_iff] at hnone
      subst hnone
      cases h
      exact ⟨.refl _, by simp⟩
    next greatest others' hsome =>
      obtain ⟨hperm, hleast⟩ := ih hsome
      split at h
      next hless =>
        cases h
        refine ⟨(hperm.cons e).trans (.swap g e others'), fun x hx => ?_⟩
        rcases List.mem_cons.1 hx with rfl | hx
        · exact not_isLT_of_isLT hless
        · exact hleast x hx
      next hless =>
        cases h
        refine ⟨.refl _, fun x hx => ?_⟩
        rcases List.mem_cons.1 (hperm.mem_iff.1 hx) with rfl | hx
        · exact hless
        · exact not_isLT_trans hless (hleast x hx)

end QueueEntry

/-! ## The rows that are left -/

namespace RowPointer

variable {x : RowPointer}

/-- The rows of a page that are left. -/
def left (x : RowPointer) (page : Nat) : List MergedRow :=
  (x.page.rowsIn ⟨x.index, x.past⟩).map fun (i, f) => ⟨page, i, f⟩

theorem left_eq_nil (h : ¬ x.isValid) (page : Nat) : x.left page = [] := by
  have hsize : x.past - x.index = 0 := by
    simp only [isValid, decide_eq_true_eq] at h
    omega
  simp [left, Page.rowsIn, RowRange.size, hsize]

/-- The next row, and the rows after it. -/
theorem exists_left_eq_cons (h : x.isValid) (hpast : x.past ≤ x.page.rows.length) (page : Nat) :
    ∃ f, x.page.rows[x.index]? = some f ∧
      x.left page = ⟨page, x.index, f⟩ :: x.advance.left page := by
  have hlt : x.index < x.past := of_decide_eq_true h
  have hindex : x.index < x.page.rows.length := hlt.trans_le hpast
  have hsize : x.past - x.index = (x.past - (x.index + 1)) + 1 := by omega
  refine ⟨_, List.getElem?_eq_getElem hindex, ?_⟩
  simp only [left, advance, Page.rowsIn, RowRange.size, List.drop_eq_getElem_cons hindex]
  rw [hsize, List.take_succ_cons, List.length_cons, List.range'_succ, List.zip_cons_cons,
    List.map_cons]

end RowPointer

theorem RowPointer.page_of_front? {x : RowPointer} {i : Nat} {e : QueueEntry}
    (h : x.front? i = some e) : e.page = i := by
  obtain ⟨f, -, rfl⟩ := Option.map_eq_some_iff.1 h
  rfl

/-- The rows of a page under a path are those that its pointer starts with. -/
theorem MergedRow.ofPage?_eq_map (w : BucketWidth) (p : Path) (i : Nat) (pg : Page) :
    ofPage? w p i pg = (RowPointer.ofPage? w p pg).map (·.left i) := by
  simp only [ofPage?, RowPointer.ofPage?, Option.map_map]
  rfl

/-! ## The front of a merge -/

namespace MergedRow

variable {r h : MergedRow} {rows : List MergedRow} {ls : List (List MergedRow)} {i : Nat}

/-- A merge starts with a row that starts one of its lists. -/
theorem exists_of_mem_head?_mergeAll (hh : h ∈ (mergeAll ls).head?) : ∃ l ∈ ls, h ∈ l.head? := by
  induction ls with
  | nil => cases hh
  | cons l ls ih =>
    rw [mergeAll, List.foldr_cons, ← mergeAll] at hh
    cases l with
    | nil =>
      rw [List.nil_merge] at hh
      obtain ⟨l, hl, hh⟩ := ih hh
      exact ⟨l, .tail _ hl, hh⟩
    | cons a as =>
      cases hrest : mergeAll ls with
      | nil =>
        exact ⟨_, .head _, by simpa [hrest] using hh⟩
      | cons b bs =>
        rw [hrest] at hh ih
        by_cases hab : a.before b
        · rw [List.cons_merge_cons_pos _ _ _ hab] at hh
          exact ⟨_, .head _, hh⟩
        · rw [List.cons_merge_cons_neg _ _ _ hab] at hh
          obtain ⟨l, hl, hh⟩ := ih hh
          exact ⟨l, .tail _ hl, hh⟩

/-- A merge starts with the row at the front of a list that has to come before the rows at the front
of all later lists, if none at the front of an earlier list may come before it. The induction is on
the lists: an earlier one is merged with a list that starts with the row, and is passed over. -/
theorem mergeAll_eq_cons (hi : ls[i]? = some (r :: rows))
    (hearlier : ∀ j l, j < i → ls[j]? = some l → ∀ h ∈ l.head?, ¬ h.before r)
    (hlater : ∀ j l, i < j → ls[j]? = some l → ∀ h ∈ l.head?, r.before h) :
    mergeAll ls = r :: mergeAll (ls.set i rows) := by
  induction ls generalizing i with
  | nil => cases hi
  | cons l ls ih =>
    cases i with
    | zero =>
      obtain rfl : l = r :: rows := by simpa using hi
      rw [List.set_cons_zero, mergeAll, mergeAll, List.foldr_cons, List.foldr_cons, ← mergeAll]
      cases hrest : mergeAll ls with
      | nil => simp
      | cons b bs =>
        have hb : b ∈ (mergeAll ls).head? := by simp [hrest]
        obtain ⟨l, hl, hb⟩ := exists_of_mem_head?_mergeAll hb
        obtain ⟨j, hj⟩ := List.mem_iff_getElem?.1 hl
        exact List.cons_merge_cons_pos _ _ _ (hlater (j + 1) l (Nat.succ_pos j) hj b hb)
    | succ i =>
      have ih := ih hi (fun j l hj => hearlier (j + 1) l (Nat.succ_lt_succ hj))
        (fun j l hj => hlater (j + 1) l (Nat.succ_lt_succ hj))
      rw [List.set_cons_succ, mergeAll, mergeAll, List.foldr_cons, List.foldr_cons, ← mergeAll,
        ← mergeAll, ih]
      cases l with
      | nil => simp
      | cons a as =>
        exact List.cons_merge_cons_neg _ _ _ (hearlier 0 _ (Nat.succ_pos i) rfl a rfl)

theorem mergeAll_eq_nil (h : ∀ l ∈ ls, l = []) : mergeAll ls = [] := by
  induction ls with
  | nil => rfl
  | cons l ls ih =>
    rw [List.forall_mem_cons] at h
    rw [mergeAll, List.foldr_cons, ← mergeAll, ih h.2, h.1, List.nil_merge]

end MergedRow

/-! ## Requests -/

namespace TaskRows

variable {s : TaskRows}

/-- The queue holds an entry for the next row of each page that has rows left, and nothing else. -/
structure IsQueued (s : TaskRows) : Prop where
  past_le : ∀ x ∈ s.pointers, x.past ≤ x.page.rows.length
  nodup : (s.queue.map (·.page)).Nodup
  mem_iff : ∀ e, e ∈ s.queue ↔
    ∃ x, s.pointers[e.page]? = some x ∧ x.isValid ∧ x.front? e.page = some e

/-- The rows that are left, page by page. -/
def left (s : TaskRows) : List (List MergedRow) := s.pointers.mapIdx fun page x => x.left page

/-- The merge of the rows that are left. -/
def merged (s : TaskRows) : List MergedRow := MergedRow.mergeAll s.left

namespace IsQueued

variable (h : s.IsQueued)
include h

theorem merged_eq_nil (hqueue : s.queue = []) : s.merged = [] := by
  refine MergedRow.mergeAll_eq_nil fun l hl => ?_
  obtain ⟨i, hi⟩ := List.mem_iff_getElem?.1 hl
  rw [left, List.getElem?_mapIdx, Option.map_eq_some_iff] at hi
  obtain ⟨x, hx, rfl⟩ := hi
  refine RowPointer.left_eq_nil (fun hvalid => ?_) i
  obtain ⟨f, hf, -⟩ := RowPointer.exists_left_eq_cons hvalid
    (h.past_le x (List.mem_of_getElem? hx)) i
  have hmem := (h.mem_iff ⟨f.entity, f.systemFrom, i⟩).2
    ⟨x, hx, hvalid, by rw [RowPointer.front?, hf, Option.map_some]⟩
  rw [hqueue] at hmem
  cases hmem

/-- The row at the front of a page has an entry. -/
theorem mem_of_mem_head? {j : Nat} {l : List MergedRow} {r : MergedRow} (hj : s.left[j]? = some l)
    (hr : r ∈ l.head?) : ⟨r.fact.entity, r.fact.systemFrom, j⟩ ∈ s.queue := by
  rw [left, List.getElem?_mapIdx, Option.map_eq_some_iff] at hj
  obtain ⟨x, hx, rfl⟩ := hj
  by_cases hvalid : x.isValid
  · obtain ⟨f, hf, hleft⟩ := RowPointer.exists_left_eq_cons hvalid
      (h.past_le x (List.mem_of_getElem? hx)) j
    obtain rfl : ⟨j, x.index, f⟩ = r := by simpa [hleft] using hr
    exact (h.mem_iff _).2 ⟨x, hx, hvalid, by rw [RowPointer.front?, hf, Option.map_some]⟩
  · rw [RowPointer.left_eq_nil hvalid] at hr
    cases hr

/-- Where an entry is taken out and its page moves on by one row, an entry for the row after that
goes back in, if there is one. -/
theorem move {head : QueueEntry} {others : List QueueEntry} {x : RowPointer}
    (hperm : s.queue.Perm (head :: others)) (hx : s.pointers[head.page]? = some x)
    {fresh : Option QueueEntry}
    (hfresh : ∀ e, fresh = some e ↔ x.advance.isValid ∧ x.advance.front? head.page = some e) :
    IsQueued ⟨s.pointers.set head.page x.advance, fresh.toList ++ others⟩ := by
  have hpage {e : QueueEntry} (he : fresh = some e) : e.page = head.page :=
    RowPointer.page_of_front? ((hfresh e).1 he).2
  have hnodup : ((head :: others).map (·.page)).Nodup := (hperm.map _).nodup_iff.1 h.nodup
  obtain ⟨hhead, hothers⟩ := List.nodup_cons.1 hnodup
  have hapart : ∀ e ∈ others, e.page ≠ head.page := fun e he heq =>
    hhead (List.mem_map.2 ⟨e, he, heq⟩)
  refine ⟨fun y hy => ?_, ?_, fun e => ?_⟩
  · rcases List.mem_or_eq_of_mem_set hy with hy | rfl
    · exact h.past_le y hy
    · exact h.past_le x (List.mem_of_getElem? hx)
  · cases fresh with
    | none => exact hothers
    | some e =>
      rw [Option.toList_some, List.singleton_append, List.map_cons, hpage rfl]
      exact hnodup
  · rw [List.mem_append, Option.mem_toList]
    by_cases he : e.page = head.page
    · have hlt : head.page < s.pointers.length := (List.getElem?_eq_some_iff.1 hx).1
      have hothers : e ∉ others := fun hmem => hapart e hmem he
      simp [hothers, hfresh, he, List.getElem?_set_self hlt]
    · have hfresh : fresh ≠ some e := fun hsome => he (hpage hsome)
      have hne : e ≠ head := fun heq => he (congrArg _ heq)
      have hqueue : e ∈ s.queue ↔ e ∈ others := by simp [hperm.mem_iff, hne]
      simp only [hfresh, false_or, ← hqueue, h.mem_iff, List.getElem?_set_ne (Ne.symm he)]

/-- The merge starts with the row of the greatest entry. -/
theorem merged_eq_cons {head : QueueEntry} {others : List QueueEntry} {x : RowPointer} {f : Fact}
    (hpop : QueueEntry.pop? s.queue = some (head, others))
    (hx : s.pointers[head.page]? = some x) (hf : head = ⟨f.entity, f.systemFrom, head.page⟩)
    (hleft : x.left head.page = ⟨head.page, x.index, f⟩ :: x.advance.left head.page)
    (queue : List QueueEntry) : s.merged = ⟨head.page, x.index, f⟩ ::
      merged ⟨s.pointers.set head.page x.advance, queue⟩ := by
  obtain ⟨hperm, hgreatest⟩ := QueueEntry.pop?_spec hpop
  have hfront : s.left[head.page]? =
      some (⟨head.page, x.index, f⟩ :: x.advance.left head.page) := by
    rw [left, List.getElem?_mapIdx, hx, Option.map_some, hleft]
  have hleast {j : Nat} {l : List MergedRow} {r : MergedRow} (hne : j ≠ head.page)
      (hj : s.left[j]? = some l) (hr : r ∈ l.head?) :
      ¬ (compare head ⟨r.fact.entity, r.fact.systemFrom, j⟩).isLT := by
    refine hgreatest _ ?_
    rcases List.mem_cons.1 (hperm.mem_iff.1 (h.mem_of_mem_head? hj hr)) with heq | hmem
    · exact absurd (congrArg QueueEntry.page heq) hne
    · exact hmem
  rw [hf] at hleast
  simp only [QueueEntry.isLT_compare_iff] at hleast
  have hmerge := MergedRow.mergeAll_eq_cons hfront
    (fun j l hj hl r hr hbefore => hleast hj.ne hl hr ?_) fun j l hj hl r hr => ?_
  · rw [merged, hmerge, merged, left, left, List.mapIdx_set]
  · rw [MergedRow.before, Fact.before_iff] at hbefore
    grind
  · have hleast := hleast hj.ne' hl hr
    rw [MergedRow.before, Fact.before_iff]
    grind

/-- A request when all rows were given, or for the next row of the merge. -/
theorem next?_cases :
    (s.isExhausted ∧ s.merged = [] ∧ s.next? = some (none, s)) ∨
    ∃ r s', s.merged = r :: s'.merged ∧ s.next? = some (some (r.page, r.index), s') ∧
      s'.IsQueued := by
  cases hpop : QueueEntry.pop? s.queue with
  | none =>
    have hqueue := QueueEntry.pop?_eq_none_iff.1 hpop
    exact .inl ⟨by simp [isExhausted, hqueue], h.merged_eq_nil hqueue, by rw [next?, hpop]⟩
  | some found =>
    obtain ⟨head, others⟩ := found
    have hperm := (QueueEntry.pop?_spec hpop).1
    obtain ⟨x, hx, hvalid, hentry⟩ := (h.mem_iff head).1 (hperm.mem_iff.2 (.head _))
    have hpast := h.past_le x (List.mem_of_getElem? hx)
    obtain ⟨f, hf, hleft⟩ := RowPointer.exists_left_eq_cons hvalid hpast head.page
    have hhead : head = ⟨f.entity, f.systemFrom, head.page⟩ := by
      simpa [RowPointer.front?, hf] using hentry.symm
    obtain ⟨fresh, hfresh, hnext⟩ : ∃ fresh : Option QueueEntry,
        (∀ e, fresh = some e ↔ x.advance.isValid ∧ x.advance.front? head.page = some e) ∧
        s.next? = some (some (head.page, x.index),
          ⟨s.pointers.set head.page x.advance, fresh.toList ++ others⟩) := by
      by_cases hmore : x.advance.isValid
      · obtain ⟨g, hg, -⟩ := RowPointer.exists_left_eq_cons hmore hpast head.page
        refine ⟨some ⟨g.entity, g.systemFrom, head.page⟩, fun e => ?_, ?_⟩
        · simp [hmore, RowPointer.front?, hg]
        · simp [next?, hpop, hx, hmore, RowPointer.front?, hg]
      · exact ⟨none, by simp [hmore], by simp [next?, hpop, hx, hmore]⟩
    exact .inr ⟨_, _, h.merged_eq_cons hpop hx hhead hleft _, hnext, h.move hperm hx hfresh⟩

/-- So many requests give the merge row by row, and nothing after its end. -/
theorem requests?_eq (n : Nat) : ∃ left,
    s.requests? n = some ((s.merged.take n).map (fun r => some (r.page, r.index)) ++
      List.replicate (n - s.merged.length) none, left) ∧
    left.IsQueued ∧ left.merged = s.merged.drop n := by
  induction n generalizing s with
  | zero => exact ⟨s, by simp [requests?], h, by simp⟩
  | succ n ih =>
    rcases h.next?_cases with ⟨-, hnone, hnext⟩ | ⟨r, s', hcons, hnext, hqueued⟩
    · obtain ⟨left, hrequests, hleft⟩ := ih h
      exact ⟨left, by simp [requests?, hnext, hrequests, hnone, List.replicate_succ],
        by simpa [hnone] using hleft⟩
    · obtain ⟨left, hrequests, hleft⟩ := ih hqueued
      exact ⟨left, by simp [requests?, hnext, hrequests, hcons], by simpa [hcons] using hleft⟩

/-- There are no rows left exactly if the queue is empty. -/
theorem isExhausted_iff : s.isExhausted ↔ s.merged = [] := by
  rcases h.next?_cases with ⟨hexhausted, hnone, -⟩ | ⟨r, s', hcons, hnext, -⟩
  · simp [hexhausted, hnone]
  · refine iff_of_false (fun hexhausted => ?_) (by simp [hcons])
    have hqueue : s.queue = [] := List.isEmpty_iff.1 hexhausted
    rw [h.merged_eq_nil hqueue] at hcons
    cases hcons

end IsQueued

end TaskRows

/-! ## The pointers and the queue at the start -/

namespace RowPointer

variable {xs : List RowPointer}

theorem past_le_of_ofPage? {pg : Page} {x : RowPointer} (h : ofPage? w p pg = some x) :
    x.past ≤ x.page.rows.length := by
  obtain ⟨r, hr, rfl⟩ := Option.map_eq_some_iff.1 h
  simp only [Page.rangeUnder?, bind, pure, Option.bind_eq_some_iff, Option.some.injEq] at hr
  obtain ⟨first, -, past, hpast, rfl⟩ := hr
  have hbound := (of_boundaryFrom? hpast).2
  rwa [List.size_toArray, Nat.zero_add] at hbound

theorem of_mapM_ofPage? (h : pages.mapM (ofPage? w p) = some xs) :
    xs.map (·.page) = pages ∧ ∀ x ∈ xs, ofPage? w p x.page = some x := by
  induction pages generalizing xs with
  | nil =>
    cases h
    simp
  | cons pg rest ih =>
    simp only [List.mapM_cons, bind, pure, Option.bind_eq_some_iff, Option.some.injEq] at h
    obtain ⟨x, hx, more, hmore, rfl⟩ := h
    obtain ⟨hpages, hstart⟩ := ih hmore
    have hpage : x.page = pg := by
      obtain ⟨r, -, rfl⟩ := Option.map_eq_some_iff.1 hx
      rfl
    exact ⟨by rw [List.map_cons, hpage, hpages],
      List.forall_mem_cons.2 ⟨by rw [hpage, hx], hstart⟩⟩

/-- The merge takes the rows of the pages that the pointers start with. -/
theorem mapM_ofPage?_eq (pages : List Page) (n : Nat) :
    ((pages.zipIdx n).mapM fun (pg, i) => MergedRow.ofPage? w p i pg) =
      (pages.mapM (ofPage? w p)).map fun xs => (xs.zipIdx n).map fun (x, i) => x.left i := by
  induction pages generalizing n with
  | nil => rfl
  | cons pg rest ih =>
    simp only [List.zipIdx_cons, List.mapM_cons, ih]
    rw [MergedRow.ofPage?_eq_map]
    cases ofPage? w p pg with
    | none => rfl
    | some x => cases rest.mapM (ofPage? w p) <;> rfl

/-- Each page that has rows left has one entry, the one of its next row. -/
theorem exists_fronts? (h : ∀ x ∈ xs, x.past ≤ x.page.rows.length) (n : Nat) :
    ∃ queue, fronts? n xs = some queue ∧ (queue.map (·.page)).Nodup ∧
      ∀ e, e ∈ queue ↔
        ∃ i x, xs[i]? = some x ∧ e.page = n + i ∧ x.isValid ∧ x.front? e.page = some e := by
  induction xs generalizing n with
  | nil => exact ⟨[], rfl, by simp, by simp⟩
  | cons x xs ih =>
    rw [List.forall_mem_cons] at h
    obtain ⟨queue, hqueue, hnodup, hmem⟩ := ih h.2 (n + 1)
    have hcons (e : QueueEntry) : (∃ i y, (x :: xs)[i]? = some y ∧ e.page = n + i ∧ y.isValid ∧
        y.front? e.page = some e) ↔
          (e.page = n ∧ x.isValid ∧ x.front? e.page = some e) ∨ e ∈ queue := by
      rw [hmem]
      constructor
      · rintro ⟨i, y, hy, hpage, hrest⟩
        cases i with
        | zero =>
          obtain rfl : x = y := by simpa using hy
          exact .inl ⟨hpage, hrest⟩
        | succ i => exact .inr ⟨i, y, hy, by omega, hrest⟩
      · rintro (⟨hpage, hrest⟩ | ⟨i, y, hy, hpage, hrest⟩)
        · exact ⟨0, x, rfl, hpage, hrest⟩
        · exact ⟨i + 1, y, hy, by omega, hrest⟩
    by_cases hvalid : x.isValid
    · obtain ⟨f, hf, -⟩ := exists_left_eq_cons hvalid h.1 n
      have hentry (i : Nat) : x.front? i = some ⟨f.entity, f.systemFrom, i⟩ := by
        rw [front?, hf, Option.map_some]
      refine ⟨_, by rw [fronts?, if_pos hvalid, hentry, hqueue]; rfl, ?_, fun e => ?_⟩
      · refine List.nodup_cons.2 ⟨fun hn => ?_, hnodup⟩
        obtain ⟨e, he, hpage⟩ := List.mem_map.1 hn
        obtain ⟨i, -, -, hi, -⟩ := (hmem e).1 he
        change e.page = n at hpage
        omega
      · rw [hcons, List.mem_cons]
        refine or_congr_left ⟨?_, ?_⟩
        · rintro rfl
          exact ⟨rfl, hvalid, hentry n⟩
        · rintro ⟨rfl, -, he⟩
          exact Option.some.inj (he.symm.trans (hentry e.page))
    · refine ⟨queue, by rw [fronts?, if_neg hvalid, hqueue], hnodup, fun e => ?_⟩
      rw [hcons]
      simp [hvalid]

end RowPointer

namespace TaskRows

variable {s : TaskRows}

theorem exists_queue {xs : List RowPointer} (h : pages.mapM (RowPointer.ofPage? w p) = some xs) :
    ∃ queue, ofPages? w p pages = some ⟨xs, queue⟩ ∧ IsQueued ⟨xs, queue⟩ := by
  have hpast : ∀ x ∈ xs, x.past ≤ x.page.rows.length := fun x hx =>
    RowPointer.past_le_of_ofPage? ((RowPointer.of_mapM_ofPage? h).2 x hx)
  obtain ⟨queue, hqueue, hnodup, hmem⟩ := RowPointer.exists_fronts? hpast 0
  refine ⟨queue, by simp [ofPages?, h, hqueue], hpast, hnodup, fun e => ?_⟩
  rw [hmem]
  constructor
  · rintro ⟨i, x, hx, hpage, hrest⟩
    obtain rfl : e.page = i := by omega
    exact ⟨x, hx, hrest⟩
  · rintro ⟨x, hx, hrest⟩
    exact ⟨e.page, x, hx, by omega, hrest⟩

/-- The queue starts with an entry for each page that has rows under the path. -/
theorem of_ofPages? (h : ofPages? w p pages = some s) : s.IsQueued ∧
    s.pointers.map (·.page) = pages ∧
      ∀ x ∈ s.pointers, RowPointer.ofPage? w p x.page = some x := by
  obtain ⟨xs, hxs, -⟩ := Option.bind_eq_some_iff.1 h
  obtain ⟨queue, hstart, hqueued⟩ := exists_queue hxs
  obtain rfl := Option.some.inj (hstart.symm.trans h)
  exact ⟨hqueued, RowPointer.of_mapM_ofPage? hxs⟩

/-- The merged rows of pages are those that the queue starts with, whatever the pages and the
path. -/
theorem mergeRows?_eq_map (w : BucketWidth) (p : Path) (pages : List Page) :
    mergeRows? w p pages = (ofPages? w p pages).map merged := by
  rw [mergeRows?, RowPointer.mapM_ofPage?_eq]
  cases hxs : pages.mapM (RowPointer.ofPage? w p) with
  | none => simp [ofPages?, hxs]
  | some xs =>
    obtain ⟨queue, hstart, -⟩ := exists_queue hxs
    simp [hstart, merged, left, List.mapIdx_eq_zipIdx_map]

end TaskRows

end Bitemporal
