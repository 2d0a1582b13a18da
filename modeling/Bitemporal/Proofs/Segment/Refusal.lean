import Mathlib
import Bitemporal.Proofs.Segment.Partition

/-!
# Why a write fails

A write fails for two reasons only: the facts are not in order, and then nothing is written, or an
entity has more facts than a leaf may hold and the settings refuse that. Cutting facts by buckets
always brings such an entity to a leaf of its own, and no leaf with several entities is over the
limit, so the leaf that is refused is that of the least such entity. Wherever the pages go, those of
the leaves before it are there by then.

## Main definitions

* `Fact.SortsAfter`, `Fact.IsDisordered`: facts that stand the wrong way round.
* `Writer.takes`: whether a leaf may hold some facts.
* `Writer.writeTo?`: a write, slice by slice, into a sink that takes all pages.
* `Writer.Feeds`: a part of a write that gives a sink the pages of some leaves.
* `Writer.Explains`: the output of a write, with every reason for it.

## Main statements

* `Writer.value_fill_eq`: the pages up to the first leaf that is refused.
* `Writer.feeds_storeFrom?`: a write into a sink gives it the leaves of the layout.
* `Layout.exists_leaf_versions`: an entity over the limit has a leaf of its own.
* `Writer.write_explained`: when a write fails, and what is written by then.
-/

namespace Bitemporal

open scoped Linear

variable {w : BucketWidth} {rows : List Fact} {wr : Writer} {p : Path} {e : EntityId}

namespace Fact

/-- A fact that must not stand before another: it is of a greater entity, or it is an older version
of the same one. -/
def SortsAfter (a b : Fact) : Prop :=
  b.entity < a.entity ∨ b.entity = a.entity ∧ a.systemFrom < b.systemFrom

theorem sortsAfter_iff {a b : Fact} : a.SortsAfter b ↔ ¬ a.before b := by
  rw [before_iff, SortsAfter]
  grind

/-- Some fact sorts after a later one. -/
def IsDisordered (rows : List Fact) : Prop :=
  ∃ (i j : Nat) (a b : Fact), i < j ∧ rows[i]? = some a ∧ rows[j]? = some b ∧ a.SortsAfter b

theorem isDisordered_iff : IsDisordered rows ↔ ¬ IsOrdered rows := by
  simp only [IsDisordered, IsOrdered, List.pairwise_iff_getElem, List.getElem?_eq_some_iff,
    sortsAfter_iff]
  push Not
  constructor
  · rintro ⟨i, j, a, b, hij, ⟨hi, rfl⟩, ⟨hj, rfl⟩, hafter⟩
    exact ⟨i, j, hi, hj, hij, hafter⟩
  · rintro ⟨i, j, hi, hj, hij, hafter⟩
    exact ⟨i, j, _, _, hij, ⟨hi, rfl⟩, ⟨hj, rfl⟩, hafter⟩

end Fact

/-- The leaves of a regular trie are numbered as their paths ascend. -/
theorem Trie.IsRegular.path_lt_iff {α : Type} {room : Nat} {t : Trie α} (h : t.IsRegular w room)
    {l l' : Path × Nat} (hl : l ∈ (t.number 0).1.leaves) (hl' : l' ∈ (t.number 0).1.leaves) :
    l.1 < l'.1 ↔ l.2 < l'.2 := by
  obtain ⟨v, hv⟩ := mem_leaves_number.1 hl
  obtain ⟨v', hv'⟩ := mem_leaves_number.1 hl'
  have hascend {i j : Nat} {a b : Path × α} (ha : t.leaves[i]? = some a)
      (hb : t.leaves[j]? = some b) (hij : i < j) : a.1 < b.1 := by
    obtain ⟨hi, rfl⟩ := List.getElem?_eq_some_iff.1 ha
    obtain ⟨hj, rfl⟩ := List.getElem?_eq_some_iff.1 hb
    exact List.pairwise_iff_getElem.1 h.pairwise_leaves i j hi hj hij
  rcases lt_trichotomy l.2 l'.2 with hlt | heq | hgt
  · exact iff_of_true (hascend hv hv' hlt) hlt
  · rw [heq, hv', Option.some_inj, Prod.mk.injEq] at hv
    rw [heq, hv.1]
    simp
  · exact iff_of_false (lt_asymm (hascend hv' hv hgt)) (lt_asymm hgt)

namespace Layout

variable {limit : Nat} {rs : List Fact}

/-- Facts over the limit that a leaf takes all the same are the versions of one entity. -/
theorem under_eq_versions (hfits : ¬ Overflows limit (Fact.under w p rows))
    (hover : limit < (Fact.under w p rows).length) {f : Fact} (hf : f ∈ Fact.under w p rows) :
    Fact.under w p rows = Fact.versions f.entity rows := by
  have hsame : ∀ g ∈ Fact.under w p rows, g.entity = f.entity := by
    intro g hg
    by_contra hne
    exact hfits ⟨hover, Fact.one_lt_length_entities_iff.2 ⟨g, hg, f, hf, hne⟩⟩
  have hunder : f.entity.isUnder w p := (List.mem_filter.1 hf).2
  apply List.filter_congr
  intro g hg
  by_cases hgp : g.entity.isUnder w p
  · simp [hunder, hsame g (List.mem_filter.2 ⟨hg, hgp⟩)]
  · have hne : g.entity ≠ f.entity := by
      intro heq
      exact hgp (heq ▸ hunder)
    simp [hgp, hne]

/-- A leaf over the limit holds the versions of an entity. -/
theorem exists_eq_versions (h : Fact.IsGrouped rows) (hmem : (p, rs) ∈ (ofRows w limit rows).leaves)
    (hover : limit < rs.length) : ∃ e, rs = Fact.versions e rows := by
  obtain ⟨rfl, hne, hfits⟩ := of_mem_leaves_ofRows h hmem
  obtain ⟨f, hf⟩ := List.exists_mem_of_ne_nil _ hne
  exact ⟨f.entity, under_eq_versions hfits hover hf⟩

/-- An entity over the limit has a leaf of its own: the whole path of its id leads to no branch, as
all facts under it are of the entity, and a leaf on the way that is over the limit is of one
entity. -/
theorem exists_leaf_versions (h : Fact.IsGrouped rows)
    (hover : limit < (Fact.versions e rows).length) :
    ∃ p, (p, Fact.versions e rows) ∈ (ofRows w limit rows).leaves := by
  have hself : e.isUnder w (e.path w) := EntityId.isUnder_iff.2 List.prefix_rfl
  obtain ⟨f, hf⟩ := List.exists_mem_of_length_pos (Nat.zero_lt_of_lt hover)
  obtain ⟨hmem, rfl⟩ := Fact.mem_versions.1 hf
  have hreach := @reach_ofRows w limit rows (f.entity.path w)
  cases htrie : (ofRows w limit rows).reach (f.entity.path w) with
  | absent =>
    simp only [htrie] at hreach
    exact absurd hself (Fact.under_eq_nil_iff.1 hreach f hmem)
  | branch children =>
    have hmixed := ((reach_ofRows_eq_branch_iff h _).1 ⟨children, htrie⟩).2
    have hunder : ∀ g ∈ Fact.under w (f.entity.path w) rows, g.entity.isUnder w (f.entity.path w) :=
      fun g hg => (List.mem_filter.1 hg).2
    exact absurd (length_entities_le_one hunder EntityId.length_path) (not_le.2 hmixed)
  | leaf rs =>
    obtain ⟨q, hq, hleaf⟩ := (isRegular_ofRows rows).reach_eq_leaf_iff.1 htrie
    obtain ⟨rfl, -, hfits⟩ := of_mem_leaves_ofRows h hleaf
    have hunder : f.entity.isUnder w q := EntityId.isUnder_of_prefix hq hself
    have hsub : (Fact.versions f.entity rows).Sublist (Fact.under w q rows) := by
      refine List.monotone_filter_right rows fun g hg => ?_
      rwa [of_decide_eq_true hg]
    have heq := under_eq_versions hfits (hover.trans_le hsub.length_le)
      (List.mem_filter.2 ⟨hmem, hunder⟩)
    exact ⟨q, heq ▸ hleaf⟩

/-- Of two leaves, the entities of the first are not greater. -/
theorem pairwise_leaves_entities (h : Fact.IsOrdered rows) :
    (ofRows w limit rows).leaves.Pairwise fun l l' =>
      ∀ f ∈ l.2, ∀ g ∈ l'.2, f.entity ≤ g.entity := by
  have hflatten : (ofRows w limit rows).values.flatten = rows := flatten_values_ofRowsAt limit
    (p := []) (Nat.zero_add w.maxDepth) h fun _ _ => EntityId.isUnder_iff.2 List.nil_prefix
  have hgrouped := h.isGrouped
  rw [← hflatten, Fact.IsGrouped, List.pairwise_flatten] at hgrouped
  exact List.pairwise_map.1 hgrouped.2

end Layout

namespace Writer

/-! ## Up to the first refusal -/

/-- Whether a leaf may hold some facts. -/
def takes (wr : Writer) (rows : List Fact) : Bool :=
  rows.length ≤ wr.limit || wr.oversized = .allow

/-- The parts before the first that is refused. -/
def taken (wr : Writer) (parts : List (List Fact)) : List (List Fact) := parts.takeWhile wr.takes

/-- Why the first part is refused that no leaf may hold. -/
def refused? (wr : Writer) (parts : List (List Fact)) : Option Error :=
  (parts.find? fun part => !wr.takes part).map wr.refusal

theorem takes_eq_false_iff :
    wr.takes rows = false ↔ rows.length > wr.limit ∧ wr.oversized = .reject := by
  cases h : wr.oversized <;> simp [takes, h]

/-- Filling makes pages up to the first leaf that is refused. -/
theorem value_fill_eq (wr : Writer) (leaves : List (Path × List Fact)) :
    (wr.fill leaves).value =
      ((wr.taken (leaves.map (·.2))).map Page.mk, wr.refused? (leaves.map (·.2))) := by
  induction leaves with
  | nil => rfl
  | cons l rest ih =>
    rw [fill]
    split
    · rename_i hover
      simp [taken, refused?, takes_eq_false_iff.2 hover]
    · rename_i hfits
      have htakes : wr.takes l.2 = true := by
        rwa [← takes_eq_false_iff, Bool.not_eq_false] at hfits
      simp [ih, taken, refused?, htakes]

theorem taken_append_of_none {a b : List (List Fact)} (h : wr.refused? a = none) :
    wr.taken (a ++ b) = wr.taken a ++ wr.taken b ∧ wr.refused? (a ++ b) = wr.refused? b := by
  have htakes : ∀ part ∈ a, wr.takes part = true := by simpa [refused?] using h
  have hfind : a.find? (fun part => !wr.takes part) = none := by simpa using htakes
  rw [taken, taken, List.takeWhile_append_of_pos htakes, List.takeWhile_eq_self_iff.2 htakes]
  simp [taken, refused?, List.find?_append, hfind]

theorem taken_append_of_some {a b : List (List Fact)} {error : Error}
    (h : wr.refused? a = some error) :
    wr.taken (a ++ b) = wr.taken a ∧ wr.refused? (a ++ b) = some error := by
  obtain ⟨part, hpart, -⟩ := Option.map_eq_some_iff.1 h
  obtain ⟨hout, front, back, rfl, hfront⟩ := List.find?_eq_some_iff_append.1 hpart
  have hout : wr.takes part = false := by simpa using hout
  have hfront : ∀ part ∈ front, wr.takes part = true := by simpa using hfront
  constructor
  · simp only [taken, List.append_assoc, List.cons_append,
      List.takeWhile_append_of_pos hfront, List.takeWhile_cons, hout, Bool.false_eq_true, if_false]
  · rw [refused?, List.find?_append, hpart]
    rw [refused?, hpart] at h
    exact h

/-! ## Writing into a sink -/

variable {σ : Type} {sink : Page → σ → Nat × σ}

/-- Puts a leaf into a sink that takes all pages and gives each a number, or refuses it. -/
def storeLeaf (wr : Writer) (sink : Page → σ → Nat × σ) (rows : List Fact) :
    ExceptT Error (StateT σ Option) (Trie Nat) := do
  if rows.length > wr.limit ∧ wr.oversized = .reject then throw (wr.refusal rows)
  else return .leaf (← modifyGet (sink ⟨rows⟩))

/-- Writes facts below a depth, slice by slice, into a sink. A refusal leaves in the sink what it
has taken by then. -/
def storeFrom? (wr : Writer) (sink : Page → σ → Nat × σ) (depth : Nat) (rows : List Fact) :
    ExceptT Error (StateT σ Option) (Trie Nat) := do
  if rows.isEmpty then return .absent
  else if rows.length ≤ wr.limit || Layout.isSolo rows || wr.width.maxDepth ≤ depth then
    storeLeaf wr sink rows
  else
    let slices ← Layout.slices? wr.width depth rows
    return .branch (← slices.mapM fun slice => storeFrom? wr sink (depth + 1) slice)
termination_by wr.width.maxDepth - depth
decreasing_by simp_all; omega

/-- Writes facts that must be in order into a sink. -/
def writeTo? (wr : Writer) (sink : Page → σ → Nat × σ) (rows : List Fact) :
    ExceptT Error (StateT σ Option) HashTrie := do
  match Fact.firstDisorder? rows with
  | some d => throw (.malformed d.message)
  | none => return ⟨← storeFrom? wr sink 0 rows, wr.width⟩

/-- The sink after some pages. -/
def received (sink : Page → σ → Nat × σ) (s : σ) (pages : List Page) : σ :=
  pages.foldl (fun s page => (sink page s).2) s

/-- A part of a write that gives a sink the pages of some leaves, up to the first that is refused,
and that fails exactly if one is. -/
def Feeds {α : Type} (wr : Writer) (sink : Page → σ → Nat × σ)
    (write : ExceptT Error (StateT σ Option) α) (parts : List (List Fact)) : Prop :=
  ∀ s, ∃ value, write.run.run s =
    some ((wr.refused? parts).elim (.ok value) .error,
      received sink s ((wr.taken parts).map Page.mk))

namespace Feeds

variable {α β : Type} {write : ExceptT Error (StateT σ Option) α} {parts : List (List Fact)}

theorem pure (a : α) : Feeds wr sink (pure a) [] := by
  intro s
  exact ⟨a, rfl⟩

theorem bind {next : α → ExceptT Error (StateT σ Option) β} {more : List (List Fact)}
    (h : Feeds wr sink write parts) (hnext : ∀ a, Feeds wr sink (next a) more) :
    Feeds wr sink (write >>= next) (parts ++ more) := by
  intro s
  obtain ⟨a, ha⟩ := h s
  obtain ⟨b, hb⟩ := hnext a (received sink s ((wr.taken parts).map Page.mk))
  refine ⟨b, ?_⟩
  rw [ExceptT.run_bind, StateT.run_bind, ha]
  cases hrefused : wr.refused? parts with
  | none =>
    obtain ⟨htaken, hmore⟩ := taken_append_of_none (b := more) hrefused
    simpa [htaken, hmore, received] using hb
  | some error =>
    obtain ⟨htaken, hmore⟩ := taken_append_of_some (b := more) hrefused
    simp [htaken, hmore]

theorem leaf (rows : List Fact) : Feeds wr sink (storeLeaf wr sink rows) [rows] := by
  intro s
  rw [storeLeaf]
  split
  · rename_i hover
    have htakes := takes_eq_false_iff.2 hover
    exact ⟨.absent, by simp [taken, refused?, htakes, received]⟩
  · rename_i hfits
    have htakes : wr.takes rows = true := by
      rwa [← takes_eq_false_iff, Bool.not_eq_false] at hfits
    have hrun : (modifyGet (sink ⟨rows⟩) : ExceptT Error (StateT σ Option) Nat).run.run s =
        some (.ok (sink ⟨rows⟩ s).1, (sink ⟨rows⟩ s).2) := rfl
    refine ⟨.leaf (sink ⟨rows⟩ s).1, ?_⟩
    simp [taken, refused?, htakes, received, hrun, Except.map]

theorem mapM {f : List Fact → ExceptT Error (StateT σ Option) α} {slices : List (List Fact)}
    {g : List Fact → List (List Fact)} (h : ∀ slice ∈ slices, Feeds wr sink (f slice) (g slice)) :
    Feeds wr sink (slices.mapM f) (slices.flatMap g) := by
  induction slices with
  | nil => exact .pure []
  | cons slice rest ih =>
    rw [List.forall_mem_cons] at h
    rw [List.mapM_cons, List.flatMap_cons]
    refine h.1.bind fun a => ?_
    rw [← List.append_nil (rest.flatMap g)]
    exact (ih h.2).bind fun as => .pure (a :: as)

end Feeds

/-- Writing ordered facts under a path gives a sink the leaves of their layout. -/
theorem feeds_storeFrom? (sink : Page → σ → Nat × σ) {room : Nat}
    (hroom : p.length + room = wr.width.maxDepth) (hrows : Fact.IsOrdered rows)
    (hp : ∀ f ∈ rows, f.entity.isUnder wr.width p) :
    Feeds wr sink (storeFrom? wr sink p.length rows)
      (Layout.ofRowsAt wr.width wr.limit room rows).values := by
  induction room generalizing p rows with
  | zero =>
    have hlast : decide (wr.width.maxDepth ≤ p.length) = true := decide_eq_true hroom.ge
    rw [storeFrom?, Layout.ofRowsAt, hlast, Bool.or_true]
    simp only [↓reduceIte]
    split_ifs
    · exact .pure _
    · exact .leaf rows
    · exact .leaf rows
  | succ room ih =>
    have hlevel : p.length < wr.width.maxDepth := by omega
    have hat : wr.width.maxDepth - (room + 1) = p.length := by omega
    have hslices := Layout.slices?_eq hrows hp hlevel
    rw [storeFrom?, Layout.ofRowsAt, hat, decide_eq_false (not_le.2 hlevel), Bool.or_false, hslices]
    split_ifs
    · exact .pure _
    · exact .leaf rows
    · have hchildren : ∀ slice ∈ (List.range wr.width.fanOut).map fun b =>
          Layout.inBucket wr.width p.length b rows,
          Feeds wr sink (storeFrom? wr sink (p.length + 1) slice)
            (Layout.ofRowsAt wr.width wr.limit room slice).values := by
        intro slice hslice
        obtain ⟨b, -, rfl⟩ := List.mem_map.1 hslice
        have hlength : p.length + 1 = (p ++ [b]).length := by simp
        rw [hlength]
        exact ih (by omega) (hrows.filter _)
          fun f hf => Layout.isUnder_of_mem_inBucket hp hlevel hf
      have hbranch := (Feeds.mapM hchildren).bind fun children =>
        .pure (Trie.branch children)
      rw [List.append_nil, List.flatMap_map] at hbranch
      rwa [Trie.values_branch, List.flatMap_map]

/-! ## Ordered facts -/

/-- What a write makes of ordered facts: the parts of their layout, up to the first refusal. -/
theorem value_write_eq (h : Fact.IsOrdered rows) : (wr.write rows).value =
    ⟨(wr.taken (Layout.ofRows wr.width wr.limit rows).values).map Page.mk,
      (wr.refused? (Layout.ofRows wr.width wr.limit rows).values).elim (.ok (wr.trieOf rows))
        .error⟩ := by
  rw [write, Fact.firstDisorder?_eq_none_iff.2 h]
  simp only [Logged.value_bind, value_fill_eq, Trie.values]
  cases wr.refused? ((Layout.ofRows wr.width wr.limit rows).leaves.map (·.2)) <;> rfl

/-- The refusal of an entity with so many facts. -/
def refusalOf (wr : Writer) (e : EntityId) (count : Nat) : Error :=
  .exhausted s!"entity {e.text} has {count} rows, over the leaf limit of {wr.limit}"

theorem refusal_versions (hne : Fact.versions e rows ≠ []) :
    wr.refusal (Fact.versions e rows) = wr.refusalOf e (Fact.versions e rows).length := by
  obtain ⟨f, rest, hcons⟩ := List.exists_cons_of_ne_nil hne
  have hf : f.entity = e := (Fact.mem_versions.1 (hcons.symm ▸ List.mem_cons_self)).2
  simp [refusal, refusalOf, hcons, hf]

/-- An entity whose leaf comes no sooner than that of another is no smaller. -/
theorem entity_le_of_leaves {e e' : EntityId} {before later : List (Path × List Fact)} {p' : Path}
    (h : Fact.IsOrdered rows) (hne : Fact.versions e rows ≠ []) (hne' : Fact.versions e' rows ≠ [])
    (hleaves : (Layout.ofRows wr.width wr.limit rows).leaves =
      before ++ (p, Fact.versions e rows) :: later)
    (hmem : (p', Fact.versions e' rows) ∈ (p, Fact.versions e rows) :: later) : e ≤ e' := by
  have horder : (Layout.ofRows wr.width wr.limit rows).leaves.Pairwise fun l l' =>
      ∀ f ∈ l.2, ∀ g ∈ l'.2, f.entity ≤ g.entity := Layout.pairwise_leaves_entities h
  obtain ⟨f, hf⟩ := List.exists_mem_of_ne_nil _ hne
  obtain ⟨g, hg⟩ := List.exists_mem_of_ne_nil _ hne'
  obtain ⟨-, rfl⟩ := Fact.mem_versions.1 hf
  obtain ⟨-, rfl⟩ := Fact.mem_versions.1 hg
  rw [hleaves, List.pairwise_append, List.pairwise_cons] at horder
  rcases List.mem_cons.1 hmem with heq | hmem
  · rw [(Prod.mk.inj heq).2] at hg
    exact (Fact.mem_versions.1 hg).2.ge
  · exact horder.2.1.1 _ hmem f hf g hg

/-- What is refused is the leaf of the least entity over the limit. -/
theorem of_refused? (h : Fact.IsOrdered rows) {error : Error}
    (hrefused : wr.refused? (Layout.ofRows wr.width wr.limit rows).values = some error) :
    wr.oversized = .reject ∧ ∃ e p i,
      (wr.limit < (Fact.versions e rows).length ∧
        ∀ e', wr.limit < (Fact.versions e' rows).length → e ≤ e') ∧
      error = wr.refusal (Fact.versions e rows) ∧
      (Layout.ofRows wr.width wr.limit rows).leaves[i]? = some (p, Fact.versions e rows) ∧
      wr.taken (Layout.ofRows wr.width wr.limit rows).values =
        (Layout.ofRows wr.width wr.limit rows).values.take i := by
  obtain ⟨part, hpart, rfl⟩ := Option.map_eq_some_iff.1 hrefused
  obtain ⟨hout, front, back, hparts, hfront⟩ := List.find?_eq_some_iff_append.1 hpart
  obtain ⟨hover, hreject⟩ := takes_eq_false_iff.1 (by simpa using hout)
  have hfront : ∀ part ∈ front, wr.takes part = true := by simpa using hfront
  -- The leaves stand as their parts do.
  obtain ⟨before, after, hleaves, rfl, hafter⟩ := List.map_eq_append_iff.1 hparts
  obtain ⟨⟨p, rs⟩, later, rfl, rfl, rfl⟩ := List.map_eq_cons_iff.1 hafter
  have hmem : (p, rs) ∈ (Layout.ofRows wr.width wr.limit rows).leaves := by simp [hleaves]
  obtain ⟨e, rfl⟩ := Layout.exists_eq_versions h.isGrouped hmem hover
  refine ⟨hreject, e, p, before.length, ⟨hover, fun e' hover' => ?_⟩, rfl, ?_, ?_⟩
  · obtain ⟨p', hmem'⟩ := Layout.exists_leaf_versions h.isGrouped hover'
    have hbefore : (p', Fact.versions e' rows) ∉ before := by
      intro hbefore
      have htakes := hfront _ (List.mem_map.2 ⟨_, hbefore, rfl⟩)
      rw [takes_eq_false_iff.2 ⟨hover', hreject⟩] at htakes
      cases htakes
    rw [hleaves, List.mem_append] at hmem'
    exact entity_le_of_leaves h (List.ne_nil_of_length_pos (Nat.zero_lt_of_lt hover))
      (List.ne_nil_of_length_pos (Nat.zero_lt_of_lt hover')) hleaves (hmem'.resolve_left hbefore)
  · simp [hleaves]
  · have hparts : (Layout.ofRows wr.width wr.limit rows).values =
        before.map (·.2) ++ Fact.versions e rows :: later.map (·.2) := by
      simp [Trie.values, hleaves]
    have hstop : ¬ wr.takes (Fact.versions e rows) = true := by simpa using hout
    rw [hparts, taken, List.takeWhile_append_of_pos hfront, List.takeWhile_cons_of_neg hstop]
    simp

/-- Where no leaf is refused, no entity is over the limit, or that is allowed. -/
theorem not_over_of_refused?
    (hrefused : wr.refused? (Layout.ofRows wr.width wr.limit rows).values = none)
    (h : Fact.IsOrdered rows) :
    ¬ (wr.oversized = .reject ∧ ∃ e, wr.limit < (Fact.versions e rows).length) := by
  rintro ⟨hreject, e, hover⟩
  obtain ⟨p, hleaf⟩ := Layout.exists_leaf_versions h.isGrouped hover
  have htakes : ∀ part ∈ (Layout.ofRows wr.width wr.limit rows).values, wr.takes part = true := by
    simpa [refused?] using hrefused
  have hout := takes_eq_false_iff.2 ⟨hover, hreject⟩
  rw [htakes _ (List.mem_map.2 ⟨_, hleaf, rfl⟩)] at hout
  cases hout

/-- A write into a sink gives it the pages of the write, and fails exactly if the write does. -/
theorem writeTo?_eq (wr : Writer) (rows : List Fact) (sink : Page → σ → Nat × σ) (s : σ) :
    ∃ result, (wr.writeTo? sink rows).run.run s =
        some (result, received sink s (wr.write rows).value.pages) ∧
      result.map (fun _ => ()) = (wr.write rows).value.trie.map fun _ => () := by
  cases hdisorder : Fact.firstDisorder? rows with
  | some d =>
    refine ⟨.error (.malformed d.message), ?_⟩
    simp [writeTo?, write, hdisorder, received]
  | none =>
    have h := Fact.firstDisorder?_eq_none_iff.1 hdisorder
    have hfeeds := (feeds_storeFrom? sink (p := []) (Nat.zero_add wr.width.maxDepth) h
      fun _ _ => EntityId.isUnder_iff.2 List.nil_prefix).bind fun root =>
        .pure (HashTrie.mk root wr.width)
    rw [List.append_nil] at hfeeds
    obtain ⟨trie, hrun⟩ := hfeeds s
    rw [value_write_eq h, writeTo?, hdisorder]
    refine ⟨_, hrun, ?_⟩
    rw [Layout.ofRows]
    cases wr.refused? (Layout.ofRowsAt wr.width wr.limit wr.width.maxDepth rows).values <;> rfl

/-- What the output of a write is, for every reason that a write may fail. -/
structure Explains (wr : Writer) (rows : List Fact) (out : Output) : Prop where
  malformed : (∃ text, out.trie = .error (.malformed text)) ↔ Fact.IsDisordered rows
  untouched : Fact.IsDisordered rows → out.pages = []
  exhausted : (∃ text, out.trie = .error (.exhausted text)) ↔ ¬ Fact.IsDisordered rows ∧
    wr.oversized = .reject ∧ ∃ e, wr.limit < (Fact.versions e rows).length
  named : (∃ text, out.trie = .error (.exhausted text)) → ∃ e,
    (wr.limit < (Fact.versions e rows).length ∧
      ∀ e', wr.limit < (Fact.versions e' rows).length → e ≤ e') ∧
    out.trie = .error (wr.refusalOf e (Fact.versions e rows).length) ∧
    ∃ trie pages p i, ({ wr with oversized := .allow }.write rows).value = ⟨pages, .ok trie⟩ ∧
      (p, i) ∈ trie.leaves ∧ pages[i]? = some ⟨Fact.versions e rows⟩ ∧
      (∀ l ∈ trie.leaves, l.1 < p ↔ l.2 < i) ∧ out.pages = pages.take i
  succeeds : ¬ Fact.IsDisordered rows →
    ¬ (wr.oversized = .reject ∧ ∃ e, wr.limit < (Fact.versions e rows).length) →
    ∃ trie, out.trie = .ok trie

theorem explains_of_disordered (h : Fact.IsDisordered rows) :
    wr.Explains rows (wr.write rows).value := by
  have hsome : Fact.firstDisorder? rows ≠ none := by
    intro hnone
    exact Fact.isDisordered_iff.1 h (Fact.firstDisorder?_eq_none_iff.1 hnone)
  obtain ⟨d, hd⟩ := Option.ne_none_iff_exists'.1 hsome
  have hvalue : (wr.write rows).value = ⟨[], .error (.malformed d.message)⟩ := by
    rw [write, hd]
    rfl
  rw [hvalue]
  constructor <;> simp [h]

theorem explains_of_ordered (h : Fact.IsOrdered rows) :
    wr.Explains rows (wr.write rows).value := by
  have hnot : ¬ Fact.IsDisordered rows := by rwa [Fact.isDisordered_iff, not_not]
  rw [value_write_eq h]
  cases hrefused : wr.refused? (Layout.ofRows wr.width wr.limit rows).values with
  | none =>
    have hover := not_over_of_refused? hrefused h
    constructor <;> simp_all
  | some error =>
    obtain ⟨hreject, e, p, i, hleast, rfl, hleaf, htaken⟩ := of_refused? h hrefused
    have hrefusal : wr.refusal (Fact.versions e rows) = wr.refusalOf e _ :=
      refusal_versions (List.ne_nil_of_length_pos (Nat.zero_lt_of_lt hleast.1))
    have hnumbered : (p, i) ∈ (wr.trieOf rows).leaves := Trie.mem_leaves_number.2 ⟨_, hleaf⟩
    rw [htaken, List.map_take]
    constructor
    · simp [hrefusal, refusalOf, hnot]
    · exact fun hdisordered => absurd hdisordered hnot
    · simp only [Option.elim_some, hrefusal, refusalOf, Except.error.injEq,
        Error.exhausted.injEq, exists_eq', true_iff]
      exact ⟨hnot, hreject, e, hleast.1⟩
    · intro _
      refine ⟨e, hleast, congrArg Except.error hrefusal, wr.trieOf rows, wr.pagesOf rows, p, i,
        value_write rfl h, hnumbered, ?_, fun l hl => ?_, rfl⟩
      · simp [pagesOf, Trie.values, hleaf]
      · exact (Layout.isRegular_ofRows rows).path_lt_iff hl hnumbered
    · intro _ hover
      exact absurd ⟨hreject, e, hleast.1⟩ hover

theorem explains_write (wr : Writer) (rows : List Fact) :
    wr.Explains rows (wr.write rows).value := by
  by_cases h : Fact.IsOrdered rows
  · exact explains_of_ordered h
  · exact explains_of_disordered (Fact.isDisordered_iff.2 h)

/-- A write under settings that are accepted fails for disordered facts, and has written nothing
then. Otherwise it fails if the settings refuse an entity with more facts than a leaf may hold; then
it names the least such entity, and the pages of the leaves before that of this entity are written.
Otherwise it succeeds. The same holds of a write into whatever sink takes all pages. -/
theorem write_explained {settings : Settings} (hcheck : settings.check = .ok w) (rows : List Fact) :
    ∃ wr, Writer.ofSettings settings = .ok wr ∧ wr.limit = settings.leafRowLimit ∧
      wr.oversized = settings.oversized ∧ wr.Explains rows (wr.write rows).value ∧
      ∀ (σ : Type) (sink : Page → σ → Nat × σ) (s : σ), ∃ result,
        (wr.writeTo? sink rows).run.run s =
          some (result, received sink s (wr.write rows).value.pages) ∧
        result.map (fun _ => ()) = (wr.write rows).value.trie.map fun _ => () := by
  refine ⟨⟨w, settings.leafRowLimit, settings.oversized⟩, ?_, rfl, rfl, explains_write _ rows,
    fun σ sink s => writeTo?_eq _ rows sink s⟩
  rw [ofSettings, hcheck]
  rfl

/-- One version of an entity and two of the next. -/
def overfull : List Fact :=
  [⟨.ofNat 1, 0, 9, 6, .delete⟩, ⟨.ofNat 2, 3, 7, 8, .delete⟩,
    ⟨.ofNat 2, .start, .never, 5, .delete⟩]

theorem write_explained_overfull :
    ∃ wr, Writer.ofSettings { leafRowLimit := 1, oversized := .reject } = .ok wr ∧ wr.limit = 1 ∧
      wr.oversized = .reject ∧ wr.Explains overfull (wr.write overfull).value ∧
      ∀ (σ : Type) (sink : Page → σ → Nat × σ) (s : σ), ∃ result,
        (wr.writeTo? sink overfull).run.run s =
          some (result, received sink s (wr.write overfull).value.pages) ∧
        result.map (fun _ => ()) = (wr.write overfull).value.trie.map fun _ => () :=
  write_explained
    (show Settings.check { leafRowLimit := 1, oversized := .reject } = .ok .two from rfl) overfull

/-- The page of the first entity is written before the second is refused. -/
example : (((Writer.mk .two 1 .reject).write overfull).value.pages.map fun page =>
    page.rows.map (·.entity)) = [[.ofNat 1]] := by decide +kernel

end Writer

end Bitemporal
