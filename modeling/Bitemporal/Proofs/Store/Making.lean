import Mathlib
import Bitemporal.Proofs.Store.Disk

/-!
# Making directories

Making a directory and the missing ones above it adds directories where nothing was, and nothing
else. Doing it again changes nothing: a success has nothing left to do, and a fault comes again.

## Main definitions

* `Disk.Grows`: what is new is a directory.
* `Disk.HasWay`: parts lead to a directory.

## Main statements

* `Disk.grows_makeAll`: what is made.
* `Disk.LeadsTo.makeAll`, `Disk.makeAll_of_error`: doing it again.
-/

namespace Bitemporal.Disk

variable {d d' d'' : Disk} {l start : Location} {e : DiskEntry} {directory path n : String}
  {c : Bytes} {ps : List String} {f : DiskFault}

/-! ## Growth -/

/-- All entries stay, and what is new is a directory. -/
def Grows (d d' : Disk) : Prop :=
  ∀ l, d'.entry? l = d.entry? l ∨ d.entry? l = none ∧ d'.entry? l = some .directory

theorem Grows.refl (d : Disk) : d.Grows d := fun _ => .inl rfl

theorem Grows.trans (h : d.Grows d') (h' : d'.Grows d'') : d.Grows d'' := by
  intro l
  have := h l
  have := h' l
  grind

theorem Grows.entry (h : d.Grows d') (hl : d.entry? l = some e) : d'.entry? l = some e := by
  have := h l
  grind

theorem Grows.file (h : d.Grows d') (hl : d'.entry? l = some (.file c)) :
    d.entry? l = some (.file c) := by
  have := h l
  grind

theorem walk_grows (h : d.Grows d') (hwalk : d.walk start ps = .ok l) :
    d'.walk start ps = .ok l :=
  (walk_congr (P := fun _ => True) (fun _ _ => h.entry) (fun _ _ _ _ => trivial) trivial
    hwalk).1

theorem LeadsTo.grows (h : d.LeadsTo directory l) (hgrows : d.Grows d') : d'.LeadsTo directory l :=
  ⟨walk_grows hgrows h.walk, hgrows.entry h.entry⟩

theorem entry?_setEntry_of_none (h : d.entry? l = none) (e : DiskEntry) :
    entry? (d.setEntry l e) l = some e := by
  unfold entry? at h ⊢
  split at h
  · cases h
  · rename_i hinner
    rw [if_neg hinner, lookup_setEntry_self]

theorem grows_setEntry (h : d.entry? l = none) : d.Grows (d.setEntry l .directory) := by
  intro m
  by_cases hm : m = l
  · exact .inr ⟨hm ▸ h, hm ▸ entry?_setEntry_of_none h _⟩
  · exact .inl (entry?_setEntry_of_ne hm d _)

/-! ## Ways -/

/-- Parts lead from a location to a directory. -/
def HasWay (d : Disk) (start : Location) (ps : List String) : Prop :=
  ∃ l, d.walk start ps = .ok l ∧ d.entry? l = some .directory

theorem hasWay_iff : d.HasWay (origin path) (parts path) ↔ ∃ l, d.LeadsTo path l :=
  ⟨fun ⟨l, hwalk, hl⟩ => ⟨l, hwalk, hl⟩, fun ⟨l, h⟩ => ⟨l, h.walk, h.entry⟩⟩

theorem walk_append_eq_ok_iff {qs : List String} : d.walk start (ps ++ qs) = .ok l ↔
    ∃ k, d.walk start ps = .ok k ∧ d.walk k qs = .ok l := by
  rw [walk, List.foldlM_append]
  show (d.walk start ps).bind (d.walk · qs) = .ok l ↔ _
  cases d.walk start ps <;> simp [Except.bind]

/-- A way leads through directories. -/
theorem hasWay_of_walk {qs : List String} (h : d.walk start (ps ++ n :: qs) = .ok l) :
    d.HasWay start ps := by
  obtain ⟨k, hk, hqs⟩ := walk_append_eq_ok_iff.1 h
  exact ⟨k, hk, (walk_cons_eq_ok_iff.1 hqs).1⟩

theorem HasWay.of_append {qs : List String} (h : d.HasWay start (ps ++ qs)) :
    d.HasWay start ps := by
  cases qs with
  | nil => rwa [List.append_nil] at h
  | cons n rest =>
    obtain ⟨l, hwalk, -⟩ := h
    exact hasWay_of_walk hwalk

/-- A relative path leads through the directory that it is joined to. -/
theorem LeadsTo.above (h : d.LeadsTo (join directory n) l) (hn : isAbsolute n = false) :
    ∃ k, d.LeadsTo directory k := by
  have hway := hasWay_iff.2 ⟨l, h⟩
  rw [origin_join hn, parts_join_of_relative hn] at hway
  exact hasWay_iff.1 hway.of_append

/-- A plain name leads to the entry of this name. -/
theorem LeadsTo.of_join (h : d.LeadsTo (join directory n) l) (hn : IsPlain n) :
    IsName n ∧ ∃ k, d.LeadsTo directory k ∧ k ++ [n] = l := by
  have hwalk := h.walk
  rw [origin_join hn.relative, hn.parts_join, walk_append_eq_ok_iff] at hwalk
  obtain ⟨k, hk, hlast⟩ := hwalk
  obtain ⟨hdirectory, hshort, hstep⟩ := walk_cons_eq_ok_iff.1 hlast
  rw [stepTo, if_neg hn.notHere, if_pos hn.notAbove] at hstep
  exact ⟨⟨hn, hshort⟩, k, ⟨hk, hdirectory⟩, Except.ok.inj hstep⟩

/-! ## One directory -/

theorem make_eq_ok_iff : d.make start ps = .ok d' ↔
    ∃ l, d.walk start ps = .ok l ∧ d.entry? l = none ∧ d.setEntry l .directory = d' := by
  unfold make
  cases d.walk start ps with
  | error f => simp [bind, Except.bind]
  | ok l => cases hl : d.entry? l <;> simp [bind, Except.bind, pure, Except.pure, hl]

/-- A directory that is there is not made. -/
theorem HasWay.make (h : d.HasWay start ps) : d.make start ps = .error .alreadyExists := by
  obtain ⟨l, hwalk, hl⟩ := h
  simp [Disk.make, hwalk, hl, bind, Except.bind]

theorem HasWay.ensure (h : d.HasWay start ps) : d.ensure start ps = .ok d := by
  have hmake := h.make
  obtain ⟨l, hwalk, hl⟩ := h
  simp [Disk.ensure, hmake, hwalk, hl, Except.map]

/-- A directory is ensured by making it, or it is there. -/
theorem of_ensure (h : d.ensure start ps = .ok d') :
    d.make start ps = .ok d' ∨ d.HasWay start ps ∧ d' = d := by
  unfold ensure at h
  split at h
  · rename_i hwalk
    right
    cases hl : d.walk start ps with
    | error f => simp [hl, Except.map] at hwalk
    | ok l =>
      simp only [hl, Except.map, Except.ok.injEq] at hwalk
      exact ⟨⟨l, hl, hwalk⟩, (Except.ok.inj h).symm⟩
  · exact .inl h

theorem grows_ensure (h : d.ensure start ps = .ok d') : d.Grows d' ∧ d'.HasWay start ps := by
  rcases of_ensure h with hmake | ⟨hway, rfl⟩
  · obtain ⟨l, hwalk, hl, rfl⟩ := make_eq_ok_iff.1 hmake
    have hgrows := grows_setEntry hl
    exact ⟨hgrows, l, walk_grows hgrows hwalk, entry?_setEntry_of_none hl _⟩
  · exact ⟨.refl _, hway⟩

/-- A directory is only ensured in one that is there. -/
theorem hasWay_of_ensure (h : d.ensure start (ps ++ [n]) = .ok d') : d.HasWay start ps := by
  rcases of_ensure h with hmake | ⟨hway, -⟩
  · obtain ⟨l, hwalk, -⟩ := make_eq_ok_iff.1 hmake
    exact hasWay_of_walk hwalk
  · exact hway.of_append

/-! ## A directory with those above it -/

theorem grows_settle {result : Except DiskFault Disk}
    (h : ∀ d', result = .ok d' → d.Grows d') : d.Grows (d.settle result).2 := by
  cases result with
  | error f => exact .refl d
  | ok d' => exact h d' rfl

theorem settle_eq_ok_iff {result : Except DiskFault Disk} :
    d.settle result = (.ok (), d') ↔ result = .ok d' := by
  cases result <;> simp [settle]

theorem settle_eq_error_iff {result : Except DiskFault Disk} :
    d.settle result = (.error f, d') ↔ result = .error f ∧ d' = d := by
  cases result <;> simp [settle, eq_comm]

variable {name : String} {above : List String}

/-- The directory at the end of a way is ensured at once, or once the one above it is made, or what
stops that stops it. -/
theorem makeWay_cons (d : Disk) (start : Location) (name : String) (above : List String) :
    d.makeWay start (name :: above) = d.settle (d.ensure start (name :: above).reverse) ∨
    d.make start (name :: above).reverse = .error .notFound ∧
      ((∃ d', d.makeWay start above = (.ok (), d') ∧
        d.makeWay start (name :: above) = d'.settle (d'.ensure start (name :: above).reverse)) ∨
      ∃ f d', d.makeWay start above = (.error f, d') ∧
        d.makeWay start (name :: above) = (.error f, d')) := by
  by_cases hmake : d.make start (name :: above).reverse = .error .notFound
  · refine .inr ⟨hmake, ?_⟩
    rw [makeWay]
    simp only [hmake]
    cases habove : d.makeWay start above with
    | mk result d' =>
      cases result with
      | error f => exact .inr ⟨f, d', rfl, rfl⟩
      | ok u => exact .inl ⟨d', rfl, rfl⟩
  · left
    rw [makeWay]
    split
    · contradiction
    · rfl

theorem grows_makeWay (d : Disk) (start : Location) (way : List String) :
    d.Grows (d.makeWay start way).2 := by
  induction way generalizing d with
  | nil => exact .refl d
  | cons name above ih =>
    have hensure (d : Disk) : d.Grows (d.settle (d.ensure start (name :: above).reverse)).2 :=
      grows_settle fun _ h => (grows_ensure h).1
    have habove := ih d
    rcases makeWay_cons d start name above with
      heq | ⟨-, ⟨d', hmade, heq⟩ | ⟨f, d', hmade, heq⟩⟩ <;> rw [heq]
    · exact hensure d
    · rw [hmade] at habove
      exact habove.trans (hensure d')
    · rwa [hmade] at habove

/-- A way that is made is there. -/
theorem hasWay_of_makeWay {way : List String} (hstart : d.entry? start = some .directory)
    (h : d.makeWay start way = (.ok (), d')) : d'.HasWay start way.reverse := by
  cases way with
  | nil =>
    obtain rfl := congrArg Prod.snd h
    exact ⟨start, rfl, hstart⟩
  | cons name above =>
    rcases makeWay_cons d start name above with
      heq | ⟨-, ⟨d₁, -, heq⟩ | ⟨f, d₁, -, heq⟩⟩ <;> rw [heq] at h
    · exact (grows_ensure (settle_eq_ok_iff.1 h)).2
    · exact (grows_ensure (settle_eq_ok_iff.1 h)).2
    · cases h

/-- A way that is there is not made. -/
theorem HasWay.makeWay {way : List String} (h : d.HasWay start way.reverse) :
    d.makeWay start way = (.ok (), d) := by
  cases way with
  | nil => rfl
  | cons name above =>
    rcases makeWay_cons d start name above with heq | ⟨hmake, -⟩
    · rw [heq, h.ensure]
      rfl
    · rw [h.make] at hmake
      cases hmake

/-- A way that was not made is not made the next time either, from what was left. -/
theorem makeWay_of_error {way : List String} (hstart : d.entry? start = some .directory)
    (h : d.makeWay start way = (.error f, d')) : ∃ f', d'.makeWay start way = (.error f', d') := by
  induction way generalizing f with
  | nil => cases h
  | cons name above ih =>
    rcases makeWay_cons d start name above with
      heq | ⟨-, ⟨d₁, hmade, heq⟩ | ⟨f₁, d₁, hmade, heq⟩⟩
    · -- nothing was made
      obtain ⟨-, rfl⟩ := settle_eq_error_iff.1 (heq.symm.trans h)
      exact ⟨f, h⟩
    · -- all above was made, and is not what is missing
      obtain ⟨hensure, rfl⟩ := settle_eq_error_iff.1 (heq.symm.trans h)
      have habove := (hasWay_of_makeWay hstart hmade).makeWay
      refine ⟨f, ?_⟩
      rcases makeWay_cons d' start name above with
        heq | ⟨-, ⟨d₂, hagain, heq⟩ | ⟨f₂, d₂, hagain, -⟩⟩
      · rw [heq, hensure]
        rfl
      · obtain ⟨-, rfl⟩ := Prod.mk.inj (habove.symm.trans hagain)
        rw [heq, hensure]
        rfl
      · cases habove.symm.trans hagain
    · -- what stopped above stops above again, so there is no way to go on from there
      obtain ⟨rfl, rfl⟩ : f₁ = f ∧ d₁ = d' := by simpa using heq.symm.trans h
      obtain ⟨f', hf'⟩ := ih hmade
      have hway : ¬ d₁.HasWay start above.reverse := by
        intro hway
        cases hway.makeWay.symm.trans hf'
      rcases makeWay_cons d₁ start name above with
        heq | ⟨-, ⟨d₂, hagain, -⟩ | ⟨f₂, d₂, hagain, heq⟩⟩
      · cases hensure : d₁.ensure start (name :: above).reverse with
        | error f₂ => exact ⟨f₂, by rw [heq, hensure]; rfl⟩
        | ok d₂ =>
          rw [List.reverse_cons] at hensure
          exact absurd (hasWay_of_ensure hensure) hway
      · cases hf'.symm.trans hagain
      · obtain ⟨-, rfl⟩ := Prod.mk.inj (hf'.symm.trans hagain)
        exact ⟨f₂, heq⟩

/-! ## The directory of a path -/

theorem grows_makeAll (d : Disk) (path : String) : d.Grows (d.makeAll path).2 := by
  have hensure (d : Disk) : d.Grows (d.settle (d.ensure (origin path) (parts path))).2 :=
    grows_settle fun _ h => (grows_ensure h).1
  unfold makeAll
  split
  · exact .refl d
  extract_lets start
  split
  · exact .refl d
  · have habove := grows_makeWay d start (components path).dropLast.reverse
    split
    · rename_i d' hmade
      rw [hmade] at habove
      exact habove.trans (hensure d')
    · exact habove
  · exact hensure d

/-- A directory that is made is there. -/
theorem leadsTo_of_makeAll (h : d.makeAll path = (.ok (), d')) : ∃ l, d'.LeadsTo path l := by
  have hensure {d : Disk} (h : d.settle (d.ensure (origin path) (parts path)) = (.ok (), d')) :
      ∃ l, d'.LeadsTo path l :=
    hasWay_iff.1 (grows_ensure (settle_eq_ok_iff.1 h)).2
  unfold makeAll at h
  split at h
  · rename_i hempty
    rw [hempty]
    exact ⟨[], rfl, rfl⟩
  extract_lets start at h
  split at h
  · cases h
  · split at h
    · exact hensure h
    · rename_i hstopped
      exact absurd h (hstopped d')
  · exact hensure h

theorem checkPath_of_makeAll (h : d.makeAll path = (.ok (), d')) :
    path = "" ∨ checkPath path = .ok () := by
  unfold makeAll at h
  split at h
  · rename_i hempty
    exact .inl hempty
  · right
    cases hcheck : checkPath path with
    | error f => simp [hcheck] at h
    | ok u => rfl

/-- A directory that is there is not made. -/
theorem LeadsTo.makeAll (h : d.LeadsTo path l) (hcheck : path = "" ∨ checkPath path = .ok ()) :
    d.makeAll path = (.ok (), d) := by
  have hway := hasWay_iff.2 ⟨l, h⟩
  unfold Disk.makeAll
  split
  · rfl
  · rename_i hne
    simp only [hcheck.resolve_left hne, hway.make, hway.ensure]
    rfl

/-- A dot on the way stands for the directory that it is in. -/
theorem walk_dot (hne : ps ≠ []) : d.walk l ("." :: ps) = d.walk l ps := by
  obtain ⟨part, rest, rfl⟩ := List.exists_cons_of_ne_nil hne
  have hdot : nameLimit < (".").utf8ByteSize ↔ False := by decide
  simp only [walk, List.foldlM_cons, enter, hdot, stepTo, if_true, if_false]
  cases hl : d.entry? l with
  | none => rfl
  | some e => cases e <;> simp [bind, Except.bind, hl]

theorem walk_filter (d : Disk) (l : Location) (ps : List String) (n : String) :
    d.walk l (ps.filter (· ≠ ".") ++ [n]) = d.walk l (ps ++ [n]) := by
  induction ps generalizing l with
  | nil => rfl
  | cons part rest ih =>
    by_cases hdot : part = "."
    · rw [List.filter_cons_of_neg (by simpa using hdot), ih, hdot, List.cons_append,
        walk_dot (by simp)]
    · rw [List.filter_cons_of_pos (by simpa using hdot), List.cons_append, List.cons_append]
      simp only [walk, List.foldlM_cons] at ih ⊢
      exact bind_congr ih

theorem walk_components (d : Disk) (l : Location) (path n : String) :
    d.walk l (components path ++ [n]) = d.walk l (parts path ++ [n]) := by
  unfold components
  split
  · rename_i hparts
    rw [hparts]
  · rename_i first rest hparts
    rw [hparts]
    extract_lets named
    split
    · rename_i hdot
      rw [walk_filter, hdot.1, List.cons_append, walk_dot (by simp)]
    · simp only [walk, List.cons_append, List.foldlM_cons]
      exact bind_congr fun k => walk_filter d k rest n

theorem dropLast_components_join (h : IsPlain n) (directory : String) :
    (components (join directory n)).dropLast = components directory := by
  unfold components
  rw [h.parts_join, isAbsolute_join h.relative]
  cases parts directory with
  | nil => simp [h.notHere]
  | cons first rest =>
    have hkept : [n].filter (· ≠ ".") = [n] := by simp [h.notHere]
    simp only [List.cons_append, List.filter_append, hkept]
    split
    · rw [List.dropLast_concat]
    · rw [← List.cons_append, List.dropLast_concat]

theorem makeAll_of_checkPath (hne : path ≠ "") (hcheck : checkPath path = .error f) :
    d.makeAll path = (.error f, d) := by
  unfold makeAll
  rw [if_neg hne]
  simp only [hcheck]

/-- A directory below another is made along the way to it. -/
theorem makeAll_join (hn : IsPlain n) (hcheck : checkPath (join directory n) = .ok ()) :
    d.makeAll (join directory n) =
      d.makeWay (origin directory) (n :: (components directory).reverse) := by
  have hwalk (d : Disk) (l : Location) :
      d.walk l (n :: (components directory).reverse).reverse =
        d.walk l (parts directory ++ [n]) := by
    rw [List.reverse_cons, List.reverse_reverse, walk_components]
  have hmake (d : Disk) (l : Location) :
      d.make l (n :: (components directory).reverse).reverse =
        d.make l (parts directory ++ [n]) := by
    unfold make
    rw [hwalk]
  have hensure (d : Disk) (l : Location) :
      d.ensure l (n :: (components directory).reverse).reverse =
        d.ensure l (parts directory ++ [n]) := by
    unfold ensure
    rw [hmake, hwalk]
  rw [makeAll, if_neg (hn.join_ne_empty directory), makeWay]
  simp only [hcheck, hn.parts_join, origin_join hn.relative, dropLast_components_join hn, hmake,
    hensure]
  cases d.make (origin directory) (parts directory ++ [n]) with
  | error f => cases f <;> rfl
  | ok d' => rfl

/-- A directory that was not made is not made the next time either, from what was left. -/
theorem makeAll_of_error (hn : IsPlain n) (h : d.makeAll (join directory n) = (.error f, d')) :
    ∃ f', d'.makeAll (join directory n) = (.error f', d') := by
  cases hcheck : checkPath (join directory n) with
  | error f' => exact ⟨f', makeAll_of_checkPath (hn.join_ne_empty directory) hcheck⟩
  | ok u =>
    rw [makeAll_join hn hcheck] at h ⊢
    exact makeWay_of_error (d.entry?_origin directory) h

end Bitemporal.Disk
