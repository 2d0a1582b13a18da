import Mathlib
import Bitemporal.Store.Disk

/-!
# Files in a directory

A path to a plain name below a directory leads through the directory. Writing a file keeps every
directory and every other entry, so the ways that led somewhere still lead there.

## Main definitions

* `Disk.IsPlain`, `Disk.IsName`: a text that names an entry of a directory.
* `Disk.LeadsTo`: a path leads to a directory.
* `Disk.HasFile`: a directory has a file.

## Main statements

* `Disk.walk_congr`: a walk depends on the directories that it enters.
* `Disk.write_join_iff`: writing a file in a directory.
* `Disk.hasFile_write`, `Disk.HasFile.write`, `Disk.HasFile.rename`: a file after a change.
-/

namespace Bitemporal.Disk

variable {d d' : Disk} {l m : Location} {e : DiskEntry} {n n' directory : String} {c : Bytes}
  {ps : List String}

/-! ## Paths -/

/-- What stands between the slashes of a text, also where that is nothing. -/
def pieces (cs : List Char) : List (List Char) := (stretches cs).1 :: (stretches cs).2

theorem pieces_append (a b : List Char) : pieces (a ++ '/' :: b) = pieces a ++ pieces b := by
  induction a with
  | nil => simp [pieces, stretches]
  | cons x rest ih =>
    simp only [pieces, List.cons_append, stretches, List.cons.injEq] at ih ⊢
    split <;> simp [ih]

theorem parts_eq (path : String) :
    parts path = ((pieces path.toList).map String.ofList).filter (· ≠ "") := rfl

theorem parts_slash (a b : String) : parts (a ++ "/" ++ b) = parts a ++ parts b := by
  have hlist : (a ++ "/" ++ b).toList = a.toList ++ '/' :: b.toList := by simp
  rw [parts_eq, hlist, pieces_append, List.map_append, List.filter_append]
  rfl

/-- A path that does not leave the directory that it is joined to lists its parts behind those of
the directory. -/
theorem parts_join_of_relative (h : isAbsolute n = false) (directory : String) :
    parts (join directory n) = parts directory ++ parts n := by
  rw [join, h, if_neg (by simp)]
  split_ifs with hslash
  · rcases hslash with rfl | hslash
    · rw [String.empty_append]
      rfl
    · obtain ⟨front, hfront⟩ : ∃ front, directory.toList = front ++ ['/'] :=
        List.getLast?_eq_some_iff.1 (by simpa [endsInSlash] using hslash)
      have hdirectory : directory = String.ofList front ++ "/" ++ "" := by
        rw [← String.toList_inj, hfront]
        simp
      have hparts := parts_slash (String.ofList front) n
      have hempty : parts "" = [] := rfl
      rw [hdirectory, parts_slash, String.append_empty, hparts, hempty, List.append_nil]
  · rw [parts_slash]

theorem isAbsolute_join (h : isAbsolute n = false) (directory : String) :
    isAbsolute (join directory n) = isAbsolute directory := by
  rw [join, h, if_neg (by simp)]
  by_cases hempty : directory = ""
  · rw [if_pos (.inl hempty), hempty, String.empty_append, h]
    rfl
  · have hhead (rest : String) : isAbsolute (directory ++ rest) = isAbsolute directory := by
      have hne : directory.toList ≠ [] := by simpa using hempty
      simp only [isAbsolute, String.toList_append, List.head?_append_of_ne_nil _ hne]
    split_ifs
    · exact hhead n
    · rw [String.append_assoc, hhead]

theorem origin_join (h : isAbsolute n = false) (directory : String) :
    origin (join directory n) = origin directory := by
  rw [origin, isAbsolute_join h, origin]

/-- A text that is one part of a path and stands for itself. -/
structure IsPlain (n : String) : Prop where
  ne_empty : n ≠ ""
  noSlash : '/' ∉ n.toList
  notHere : n ≠ "."
  notAbove : n ≠ ".."

theorem pieces_eq_singleton {cs : List Char} (h : '/' ∉ cs) : pieces cs = [cs] := by
  induction cs with
  | nil => rfl
  | cons x rest ih =>
    obtain ⟨hx, hrest⟩ := not_or.1 (List.mem_cons.not.1 h)
    simp only [pieces, stretches, List.cons.injEq] at ih ⊢
    rw [if_neg (Ne.symm hx)]
    simpa using ih hrest

theorem IsPlain.parts (h : IsPlain n) : parts n = [n] := by
  rw [parts_eq, pieces_eq_singleton h.noSlash]
  simp [h.ne_empty]

theorem IsPlain.relative (h : IsPlain n) : isAbsolute n = false := by
  simpa [isAbsolute] using fun hhead => h.noSlash (List.mem_of_head? hhead)

theorem IsPlain.parts_join (h : IsPlain n) (directory : String) :
    Disk.parts (join directory n) = Disk.parts directory ++ [n] := by
  rw [parts_join_of_relative h.relative, h.parts]

theorem IsPlain.endsInSlash_join (h : IsPlain n) (directory : String) :
    endsInSlash (join directory n) = false := by
  have hentry : endsInSlash n = false := by
    simpa [endsInSlash] using fun hlast => h.noSlash (List.mem_of_getLast? hlast)
  have hlast (front : String) : endsInSlash (front ++ n) = false := by
    have hne : n.toList ≠ [] := by simpa using h.ne_empty
    rw [← hentry]
    simp only [endsInSlash, String.toList_append, List.getLast?_append_of_ne_nil _ hne]
  rw [join, h.relative, if_neg (by simp)]
  split_ifs
  · exact hlast directory
  · exact hlast _

/-- A plain text that is short enough to name an entry of a directory. -/
structure IsName (n : String) : Prop extends IsPlain n where
  short : n.utf8ByteSize ≤ nameLimit

theorem checkPath_eq_ok_iff {path : String} : checkPath path = .ok () ↔
    Char.ofNat 0 ∉ path.toList ∧ path ≠ "" ∧ path.utf8ByteSize < pathLimit := by
  unfold checkPath
  split_ifs <;> simp_all

/-- What stands before a relative path depends on the directory alone. -/
theorem exists_join_eq (directory : String) :
    ∃ front, ∀ n, isAbsolute n = false → join directory n = front ++ n := by
  by_cases hslash : directory = "" ∨ endsInSlash directory
  · exact ⟨directory, fun n hn => by rw [join, hn, if_neg (by simp), if_pos hslash]⟩
  · exact ⟨directory ++ "/", fun n hn => by rw [join, hn, if_neg (by simp), if_neg hslash]⟩

theorem IsPlain.join_ne_empty (h : IsPlain n) (directory : String) : join directory n ≠ "" := by
  obtain ⟨front, hfront⟩ := exists_join_eq directory
  simp [hfront n h.relative, h.ne_empty]

/-- A name can stand for a longer one in a path. -/
theorem IsPlain.checkPath_join (hn : IsPlain n) (hn' : IsPlain n')
    (hnul : Char.ofNat 0 ∉ n'.toList) (hsize : n'.utf8ByteSize ≤ n.utf8ByteSize)
    (h : checkPath (join directory n) = .ok ()) : checkPath (join directory n') = .ok () := by
  obtain ⟨front, hfront⟩ := exists_join_eq directory
  have hne := hn'.join_ne_empty directory
  rw [checkPath_eq_ok_iff, hfront n hn.relative] at h
  rw [hfront n' hn'.relative] at hne
  rw [checkPath_eq_ok_iff, hfront n' hn'.relative]
  simp only [String.toList_append, List.mem_append, not_or, String.utf8ByteSize_append] at h ⊢
  exact ⟨⟨h.1.1, hnul⟩, hne, by omega⟩

/-! ## Entries -/

theorem lookup_setEntry_of_ne (hm : m ≠ l) (d : Disk) (e : DiskEntry) :
    (d.setEntry l e).entries.lookup m = d.entries.lookup m := by
  have hne : (m == l) = false := by simpa using hm
  obtain ⟨entries⟩ := d
  rw [setEntry]
  split
  · dsimp only
    clear * - hne
    induction entries with
    | nil => rfl
    | cons x rest ih =>
      rw [List.map_cons, List.lookup_cons, List.lookup_cons, ih]
      split_ifs with hx
      · simp [hx, hne]
      · rfl
  · simp [List.lookup_append, List.lookup_cons, hne]

theorem lookup_setEntry_self (d : Disk) (l : Location) (e : DiskEntry) :
    (d.setEntry l e).entries.lookup l = some e := by
  obtain ⟨entries⟩ := d
  rw [setEntry]
  split
  · rename_i hany
    dsimp only at hany ⊢
    induction entries with
    | nil => simp at hany
    | cons x rest ih =>
      rw [List.map_cons, List.lookup_cons]
      split_ifs with hx
      · simp
      · have hne : (l == x.1) = false := by simpa using Ne.symm hx
        rw [hne]
        exact ih (by simpa [hx] using hany)
  · rename_i hany
    have hnone : entries.lookup l = none := by
      apply List.lookup_eq_none_iff.2
      intro x hx
      have hne : x.1 ≠ l := fun hl => hany (List.any_eq_true.2 ⟨x, hx, by simpa using hl⟩)
      simpa using hne.symm
    simp [List.lookup_append, hnone]

/-- Of two entries at a location the later one counts. -/
theorem setEntry_setEntry (d : Disk) (l : Location) (e e' : DiskEntry) :
    (d.setEntry l e).setEntry l e' = d.setEntry l e' := by
  obtain ⟨entries⟩ := d
  by_cases hany : ∃ x ∈ entries, x.1 = l
  · have hmap : (fun x : Location × DiskEntry => if x.1 = l then (l, e') else x) ∘
        (fun x => if x.1 = l then (l, e) else x) = fun x => if x.1 = l then (l, e') else x := by
      grind
    have hagain : ∃ x ∈ entries, (if x.1 = l then (l, e) else x).1 = l := by grind
    simp [setEntry, hany, hagain, hmap]
  · have hsame : (entries.map fun x => if x.1 = l then (l, e') else x) = entries.map id :=
      List.map_congr_left (by grind)
    simp [setEntry, hany, hsame]

theorem entry?_setEntry_of_ne (hm : m ≠ l) (d : Disk) (e : DiskEntry) :
    entry? (d.setEntry l e) m = d.entry? m := by
  unfold entry?
  rw [lookup_setEntry_of_ne hm]

theorem IsPlain.location (h : IsPlain n) (l : Location) :
    ¬ (isOutward (l ++ [n]) ∨ l ++ [n] = root) := by
  rintro (houtward | hroot)
  · have : n = ".." := by simpa using List.all_eq_true.1 houtward n (by simp)
    exact h.notAbove this
  · have hlast : some n = some "/" := by
      simpa [root] using congrArg List.getLast? hroot
    have hrelative := h.relative
    rw [Option.some_inj.1 hlast] at hrelative
    cases hrelative

theorem entry?_setEntry_self (h : IsName n) (d : Disk) (l : Location) (e : DiskEntry) :
    entry? (d.setEntry (l ++ [n]) e) (l ++ [n]) = some e := by
  unfold entry?
  rw [if_neg (h.location l), lookup_setEntry_self]

theorem entry?_dropEntry (h : ¬ l <+: m) (d : Disk) :
    entry? (d.dropEntry l) m = d.entry? m := by
  have hlookup : (d.dropEntry l).entries.lookup m = d.entries.lookup m := by
    rw [dropEntry]
    induction d.entries with
    | nil => rfl
    | cons x rest ih =>
      rw [List.filter_cons]
      split
      · rw [List.lookup_cons, List.lookup_cons, ih]
      · rename_i hx
        have hne : (m == x.1) = false := by
          simp only [List.isPrefixOf_iff_prefix, not_not, decide_eq_true_eq] at hx
          simpa using fun hm : m = x.1 => h (hm ▸ hx)
        rw [List.lookup_cons, hne, ih]
  unfold entry?
  rw [hlookup]

/-- Removing an entry brings up no file. -/
theorem file_of_dropEntry (h : entry? (d.dropEntry l) m = some (.file c)) :
    d.entry? m = some (.file c) := by
  by_cases hbelow : l <+: m
  · unfold entry? at h
    split at h
    · cases h
    obtain ⟨before, after, heq, -⟩ := List.lookup_eq_some_iff.1 h
    have hmem : (m, .file c) ∈ (d.dropEntry l).entries := by simp [heq]
    simp [dropEntry, hbelow] at hmem
  · rwa [entry?_dropEntry hbelow] at h

/-! ## Ways -/

theorem enter_eq_ok_iff : d.enter l n = .ok m ↔
    d.entry? l = some .directory ∧ n.utf8ByteSize ≤ nameLimit ∧ stepTo l n = m := by
  rw [enter]
  cases hl : d.entry? l with
  | none => simp
  | some e =>
    cases e with
    | file c => simp
    | directory =>
      by_cases hshort : nameLimit < n.utf8ByteSize
      · simp [hshort]
      · simp [hshort, not_lt.1 hshort]

theorem walk_cons_eq_ok_iff : d.walk l (n :: ps) = .ok m ↔
    d.entry? l = some .directory ∧ n.utf8ByteSize ≤ nameLimit ∧
      d.walk (stepTo l n) ps = .ok m := by
  rw [walk, List.foldlM_cons]
  show (d.enter l n).bind (d.walk · ps) = .ok m ↔ _
  cases hl : d.enter l n with
  | error f =>
    apply iff_of_false (by simp [Except.bind])
    intro h
    have := enter_eq_ok_iff.2 ⟨h.1, h.2.1, rfl⟩
    simp [hl] at this
  | ok k =>
    obtain ⟨hdirectory, hshort, rfl⟩ := enter_eq_ok_iff.1 hl
    simp [Except.bind, hdirectory, hshort]

/-- A walk depends on the directories that it enters. `P` holds of all locations on the way. -/
theorem walk_congr {P : Location → Prop}
    (hkeep : ∀ l, P l → d.entry? l = some .directory → d'.entry? l = some .directory)
    (hstep : ∀ l part, P l → d.entry? l = some .directory → P (stepTo l part))
    (hl : P l) (h : d.walk l ps = .ok m) : d'.walk l ps = .ok m ∧ P m := by
  induction ps generalizing l with
  | nil =>
    obtain rfl : l = m := Except.ok.inj h
    exact ⟨rfl, hl⟩
  | cons part rest ih =>
    obtain ⟨hdirectory, hshort, hrest⟩ := walk_cons_eq_ok_iff.1 h
    obtain ⟨hrest', hm⟩ := ih (hstep l part hl hdirectory) hrest
    exact ⟨walk_cons_eq_ok_iff.2 ⟨hkeep l hl hdirectory, hshort, hrest'⟩, hm⟩

/-- A path leads to a directory. -/
structure LeadsTo (d : Disk) (directory : String) (l : Location) : Prop where
  walk : d.walk (origin directory) (parts directory) = .ok l
  entry : d.entry? l = some .directory

theorem LeadsTo.unique (h : d.LeadsTo directory l) (h' : d.LeadsTo directory m) : l = m :=
  Except.ok.inj (h.walk.symm.trans h'.walk)

theorem LeadsTo.exists_iff (h : d.LeadsTo directory l) {P : Location → Prop} :
    (∃ k, d.LeadsTo directory k ∧ P k) ↔ P l := by
  constructor
  · rintro ⟨k, hk, hP⟩
    rwa [h.unique hk]
  · intro hP
    exact ⟨l, h, hP⟩

theorem walk_join_iff (hn : IsName n) :
    d.walk (origin (join directory n)) (parts (join directory n)) = .ok m ↔
      ∃ l, d.LeadsTo directory l ∧ l ++ [n] = m := by
  have hlast (l : Location) : d.walk l [n] = .ok m ↔
      d.entry? l = some .directory ∧ l ++ [n] = m := by
    have hstep : stepTo l n = l ++ [n] := by
      rw [stepTo, if_neg hn.notHere, if_pos hn.notAbove]
    rw [walk_cons_eq_ok_iff, hstep]
    have hnil : d.walk (l ++ [n]) [] = .ok (l ++ [n]) := rfl
    rw [hnil, Except.ok.injEq]
    exact and_congr_right fun _ => and_iff_right hn.short
  rw [origin_join hn.relative, hn.parts_join, walk, List.foldlM_append]
  show (d.walk (origin directory) (parts directory)).bind (d.walk · [n]) = .ok m ↔ _
  cases hwalk : d.walk (origin directory) (parts directory) with
  | error f =>
    apply iff_of_false (by simp [Except.bind])
    rintro ⟨l, hl, -⟩
    simp [hl.walk] at hwalk
  | ok k =>
    simp only [Except.bind, hlast]
    constructor
    · rintro ⟨hk, hm⟩
      exact ⟨k, ⟨hwalk, hk⟩, hm⟩
    · rintro ⟨l, hl, hm⟩
      obtain rfl : k = l := Except.ok.inj (hwalk.symm.trans hl.walk)
      exact ⟨hl.entry, hm⟩

theorem LeadsTo.locate_join (h : d.LeadsTo directory l) (hn : IsName n)
    (hcheck : checkPath (join directory n) = .ok ()) :
    d.locate (join directory n) = .ok (l ++ [n]) := by
  have hwalk := (walk_join_iff hn).2 ⟨l, h, rfl⟩
  simp only [locate, hcheck, hwalk, hn.endsInSlash_join, bind, Except.bind]
  split <;> rfl

/-- What a path to a name in a directory leads to. -/
theorem LeadsTo.find?_join (h : d.LeadsTo directory l) (hn : IsName n)
    (hcheck : checkPath (join directory n) = .ok ()) :
    d.find? (join directory n) = d.entry? (l ++ [n]) := by
  rw [find?, h.locate_join hn hcheck]

/-! ## Changes -/

/-- A file in a directory is written unless there is a directory of its name. -/
theorem write_join_iff (hn : IsName n) : d.write (join directory n) c = .ok d' ↔
    checkPath (join directory n) = .ok () ∧ ∃ l, d.LeadsTo directory l ∧
      d.entry? (l ++ [n]) ≠ some .directory ∧ d.setEntry (l ++ [n]) (.file c) = d' := by
  cases hcheck : checkPath (join directory n) with
  | error f => simp [write, hcheck, bind, Except.bind]
  | ok u =>
    cases hwalk : d.walk (origin (join directory n)) (parts (join directory n)) with
    | error f =>
      apply iff_of_false (by simp [write, hcheck, hwalk, bind, Except.bind])
      rintro ⟨-, l, hl, -⟩
      rw [(walk_join_iff hn).2 ⟨l, hl, rfl⟩] at hwalk
      cases hwalk
    | ok m =>
      obtain ⟨l, hl, rfl⟩ := (walk_join_iff hn).1 hwalk
      rw [hl.exists_iff]
      simp only [write, hcheck, hwalk, bind, Except.bind, hn.endsInSlash_join]
      cases hentry : d.entry? (l ++ [n]) with
      | none => simp [pure, Except.pure]
      | some e => cases e <;> simp [pure, Except.pure]

/-- A path where a file can be written, once the directories above are there. -/
structure Admits (d : Disk) (path : String) : Prop where
  valid : checkPath path = .ok ()
  free : d.find? path ≠ some .directory

/-- Writing a file changes no entry of another name, wherever that is. -/
theorem entry?_write_of_ne (hn : IsName n) (hne : n' ≠ n)
    (hwrite : d.write (join directory n) c = .ok d') :
    d'.entry? (l ++ [n']) = d.entry? (l ++ [n']) := by
  obtain ⟨-, k, -, -, rfl⟩ := (write_join_iff hn).1 hwrite
  exact entry?_setEntry_of_ne (by simp [hne]) d _

/-- A file is written unless there is a directory of its name. -/
theorem LeadsTo.exists_write_iff (h : d.LeadsTo directory l) (hn : IsName n) (c : Bytes) :
    (∃ d', d.write (join directory n) c = .ok d') ↔ d.Admits (join directory n) := by
  constructor
  · rintro ⟨d', hwrite⟩
    obtain ⟨hcheck, k, hk, hfree, -⟩ := (write_join_iff hn).1 hwrite
    exact ⟨hcheck, by rwa [hk.find?_join hn hcheck]⟩
  · rintro ⟨hcheck, hfree⟩
    rw [h.find?_join hn hcheck] at hfree
    exact ⟨_, (write_join_iff hn).2 ⟨hcheck, l, h, hfree, rfl⟩⟩

/-- A directory is where it was when another entry changes. -/
theorem LeadsTo.setEntry (h : d.LeadsTo directory l) (hm : d.entry? m ≠ some .directory) :
    (d.setEntry m e).LeadsTo directory l := by
  have hkeep (k : Location) (hk : d.entry? k = some .directory) :
      entry? (d.setEntry m e) k = some .directory := by
    rw [entry?_setEntry_of_ne (by rintro rfl; exact hm hk), hk]
  exact ⟨(walk_congr (P := fun _ => True) (fun k _ => hkeep k) (fun _ _ _ _ => trivial) trivial
    h.walk).1, hkeep l h.entry⟩

theorem LeadsTo.write {above : String} (h : d.LeadsTo directory l) (hn : IsName n)
    (hwrite : d.write (join above n) c = .ok d') : d'.LeadsTo directory l := by
  obtain ⟨-, k, -, hentry, rfl⟩ := (write_join_iff hn).1 hwrite
  exact h.setEntry hentry

/-- Of two contents that are written the later one counts. -/
theorem write_write {c' : Bytes} (hn : IsName n) (h : d.write (join directory n) c = .ok d') :
    d'.write (join directory n) c' = d.write (join directory n) c' := by
  obtain ⟨hcheck, l, hl, hfree, rfl⟩ := (write_join_iff hn).1 h
  have hnow : entry? (d.setEntry (l ++ [n]) (.file c)) (l ++ [n]) ≠ some .directory := by
    simp [entry?_setEntry_self hn]
  rw [(write_join_iff hn).2 ⟨hcheck, l, hl, hfree, rfl⟩,
    (write_join_iff hn).2 ⟨hcheck, l, hl.setEntry hfree, hnow, rfl⟩, setEntry_setEntry]

/-- Where else a file can be written stays when a file is written. -/
theorem LeadsTo.admits_write_iff (h : d.LeadsTo directory l) (hn : IsName n) (hn' : IsName n')
    (hne : n ≠ n') (hwrite : d.write (join directory n') c = .ok d') :
    d'.Admits (join directory n) ↔ d.Admits (join directory n) := by
  have hfind (hcheck : checkPath (join directory n) = .ok ()) :
      d'.find? (join directory n) = d.find? (join directory n) := by
    rw [(h.write hn' hwrite).find?_join hn hcheck, h.find?_join hn hcheck,
      entry?_write_of_ne hn' hne hwrite]
  exact ⟨fun ⟨hcheck, hfree⟩ => ⟨hcheck, hfind hcheck ▸ hfree⟩,
    fun ⟨hcheck, hfree⟩ => ⟨hcheck, (hfind hcheck).symm ▸ hfree⟩⟩

theorem stepTo_cases (l : Location) (part : String) :
    stepTo l part = l ++ [part] ∨ stepTo l part <+: l := by
  rw [stepTo]
  split_ifs with hhere hname hroot houtward
  · exact .inr (List.prefix_refl l)
  · exact .inl rfl
  · exact .inr (hroot ▸ List.prefix_refl l)
  · exact .inl rfl
  · exact .inr (List.dropLast_prefix l)

theorem entry?_nil (d : Disk) : d.entry? [] = some .directory := rfl

theorem entry?_origin (d : Disk) (path : String) : d.entry? (origin path) = some .directory := by
  unfold origin entry?
  split <;> simp [isOutward]

/-- A directory is where it was when a file goes: no way leads through a file. -/
theorem LeadsTo.dropEntry (h : d.LeadsTo directory l) (hfile : d.entry? m ≠ some .directory) :
    (d.dropEntry m).LeadsTo directory l := by
  -- on the way the file may be reached, but nothing below it
  let P (k : Location) : Prop := m <+: k → m = k
  have hnot (k : Location) (hk : P k) (hdirectory : d.entry? k = some .directory) : ¬ m <+: k := by
    intro hbelow
    rw [← hk hbelow] at hdirectory
    exact hfile hdirectory
  have horigin : P (origin directory) := by
    intro hbelow
    have hne : m ≠ [] := by
      rintro rfl
      exact hfile d.entry?_nil
    refine hbelow.eq_of_length_le ?_
    unfold origin root
    split
    · exact List.length_pos_iff.2 hne
    · simp
  have hstep (k : Location) (part : String) (hk : P k) (hdirectory : d.entry? k = some .directory) :
      P (stepTo k part) := by
    intro hbelow
    have hk := hnot k hk hdirectory
    rcases stepTo_cases k part with heq | hprefix
    · rw [heq] at hbelow ⊢
      exact (List.prefix_concat_iff.1 hbelow).resolve_right hk
    · exact absurd (hbelow.trans hprefix) hk
  have hkeep (k : Location) (hk : P k) (hdirectory : d.entry? k = some .directory) :
      entry? (d.dropEntry m) k = some .directory := by
    rw [entry?_dropEntry (hnot k hk hdirectory), hdirectory]
  obtain ⟨hwalk, hl⟩ := walk_congr hkeep hstep horigin h.walk
  exact ⟨hwalk, hkeep l hl h.entry⟩

/-! ## Files -/

/-- A directory has a file of this name and content. -/
def HasFile (d : Disk) (directory n : String) (c : Bytes) : Prop :=
  ∃ l, d.LeadsTo directory l ∧ d.entry? (l ++ [n]) = some (.file c)

theorem read_join_iff (hn : IsName n) : d.read (join directory n) = .ok c ↔
    checkPath (join directory n) = .ok () ∧ d.HasFile directory n c := by
  cases hcheck : checkPath (join directory n) with
  | error f => simp [read, openFile, locate, hcheck, bind, Except.bind]
  | ok u =>
    cases hwalk : d.walk (origin (join directory n)) (parts (join directory n)) with
    | error f =>
      apply iff_of_false (by simp [read, openFile, locate, hcheck, hwalk, bind, Except.bind])
      rintro ⟨-, l, hl, -⟩
      rw [(walk_join_iff hn).2 ⟨l, hl, rfl⟩] at hwalk
      cases hwalk
    | ok m =>
      obtain ⟨l, hl, rfl⟩ := (walk_join_iff hn).1 hwalk
      rw [HasFile, hl.exists_iff]
      simp only [read, openFile, hl.locate_join hn hcheck, bind, Except.bind]
      cases hentry : d.entry? (l ++ [n]) with
      | none => simp
      | some e => cases e <;> simp [pure, Except.pure]

theorem HasFile.openFile (h : d.HasFile directory n c) (hn : IsName n)
    (hcheck : checkPath (join directory n) = .ok ()) :
    d.openFile (join directory n) = .ok (some c) := by
  obtain ⟨l, hl, hfile⟩ := h
  simp only [Disk.openFile, hl.locate_join hn hcheck, bind, Except.bind, hfile]
  rfl

/-- A file has the content that was written. -/
theorem hasFile_write (hn : IsName n) (h : d.write (join directory n) c = .ok d') :
    d'.HasFile directory n c := by
  obtain ⟨-, l, hl, hentry, rfl⟩ := (write_join_iff hn).1 h
  exact ⟨l, hl.setEntry hentry, entry?_setEntry_self hn d l _⟩

/-- The content of a file can be replaced. -/
theorem HasFile.exists_write (h : d.HasFile directory n c) (hn : IsName n)
    (hcheck : checkPath (join directory n) = .ok ()) (c' : Bytes) :
    ∃ d', d.write (join directory n) c' = .ok d' := by
  obtain ⟨l, hl, hfile⟩ := h
  exact (hl.exists_write_iff hn c').2 ⟨hcheck, by simp [hl.find?_join hn hcheck, hfile]⟩

/-- A file stays as it is when another one is written beside it. -/
theorem HasFile.write {c' : Bytes} (h : d.HasFile directory n c) (hn : IsName n') (hne : n ≠ n')
    (hwrite : d.write (join directory n') c' = .ok d') : d'.HasFile directory n c := by
  obtain ⟨l, hl, hfile⟩ := h
  exact ⟨l, hl.write hn hwrite, by rw [entry?_write_of_ne hn hne hwrite, hfile]⟩

/-- A file stays as it is when another one beside it goes. -/
theorem HasFile.dropEntry {c' : Bytes} (h : d.HasFile directory n c) (hne : n ≠ n')
    (hl : d.LeadsTo directory l) (hfile' : d.entry? (l ++ [n']) = some (.file c')) :
    (d.dropEntry (l ++ [n'])).HasFile directory n c := by
  obtain ⟨k, hk, hfile⟩ := h
  obtain rfl := hl.unique hk
  refine ⟨l, hl.dropEntry (by simp [hfile']), ?_⟩
  have hapart : ¬ l ++ [n'] <+: l ++ [n] := by
    intro hprefix
    have heq := hprefix.eq_of_length_le (by simp)
    exact hne (by simpa using heq.symm)
  rw [entry?_dropEntry hapart, hfile]

/-- A file that moves is written under its new name and goes. -/
theorem of_rename {source target : String} (hsource : IsName source)
    (h : d.rename (join directory source) (join directory target) = .ok d') :
    ∃ content moved l, checkPath (join directory source) = .ok () ∧ d.LeadsTo directory l ∧
      d.entry? (l ++ [source]) = some (.file content) ∧
      d.write (join directory target) content = .ok moved ∧
      moved.dropEntry (l ++ [source]) = d' := by
  rw [Disk.rename] at h
  cases hread : d.read (join directory source) with
  | error f => simp [hread, bind, Except.bind] at h
  | ok content =>
    obtain ⟨hcheck, l, hl, hfile⟩ := (read_join_iff hsource).1 hread
    cases hwrite : d.write (join directory target) content with
    | error f => simp [hread, hwrite, bind, Except.bind] at h
    | ok moved =>
      simp only [hread, hwrite, hl.locate_join hsource hcheck, bind, Except.bind] at h
      exact ⟨content, moved, l, hcheck, hl, hfile, hwrite, Except.ok.inj h⟩

/-- A file stays as it is when another one beside it moves. -/
theorem HasFile.rename {source target : String} (h : d.HasFile directory n c)
    (hsource : IsName source) (htarget : IsName target) (hne : n ≠ source) (hne' : n ≠ target)
    (hapart : source ≠ target)
    (hrename : d.rename (join directory source) (join directory target) = .ok d') :
    d'.HasFile directory n c := by
  obtain ⟨content, moved, l, -, hl, hfile, hwrite, rfl⟩ := of_rename hsource hrename
  obtain ⟨k, hk, hentry⟩ := HasFile.write ⟨l, hl, hfile⟩ htarget hapart hwrite
  obtain rfl := hk.unique (hl.write htarget hwrite)
  exact (h.write htarget hne' hwrite).dropEntry hne hk hentry

/-- A file that moves keeps its content. -/
theorem hasFile_rename {source target : String} (h : d.HasFile directory source c)
    (hsource : IsName source) (htarget : IsName target) (hapart : source ≠ target)
    (hrename : d.rename (join directory source) (join directory target) = .ok d') :
    d'.HasFile directory target c := by
  obtain ⟨content, moved, l, -, hl, hfile, hwrite, rfl⟩ := of_rename hsource hrename
  obtain ⟨k, hk, hc⟩ := h
  obtain rfl := hk.unique hl
  obtain rfl : content = c := by simpa using hfile.symm.trans hc
  obtain ⟨m, hm, hentry⟩ := HasFile.write ⟨k, hk, hfile⟩ htarget hapart hwrite
  obtain rfl := hm.unique (hk.write htarget hwrite)
  exact (hasFile_write htarget hwrite).dropEntry hapart.symm hm hentry

/-- A file moves unless there is a directory of its new name. -/
theorem HasFile.exists_rename_iff {source target : String} (h : d.HasFile directory source c)
    (hsource : IsName source) (htarget : IsName target)
    (hcheck : checkPath (join directory source) = .ok ()) :
    (∃ d', d.rename (join directory source) (join directory target) = .ok d') ↔
      d.Admits (join directory target) := by
  obtain ⟨l, hl, -⟩ := id h
  rw [← hl.exists_write_iff htarget c]
  have hread := (read_join_iff hsource).2 ⟨hcheck, h⟩
  cases hwrite : d.write (join directory target) c with
  | error f => simp [Disk.rename, hread, hwrite, bind, Except.bind]
  | ok moved =>
    simp [Disk.rename, hread, hwrite, hl.locate_join hsource hcheck, bind, Except.bind, pure,
      Except.pure]

end Bitemporal.Disk
