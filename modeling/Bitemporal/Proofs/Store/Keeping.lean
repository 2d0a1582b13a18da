import Mathlib
import Bitemporal.Proofs.Store.Making

/-!
# What a change leaves alone

Writing, moving and making keep every way: a path that led to a directory leads to it still. What
else is left alone is said of locations.

## Main definitions

* `Disk.Keeps`: all ways lead where they led, and some entries stay as they are.

## Main statements

* `Disk.Keeps.read`: what is read does not change.
-/

namespace Bitemporal.Disk

variable {d d' d'' : Disk} {l : Location} {directory n : String} {c : Bytes} {P : Location → Prop}

/-- All ways lead where they led, and what is at locations of a kind is there still. -/
structure Keeps (P : Location → Prop) (d d' : Disk) : Prop where
  leadsTo : ∀ {directory l}, d.LeadsTo directory l → d'.LeadsTo directory l
  entry : ∀ {l e}, P l → d.entry? l = some e → d'.entry? l = some e

namespace Keeps

theorem refl (P : Location → Prop) (d : Disk) : Keeps P d d := ⟨id, fun _ => id⟩

theorem trans (h : Keeps P d d') (h' : Keeps P d' d'') : Keeps P d d'' :=
  ⟨fun hl => h'.leadsTo (h.leadsTo hl), fun hl he => h'.entry hl (h.entry hl he)⟩

/-- A file reads as it did. -/
theorem read (h : Keeps P d d') (hn : IsName n) (hP : ∀ l, d.LeadsTo directory l → P (l ++ [n]))
    (hread : d.read (join directory n) = .ok c) : d'.read (join directory n) = .ok c := by
  obtain ⟨hcheck, l, hl, hfile⟩ := (read_join_iff hn).1 hread
  exact (read_join_iff hn).2 ⟨hcheck, l, h.leadsTo hl, h.entry (hP l hl) hfile⟩

end Keeps

theorem Grows.keeps (h : d.Grows d') (P : Location → Prop) : Keeps P d d' :=
  ⟨fun hl => hl.grows h, fun _ => h.entry⟩

/-- Writing a file changes no other location. -/
theorem LeadsTo.keeps_write (h : d.LeadsTo directory l) (hn : IsName n) (hP : ¬ P (l ++ [n]))
    (hwrite : d.write (join directory n) c = .ok d') : Keeps P d d' := by
  refine ⟨fun hl => hl.write hn hwrite, fun {m e} hm he => ?_⟩
  obtain ⟨-, k, hk, -, rfl⟩ := (write_join_iff hn).1 hwrite
  obtain rfl := h.unique hk
  rw [entry?_setEntry_of_ne (by rintro rfl; exact hP hm), he]

/-- Moving a file keeps every way. -/
theorem LeadsTo.rename {above source target : String} (h : d.LeadsTo directory l)
    (hsource : IsName source) (htarget : IsName target) (hapart : source ≠ target)
    (hrename : d.rename (join above source) (join above target) = .ok d') :
    d'.LeadsTo directory l := by
  obtain ⟨content, moved, k, -, hk, hfile, hwrite, rfl⟩ := of_rename hsource hrename
  obtain ⟨m, hm, hentry⟩ := HasFile.write ⟨k, hk, hfile⟩ htarget hapart hwrite
  obtain rfl := hm.unique (hk.write htarget hwrite)
  exact (h.write htarget hwrite).dropEntry (by simp [hentry])

end Bitemporal.Disk
