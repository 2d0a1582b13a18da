import Bitemporal.Page.Basic
import Bitemporal.Trie.Path

/-!
# The rows of a page under a path

A page may belong to a leaf above the path of a task, and then only some of its rows lie under that
path. Between ordered rows they are a range, whose ends are found by halving.

## Main definitions

* `boundary?`: the position from which on a condition fails.
* `Page.rangeUnder?`: the rows under a path.
-/

namespace Bitemporal

/-- The position in `[base, base + size]` from which on a condition fails, where it holds up to some
position and nowhere after it. The condition may have no answer, and then there is none. -/
def boundaryFrom? (condition : Nat → Option Bool) : Nat → Nat → Option Nat
  | base, 0 => some base
  | base, 1 => (condition base).map fun (isMet : Bool) => if isMet then base + 1 else base
  | base, size + 2 =>
    let half := (size + 2) / 2
    match condition (base + half) with
    | none => none
    | some true => boundaryFrom? condition (base + half) (size + 2 - half)
    | some false => boundaryFrom? condition base (size + 2 - half)
termination_by _ size => size

/-- The position from which on a condition fails, among the first `size`. -/
def boundary? (condition : Nat → Option Bool) (size : Nat) : Option Nat :=
  boundaryFrom? condition 0 size

/-- A range of rows. -/
structure RowRange where
  /-- The position of the first row. -/
  first : Nat
  /-- The position after the last row. -/
  past : Nat
deriving DecidableEq, Repr, Inhabited

namespace RowRange

/-- The number of rows. -/
def size (r : RowRange) : Nat := r.past - r.first

end RowRange

namespace Page

/-- Where the rows of a page stand to a path, by their positions. -/
def standing? (w : BucketWidth) (path : Path) (rows : Array Fact) (i : Nat) : Option Ordering :=
  rows[i]?.bind fun f => w.compare? f.entity path

/-- The rows under a path, unless the path goes on past the bits of an id. -/
def rangeUnder? (w : BucketWidth) (path : Path) (p : Page) : Option RowRange := do
  let rows := p.rows.toArray
  let first ← boundary? (fun i => (standing? w path rows i).map Ordering.isLT) rows.size
  let past ← boundary? (fun i => (standing? w path rows i).map Ordering.isLE) rows.size
  return ⟨first, past⟩

/-- The rows of a range with their positions. -/
def rowsIn (p : Page) (r : RowRange) : List (Nat × Fact) :=
  let rows := (p.rows.drop r.first).take r.size
  (List.range' r.first rows.length).zip rows

end Page

end Bitemporal
