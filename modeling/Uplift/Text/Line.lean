import Uplift.Text

namespace Uplift

/--
The offsets at which the lines of a text start, in order. A text that ends in a newline has a last,
empty line.
-/
structure LineIndex where
  starts : Array Nat
deriving Repr, Inhabited

namespace LineIndex

def startsAfter (offset : Nat) : Text → List Nat
  | [] => []
  | b :: rest =>
    if b = Text.newline then (offset + 1) :: startsAfter (offset + 1) rest
    else startsAfter (offset + 1) rest

def ofText (t : Text) : LineIndex := ⟨(0 :: startsAfter 0 t).toArray⟩

def size (index : LineIndex) : Nat := index.starts.size

def isEmpty (index : LineIndex) : Bool := index.size = 0

/--
Where a search of increasing entries ends: at a place that holds what is looked for, or where it
could be inserted, as no place holds it.
-/
inductive Sought where
  | found (place : Nat)
  | absent (place : Nat)
deriving DecidableEq, Repr, Inhabited

def bisect (a : Array Nat) (x : Nat) : Nat → Nat → Nat → Sought
  | 0, lo, _ => .absent lo
  | fuel + 1, lo, hi =>
    if lo < hi then
      let mid := (lo + hi) / 2
      let entry := a[mid]?.getD 0
      if entry = x then .found mid
      else if entry < x then bisect a x fuel (mid + 1) hi
      else bisect a x fuel lo mid
    else .absent lo

def search (index : LineIndex) (offset : Nat) : Sought :=
  bisect index.starts offset index.size 0 index.size

/-- The line that holds `offset`, counted from 0; offsets past the end are on the last line. -/
def lineOf (index : LineIndex) (offset : Nat) : Nat :=
  match index.search offset with
  | .found line => line
  | .absent next => next - 1

def lineNumber (index : LineIndex) (offset : Nat) : Nat := index.lineOf offset + 1

end LineIndex

end Uplift
