import Uplift.Edit
import Uplift.Text.Line

namespace Uplift

inductive Piece where
  | kept (range : Range)
  | fresh (index : Nat) (text : Text)
deriving DecidableEq, Repr, Inhabited

structure Rendering where
  pieces : List Piece := []
  applied : List Nat := []
deriving DecidableEq, Repr, Inhabited

namespace Rendering

def append (a b : Rendering) : Rendering := ⟨a.pieces ++ b.pieces, a.applied ++ b.applied⟩

def keep (r : Range) : Rendering := ⟨if r.isEmpty then [] else [.kept r], []⟩

def segments (render : Range → Rendering) (index : Nat) : List Segment → Rendering
  | [] => {}
  | .fresh t :: rest => append ⟨[.fresh index t], []⟩ (segments render index rest)
  | .reused r :: rest => append (render r) (segments render index rest)

/--
Renders `range` from `cursor` on with the edits that remain, the first of which has place `index`.
An edit that starts before the cursor or ends beyond the range is passed over; so is one equal to
the range, unless the whole text is rendered.
-/
def sweep (render : Range → Rendering) (whole : Bool) (range : Range) (cursor index : Nat) :
    List Edit → Rendering
  | [] => keep ⟨cursor, range.stop⟩
  | e :: rest =>
    if e.range.start < cursor || range.stop < e.range.stop || (!whole && e.range = range) then
      sweep render whole range cursor (index + 1) rest
    else
      append (keep ⟨cursor, e.range.start⟩)
        (append ⟨[], [index]⟩
          (append (segments render index e.segments)
            (sweep render whole range e.range.stop (index + 1) rest)))

def reused (edits : List Edit) : Nat → Range → Rendering
  | 0, _ => {}
  | depth + 1, range => sweep (reused edits depth) false range range.start 0 edits

/-- Renders a whole text of `length` bytes. Edits nest at most as deep as there are edits. -/
def whole (edits : List Edit) (length : Nat) : Rendering :=
  sweep (reused edits edits.length) true ⟨0, length⟩ 0 0 edits

def cuts (r : Rendering) : List Nat :=
  r.pieces.flatMap fun
    | .kept range => [range.start, range.stop]
    | .fresh _ _ => []

end Rendering

/-- A text with the line of the first text that each of its lines came from, counted from 1. -/
structure Document where
  text : Text
  lines : LineIndex
  origins : Array Nat
deriving Repr, Inhabited

namespace Document

def ofText (t : Text) : Document :=
  let lines := LineIndex.ofText t
  ⟨t, lines, (List.range' 1 lines.size).toArray⟩

def originAt (d : Document) (offset : Nat) : Nat := d.origins[d.lines.lineOf offset]?.getD 0

def bytes (d : Document) : Piece → Text
  | .kept r => d.text.slice r
  | .fresh _ t => t

def keptOrigins (d : Document) (offset : Nat) : Text → List Nat
  | [] => []
  | b :: rest =>
    if b = Text.newline then d.originAt (offset + 1) :: keptOrigins d (offset + 1) rest
    else keptOrigins d (offset + 1) rest

/--
The origins of the lines that start inside a piece: fresh lines come from where their edit starts.
-/
def origins? (d : Document) (edits : List Edit) : Piece → List Nat
  | .kept r => d.keptOrigins r.start (d.text.slice r)
  | .fresh i t =>
    List.replicate (t.count Text.newline) (d.originAt ((edits[i]?.map (·.range.start)).getD 0))

def appliedLines (d : Document) (applied : List Nat) (index : Nat) : List Edit → List Nat
  | [] => []
  | e :: rest =>
    if applied.contains index then d.originAt e.range.start ::
      appliedLines d applied (index + 1) rest
    else appliedLines d applied (index + 1) rest

def revise (d : Document) (edits : List Edit) : Document × List Nat :=
  let out := Rendering.whole edits d.text.length
  let text := out.pieces.flatMap d.bytes
  let origins := d.origins[0]?.getD 0 :: out.pieces.flatMap (d.origins? edits)
  (⟨text, LineIndex.ofText text, origins.toArray⟩, d.appliedLines out.applied 0 edits)

/-- Applies edits of one text; answers with the origin of each edit that took effect, in order. -/
def apply (d : Document) (edits : List Edit) : Document × List Nat :=
  if edits.isEmpty then (d, []) else d.revise (Edit.sorted edits)

def cuts (d : Document) (edits : List Edit) : List Nat :=
  if edits.isEmpty then [] else (Rendering.whole (Edit.sorted edits) d.text.length).cuts

/-- Applies edits, unless a character would be cut. -/
def applyCleanly (d : Document) (edits : List Edit) : Option (Document × List Nat) :=
  if d.text.cutsCleanly (d.cuts edits) then some (d.apply edits) else none

end Document

end Uplift
