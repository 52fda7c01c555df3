import Uplift.Text

namespace Uplift

inductive Segment where
  | fresh (text : Text)
  /-- A range of the text before the edit, kept with the edits nested in it. -/
  | reused (range : Range)
deriving DecidableEq, Repr, Inhabited

structure Edit where
  range : Range
  segments : List Segment := []
deriving DecidableEq, Repr, Inhabited

namespace Edit

def replacing (range : Range) : Edit := { range }

def text (e : Edit) (t : Text) : Edit :=
  if t.isEmpty then e else { e with segments := e.segments ++ [.fresh t] }

def string (e : Edit) (s : String) : Edit := e.text (Text.ofString s)

def reuse (e : Edit) (r : Range) : Edit :=
  if r.isEmpty then e else { e with segments := e.segments ++ [.reused r] }

def parenthesized (e : Edit) : Edit :=
  { e with segments := .fresh [40] :: (e.segments ++ [.fresh [41]]) }

def parenthesizedIf (e : Edit) (wrap : Bool) : Edit := if wrap then e.parenthesized else e

/--
Outer edits come before the edits nested in them: by start, and from one start the longest first.
-/
def precedes (a b : Edit) : Bool :=
  a.range.start < b.range.start || (a.range.start = b.range.start && b.range.stop < a.range.stop)

def insert (e : Edit) : List Edit → List Edit
  | [] => [e]
  | f :: rest => if f.precedes e then f :: insert e rest else e :: f :: rest

/-- The edits in order; edits of one range keep the order in which they were given. -/
def sorted (edits : List Edit) : List Edit := edits.foldr insert []

end Edit

end Uplift
