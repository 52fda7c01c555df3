import Uplift.Program
import Uplift.Shape
import Uplift.Slot

namespace Uplift.ArrayFromSpread

/-- The start of a copy that is only made to call a function on each item. -/
def chained? (n : Node) : Option Nat := do
  let (receiver, name, _) ← n.methodCall?
  let _ ← receiver.bare.staticCall? "Array" "from"
  if name = "forEach" then some receiver.bare.span.start else none

def bare? (chained : List Nat) (n : Node) : Option Edit := do
  let iterable ← (← n.staticCall? "Array" "from").soleArgument?
  if chained.contains n.span.start || iterable.isObject then none
  else some ((((Edit.replacing n.span).string "[...").reuse iterable.span).string "]")

def edit? (p : Program) (chained : List Nat) (n : Node) : Option Edit :=
  (bare? chained n).bind (Slot.fit p.text none)

/-- A copy of an iterable by `Array.from` becomes an array with a spread. -/
def edits (p : Program) : List Edit :=
  let nodes := p.tree.subtrees
  nodes.filterMap (edit? p (nodes.filterMap chained?))

def cuts (p : Program) : List Nat :=
  let nodes := p.tree.subtrees
  (nodes.filterMap (bare? (nodes.filterMap chained?))).flatMap (Slot.cuts p.text none)

end Uplift.ArrayFromSpread
