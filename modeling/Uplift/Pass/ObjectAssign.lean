import Uplift.Program
import Uplift.Shape
import Uplift.Slot

namespace Uplift.ObjectAssign

def spreads (e : Edit) : List Node → Edit
  | [] => e
  | [n] => (e.string "...").reuse n.span
  | n :: rest => spreads (((e.string "...").reuse n.span).string ", ") rest

def isEmptyObject (n : Node) : Bool := n.isObject && n.bare.children.isEmpty

def bare? (n : Node) : Option Edit := do
  let arguments ← n.staticCall? "Object" "assign"
  match ← arguments.plainArguments? with
  | [] => none
  | target :: sources =>
    if !isEmptyObject target then none
    else if sources.isEmpty then some ((Edit.replacing n.span).string "\x7b\x7d")
    else some ((spreads ((Edit.replacing n.span).string "\x7b ") sources).string " \x7d")

def edit? (p : Program) (n : Node) : Option Edit :=
  (bare? n).bind (Slot.fit p.text (some .object))

/-- A copy by `Object.assign` into an empty object becomes an object of spreads. -/
def edits (p : Program) : List Edit := p.tree.subtrees.filterMap (edit? p)

def cuts (p : Program) : List Nat :=
  (p.tree.subtrees.filterMap bare?).flatMap (Slot.cuts p.text (some .object))

end Uplift.ObjectAssign
