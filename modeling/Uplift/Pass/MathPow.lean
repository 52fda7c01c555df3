import Uplift.Program
import Uplift.Shape
import Uplift.Slot

namespace Uplift.MathPow

/-- Appends an operand, in parentheses unless it needs none. -/
def operand (e : Edit) (n : Node) : Edit :=
  if n.isAtom then e.reuse n.span else ((e.string "(").reuse n.span).string ")"

def bare? (n : Node) : Option Edit := do
  let arguments ← n.staticCall? "Math" "pow"
  match ← arguments.plainArguments? with
  | [base, exponent] =>
    some (operand ((operand (Edit.replacing n.span) base).string " ** ") exponent)
  | _ => none

def edit? (p : Program) (n : Node) : Option Edit :=
  (bare? n).bind (Slot.fit p.text (some .exponent))

/-- A call of `Math.pow` becomes a power. -/
def edits (p : Program) : List Edit := p.tree.subtrees.filterMap (edit? p)

def cuts (p : Program) : List Nat :=
  (p.tree.subtrees.filterMap bare?).flatMap (Slot.cuts p.text (some .exponent))

end Uplift.MathPow
