import Uplift.Program
import Uplift.Shape
import Uplift.Slot

namespace Uplift.ArrayConcat

def isArray (n : Node) : Bool :=
  match n.bare with
  | .mk .array _ _ => true
  | .mk .new _ (callee :: _) => callee.bare.name? = some "Array"
  | e =>
    (e.staticCall? "Array" "from").isSome || (e.staticCall? "Array" "of").isSome
      || e.call?.any (fun c => c.1.bare.name? = some "Array")
      || e.methodCall?.any (fun c => c.2.1 = "split")

/-- Whether `concat` appends an argument as one element. -/
def isSingle (n : Node) : Bool :=
  match n.bare.kind with
  | .string | .number _ | .boolean | .null | .bigint | .regex | .template | .object | .functionExpr
  | .arrow _ | .classExpr => true
  | _ => false

def element (e : Edit) (n : Node) : Edit :=
  (e.string (if isSingle n then ", " else ", ...")).reuse n.span

/-- The array for a concatenation, not yet fitted into its place. -/
def bare? (n : Node) : Option Edit := do
  let (receiver, name, arguments) ← n.methodCall?
  let given ← arguments.plainArguments?
  if name != "concat" || !isArray receiver || given.isEmpty then none
  else
    let first := ((Edit.replacing n.span).string "[...").reuse receiver.span
    some ((given.foldl element first).string "]")

def edit? (p : Program) (n : Node) : Option Edit := (bare? n).bind (Slot.fit p.text none)

/--
The concatenation of an array with `concat` becomes an array of spreads, where the receiver is known
to be an array.
-/
def edits (p : Program) : List Edit := p.tree.subtrees.filterMap (edit? p)

def cuts (p : Program) : List Nat :=
  (p.tree.subtrees.filterMap bare?).flatMap (Slot.cuts p.text none)

end Uplift.ArrayConcat
