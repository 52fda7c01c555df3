import Uplift.Node

namespace Uplift

inductive Capture where
  | this
  | arguments
  | super
  | newTarget
deriving DecidableEq, Repr, Inhabited

namespace Capture

def all : List Capture := [this, arguments, super, newTarget]

/-- Whether a node is such a reference. An element can name `this` by an identifier. -/
def isAt (c : Capture) (n : Node) : Bool :=
  match c with
  | this => n.kind = .this || n.identifier? = some "this"
  | arguments => n.identifier? = some "arguments"
  | super => n.kind = .super
  | newTarget => n.kind = .newTarget

end Capture

namespace Node

def isFunction (n : Node) : Bool :=
  match n.kind with
  | .function _ _ => true
  | _ => false

/--
Whether a tree refers to what a function around it owns. Arrow functions are searched through.
-/
def references (n : Node) (c : Capture) : Bool := (n.walk fun m => !m.isFunction).any c.isAt

def capture? : Node → Option Capture
  | .mk (.function _ _) _ [_, params, _, _, body] =>
    Capture.all.find? fun c => params.children.any (·.references c) || body.references c
  | _ => none

def functionExprs (n : Node) : List Node :=
  n.subtrees.filterMap fun
    | .mk .functionExpr _ [_, f] => some f
    | _ => none

end Node

end Uplift
