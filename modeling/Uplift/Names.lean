import Uplift.Shape

namespace Uplift.Node

def mentions (n : Node) (name : String) : Bool := n.subtrees.any fun m => m.identifier? = some name

def binding? : Node → Option String
  | .mk (.binding w) _ _ => some w
  | _ => none

/-- Whether patterns are looked for inside a node: neither in expressions nor below a binding. -/
def holdsPatterns (n : Node) : Bool := n.binding?.isNone && !n.isExpression

def bound (n : Node) : List String := (n.walk holdsPatterns).filterMap binding?

/-- The names that the target of an assignment stands for. A member stands for none. -/
def targetNames : Node → List String
  | .mk .paren _ [e] => e.bare.name?.toList
  | n => n.bound

def headNames (head : Node) : List String :=
  match head.kind with
  | .varDecl _ _ => []
  | _ => head.bound

/-- The names that a node itself writes, not counting what its children write. -/
def writes : Node → List String
  | .mk (.assign _) _ (target :: _) => target.targetNames
  | .mk (.update _) _ [e] => e.bare.name?.toList
  | .mk .forIn _ (head :: _) => head.headNames
  | .mk (.forOf _) _ (head :: _) => head.headNames
  | _ => []

def assigned (n : Node) : List String := n.subtrees.flatMap writes

end Uplift.Node
