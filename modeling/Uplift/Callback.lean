import Uplift.Capture
import Uplift.Names

namespace Uplift

def Declaring.keyword : Declaring → String
  | .hoisted => "var"
  | .scoped => "let"
  | .constant => "const"
  | .disposable => "using"

namespace Callback

structure Rules where
  expressionBody : Bool
  /-- Also parameters after a destructured first one, if they are not used. -/
  extraParams : Bool
deriving DecidableEq, Repr, Inhabited

inductive LoopBody where
  | block (range : Range)
  | expression (range : Range)
deriving DecidableEq, Repr, Inhabited

/--
A loop that does what a callback does. Such a callback has no `return` and no `var` of its own,
refers to nothing that its function owns, and its parameters make up a single loop variable.
-/
structure Inlined where
  declaring : Declaring
  binding : Range
  body : LoopBody
  names : List String
deriving DecidableEq, Repr, Inhabited

structure Parts where
  params : List Node
  body : Node
deriving Inhabited

/-- The parts of an arrow function, or of a function that depends on nothing it owns. -/
def parts? : Node → Option Parts
  | .mk (.arrow false) _ [params, generics, _, body] =>
    if generics.isAbsent then some ⟨params.children, body⟩ else none
  | .mk .functionExpr _ [name, f] =>
    match f with
    | .mk (.function false false) _ [_, params, generics, _, body] =>
      if generics.isAbsent && f.capture?.isNone && !body.isAbsent
          && !name.name?.any body.mentions then
        some ⟨params.children.map (·.child 1), body⟩
      else none
    | _ => none
  | _ => none

def isOwn (n : Node) : Bool :=
  match n.kind with
  | .function _ _ | .arrow _ | .classBody | .constructor | .getter | .setter => false
  | _ => true

def escapes (n : Node) : Bool :=
  match n.kind with
  | .return => true
  | .varDecl .hoisted _ => true
  | _ => false

def leavesLoop (block : Node) : Bool := (block.walk isOwn).any escapes

def acceptsExtra (rules : Rules) (first : Node) (extra : List Node) (body : Node) : Bool :=
  extra.isEmpty ||
    (rules.extraParams && first.binding?.isNone
      && extra.all fun p => p.plainName?.any fun w => !body.mentions w)

def loopBody? (rules : Rules) (body : Node) : Option LoopBody :=
  if body.kind = .block then
    if leavesLoop body then none else some (.block body.span)
  else if rules.expressionBody then some (.expression body.span)
  else none

def inline? (rules : Rules) (callback : Node) : Option Inlined := do
  let ⟨params, body⟩ ← parts? callback.bare
  match params with
  | [] => none
  | first :: extra =>
    if !(first.isPlainPattern && acceptsExtra rules first extra body) then none
    else
      let loopBody ← loopBody? rules body
      let names := first.bound
      let written := body.assigned
      let declaring := if names.any written.contains then .scoped else .constant
      return { declaring, binding := first.span, body := loopBody, names }

end Callback

end Uplift
