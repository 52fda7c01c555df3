import Uplift.Edit
import Uplift.Program
import Uplift.Shape

namespace Uplift.ObjectKeys

/-- Whether the head of a loop can stand before `in`. -/
def isHead (n : Node) : Bool :=
  match n.kind with
  | .varDecl .disposable _ => false
  | _ => true

def edit? : Node → Option Edit
  | .mk (.forOf false) span [left, right, body] => do
    let object ← (← right.bare.staticCall? "Object" "keys").soleArgument?
    if !isHead left then none
    else
      let head := ((Edit.replacing span).string "for (").reuse left.span
      some ((((head.string " in ").reuse object.span).string ") ").reuse body.span)
  | _ => none

/-- A loop over the keys of an object becomes a loop over the object with `in`. -/
def edits (p : Program) : List Edit := p.tree.subtrees.filterMap edit?

end Uplift.ObjectKeys
