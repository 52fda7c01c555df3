import Uplift.Shape

namespace Uplift

structure TrustedRoot where
  name : String
  methods : List String
  properties : List String
deriving DecidableEq, Repr, Inhabited

namespace TrustedRoot

def all : List TrustedRoot :=
  [{ name := "document", methods := ["querySelectorAll", "getElementsByName"],
     properties := ["childNodes", "fonts"] },
   { name := "window", methods := [], properties := ["document"] }]

def find? (name : String) : Option TrustedRoot := all.find? (·.name == name)

structure Hop where
  name : String
  call : Bool
deriving DecidableEq, Repr, Inhabited

/-- The identifier at which a chain starts, and its steps. `called` is for the callee of a call. -/
def chain? (called : Bool) : Node → Option (String × List Hop)
  | .mk .paren _ [e] => chain? called e
  | .mk (.ident w) _ _ => if called then none else some (w, [])
  | .mk .member _ [object, .mk (.name w) _ _] => do
    let (root, hops) ← chain? false object
    return (root, hops ++ [⟨w, called⟩])
  | .mk .call _ [callee, _, _] => if called then none else chain? true callee
  | _ => none

def allows (root : TrustedRoot) (hop : Hop) : Bool :=
  if hop.call then root.methods.contains hop.name else root.properties.contains hop.name

/-- Whether every step is allowed; a property that is itself a root goes on from there. -/
def follows : TrustedRoot → List Hop → Bool
  | _, [] => true
  | root, hop :: rest =>
    root.allows hop &&
      (if hop.call then rest.isEmpty else follows ((find? hop.name).getD root) rest)

def endsAtCollection (hops : List Hop) : Bool :=
  hops.getLast?.any fun hop => hop.call || (find? hop.name).isNone

/-- Whether an expression leads from a trusted root to a collection. -/
def trusts (receiver : Node) : Bool :=
  match chain? false receiver with
  | some (name, hops) => (find? name).any fun root => root.follows hops && endsAtCollection hops
  | none => false

end TrustedRoot

end Uplift
