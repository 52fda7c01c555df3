import Uplift.Pass.Statement
import Uplift.TrustedRoot

namespace Uplift.DomForEach

def rules : Callback.Rules := { expressionBody := false, extraParams := false }

def edit? (p : Program) : Node → Option Edit
  | .mk .exprStmt span [e] => do
    let (receiver, name, arguments) ← e.bare.methodCall?
    if name != "forEach" || !TrustedRoot.trusts receiver then none
    else
      let callback ← arguments.soleArgument?
      let loop ← Callback.inline? rules callback
      if loop.names.any receiver.mentions then none
      else some (loop.edit (p.statementRange span) receiver.span)
  | _ => none

/-- A statement that calls a function on each item of a trusted collection becomes a loop. -/
def edits (p : Program) : List Edit := p.tree.subtrees.filterMap (edit? p)

def cuts (p : Program) : List Nat := p.statementCuts (edit? p)

end Uplift.DomForEach
