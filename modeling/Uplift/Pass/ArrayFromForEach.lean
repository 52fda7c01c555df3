import Uplift.Pass.Statement

namespace Uplift.ArrayFromForEach

def rules : Callback.Rules := { expressionBody := true, extraParams := true }

def edit? (p : Program) : Node → Option Edit
  | .mk .exprStmt span [e] => do
    let (receiver, name, arguments) ← e.bare.methodCall?
    if name != "forEach" then none
    else
      let iterable ← (← receiver.bare.staticCall? "Array" "from").soleArgument?
      let callback ← arguments.soleArgument?
      let loop ← Callback.inline? rules callback
      if iterable.isObject || loop.names.any iterable.mentions then none
      else some (loop.edit (p.statementRange span) iterable.span)
  | _ => none

/--
A statement that copies an iterable into an array to call a function on each item becomes a loop.
-/
def edits (p : Program) : List Edit := p.tree.subtrees.filterMap (edit? p)

def cuts (p : Program) : List Nat := p.statementCuts (edit? p)

end Uplift.ArrayFromForEach
