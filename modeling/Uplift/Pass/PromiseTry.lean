import Uplift.Capture
import Uplift.Edit
import Uplift.Names
import Uplift.Program

namespace Uplift.PromiseTry

/-- The start of a new object that is awaited at once. -/
def awaited? : Node → Option Nat
  | .mk .await _ [e] => if e.bare.kind = .new then some e.bare.span.start else none
  | _ => none

/-- The function that settles a promise: its parameters and the one expression it evaluates. -/
structure Executor where
  params : List Node
  expression : Node
deriving Inhabited

def soleExpression? : Node → Option Node
  | .mk .block _ [.mk .exprStmt _ [e]] => some e
  | .mk .block _ _ => none
  | e => some e

def executor? (n : Node) : Option Executor :=
  match n.bare with
  | .mk (.arrow false) _ [params, generics, result, body] =>
    if generics.isAbsent && result.isAbsent then
      (soleExpression? body).map fun e => ⟨params.children, e⟩
    else none
  | .mk .functionExpr _ [name, f] =>
    match f with
    | .mk (.function false false) _ [_, params, generics, result, body] => do
      let e ← soleExpression? body
      if generics.isAbsent && result.isAbsent && f.capture?.isNone
          && !name.name?.any e.mentions then
        some ⟨params.children.map (·.child 1), e⟩
      else none
    | _ => none
  | _ => none

/--
What is handed to `Promise.try`: a function that evaluates an expression, or one that was handed the
resolver.
-/
inductive Substitute where
  | thunk (expression : Node)
  | callee (function : Node)
deriving Inhabited

def Substitute.code : Substitute → Node
  | thunk e => e
  | callee f => f

def substitute? (resolve : String) (body : Node) : Option Substitute :=
  match body.bare with
  | .mk .call _ [callee, typeArguments, arguments] => do
    let argument ← arguments.soleArgument?
    let name ← callee.bare.name?
    if !typeArguments.isAbsent then none
    else if name = resolve then some (.thunk argument)
    else if argument.bare.name? = some resolve then some (.callee callee.bare)
    else none
  | _ => none

def handed (e : Edit) : Substitute → Edit
  | .thunk n =>
    if n.kind = .object then ((e.string "() => (").reuse n.span).string ")"
    else (e.string "() => ").reuse n.span
  | .callee f => e.reuse f.span

def edit? (awaited : List Nat) : Node → Option Edit
  | .mk .new span [callee, typeArguments, arguments] => do
    if arguments.isAbsent then none
    else
      let ⟨params, body⟩ ← executor? (← arguments.soleArgument?)
      let names ← params.mapM Node.plainName?
      let resolve ← names.head?
      let substitute ← substitute? resolve body
      if awaited.contains span.start || !typeArguments.isAbsent
          || callee.bare.name? != some "Promise" || 2 < names.length
          || names.any substitute.code.mentions then none
      else some ((handed ((Edit.replacing span).string "Promise.try(") substitute).string ")")
  | _ => none

/-- A promise that is made only to be resolved with a value becomes a call of `Promise.try`. -/
def edits (p : Program) : List Edit :=
  let nodes := p.tree.subtrees
  nodes.filterMap (edit? (nodes.filterMap awaited?))

end Uplift.PromiseTry
