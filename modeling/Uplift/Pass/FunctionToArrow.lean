import Uplift.Capture
import Uplift.Names
import Uplift.Program
import Uplift.Slot

namespace Uplift.FunctionToArrow

def functionStart? (n : Node) : Option Nat :=
  match n.bare with
  | .mk .functionExpr span _ => some span.start
  | _ => none

/-- The start of a function that a node constructs or extends. -/
def constructed? : Node → Option Nat
  | .mk .new _ (callee :: _) => functionStart? callee
  | .mk .classBody _ (_ :: _ :: base :: _) => functionStart? base
  | _ => none

def repeats : List String → Bool
  | [] => false
  | w :: ws => ws.contains w || repeats ws

def params (e : Edit) (ps : List Node) : Edit :=
  match ps.head?, ps.getLast? with
  | some first, some last => e.reuse ⟨first.span.start, last.span.stop⟩
  | _, _ => e

def returnType (p : Program) (e : Edit) (t : Node) : Edit :=
  if t.isAbsent then e
  else if p.text[t.span.start]? = some (Text.ascii ':') then e.reuse t.span
  else (e.string ": ").reuse t.span

/-- The arrow function for a function, not yet fitted into its place. -/
def bare? (p : Program) (constructed : List Nat) : Node → Option Edit
  | .mk .functionExpr span [name, f] =>
    match f with
    | .mk (.function async false) _ [_, ps, generics, result, body] =>
      let names := ps.children.flatMap fun q => (q.child 1).bound
      if !name.isAbsent || !generics.isAbsent || body.isAbsent || constructed.contains span.start
          || names.contains "this" || repeats names || f.capture?.isSome then none
      else
        let opened := (Edit.replacing span).string (if async then "async (" else "(")
        let head := returnType p ((params opened ps.children).string ")") result
        some ((head.string " => ").reuse body.span)
    | _ => none
  | _ => none

def edit? (p : Program) (constructed : List Nat) (n : Node) : Option Edit :=
  (bare? p constructed n).bind (Slot.fit p.text (some .arrow))

/-- A function without a name that depends on nothing it owns becomes an arrow function. -/
def edits (p : Program) : List Edit :=
  let nodes := p.tree.subtrees
  nodes.filterMap (edit? p (nodes.filterMap constructed?))

def resultCuts : Node → List Nat
  | .mk .functionExpr _ [_, .mk (.function _ _) _ [_, _, _, result, _]] =>
    if result.isAbsent then [] else [result.span.start, result.span.stop]
  | _ => []

def cuts (p : Program) : List Nat :=
  let nodes := p.tree.subtrees
  let bare := bare? p (nodes.filterMap constructed?)
  (nodes.filter fun n => (bare n).isSome).flatMap resultCuts
    ++ (nodes.filterMap bare).flatMap (Slot.cuts p.text (some .arrow))

end Uplift.FunctionToArrow
