import Uplift.Grammar.Type

namespace Uplift.Grammar

open Parse

/--
Reads a decorator: an expression in parentheses, or a name with accesses and calls. A bracket behind
it belongs to what it decorates.
-/
def decorator (go : Level) : Parse Node := do
  let lo ← here
  expect "@"
  if ← eat "(" then
    let e ← go .expression
    expect ")"
    node .decorator lo [e]
  else
    let name ← identNode
    let e ← go (.accesses name true false)
    node .decorator lo [e]

def decoratorList (go : Level) : Parse (List Node) := many do
  if ← isPunct "@" then return some (← decorator go)
  return none

def decoratorsNode (ds : List Node) : Node :=
  match ds.head?, ds.getLast? with
  | some a, some b => .mk .decorators ⟨a.span.start, b.span.stop⟩ ds
  | _, _ => .absent

def eatAccess : Parse Bool := do
  unless (← hasTypes) && (← isAnyWord ["public", "protected", "private", "readonly"]) do
    return false
  match (← next).1 with
  | .word _ _ => do
    advance
    return true
  | .punct p =>
    if ["\x7b", "["].contains p then
      advance
      return true
    else return false
  | _ => return false

def paramPattern (go : Level) : Parse Node := do
  let lo ← here
  let modified ← eatAccess
  let bare ← go (.bindingPattern false)
  let optional ← if ← hasTypes then eat "?" else pure false
  let t ← ascription? go
  let pattern ←
    if t.isAbsent then pure bare
    else do
      let stop ← last
      let p := annotated bare t
      pure (match p.kind with | .binding _ => p | _ => stretched p stop)
  let pattern ←
    if ← eat "=" then do
      if optional then note bare.span.start (.misplaced "a default")
      let right ← under (fun c => { c with allowIn := true }) (go .assignment)
      if (← context).ambient then note lo (.misplaced "a default")
      node .assignPattern lo [pattern, right]
    else pure pattern
  if modified then note lo (.misplaced "an access modifier")
  return pattern

def restParam (go : Level) (lo : Nat) : Parse Node := do
  let bare ← go (.bindingPattern false)
  let arg ←
    if ← eat "=" then do
      let right ← go .assignment
      note bare.span.start (.misplaced "a default")
      pure (.mk .assignPattern bare.span [bare, right])
    else pure bare
  let t ← ascription? go
  let p ← node .restPattern lo [arg, t]
  if ← hasTypes <&&> eat "?" then note lo .badPattern
  return p

def paramList (go : Level) (item : Parse Node) : Parse (List Node) := do
  let ps ← many do
    if (← isPunct ")") || (← token) == .eof then return none
    let lo ← here
    let ds ← decoratorList go
    let patLo ← here
    let rest ← eat "..."
    let p ← if rest then restParam go patLo else item
    let n ← node .param lo [decoratorsNode ds, p]
    unless ← isPunct ")" do
      expect ","
      if rest then
        let offset ← if ← isPunct ")" then previous else pure patLo
        note offset (.misplaced "a parameter after a rest parameter")
    return some n
  return ps

def formalParams (go : Level) : Parse Node := do
  let lo ← here
  let ps ← paramList go (paramPattern go)
  node .params lo ps

def isBareParam (p : Node) : Bool :=
  match p with
  | .mk .param _ [_, .mk (.binding _) _ _] => true
  | .mk (.binding _) _ _ => true
  | _ => false

def atStrictDirective : Parse Bool := fun _ s =>
  .done (s.token == .string "'use strict'" || s.token == .string "\"use strict\"") s

def isDirective : Node → Bool
  | .mk .exprStmt _ [.mk .string _ _] => true
  | _ => false

/-- Reads statements until `closed` holds, where a first directive can make the code strict. -/
def statementsUntil (item : Parse Node) (directives : Bool) (closed : Parse Bool) :
    Parse (List Node) := do
  let rest : Parse (List Node) := many do
    if ← closed then return none
    return some (← item)
  unless directives do return ← rest
  if ← closed then return []
  let marked ← atStrictDirective
  let first ← item
  if marked && isDirective first then
    let others ← under (fun c => { c with strict := true }) do
      again
      rest
    return first :: others
  else return first :: (← rest)

def blockWith (go : Level) (directives : Bool) : Parse Node := do
  let lo ← here
  expect "\x7b"
  let item := go (.statement true)
  let closed : Parse Bool := do
    if (← token) == .eof then
      note (← here) (.expected "\x7d")
      return true
    isPunct "\x7d"
  let ss ← under (fun c => { c with topLevel := false }) (statementsUntil item directives closed)
  let _ ← eat "\x7d"
  node .block lo ss

def Context.forBody (c : Context) (async generator arrow : Bool) : Context :=
  { c with
    inFunction := true, inAsync := async, inGenerator := generator
    inPlainFunction := c.inPlainFunction || !arrow
    inField := c.inField && arrow
    inStaticBlock := false
    breakable := false, continuable := false, colonAhead := false }

def withOwnLabels {α : Type} (p : Parse α) : Parse α := do
  let outer := (← state).labels
  modify fun s => { s with labels := [] }
  let a ← p
  modify fun s => { s with labels := outer }
  return a

/-- A directive for strict code needs parameters that are bare names. -/
def checkDirective (simple : Bool) (marked : Bool) (body : Node) : Parse Unit := do
  if marked && !simple then
    if let some first := body.children.head? then
      if isDirective first then note first.span.start (.misplaced "'use strict'")

def functionBlock (go : Level) (async generator arrow simple : Bool) : Parse Node := do
  if (← context).ambient && (← hasTypes) then note (← here) (.misplaced "a body")
  under (·.forBody async generator arrow) (withOwnLabels do
    let marked := match (← next).1 with
      | .string raw => raw == "'use strict'" || raw == "\"use strict\""
      | _ => false
    let b ← blockWith go true
    checkDirective simple marked b
    return b)

def functionBody (go : Level) (async generator simple : Bool) : Parse Node := do
  if (← hasTypes) && !(← isPunct "\x7b") then
    if ← eatEnd then return .absent
  functionBlock go async generator false simple

def arrowBody (go : Level) (async simple : Bool) : Parse Node := do
  if ← isPunct "\x7b" then functionBlock go async false true simple
  else under (·.forBody async false true) (withOwnLabels (go .assignment))

def Context.forParams (c : Context) (async generator : Bool) : Context :=
  { c with inParams := true, inFunction := false, inAsync := async, inGenerator := generator
           allowIn := true, colonAhead := false }

def functionParts (go : Level) (lo : Nat) (decorators : Node) (async generator : Bool)
    (params : Parse Node) : Parse Node := do
  let generics ← typeParams? go
  expect "("
  let ps ← under (·.forParams async generator) params
  expect ")"
  let result ← returnType? go
  let body ← functionBody go async generator (ps.children.all isBareParam)
  if body.isAbsent then
    for p in ps.children do
      if let .mk .param _ [_, .mk .assignPattern span _] := p then
        note span.start (.misplaced "a default")
  node (.function async generator) lo [decorators, ps, generics, result, body]

def Context.forFunction (c : Context) : Context :=
  { c with superAllowed := false, inField := false }

def Context.forMethod (c : Context) : Context := { c with superAllowed := true, inField := false }

def functionExpr (go : Level) (async : Option Nat) : Parse Node := do
  let lo := async.getD (← here)
  expectWord "function"
  let generator ← eat "*"
  let name ←
    under (fun c => { c with inAsync := async.isSome, inGenerator := generator }) do
      if ← atWord then
        let b ← bindingIdent false
        pure (match b with | .mk (.binding w) span _ => Node.mk (.ident w) span [] | b => b)
      else pure .absent
  let f ← under (·.forFunction)
    (functionParts go lo .absent async.isSome generator (formalParams go))
  if (f.child 4).isAbsent then fail (.expected "\x7b")
  node .functionExpr lo [name, f]

def asIdent : Node → Node
  | .mk (.binding w) span _ => .mk (.ident w) span []
  | n => n

def functionDecl (go : Level) (decorators : Node) (async : Option Nat) (named : Bool) :
    Parse Node := do
  let lo := async.getD (← here)
  expectWord "function"
  let generator ← eat "*"
  let name ← if named || (← atWord) then asIdent <$> bindingIdent false else pure .absent
  let f ← under (·.forFunction)
    (functionParts go lo decorators async.isSome generator (formalParams go))
  node .functionDecl lo [name, f]

end Uplift.Grammar
