import Uplift.Grammar.Access

namespace Uplift.Grammar

open Parse

/-- What stands in parentheses: an expression or spread, or what can only be a parameter. -/
structure Item where
  node : Node
  isPattern : Bool := false
deriving Inhabited

def assignmentOperators : List String :=
  ["=", "+=", "-=", "*=", "/=", "%=", "**=", "<<=", ">>=", ">>>=", "&=", "|=", "^=", "&&=", "||=",
    "??="]

def isTarget : Kind → Bool
  | .binding _ | .arrayPattern | .objectPattern | .member | .index | .superMember | .optional
  | .paren | .asType | .satisfies | .nonNull | .cast | .instantiation | .invalid => true
  | _ => false

def assigned (go : Level) (lo : Nat) (left : Node) : Parse Node := do
  match ← token with
  | .punct op =>
    unless assignmentOperators.contains op do return left
    let target ←
      if op = "=" then toPattern .target left
      else do
        unless isSimpleTarget (← context).strict left do note left.span.start .badTarget
        match left with
        | .mk (.ident w) span _ =>
          if (← hasTypes) && isRestricted w then noteStrict span.start w
          pure (Node.mk (.binding w) span [])
        | e => pure e
    unless isTarget target.kind do failAt target.span.start .badTarget
    advance
    let right ← go .assignment
    node (.assign op) lo [target, right]
  | _ => return left

def branches (go : Level) (test : Node) : Parse Node := do
  expect "?"
  let yes ← under (fun c => { c with inConditional := true, colonAhead := true, allowIn := true })
    (go .assignment)
  expect ":"
  let no ← under (fun c => { c with inConditional := true, colonAhead := false }) (go .assignment)
  node .conditional test.span.start [test, yes, no]

def atTypedItem : Parse Bool := do
  if ← atReference then return true
  unless ← isPunct "..." do return false
  match (← next).1 with
  | .word w masked => return masked || !(← context).reserves w
  | _ => return false

def typedItem (go : Level) (lo : Nat) : Parse Node := do
  if ← eat "..." then
    let e ← go .operation
    node .spread lo [e]
  else
    let e ← go .operation
    if isArrow e && e.span.start = lo then return e
    assigned go lo e

def itemQuestion (go : Level) (item : Node) : Parse (Node × Bool) := do
  unless ← hasTypes <&&> isPunct "?" do return (item, false)
  if ← nextIsPunct [",", "=", ":", ")"] then
    let mark ← here
    advance
    match item with
    | .mk .spread span [e] =>
      note mark .badPattern
      if let .ident _ := e.kind then pure () else failAt span.start .badPattern
    | .mk (.ident _) _ _ => pure ()
    | e => failAt e.span.start .badPattern
    return (item, true)
  if item.kind = .spread then return (item, false)
  return (← branches go item, false)

def typedParam (go : Level) (lo : Nat) (item : Node) : Parse Node := do
  let bare ← match item with
    | .mk .spread span [e] => do
      let p ← toPattern .binding e
      pure (Node.mk .restPattern span [p, .absent])
    | e => toPattern .binding e
  let t ← ascription? go
  let stop ← last
  let pattern ←
    if t.isAbsent then pure bare
    else match bare.kind with
      | .binding _ => pure (annotated bare t)
      | .assignPattern => do
        note lo (.misplaced "a type annotation")
        pure (stretched bare stop)
      | _ => pure (stretched (annotated bare t) stop)
  if ← eat "=" then
    let right ← go .assignment
    node .assignPattern lo [pattern, right]
  else return pattern

def parenItem (go : Level) : Parse Item := do
  let modifierLo ← here
  let modified ← eatAccess
  let lo ← here
  let e ← if ← hasTypes <&&> atTypedItem then typedItem go lo else spreadable go
  let (e, optional) ← itemQuestion go e
  let pattern ← pure optional <||> (hasTypes <&&> isPunct ":")
  let item ←
    if pattern then do
      let p ← typedParam go lo e
      pure { node := p, isPattern := true }
    else pure { node := e }
  if modified then note modifierLo (.misplaced "an access modifier")
  return item

def parenItems (go : Level) : Parse (List Item × Option Nat) := do
  expect "("
  let items ← under (fun c => { c with allowIn := true, colonAhead := false }) (many do
    if (← isPunct ")") || (← token) == .eof then return none
    let i ← parenItem go
    if ← isPunct ")" then return some (i, none)
    let comma ← here
    expect ","
    return some (i, if ← isPunct ")" then some comma else none))
  expect ")"
  return (items.map (·.1), items.getLast?.bind (·.2))

/-- Turns the items in parentheses into parameters; only the last can be a rest parameter. -/
def itemPatterns (comma : Option Nat) : List Item → Parse (List Node)
  | [] => return []
  | [i] => do
    match i.node with
    | .mk .spread span [e] =>
      if let .assign _ := e.kind then note span.start .badPattern
      if let some offset := comma then note offset (.misplaced "a comma after a rest element")
      let p ← toPattern .binding e
      return [.mk .restPattern span [p, .absent]]
    | n =>
      if i.isPattern then
        if n.kind = .restPattern then
          if let some offset := comma then note offset (.misplaced "a comma after a rest element")
        return [n]
      else return [← toPattern .binding n]
  | i :: rest => do
    match i.node.kind with
    | .spread | .restPattern => do
      note i.node.span.start (.misplaced "a rest parameter")
      itemPatterns comma rest
    | _ =>
      let p ← if i.isPattern then pure i.node else toPattern .binding i.node
      return p :: (← itemPatterns comma rest)

def arrowFrom (go : Level) (lo : Nat) (async : Bool) (patterns : List Node)
    (generics result : Node) : Parse Node := do
  let stop ← last
  let body ← arrowBody go async (patterns.all isBareParam)
  node (.arrow async) lo [.mk .params ⟨lo, stop⟩ patterns, generics, result, body]

def arrowOf (go : Level) (lo : Nat) (async : Bool) (items : List Item) (comma : Option Nat)
    (result : Node) : Parse Node := do
  expect "=>"
  let patterns ← itemPatterns comma items
  checkAllStrictNames patterns
  arrowFrom go lo async patterns .absent result

/-- Notes defaults that are left in an object which is no pattern. -/
def checkDefaults (items : List Item) : Parse Unit := do
  for i in items do
    if let .mk .object _ properties := i.node then
      for p in properties do
        if p.kind = .defaultedProperty then note p.span.start (.misplaced "a default")

def parenExpr (lo : Nat) (items : List Item) : Parse Node := do
  match items with
  | [] => failAt lo (.missing "an expression")
  | [i] =>
    if i.node.kind = .spread then failAt i.node.span.start (.misplaced "a spread")
    node .paren lo [i.node]
  | i :: rest =>
    for j in items do
      if j.node.kind = .spread then failAt j.node.span.start (.misplaced "a spread")
    let stop := (rest.getLast?.map (·.node.span.stop)).getD i.node.span.stop
    node .paren lo [.mk .sequence ⟨i.node.span.start, stop⟩ (items.map (·.node))]

/-- Reads parentheses: an arrow function if `arrow` allows one, else an expression or a call. -/
def parenOrArrow (go : Level) (arrow : Bool) (async : Option Nat) : Parse Node := do
  let parenLo ← here
  let lo := async.getD parenLo
  let (items, comma) ← parenItems go
  let c ← context
  if c.dialect.hasTypes && c.inConditional && (← isPunct ":") then
    let tried ← attempt do
      let result ← returnType go ":"
      unless ← isPunct "=>" do return none
      let n ← arrowOf go lo async.isSome items none result
      if c.colonAhead && !(← isPunct ":") then return none
      return some n
    if let some n := tried then return n
  let result ←
    if c.dialect.hasTypes && !c.colonAhead && (← isPunct ":") then
      let tried ← attempt do
        let result ← returnType go ":"
        if ← isPunct "=>" then return some result
        return none
      pure (tried.getD .absent)
    else pure .absent
  if items.any (·.isPattern) || !result.isAbsent || (← isPunct "=>") then
    if ← afterBreak then failAt lo (.misplaced "a line break")
    unless arrow do failAt lo (.misplaced "an arrow function")
    return ← arrowOf go lo async.isSome items comma result
  checkDefaults items
  match async with
  | some asyncLo =>
    let stop ← last
    let callee := Node.mk (.ident "async") ⟨asyncLo, asyncLo + 5⟩ []
    node .call lo [callee, .absent, .mk .arguments ⟨parenLo, stop⟩ (items.map (·.node))]
  | none => parenExpr lo items

def genericArrow (go : Level) (lo : Nat) (async : Bool) : Parse Node := do
  let generics ← typeParams go
  expect "("
  let ps ← under (·.forParams async false) (go .params)
  expect ")"
  let result ← returnType? go
  expect "=>"
  arrowFrom go lo async (ps.children.map (·.child 1)) generics result

def identOrArrow (go : Level) (arrow : Bool) : Parse Node := do
  let (w, lo) ← identifier
  let id ← node (.ident w) lo []
  unless arrow && !(← afterBreak) do return id
  if w = "async" && (← atReference) then
    let c ← context
    if c.inHead && (← isWord "of") && !(← nextIsPunct ["=>"]) then
      unless c.inAwaitHead do note lo (.misplaced "async")
      return id
    let p ← bindingIdent false
    if ← hasTypes then
      if p.kind = .binding "as" && !(← isPunct "=>") then
        let t ← go .type
        return ← node .asType lo [id, t]
    expect "=>"
    arrowFrom go lo true [p] .absent .absent
  else if ← eat "=>" then
    if isRestricted w then noteStrict lo w
    arrowFrom go lo false [.mk (.binding w) id.span []] .absent .absent
  else return id

def asyncOperand? (go : Level) (arrow : Bool) : Parse (Option Node) := do
  unless ← isWord "async" do return none
  let lo ← here
  match ← next with
  | (.word "function" false, false) =>
    advance
    return some (← functionExpr go (some lo))
  | (.punct "<", _) =>
    unless arrow && (← hasTypes) do return none
    attempt do
      advance
      return some (← genericArrow go lo true)
  | (.punct "(", false) =>
    unless arrow do return none
    advance
    return some (← parenOrArrow go arrow (some lo))
  | _ => return none

end Uplift.Grammar
