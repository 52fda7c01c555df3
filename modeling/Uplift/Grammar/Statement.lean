import Uplift.Grammar.Declaration
import Uplift.Grammar.Expression

namespace Uplift.Grammar

open Parse

def Context.nested (c : Context) : Context := { c with topLevel := false }

def Context.looping (c : Context) : Context :=
  { c.nested with breakable := true, continuable := true }

def fullExpression (go : Level) : Parse Node :=
  under (fun c => { c with allowIn := true }) (go .expression)

def condition (go : Level) : Parse Node := do
  expect "("
  let e ← fullExpression go
  expect ")"
  return e

def governed (go : Level) : Parse Node := under (·.nested) (go (.statement false))

def loopBody (go : Level) : Parse Node := under (·.looping) (go (.statement false))

def jumpLabel : Parse (Option (String × Node)) := do
  if ← eatEnd then return none
  let (w, lo) ← identifier
  let n ← node (.ident w) lo []
  expectEnd
  return some (w, n)

def breakStatement : Parse Node := do
  let lo ← here
  advance
  let label ← jumpLabel
  match label with
  | some (w, _) => unless (← state).labels.contains w do note lo (.misplaced "break")
  | none => unless (← context).breakable do note lo (.misplaced "break")
  node .break lo [(label.map (·.2)).getD .absent]

def continueStatement : Parse Node := do
  let lo ← here
  advance
  let label ← jumpLabel
  if (← context).continuable then
    if let some (w, _) := label then
      unless (← state).labels.contains w do note lo (.misplaced "continue")
  else note lo (.misplaced "continue")
  node .continue lo [(label.map (·.2)).getD .absent]

def returnStatement (go : Level) : Parse Node := do
  let lo ← here
  advance
  let e ← if ← atEnd then pure .absent else fullExpression go
  expectEnd
  unless (← context).inFunction do note lo (.misplaced "return")
  node .return lo [e]

def throwStatement (go : Level) : Parse Node := do
  let lo ← here
  advance
  if ← afterBreak then fail (.misplaced "a line break")
  let e ← fullExpression go
  expectEnd
  node .throw lo [e]

/-- The parts of a condition with its first branch, before what follows `else` is known. -/
structure Branch where
  start : Nat
  test : Node
  body : Node
deriving Inhabited

def closeBranches (stop : Nat) : Node → List Branch → Node
  | final, [] => final
  | final, b :: rest => closeBranches stop (.mk .if ⟨b.start, stop⟩ [b.test, b.body, final]) rest

def ifStatement (go : Level) : Parse Node :=
  loop (fun (done : List Branch) => do
    let lo ← here
    expectWord "if"
    let test ← condition go
    let body ← governed go
    let done := { start := lo, test, body } :: done
    unless ← eatWord "else" do return .inr (closeBranches (← last) .absent done)
    if ← isWord "if" then return .inl done
    let final ← governed go
    return .inr (closeBranches (← last) final done)) []

def switchCase (go : Level) (seen : Bool) : Parse (Option (Node × Bool)) := do
  unless ← isAnyWord ["case", "default"] do return none
  let lo ← here
  let test ←
    if ← eatWord "case" then some <$> fullExpression go
    else do
      advance
      if seen then fail (.duplicate "default")
      pure none
  expect ":"
  let body ← under (·.nested) (many do
    if (← isAnyWord ["case", "default"]) || (← isPunct "\x7d") || (← token) == .eof then return none
    return some (← go (.statement true)))
  return some (← node .case lo (test.getD .absent :: body), test.isNone)

def switchStatement (go : Level) : Parse Node := do
  let lo ← here
  advance
  let e ← condition go
  expect "\x7b"
  let cases ← under (fun c => { c with breakable := true }) (loop (fun (done, seen) => do
    match ← switchCase go seen with
    | some (c, isDefault) => return .inl (done ++ [c], seen || isDefault)
    | none => return .inr done) ([], false))
  expect "\x7d"
  node .switch lo (e :: cases)

def catchClause (go : Level) : Parse Node := do
  let lo ← here
  unless ← eatWord "catch" do return .absent
  let pattern ←
    if ← eat "(" then do
      let bare ← go (.bindingPattern false)
      let t ← ascription? go
      expect ")"
      pure (if t.isAbsent then bare else annotated bare t)
    else pure .absent
  let b ← blockWith go false
  node .catch lo [pattern, b]

def finallyBlock (go : Level) : Parse Node := do
  if ← eatWord "finally" then blockWith go false else return .absent

def tryStatement (go : Level) : Parse Node := do
  let lo ← here
  advance
  let b ← blockWith go false
  let handlerLo ← here
  let handler ← catchClause go
  let finalizer ← finallyBlock go
  if handler.isAbsent && finalizer.isAbsent then note handlerLo (.expected "catch")
  node .try lo [b, handler, finalizer]

def strayHandler (go : Level) : Parse Node := do
  let lo ← here
  note lo (.misplaced "catch")
  tolerate do
    let _ ← catchClause go
  tolerate do
    let _ ← finallyBlock go
  node .exprStmt lo [invalidAt ⟨lo, lo⟩]

def whileStatement (go : Level) : Parse Node := do
  let lo ← here
  advance
  let test ← condition go
  let body ← loopBody go
  node .while lo [test, body]

def doStatement (go : Level) : Parse Node := do
  let lo ← here
  advance
  let body ← loopBody go
  expectWord "while"
  let test ← condition go
  let _ ← eatEnd
  node .doWhile lo [body, test]

inductive Head where
  | steps (first test step : Node)
  | keys (left object : Node)
  | items (left iterable : Node)
deriving Inhabited

def headOver (go : Level) (left : Node) : Parse Head := do
  if ← eatWord "of" then
    return .items left (← under (fun c => { c with allowIn := true }) (go .assignment))
  else
    if left.kind = .varDecl .disposable false then note left.span.start (.misplaced "using")
    expectWord "in"
    return .keys left (← fullExpression go)

def headSteps (go : Level) (first : Node) : Parse Head := do
  let test ←
    if ← eat ";" then pure .absent
    else do
      let e ← fullExpression go
      expect ";"
      pure e
  let step ← if ← isPunct ")" then pure .absent else fullExpression go
  return .steps first test step

def checkHeadDecl (decl : Node) : Parse Unit := do
  match decl.children with
  | [.mk .declarator span [pattern, value]] =>
    if !value.isAbsent && ((← context).strict || (← isWord "of")) then
      note span.start (.misplaced "an initializer")
    if (← hasTypes) && pattern.children.getLast?.any (fun t => t.kind = .type) then
      note span.start (.misplaced "a type annotation")
  | ds => for d in ds.drop 1 do note d.span.start (.misplaced "a second variable")

def forHead (go : Level) : Parse Head := do
  if let some d ← declaring? then
    let decl ← under (fun c => { c with allowIn := false }) (varDeclaration go d true)
    if ← isAnyWord ["of", "in"] then
      checkHeadDecl decl
      return ← headOver go decl
    expect ";"
    return ← headSteps go decl
  if ← eat ";" then return ← headSteps go .absent
  let lo ← here
  let e ← under (fun c => { c with allowIn := false }) (go .expression)
  if ← introducesDisposable e then return ← headOver go (← disposable lo)
  if ← isAnyWord ["of", "in"] then
    let isIn ← isWord "in"
    let left ← toPattern .target e
    if (← hasTypes) && isIn then
      match left.kind with
      | .arrayPattern | .objectPattern => note left.span.start .badPattern
      | _ => pure ()
    return ← headOver go left
  expect ";"
  checkNoDefaults e
  headSteps go e

def forStatement (go : Level) : Parse Node := do
  let lo ← here
  advance
  let awaitLo ← here
  let awaited ← eatWord "await"
  expect "("
  let head ← under (fun c => { c with inHead := true, inAwaitHead := awaited }) (forHead go)
  expect ")"
  let body ← loopBody go
  match head with
  | .steps first test step =>
    if awaited then failAt awaitLo (.misplaced "await")
    node .for lo [first, test, step, body]
  | .keys left object =>
    if awaited then failAt awaitLo (.misplaced "await")
    node .forIn lo [left, object, body]
  | .items left iterable => node (.forOf awaited) lo [left, iterable, body]

def withStatement (go : Level) : Parse Node := do
  let lo ← here
  if ← hasTypes then note lo (.misplaced "with")
  noteStrict lo "with"
  advance
  let e ← condition go
  let body ← under (fun c => { c.nested with inFunction := true }) (go (.statement false))
  node .with lo [e, body]

def labeledStatement (go : Level) (w : String) (label : Node) : Parse Node := do
  let repeated := (← state).labels.contains w
  modify fun s => { s with labels := w :: s.labels }
  let body ← under (fun c => { c with breakable := true }) do
    if ← isWord "function" then
      let f ← functionDecl go .absent none true
      if (← context).strict then note f.span.start (.misplaced "a function")
      match f with
      | .mk .functionDecl _ [_, .mk (.function _ true) span _] =>
        note span.start (.misplaced "a generator")
      | _ => pure ()
      pure f
    else governed go
  if repeated then note label.span.start (.duplicate "label")
  modify fun s => { s with labels := s.labels.erase w }
  node .labeled label.span.start [label, body]

def endExpression (go : Level) (lo : Nat) (e : Node) : Parse Node := do
  if ← eatEnd then node .exprStmt lo [e]
  else if ← atOperator then
    note (← here) (.expected ";")
    let e ← operators go e 0
    node .exprStmt lo [e]
  else fail (.expected ";")

/-- Reads a statement that starts with `import` as an operand. Nothing has to end it. -/
def importStatement (go : Level) (start : Nat) : Parse Node := do
  let e ← fullExpression go
  let _ ← eatEnd
  node .exprStmt start [e]

/--
Reads a statement that starts with an expression: that, a labelled one or a typed declaration. Its
decorators start at `start`.
-/
def expressionStatement (go : Level) (start : Nat) (decorators : Node) : Parse Node := do
  if ← isWord "import" then return ← importStatement go start
  let lo ← here
  let e ← fullExpression go
  match e with
  | .mk (.ident w) span _ =>
    if ← eat ":" then return ← labeledStatement go w e
    if w = "interface" && (← afterBreak) then
      noteStrict span.start w
      let _ ← eatEnd
      return ← node .exprStmt start [e]
    if ← hasTypes then
      if let some d ← wordDecl? go lo decorators w then return d
      if ["public", "static", "abstract"].contains w then
        if ← eatWord "interface" then
          note span.start (.misplaced "a modifier")
          return ← interfaceDecl go lo
  | _ => checkNoDefaults e
  endExpression go start e

def introduces (w : String) : Parse Bool := hasTypes <&&> isWord w <&&> nextIsWordInLine

def wordStatement? (go : Level) (declarations : Bool) (decorators : Node) (lo : Nat) (w : String) :
    Parse (Option Node) := do
  match w with
  | "break" => some <$> breakStatement
  | "continue" => some <$> continueStatement
  | "debugger" =>
    advance
    expectEnd
    return some (← node .debugger lo [])
  | "do" => some <$> doStatement go
  | "for" => some <$> forStatement go
  | "if" => some <$> ifStatement go
  | "return" => some <$> returnStatement go
  | "switch" => some <$> switchStatement go
  | "throw" => some <$> throwStatement go
  | "try" => some <$> tryStatement go
  | "catch" => some <$> strayHandler go
  | "finally" => some <$> strayHandler go
  | "with" => some <$> withStatement go
  | "while" => some <$> whileStatement go
  | "function" =>
    unless declarations do note lo (.misplaced "a declaration")
    some <$> functionDecl go decorators none true
  | "class" =>
    unless declarations do note lo (.misplaced "a declaration")
    some <$> classDecl go lo decorators true
  | "var" => some <$> varDeclaration go .hoisted false
  | "const" =>
    if ← hasTypes <&&> nextIsWord ["enum"] then
      advance
      advance
      return some (← enumDecl go lo)
    if declarations then some <$> varDeclaration go .constant false else return none
  | "let" =>
    unless declarations do return none
    match ← declaring? with
    | some d => some <$> varDeclaration go d false
    | none => return none
  | "using" => if declarations && (← atUsing) then some <$> disposables go lo else return none
  | "await" =>
    if (← context).topLevel then modify fun s => { s with isModule := true }
    if declarations && (← nextIsWord ["using"]) then
      let declares ← ahead (do advance; atUsing) false
      if declares then
        advance
        return some (← disposables go lo)
    return none
  | "interface" =>
    if ← introduces w then advance; return some (← interfaceDecl go lo)
    return none
  | "type" =>
    if ← introduces w then advance; return some (← typeAlias go lo)
    return none
  | "enum" =>
    if ← introduces w then advance; return some (← enumDecl go lo)
    return none
  | "async" =>
    match ← next with
    | (.word "function" false, false) =>
      advance
      some <$> functionDecl go decorators (some lo) true
    | _ => return none
  | _ => return none

def atModuleItem : Parse Bool := do
  if ← isWord "export" then return true
  isWord "import" <&&> notM (nextIsPunct ["(", "."])

def statementFrom (go : Level) (declarations : Bool) (lo : Nat) (decorators : Node) :
    Parse Node := do
  match ← token with
  | .punct "\x7b" => blockWith go false
  | .punct ";" => leaf .empty
  | .word w false =>
    match ← wordStatement? go declarations decorators lo w with
    | some n => return n
    | none => expressionStatement go lo decorators
  | _ => expressionStatement go lo decorators

def statement (go : Level) (declarations : Bool) : Parse Node := do
  let lo ← here
  let ds ← decoratorList go
  if ← atModuleItem then fail (.misplaced "import or export")
  statementFrom go declarations lo (decoratorsNode ds)

end Uplift.Grammar
