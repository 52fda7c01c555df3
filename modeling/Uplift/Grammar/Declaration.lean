import Uplift.Grammar.Class

namespace Uplift.Grammar

open Parse

mutual

def checkNoDefaults : Node → Parse Unit
  | .mk .functionExpr _ _ => return
  | .mk (.arrow _) _ _ => return
  | .mk .defaultedProperty span _ => note span.start (.misplaced "a default")
  | .mk _ _ children => checkAllNoDefaults children

def checkAllNoDefaults : List Node → Parse Unit
  | [] => return
  | n :: ns => do
    checkNoDefaults n
    checkAllNoDefaults ns

end

def variableValue (go : Level) (lo : Nat) (pattern : Node) (declaring : Declaring) (inHead : Bool) :
    Parse Node := do
  if inHead && (← isAnyWord ["of", "in"]) then return .absent
  if ← eat "=" then
    let e ← go .assignment
    checkNoDefaults e
    return e
  if (← context).ambient then return .absent
  if declaring = .constant && !inHead then
    note lo (.missing "an initializer")
    return .absent
  match pattern.kind with
  | .binding _ => return .absent
  | _ => failAt lo (.missing "an initializer")

def declarator (go : Level) (declaring : Declaring) (inHead : Bool) : Parse Node := do
  let lo ← here
  let bare ← go (.bindingPattern (declaring != .hoisted))
  if ← hasTypes then
    if let .binding _ := bare.kind then let _ ← eat "!"
  let t ← ascription? go
  let pattern := if t.isAbsent then bare else annotated bare t
  let value ← variableValue go lo pattern declaring inHead
  node .declarator lo [pattern, value]

/-- Whether the head of a loop goes on without a variable, as in `for (var of xs)`. -/
def lacksVariable (go : Level) : Parse Bool := do
  unless ← hasTypes <&&> isAnyWord ["of", "in"] do return false
  ahead (do
    advance
    let _ ← go .assignment
    isPunct ")") false

def declarators (go : Level) (declaring : Declaring) (inHead : Bool) (keywordStop : Nat) :
    Parse (List Node) :=
  loop (fun done => do
    if ← isPunct ";" then
      let s ← state
      note (if s.lastStop = keywordStop then s.lastStop else s.lastStart) (.missing "a variable")
      return .inr done
    let d ← under (fun c => { c with allowIn := declaring != .hoisted || !inHead || c.allowIn })
      (declarator go declaring inHead)
    let done := done ++ [d]
    if ← eat "," then return .inl done else return .inr done) []

def skipToEnd (go : Level) : Parse Unit := do
  tolerate (go .expression)
  let _ ← many do
    if ← eatEnd then return none
    advance
    return some ()

def varDeclaration (go : Level) (declaring : Declaring) (inHead : Bool) : Parse Node := do
  let lo ← here
  advance
  let keywordStop ← last
  if inHead then
    if ← lacksVariable go then
      note keywordStop (.missing "a variable")
      return ← node (.varDecl declaring false) lo []
  let ds ← declarators go declaring inHead keywordStop
  unless inHead do
    unless ← eatEnd do
      note (← here) (.expected ";")
      skipToEnd go
  node (.varDecl declaring false) lo ds

def declaring? : Parse (Option Declaring) := do
  match ← token with
  | .word "var" false => return some .hoisted
  | .word "const" false => return some .constant
  | .word "let" false =>
    match (← next).1 with
    | .word w masked =>
      return if !masked && Word.isReserved w && w != "enum" then none else some .scoped
    | .punct p => return if p = "[" || p = "\x7b" then some .scoped else none
    | _ => return none
  | _ => return none

def atUsing : Parse Bool := do
  unless ← isWord "using" do return false
  match ← next with
  | (.word w _, fresh) => return !fresh && !(← context).reserves w
  | _ => return false

def isBareVariable : Node → Bool
  | .mk .declarator _ [_, value] => value.isAbsent
  | _ => false

def isDestructured : Node → Bool
  | .mk .declarator _ (.mk (.binding _) _ _ :: _) => false
  | _ => true

/--
Reads a declaration of disposable variables, from `using` on. Only typed programs have them, and
each variable is an identifier with a value.
-/
def disposables (go : Level) (lo : Nat) : Parse Node := do
  advance
  let ds ← loop (fun done => do
    let done := done ++ [← declarator go .hoisted false]
    if ← eat "," then return .inl done else return .inr done) []
  unless ← hasTypes do note lo (.misplaced "using")
  for d in ds do
    if isDestructured d then note lo .badPattern
    if isBareVariable d then note lo (.missing "an initializer")
  expectEnd
  node (.varDecl .disposable false) lo ds

def introducesDisposable (e : Node) : Parse Bool := do
  let word := match e with
    | .mk .await _ [e] => e
    | e => e
  return word.kind = .ident "using" && (← hasTypes) && !(← isWord "of") &&
    (← nextIsWord ["of", "in"])

def disposable (lo : Nat) : Parse Node := do
  let dLo ← here
  let p ← bindingIdent false
  let d ← node .declarator dLo [p, .absent]
  node (.varDecl .disposable false) lo [d]

def enumMember (go : Level) : Parse Node := do
  let lo ← here
  let key ←
    match ← token with
    | .word w _ => leaf (.ident w)
    | .string _ => leaf .string
    | .number zero => do
      note lo (.misplaced "a number")
      leaf (.number zero)
    | .punct "[" => do
      advance
      let e ← go .assignment
      unless e.kind = .string || e.kind = .template do note lo .unexpectedToken
      expect "]"
      node .computed lo [e]
    | _ => fail (.expected "a name")
  let value ← if ← eat "=" then go .assignment else pure .absent
  node .typeDecl lo [key, value]

def enumDecl (go : Level) (lo : Nat) : Parse Node := do
  let name ← typeIdent
  let (members, _) ← braced (enumMember go)
  node .typeDecl lo (name :: members)

def interfaceDecl (go : Level) (lo : Nat) : Parse Node := do
  let name ← typeIdent
  if let .ident w := name.kind then
    if isTypeWord w then note name.span.start .reservedWord
  let generics ← typeParams? go
  let bases ← if ← eatWord "extends" then heritage go else pure []
  if ← isWord "implements" then note (← here) (.misplaced "implements")
  let members ← typeMembers go
  node .typeDecl lo (name :: generics :: bases ++ members)

def typeAlias (go : Level) (lo : Nat) : Parse Node := do
  let name ← typeIdent
  let generics ← typeParams? go
  expect "="
  let t ← go .type
  expectEnd
  node .typeDecl lo [name, generics, t]

def namespaceDecl (go : Level) (lo : Nat) : Parse Node := do
  let first ← typeIdent
  let more ← many do
    if ← eat "." then return some (← typeIdent)
    return none
  let body ← go .namespaceBody
  node .typeDecl lo (first :: more ++ [body])

def externalModule (go : Level) (lo : Nat) : Parse Node := do
  let name ←
    match ← token with
    | .word "global" false => leaf (.ident "global")
    | .string _ => leaf .string
    | _ => fail
  if ← isPunct "\x7b" then
    let body ← go .namespaceBody
    node .typeDecl lo [name, body]
  else
    expectEnd
    node .typeDecl lo [name]

/--
Reads a declaration that the word `w` introduces, if it does. The word is still the current token
where `ahead` holds.
-/
def typedDecl? (go : Level) (lo : Nat) (decorators : Node) (w : String) (ahead : Bool) :
    Parse (Option Node) := do
  let pass : Parse Unit := if ahead then advance else return
  if w = "abstract" then
    if ahead || ((← isWord "class") && !(← afterBreak)) then
      pass
      return some (← classDecl go lo decorators true)
  else if w = "enum" then
    if ← pure ahead <||> atReference then
      pass
      return some (← enumDecl go lo)
  else if w = "interface" then
    if ← pure ahead <||> atReference then
      pass
      return some (← interfaceDecl go lo)
  else if w = "module" then
    if !ahead && (← afterBreak) then return none
    pass
    match ← token with
    | .string _ => return some (← externalModule go lo)
    | _ => if ← pure ahead <||> atReference then return some (← namespaceDecl go lo)
  else if w = "namespace" then
    if ← pure ahead <||> atReference then
      pass
      return some (← namespaceDecl go lo)
  else if w = "type" then
    if ahead || (!(← afterBreak) && (← atReference)) then
      pass
      return some (← typeAlias go lo)
  return none

def asAmbient (lo : Nat) : Node → Node
  | .mk (.varDecl d _) span ds => .mk (.varDecl d true) ⟨lo, span.stop⟩ ds
  | .mk k span cs => .mk k ⟨lo, span.stop⟩ cs

def ambientDecl? (go : Level) (lo : Nat) (decorators : Node) : Parse (Option Node) := do
  if (← context).ambient && !(← context).inNamespace then note lo (.misplaced "declare")
  under (fun c => { c with ambient := true }) do
    if ← isWord "function" then return some (asAmbient lo (← functionDecl go decorators none true))
    if ← isWord "class" then return some (← classDecl go lo decorators true)
    if (← isWord "const") && (← nextIsWord ["enum"]) then
      advance
      advance
      return some (← enumDecl go lo)
    match ← declaring? with
    | some d => return some (asAmbient lo (← varDeclaration go d false))
    | none =>
      if ← isWord "global" then return some (← externalModule go lo)
      match ← token with
      | .word w false => typedDecl? go lo decorators w true
      | _ => return none

def wordDecl? (go : Level) (lo : Nat) (decorators : Node) (w : String) : Parse (Option Node) := do
  if w = "declare" then ambientDecl? go lo decorators
  else if w = "global" then
    unless ← isPunct "\x7b" do return none
    let body ← go .namespaceBody
    return some (← node .typeDecl lo [.mk (.ident "global") ⟨lo, lo + 6⟩ [], body])
  else typedDecl? go lo decorators w false

end Uplift.Grammar
