import Uplift.Grammar.Statement

namespace Uplift.Grammar

open Parse

def stringNode : Parse Node := do
  match ← token with
  | .string _ => leaf .string
  | _ => fail (.expected "a string")

def attributes (go : Level) : Parse Unit := do
  if ← hasTypes <&&> notM afterBreak then
    if ← eatWord "with" <||> eatWord "assert" then let _ ← object go

def source (go : Level) : Parse Unit := do
  expectWord "from"
  let _ ← stringNode
  attributes go
  expectEnd

def exportName : Parse Node := do
  match ← token with
  | .word w _ => leaf (.ident w)
  | .string _ => leaf .string
  | _ => fail (.expected "a name")

def importedName : Parse Node := asIdent <$> bindingIdent false

def renamed (bound : Parse Node) : Parse (Option Node) := do
  if ← eatWord "as" then some <$> bound else return none

/--
Reads a specifier in braces, of which `bound` reads the name after `as`. Answers with the names, the
first of them being the one that exists elsewhere. With types it can start with `type`.
-/
def specifier (bound : Parse Node) : Parse (List Node) := do
  let first ← exportName
  unless (← hasTypes) && first.kind = .ident "type" && !(← isAnyPunct [",", "\x7d"]) do
    return first :: (← renamed bound).toList
  -- After `type`, the word `as` can be the name itself.
  if ← isWord "as" then
    let asLo ← here
    advance
    if ← isAnyPunct [",", "\x7d"] then return [← node (.ident "as") asLo []]
    if ← isWord "as" then
      let againLo ← here
      advance
      if ← isAnyPunct [",", "\x7d"] then return [first, ← node (.ident "as") againLo []]
      return [.mk (.ident "as") ⟨asLo, asLo + 2⟩ [], ← bound]
    return [first, ← bound]
  let name ← exportName
  return name :: (← renamed bound).toList

def importSpecifier : Parse Node := do
  let lo ← here
  let names ← specifier importedName
  match names with
  | [.mk (.ident w) span _] => if (← context).reserves w then failAt span.start .reservedWord
  | [.mk _ span _] => failAt span.start (.misplaced "a string")
  | _ => pure ()
  node .moduleItem lo names

def exportSpecifier : Parse Node := do
  let lo ← here
  let names ← specifier exportName
  node .moduleItem lo names

def importAlias (lo : Nat) (name : Node) : Parse Node := do
  expect "="
  if (← isWord "require") && (← nextIsPunct ["("]) then
    advance
    advance
    let s ← stringNode
    expect ")"
    expectEnd
    node .moduleItem lo [name, s]
  else
    let target ← entityName
    expectEnd
    node .moduleItem lo (name :: target)

/-- Whether the word after `type` is imported, so that `type` is no name. -/
def importsType (first : Node) : Parse Bool := do
  unless (← hasTypes) && first.kind = .ident "type" && (← atReference) do return false
  if ← isWord "from" then return (← nextIsWord ["from"]) || (← nextIsPunct ["="])
  return true

def importedNames : Parse (List Node) := do
  if ← eat "*" then
    expectWord "as"
    return [← importedName]
  if ← isPunct "\x7b" then return (← braced importSpecifier).1
  return []

def importDecl (go : Level) : Parse Node := do
  let lo ← here
  advance
  if let .string _ := ← token then
    let s ← stringNode
    attributes go
    expectEnd
    return ← node .moduleItem lo [s]
  let default ←
    if ← atReference then do
      let first ← importedName
      let opensNames ← isAnyPunct ["\x7b", "*"]
      if opensNames && ((← hasTypes) && first.kind = .ident "type" || first.kind = .ident "defer"
          || first.kind = .ident "source") then pure []
      else
        let name ← if ← importsType first then importedName else pure first
        if ← hasTypes <&&> isPunct "=" then return ← importAlias lo name
        unless ← isWord "from" do expect ","
        pure [name]
    else pure []
  let names ← importedNames
  source go
  node .moduleItem lo (default ++ names)

def asDefault : Node → Node
  | .mk _ span cs => .mk .defaultDecl span cs

def exportDefault (go : Level) (lo : Nat) (decorators : Node) : Parse Node := do
  let inner ← here
  let more ← decoratorList go
  if !more.isEmpty && !decorators.isAbsent then failAt inner (.duplicate "decorators")
  let decorators := if more.isEmpty then decorators else decoratorsNode more
  let declLo ← here
  if ← hasTypes then
    if (← isWord "abstract") && (← nextIsWord ["class"]) then
      advance
      let d ← asDefault <$> classDecl go declLo decorators false
      return ← node .moduleItem lo [d]
    if ← isWord "interface" then
      advance
      let d ← interfaceDecl go declLo
      return ← node .moduleItem lo [d]
  if ← isWord "class" then
    let d ← asDefault <$> classDecl go declLo decorators false
    return ← node .moduleItem lo [d]
  if ← isWord "function" then
    let d ← asDefault <$> functionDecl go decorators none false
    return ← node .moduleItem lo [d]
  if ← isWord "async" then
    if let (.word "function" false, false) := ← next then
      advance
      let d ← asDefault <$> functionDecl go decorators (some declLo) false
      return ← node .moduleItem lo [d]
  let e ← under (fun c => { c with allowIn := true }) (go .assignment)
  expectEnd
  node .moduleItem lo [e]

def typedExport? (go : Level) (lo : Nat) (decorators : Node) : Parse (Option Node) := do
  let declLo ← here
  if ← eatWord "declare" then
    if let some d ← ambientDecl? go declLo decorators then return some (← node .moduleItem lo [d])
  match ← token with
  | .word w false =>
    if ["abstract", "enum", "interface", "module", "namespace", "type"].contains w then
      let tried ← attempt (typedDecl? go declLo decorators w true)
      if let some d := tried then return some (← node .moduleItem lo [d])
  | _ => pure ()
  if ← eatWord "import" then
    if (← isWord "type") && (← nextIsWordInLine) then advance
    let name ← typeIdent
    return some (← importAlias lo name)
  if ← eat "=" then
    let e ← go .expression
    expectEnd
    return some (← node .moduleItem lo [e])
  if ← eatWord "as" then
    expectWord "namespace"
    let name ← identNode
    expectEnd
    return some (← node .moduleItem lo [name])
  return none

def checkLocalExport (specifier : Node) : Parse Unit := do
  match specifier.children.head? with
  | some (.mk (.ident w) span _) => if Word.isReserved w then note span.start .reservedWord
  | some n => note n.span.start (.misplaced "a string")
  | none => return

def namedExport (go : Level) (lo : Nat) : Parse Node := do
  if ← eat "*" then
    let names ← if ← eatWord "as" then List.singleton <$> exportName else pure []
    source go
    return ← node .moduleItem lo names
  let (specifiers, _) ← braced exportSpecifier
  if ← isWord "from" then source go
  else
    for s in specifiers do checkLocalExport s
    let _ ← eatEnd
  node .moduleItem lo specifiers

def exportDecl (go : Level) (decorators : Node) : Parse Node := do
  let lo ← here
  advance
  if ← hasTypes then
    if let some n ← typedExport? go lo decorators then return n
  let typeOnly ← hasTypes <&&> eatWord "type"
  unless typeOnly do
    if ← eatWord "default" then return ← exportDefault go lo decorators
    let inner ← here
    let more ← decoratorList go
    if !more.isEmpty && !decorators.isAbsent then failAt inner (.duplicate "decorators")
    let decorators := if more.isEmpty then decorators else decoratorsNode more
    let declLo ← here
    if ← isWord "class" then
      let d ← classDecl go declLo decorators true
      return ← node .moduleItem lo [d]
    if ← isWord "function" then
      let d ← functionDecl go decorators none true
      return ← node .moduleItem lo [d]
    if ← isWord "async" then
      if let (.word "function" false, false) := ← next then
        advance
        let d ← functionDecl go decorators (some declLo) true
        return ← node .moduleItem lo [d]
    if (← hasTypes) && (← isWord "const") && (← nextIsWord ["enum"]) then
      advance
      advance
      let d ← enumDecl go declLo
      return ← node .moduleItem lo [d]
    if let some d ← declaring? then
      let d ← varDeclaration go d false
      return ← node .moduleItem lo [d]
  namedExport go lo

def moduleItem (go : Level) : Parse Node := do
  let lo ← here
  let ds ← decoratorList go
  if ← atModuleItem then
    if (← context).topLevel then modify fun s => { s with isModule := true }
    if ← isWord "import" then importDecl go
    else
      if !ds.isEmpty && !(← hasTypes) then failAt lo (.misplaced "a decorator")
      exportDecl go (decoratorsNode ds)
  else statementFrom go true lo (decoratorsNode ds)

def namespaceBody (go : Level) : Parse Node := do
  let lo ← here
  expect "\x7b"
  let items ← under (fun c => { c with topLevel := false, inNamespace := true }) (many do
    if ← isPunct "\x7d" then return none
    return some (← moduleItem go))
  expect "\x7d"
  node .typeDecl lo items

end Uplift.Grammar
