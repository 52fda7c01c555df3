import Uplift.Grammar.Pattern
import Uplift.Grammar.Template

namespace Uplift.Grammar

open Parse

def keywordTypes : List String :=
  ["any", "bigint", "boolean", "intrinsic", "never", "null", "number", "object", "string", "symbol",
    "undefined", "unknown", "void"]

def typeIdent : Parse Node := do
  match ← token with
  | .word w _ => leaf (.ident w)
  | _ => fail (.expected "a type name")

def ascription (go : Level) : Parse Node := do
  let lo ← here
  expect ":"
  let t ← go .type
  node .type lo [t]

def ascription? (go : Level) : Parse Node := do
  if (← hasTypes) && (← isPunct ":") then ascription go else return .absent

def angled (item : Parse Node) : Parse (List Node) := do
  let items ← many do
    if ← isCloseAngle then return none
    let i ← item
    unless ← isCloseAngle do expect ","
    return some i
  expectCloseAngle
  return items

def typeArguments (go : Level) : Parse Node := do
  let lo ← here
  unless ← isOpenAngle do fail (.expected "<")
  advance
  let ts ← angled (go .type)
  if ts.isEmpty then note lo (.missing "type arguments")
  node .type lo ts

def typeArguments? (go : Level) : Parse Node := do
  if ← notM afterBreak <&&> isOpenAngle then typeArguments go else return .absent

def atModifier (w : String) : Parse Bool := do
  unless ← isWord w do return false
  match ← next with
  | (.word _ _, _) => return true
  | _ => return false

def typeParam (go : Level) : Parse Node := do
  let lo ← here
  let _ ← many do
    if (← atModifier "const") || (← atModifier "in") || (← atModifier "out") then
      advance
      return some ()
    return none
  let name ← typeIdent
  let constraint ← if ← eatWord "extends" then go .type else pure .absent
  let default ← if ← eat "=" then go .type else pure .absent
  node .type lo [name, constraint, default]

def typeParams (go : Level) : Parse Node := do
  let lo ← here
  unless ← isOpenAngle do fail (.expected "<")
  advance
  let ps ← angled (typeParam go)
  if ps.isEmpty then note lo (.missing "type parameters")
  node .type lo ps

def typeParams? (go : Level) : Parse Node := do
  if (← hasTypes) && (← isPunct "<") then typeParams go else return .absent

/-- Reads a name with dots; only its first part refers to something. -/
def entityName : Parse (List Node) := do
  let first ← typeIdent
  let more ← many do
    if ← eat "." then return some (← nameNode)
    return none
  return first :: more

/-- Reads a type, or a claim about a parameter such as `x is T`, after its introduction at `lo`. -/
def typeOrPredicate (go : Level) (lo : Nat) : Parse Node := do
  let c ← context
  let asserted ←
    if ← isWord "asserts" then
      match ← next with
      | (.word w _, fresh) => pure (!fresh && (!c.reserves w || w = "this"))
      | _ => pure false
    else pure false
  if asserted then advance
  let claims ←
    if (← atReference) || (asserted && (← isWord "this")) then
      match ← next with
      | (.word "is" false, fresh) => pure (!fresh)
      | _ => pure false
    else pure false
  if asserted || claims then
    let name ← if ← isWord "this" then leaf .type else typeIdent
    let t ← if claims then do advance; go .type else pure .absent
    node .type lo [name, t]
  else
    let t ← go .type
    node .type lo [t]

def returnType (go : Level) (mark : String) : Parse Node := do
  let lo ← here
  expect mark
  typeOrPredicate go lo

def returnType? (go : Level) : Parse Node := do
  if (← hasTypes) && (← isPunct ":") then returnType go ":" else return .absent

def signatureParams (go : Level) : Parse Node := do
  expect "("
  let ps ← go .params
  expect ")"
  return ps

def functionType (go : Level) (lo : Nat) : Parse Node := do
  let generics ← typeParams? go
  let ps ← signatureParams go
  let result ← returnType go "=>"
  node .type lo [generics, ps, result]

def accessWords : List String := ["public", "private", "protected", "readonly", "override"]

def opensFunctionType (go : Level) : Parse Bool := ahead (do
  expect "("
  if ← isAnyPunct [")", "..."] then return true
  let _ ← many do
    if (← isAnyWord accessWords) && (match (← next).1 with | .word _ _ => true | _ => false) then
      advance
      return some ()
    return none
  let start ←
    if ← atWord then do advance; pure true
    else if ← isAnyPunct ["[", "\x7b"] then do
      let _ ← go (.bindingPattern false)
      pure true
    else pure false
  unless start do return false
  if ← isAnyPunct [":", ",", "?", "="] then return true
  if ← eat ")" then isPunct "=>" else return false) false

def typeKey (go : Level) : Parse Node := do
  match ← token with
  | .word w _ => leaf (.ident w)
  | _ => propertyKey go

def endMember : Parse Unit := do
  unless ← eat "," do expectEnd

def opensIndexSignature : Parse Bool := ahead (do
  expect "["
  unless ← atReference do return false
  advance
  isAnyPunct [":", ","]) false

def indexSignature (go : Level) (lo : Nat) : Parse Node := do
  expect "["
  let nameLo ← here
  let name ← match ← token with
    | .word w _ => do advance; pure w
    | _ => fail
  let t ← ascription go
  let param ← node (.binding name) nameLo [t]
  expect "]"
  let result ← ascription? go
  endMember
  node .type lo [param, result]

def signature (go : Level) (lo : Nat) : Parse Node := do
  let generics ← typeParams? go
  let ps ← signatureParams go
  let result ← returnType? go
  endMember
  node .type lo [generics, ps, result]

def typeAccessor (go : Level) (lo : Nat) : Parse Node := do
  let gets ← eatWord "get"
  unless gets do expectWord "set"
  let key ← typeKey go
  if gets then
    expect "("
    expect ")"
    let t ← ascription? go
    endMember
    node .type lo [key, t]
  else
    let ps ← signatureParams go
    if ps.children.isEmpty then fail (.missing "a parameter")
    endMember
    node .type lo [key, ps]

def typeMember (go : Level) : Parse Node := do
  let lo ← here
  if ← isAnyPunct ["(", "<"] then return ← signature go lo
  if (← isWord "new") && (← nextIsPunct ["(", "<"]) then
    advance
    return ← signature go lo
  let fixed ←
    if ← isWord "readonly" then
      match ← next with
      | (.word _ _, fresh) => pure (!fresh)
      | (.string _, fresh) => pure (!fresh)
      | (.number _, fresh) => pure (!fresh)
      | (.punct "[", fresh) => pure (!fresh)
      | _ => pure false
    else pure false
  if fixed then advance
  if ← opensIndexSignature then return ← indexSignature go lo
  unless fixed do
    if let some accessor ← attempt (some <$> typeAccessor go lo) then return accessor
  let key ← typeKey go
  let _ ← eat "?"
  if ← isAnyPunct ["(", "<"] then
    if fixed then fail (.misplaced "readonly")
    let n ← signature go lo
    return .mk .type n.span (key :: n.children)
  let t ← ascription? go
  endMember
  node .type lo [key, t]

def typeMembers (go : Level) : Parse (List Node) := do
  expect "\x7b"
  let members ← many do
    if ← isPunct "\x7d" then return none
    return some (← typeMember go)
  expect "\x7d"
  return members

def opensMappedType : Parse Bool := ahead (do
  expect "\x7b"
  if ← eat "+" <||> eat "-" then return ← isWord "readonly"
  let _ ← eatWord "readonly"
  unless ← eat "[" do return false
  unless ← atReference do return false
  advance
  isWord "in") false

def mappedType (go : Level) (lo : Nat) : Parse Node := do
  expect "\x7b"
  if ← eat "+" <||> eat "-" then expectWord "readonly"
  else let _ ← eatWord "readonly"
  expect "["
  let name ← typeIdent
  expectWord "in"
  let constraint ← go .type
  let renamed ← if ← eatWord "as" then go .type else pure .absent
  expect "]"
  if ← eat "+" <||> eat "-" then expect "?"
  else let _ ← eat "?"
  let t ← if ← eat ":" then go .type else pure .absent
  expectEnd
  expect "\x7d"
  node .type lo [name, constraint, renamed, t]

def tupleLabel : Parse (Option Node) := attempt do
  let _ ← eat "..."
  let lo ← here
  match ← token with
  | .word w _ =>
    advance
    let label ← node (.binding w) lo []
    let _ ← eat "?"
    expect ":"
    return some label
  | _ => return none

inductive Presence where
  | required
  | optional
  | rest
deriving DecidableEq

def tupleElement (go : Level) : Parse (Node × Presence) := do
  let lo ← here
  let dots ← isPunct "..."
  let label ← tupleLabel
  if label.isSome then
    if dots then
      let t ← go .type
      return (← node .type lo [label.getD .absent, t], .rest)
  if ← eat "..." then
    let t ← go .type
    return (← node .type lo [label.getD .absent, t], .rest)
  let t ← go .type
  let optional ← eat "?"
  let n ← node .type lo [label.getD .absent, t]
  return (n, if optional then .optional else .required)

def misorders : Bool → List Presence → Bool
  | _, [] => false
  | seen, .rest :: rest => misorders seen rest
  | _, .optional :: rest => misorders true rest
  | seen, .required :: rest => seen || misorders seen rest

def tupleType (go : Level) (lo : Nat) : Parse Node := do
  expect "["
  let elements ← many do
    if ← isPunct "]" then return none
    let e ← tupleElement go
    unless ← isPunct "]" do expect ","
    return some e
  expect "]"
  if misorders false (elements.map (·.2)) then failAt lo .badPattern
  node .type lo (elements.map (·.1))

def importType (go : Level) (lo : Nat) : Parse Node := do
  expectWord "import"
  expect "("
  match ← token with
  | .string _ => advance
  | _ => fail (.expected "a string")
  if ← eat "," then
    unless ← isPunct ")" do
      let _ ← go .assignment
      let _ ← eat ","
  expect ")"
  let qualifier ← if ← eat "." then entityName else pure []
  let args ← typeArguments? go
  node .type lo (qualifier ++ [args])

def typeReference (go : Level) (lo : Nat) : Parse Node := do
  let name ← entityName
  let args ← typeArguments? go
  node .type lo (name ++ [args])

def typeQuery (go : Level) (lo : Nat) : Parse Node := do
  expectWord "typeof"
  if ← isWord "import" then importType go lo
  else typeReference go lo

def wordType (go : Level) (w : String) (lo : Nat) : Parse Node := do
  if w = "this" then
    advance
    if !(← afterBreak) && (← isWord "is") then
      advance
      let t ← go .type
      node .type lo [t]
    else node .type lo []
  else if w = "typeof" then typeQuery go lo
  else if w = "import" then importType go lo
  else if w = "true" || w = "false" then leaf .type
  else if keywordTypes.contains w && !(← nextIsPunct ["."]) then leaf .type
  else if Word.isReserved w then fail (.expected "a type")
  else typeReference go lo

def primaryType (go : Level) : Parse Node := do
  let lo ← here
  match ← token with
  | .word w _ => wordType go w lo
  | .string _ => leaf .type
  | .number _ => leaf .type
  | .bigint => leaf .type
  | .punct "-" =>
    advance
    match ← token with
    | .number _ => advance
    | .bigint => advance
    | _ => fail (.expected "a number")
    node .type lo []
  | .punct "\x60" =>
    let parts ← templateParts false (go .type)
    node .type lo (parts.filter (·.kind = .type))
  | .punct "\x7b" =>
    if ← opensMappedType then mappedType go lo
    else
      let members ← typeMembers go
      node .type lo members
  | .punct "[" => tupleType go lo
  | .punct "(" =>
    advance
    let t ← go .type
    expect ")"
    node .type lo [t]
  | _ => fail (.expected "a type")

def arrayType (go : Level) : Parse Node := do
  let lo ← here
  let base ← primaryType go
  loop (fun t => do
    if ← notM afterBreak <&&> eat "[" then
      if ← eat "]" then return .inl (← node .type lo [t])
      let index ← go .type
      expect "]"
      return .inl (← node .type lo [t, index])
    else return .inr t) base

def inferType (go : Level) (lo : Nat) : Parse Node := do
  expectWord "infer"
  let name ← typeIdent
  let bound ← attempt do
    unless ← eatWord "extends" do return none
    let t ← under (fun c => { c with plainTypes := true }) (go .plainType)
    if !(← context).plainTypes && (← isPunct "?") then return none
    return some t
  node .type lo [name, bound.getD .absent]

def typeOperator (go : Level) : Parse Node := do
  let lo ← here
  if (← isAnyWord ["keyof", "unique", "readonly"]) then
    let operand ←
      match (← next).1 with
      | .word _ _ => pure true
      | .string _ => pure true
      | .number _ => pure true
      | .punct p => pure (["(", "[", "\x7b", "\x60", "-"].contains p)
      | _ => pure false
    if operand then
      advance
      let t ← go .typeOperator
      return ← node .type lo [t]
  if (← isWord "infer") && (match (← next).1 with | .word _ _ => true | _ => false) then
    inferType go lo
  else arrayType go

def joinedTypes (mark : String) (item : Parse Node) : Parse Node := do
  let lo ← here
  let _ ← eat mark
  let first ← item
  let more ← many do
    if ← eat mark then return some (← item)
    return none
  if more.isEmpty then return first
  node .type lo (first :: more)

def plainType (go : Level) : Parse Node := do
  let lo ← here
  if (← isPunct "<") || ((← isPunct "(") && (← opensFunctionType go)) then functionType go lo
  else if ← isWord "new" then
    advance
    functionType go lo
  else if (← isWord "abstract") && (← nextIsWord ["new"]) then
    advance
    advance
    functionType go lo
  else joinedTypes "|" (joinedTypes "&" (typeOperator go))

/--
Reads a type. All parts of types are nodes of one kind; what matters about them is the identifiers,
bindings and expressions they hold.
-/
def type (go : Level) : Parse Node := under (fun c => { c with plainTypes := false }) do
  let lo ← here
  let t ← plainType go
  if (← afterBreak) || !(← isWord "extends") then return t
  advance
  let bound ← under (fun c => { c with plainTypes := true }) (plainType go)
  expect "?"
  let yes ← go .type
  expect ":"
  let no ← go .type
  node .type lo [t, bound, yes, no]

end Uplift.Grammar
