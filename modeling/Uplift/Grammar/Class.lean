import Uplift.Grammar.Object

namespace Uplift.Grammar

open Parse

structure Modifiers where
  ambient : Option Nat := none
  access : Bool := false
  static : Bool := false
  abstract : Bool := false
  override : Bool := false
  readonly : Option Nat := none
  accessor : Bool := false
  last : Option Nat := none
deriving Repr, Inhabited

def atMethod : Parse Bool := do
  return (← isPunct "(") || ((← hasTypes) && (← isPunct "<"))

/-- Whether a member is a field; `asi` accepts a line break as its end. -/
def atField (asi : Bool) : Parse Bool := do
  if (← hasTypes) && (← isAnyPunct ["!", ":"]) then return true
  if ← isAnyPunct ["=", "\x7d"] then return true
  if asi then atEnd else isPunct ";"

def atModifierOf (ws : List String) : Parse Bool := do
  unless (← hasTypes) && (← isAnyWord ws) do return false
  match ← next with
  | (.word _ _, fresh) => return !fresh
  | (.string _, fresh) => return !fresh
  | (.number _, fresh) => return !fresh
  | (.bigint, fresh) => return !fresh
  | (.hash _, fresh) => return !fresh
  | (.punct p, fresh) => return !fresh && ["[", "\x7b", "*", "..."].contains p
  | _ => return false

def eatModifier (ws : List String) : Parse Bool := do
  if ← atModifierOf ws then
    advance
    return true
  else return false

def isConstructorKey : Node → Bool
  | .mk (.name "constructor") _ _ => true
  | _ => false

def constructorParam (go : Level) : Parse Node := do
  let lo ← here
  let access ← eatModifier ["public", "protected", "private"]
  let override ← eatModifier ["override"]
  let readonly ← eatModifier ["readonly"]
  let p ← paramPattern go
  if access || override || readonly then
    match p.kind with
    | .binding _ => pure ()
    | .assignPattern => pure ()
    | _ => failAt lo .badPattern
  return p

def constructorParams (go : Level) : Parse Node := do
  let lo ← here
  let ps ← paramList go (constructorParam go)
  node .params lo ps

def declaresField : Node → Bool
  | .mk .param span [ds, p] => ds.isAbsent && span.start < p.span.start
  | _ => false

def constructorMember (go : Level) (lo : Nat) (key : Node) (m : Modifiers) : Parse Node := do
  if m.override then note lo (.misplaced "override")
  let generics ← typeParams? go
  unless generics.isAbsent do note generics.span.start (.misplaced "a type parameter")
  expect "("
  let ps ← under (fun c => (c.forParams false false)) (constructorParams go)
  expect ")"
  let result ← ascription? go
  unless result.isAbsent do note result.span.start (.misplaced "a return type")
  let body ← functionBody go false false (ps.children.all isBareParam)
  if body.isAbsent then
    for p in ps.children do
      if declaresField p then note p.span.start (.misplaced "a modifier")
  if m.abstract then
    if let some offset := m.last then note offset (.misplaced "abstract")
  node .constructor lo [key, ps, body]

def classMethod (go : Level) (lo : Nat) (decorators key : Node) (m : Modifiers)
    (async generator : Bool) (params : Parse Node) : Parse Node := do
  let f ← under (·.forMethod) (functionParts go lo decorators async generator params)
  match key.kind with
  | .privateName _ => if m.access then note lo (.misplaced "a modifier")
  | _ => if m.abstract && !(f.child 4).isAbsent then note lo (.misplaced "a body")
  node .method lo [key, f]

def fieldMember (go : Level) (lo : Nat) (decorators key : Node) (m : Modifiers) (optional : Bool) :
    Parse Node := do
  if isConstructorKey key then failAt key.span.start (.misplaced "constructor")
  if let .privateName _ := key.kind then
    if m.ambient.isSome || m.access then note key.span.start (.misplaced "a modifier")
  if (← hasTypes) && !optional then let _ ← eat "!"
  let t ← ascription? go
  under (fun c => { c with allowIn := true, inField := true }) do
    let value ← if ← eat "=" then go .assignment else pure .absent
    unless ← eatEnd do note (← here) (.expected ";")
    node .field lo [decorators, key, t, value]

def staticBlock (go : Level) (lo : Nat) : Parse Node := do
  let b ← under (fun c => { c with inStaticBlock := true, inField := true }) (blockWith go false)
  node .staticBlock lo [b]

def trailingModifiers (start : Modifiers) (derived : Bool) : Parse Modifiers :=
  loop (fun m => do
    if (← isWord "static") && (← nextIsPunct ["\x7b"]) then return .inr m
    let lo ← here
    if ← eatModifier ["static"] then
      if m.override then note lo (.misplaced "static")
      return .inl { m with static := true, last := some lo }
    if ← eatModifier ["abstract"] then
      if m.abstract || m.override then note lo (.misplaced "abstract")
      return .inl { m with abstract := true, last := some lo }
    if ← eatModifier ["override"] then
      if m.override || m.readonly.isSome || m.ambient.isSome || !derived then
        note lo (.misplaced "override")
      return .inl { m with override := true, last := some lo }
    if ← eatModifier ["readonly"] then
      if m.readonly.isSome then note lo (.duplicate "readonly")
      return .inl { m with readonly := some lo, last := some lo }
    return .inr m) start

def classAccessor (go : Level) (lo : Nat) (decorators : Node) (m : Modifiers) (gets : Bool)
    (wordLo : Nat) : Parse Node := do
  let key ← memberKey go
  if m.readonly.isSome then note wordLo (.misplaced "readonly")
  if isConstructorKey key then note wordLo (.misplaced "an accessor")
  let params := if gets then getterParams go wordLo else setterParams go wordLo
  classMethod go lo decorators key m false false params

def keyedMember (go : Level) (lo : Nat) (decorators : Node) (m : Modifiers) : Parse Node := do
  if ← eat "*" then
    let key ← memberKey go
    if m.readonly.isSome then note lo (.misplaced "readonly")
    if isConstructorKey key then note lo (.misplaced "a generator")
    return ← classMethod go lo decorators key m false true (formalParams go)
  let key ←
    match m.readonly with
    | some offset => do
      if ← isAnyPunct ["!", ":"] then pure (Node.mk (.name "readonly") ⟨offset, offset + 8⟩ [])
      else memberKey go
    | none => memberKey go
  let optional ← if ← hasTypes then eat "?" else pure false
  if ← atMethod then
    if let some offset := m.ambient then note offset (.misplaced "declare")
    if m.readonly.isSome then failAt lo (.misplaced "readonly")
    if isConstructorKey key && !m.static then return ← constructorMember go lo key m
    return ← classMethod go lo decorators key m false false (formalParams go)
  let accesses ←
    match key.kind with
    | .name w =>
      if w = "get" || w = "set" then do
        let generatorBelow := (← afterBreak) && (← isPunct "*")
        pure (!(← atField false) && !generatorBelow)
      else pure false
    | _ => pure false
  if !accesses && (← atField true) then return ← fieldMember go lo decorators key m optional
  match key.kind with
  | .name "async" =>
    if ← afterBreak then fail
    let generator ← eat "*"
    let key ← memberKey go
    if isConstructorKey key then failAt key.span.start (.misplaced "async")
    if m.readonly.isSome then failAt lo (.misplaced "readonly")
    if ← hasTypes then let _ ← eat "?"
    classMethod go lo decorators key m true generator (formalParams go)
  | .name "get" => if accesses then classAccessor go lo decorators m true key.span.start else fail
  | .name "set" => if accesses then classAccessor go lo decorators m false key.span.start else fail
  | _ => fail

def modifiedMember (go : Level) (lo : Nat) (decorators : Node)
    (start : Modifiers) (derived : Bool) : Parse Node := do
  let m ← trailingModifiers start derived
  let m ←
    if (← hasTypes) && (← isWord "accessor") && (← nextIsWordInLine) then do
      advance
      pure { m with accessor := true }
    else pure m
  if m.static && (← isPunct "\x7b") then
    if let some offset := m.ambient then note offset (.misplaced "declare")
    if m.access then note lo (.misplaced "a modifier")
    return ← staticBlock go lo
  if (← isWord "static") && (← nextIsPunct ["\x7b"]) then
    if let some offset := m.last then note offset (.misplaced "a modifier")
    advance
    return ← staticBlock go lo
  if (← hasTypes) && !m.abstract && !m.override && !m.access && (← opensIndexSignature) then
    return ← indexSignature go lo
  keyedMember go lo decorators m

/-- Reads a member whose key turned out to be a word taken for a modifier. -/
def wordMember (go : Level) (lo : Nat) (decorators : Node) (w : String) (wordLo : Nat)
    (m : Modifiers) (asi : Bool) : Parse (Option Node) := do
  let key := Node.mk (.name w) ⟨wordLo, wordLo + w.utf8ByteSize⟩ []
  if ← atMethod then
    return some (← classMethod go lo decorators key m false false (formalParams go))
  if ← atField asi then return some (← fieldMember go lo decorators key m false)
  if ← hasTypes <&&> eat "?" then return some (← fieldMember go lo decorators key m true)
  return none

def classMember (go : Level) (derived : Bool) : Parse Node := do
  let lo ← here
  let ds := decoratorsNode (← decoratorList go)
  let wordLo ← here
  let first ← if ← hasTypes then eatWord "declare" else pure false
  if first then
    if let some n ← wordMember go lo ds "declare" wordLo {} true then return n
  let access ← eatModifier ["public", "protected", "private"]
  let againLo ← here
  let second ← if access && !first && (← hasTypes) then eatWord "declare" else pure false
  if second then
    if let some n ← wordMember go lo ds "declare" againLo { access } true then return n
  let ambient := if first then some wordLo else if second then some againLo else none
  let staticLo ← here
  let m : Modifiers := { ambient, access }
  if ← eatWord "static" then
    if let some n ← wordMember go lo ds "static" staticLo m false then return n
    modifiedMember go lo ds { m with static := true, last := some staticLo } derived
  else modifiedMember go lo ds m derived

def isFullConstructor : Node → Bool
  | .mk .constructor _ [_, _, b] => !b.isAbsent
  | _ => false

/-- Reads the members of a class, of which only one can be a constructor with a body. -/
def classMembers (go : Level) (derived : Bool) : Parse Node := do
  let lo ← here
  let ms ← loop (fun ((done, seen) : List Node × Bool) => do
    if (← isPunct "\x7d") || (← token) == .eof then return .inr done.reverse
    if ← eat ";" then return .inl (done, seen)
    let m ← under (fun c => { c with superAllowed := true, inClass := true })
      (classMember go derived)
    let full := isFullConstructor m && !(← context).ambient
    if seen && full then note m.span.start (.duplicate "constructor")
    return .inl (m :: done, seen || full)) ([], false)
  node .members lo ms

def heritage (go : Level) : Parse (List Node) := do
  let item : Parse Node := do
    let lo ← here
    let name ← entityName
    let args ← typeArguments? go
    node .type lo (name ++ [args])
  let first ← item
  let more ← many do
    if ← eat "," then return some (← item)
    return none
  return first :: more

def superclass (go : Level) : Parse (Node × Node) := do
  let e ← go .leftHandSide
  match e with
  | .mk .instantiation _ [e, args] => return (e, args)
  | e => return (e, ← if ← hasTypes then typeArguments? go else pure .absent)

/-- Passes a clause of a class that stands in the wrong place, from its keyword on. -/
def passClause {α : Type} (clause : Parse α) : Parse Unit := do
  note (← here) (.misplaced "a clause")
  advance
  let _ ← clause

def isTypeWord (w : String) : Bool := keywordTypes.contains w && w != "undefined"

def classParts (go : Level) (decorators : Node) (named : Bool) : Parse (Node × Node) :=
  under (fun c => { c with strict := true }) do
  let classLo ← here
  expectWord "class"
  let named := named
    || ((← atWord) && !(← isWord "extends") && !((← hasTypes) && (← isWord "implements")))
  let name ← if named then asIdent <$> bindingIdent true else pure .absent
  if ← hasTypes then
    if let .ident w := name.kind then
      if isTypeWord w then note name.span.start .reservedWord
  let generics ← typeParams? go
  let (base, args) ←
    if ← eatWord "extends" then do
      let r ← superclass go
      if ← hasTypes <&&> eat "," then
        for t in ← heritage go do note t.span.start (.misplaced "a second superclass")
      pure r
    else pure (Node.absent, Node.absent)
  if ← isWord "extends" then passClause (superclass go)
  let interfaces ← if ← hasTypes <&&> eatWord "implements" then heritage go else pure []
  if ← hasTypes then
    if ← isWord "implements" then passClause (heritage go)
    if ← isWord "extends" then passClause (superclass go)
  let derived := !base.isAbsent
  expect "\x7b"
  let members ← classMembers go derived
  if (← token) == .eof then note (← here) (.expected "\x7d") else expect "\x7d"
  let body ← node .classBody classLo
    [decorators, generics, base, args, .mk .interfaces ⟨classLo, classLo⟩ interfaces, members]
  return (name, body)

def classDecl (go : Level) (lo : Nat) (decorators : Node) (named : Bool) : Parse Node := do
  let (name, body) ← classParts go decorators named
  node .classDecl lo [name, body]

def classExpr (go : Level) (lo : Nat) (decorators : Node) : Parse Node := do
  let (name, body) ← classParts go decorators false
  node .classExpr lo [name, body]

end Uplift.Grammar
