import Uplift.Grammar.Name

namespace Uplift.Grammar

open Parse

def initializer (go : Level) : Parse Node :=
  under (fun c => { c with allowIn := true, colonAhead := false }) (go .assignment)

def bindingElement (go : Level) : Parse Node := do
  let lo ← here
  let left ← go (.bindingPattern false)
  if ← eat "=" then
    let right ← initializer go
    if (← context).ambient then note lo (.misplaced "a default")
    node .assignPattern lo [left, right]
  else return left

def arrayElements (go : Level) : Parse (List Node) :=
  loop (fun ((done, rested) : List Node × Option Nat) => do
    if (← isPunct "]") || (← token) == .eof then return .inr done.reverse
    if ← eat "," then return .inl (Node.absent :: done, rested)
    if let some offset := rested then note offset (.misplaced "a rest element")
    let lo ← here
    let rest ← eat "..."
    let element ←
      if rest then do
        let p ← go (.bindingPattern false)
        node .restPattern lo [p, .absent]
      else bindingElement go
    unless ← isPunct "]" do
      expect ","
      if rest && (← isPunct "]") then note (← previous) (.misplaced "a comma after a rest element")
    return .inl (element :: done, if rest then some lo else rested)) ([], none)

def ambientOptional : Parse Unit := do
  if (← context).ambient && (← hasTypes) then let _ ← eat "?"

def arrayPattern (go : Level) : Parse Node := do
  let lo ← here
  expect "["
  let elements ← arrayElements go
  expect "]"
  let pattern ← node .arrayPattern lo []
  ambientOptional
  return .mk .arrayPattern pattern.span [.mk .elements pattern.span elements, .absent]

def patternProperty (go : Level) : Parse Node := do
  let lo ← here
  if ← eat "..." then
    let p ← go (.bindingPattern false)
    return ← node .restPattern lo [p, .absent]
  let key ← propertyKey go
  if ← eat ":" then
    let value ← bindingElement go
    return ← node .keyedPattern lo [key, value]
  match key with
  | .mk (.name w) span _ =>
    let binding := Node.mk (.binding w) span []
    if ← eat "=" then
      let value ← initializer go
      node .shorthandPattern lo [binding, value]
    else
      if (← context).reserves w then note span.start .reservedWord
      node .shorthandPattern lo [binding, .absent]
  | _ => fail (.expected "an identifier")

/-- A rest property stands last, has no comma after it and holds an identifier. -/
def checkRestProperties (comma : Option Nat) : List Node → Parse Unit
  | [] => return
  | [.mk .restPattern _ (.mk (.binding _) _ _ :: _)] => do
    if let some offset := comma then note offset (.misplaced "a comma after a rest element")
  | [.mk .restPattern span _] => failAt span.start .badPattern
  | p :: rest => do
    if p.kind = .restPattern then note p.span.start .badPattern
    checkRestProperties comma rest

def braced (item : Parse Node) : Parse (List Node × Option Nat) := do
  expect "\x7b"
  let items ← many do
    if ← isPunct "\x7d" then return none
    let i ← item
    if ← isPunct "\x7d" then return some (i, none)
    let comma ← here
    expect ","
    return some (i, if ← isPunct "\x7d" then some comma else none)
  expect "\x7d"
  return (items.map (·.1), items.getLast?.bind (·.2))

def objectPattern (go : Level) : Parse Node := do
  let lo ← here
  let (properties, comma) ← braced (patternProperty go)
  checkRestProperties comma properties
  let pattern ← node .objectPattern lo []
  ambientOptional
  return .mk .objectPattern pattern.span [.mk .properties pattern.span properties, .absent]

def bindingPattern (go : Level) (lexical : Bool) : Parse Node := do
  if ← isPunct "[" then arrayPattern go
  else if ← isPunct "\x7b" then objectPattern go
  else bindingIdent lexical

def annotated (pattern t : Node) : Node :=
  match pattern with
  | .mk .arrayPattern span [elements, _] => .mk .arrayPattern span [elements, t]
  | .mk .objectPattern span [properties, _] => .mk .objectPattern span [properties, t]
  | .mk .restPattern span [arg, _] => .mk .restPattern span [arg, t]
  | .mk (.binding w) span _ => .mk (.binding w) span [t]
  | p => p

def stretched (n : Node) (stop : Nat) : Node := .mk n.kind ⟨n.span.start, stop⟩ n.children

def isSimpleTarget (strict : Bool) : Node → Bool
  | .mk (.ident name) _ _ => !(strict && isRestricted name)
  | .mk (.binding name) _ _ => !(strict && isRestricted name)
  | .mk .member _ _ => true
  | .mk .index _ _ => true
  | .mk .superMember _ _ => true
  | .mk .paren _ [e] => isSimpleTarget strict e
  | .mk .nonNull _ [e] => isSimpleTarget strict e
  | .mk .asType _ [e, _] => isSimpleTarget strict e
  | .mk .satisfies _ [e, _] => isSimpleTarget strict e
  | .mk .cast _ [_, e] => isSimpleTarget strict e
  | .mk .instantiation _ [e, _] => isSimpleTarget strict e
  | _ => false

/-- With types, literals and, where `calls` holds, calls are let through as targets. -/
def isDeniedTarget (calls : Bool) : Node → Bool
  | .mk .paren _ [e] => isDeniedTarget calls e
  | .mk .call _ _ => !calls
  | .mk (.binary _) _ _ => false
  | .mk .string _ _ => false
  | .mk (.number _) _ _ => false
  | .mk .bigint _ _ => false
  | .mk .boolean _ _ => false
  | .mk .null _ _ => false
  | .mk .regex _ _ => false
  | _ => true

def checkTarget (e : Node) (calls : Bool) : Parse Unit := do
  let c ← context
  let simple := isSimpleTarget c.strict e
  if c.dialect.hasTypes then
    match e.kind with
    | .ident name =>
      if isRestricted name then noteStrict e.span.start name
    | _ => if !simple && isDeniedTarget calls e then note e.span.start .badTarget
  else if !simple then note e.span.start .badTarget

/-- What an expression is to be turned into. -/
inductive Cover where
  | binding
  | target
  | part
deriving DecidableEq, Repr

def Cover.inner : Cover → Cover
  | binding => binding
  | _ => part

def isPlainPart : Kind → Bool
  | .member | .index | .superMember | .call | .new | .string | .number _ | .bigint | .boolean
  | .null | .regex | .ident _ | .functionExpr | .classExpr | .paren | .template | .asType
  | .nonNull | .satisfies | .cast | .instantiation => true
  | _ => false

def invalidAt (span : Range) : Node := .mk .invalid span []

def coverElements (turn : Node → Parse Node) (comma : Option Nat) : List Node → Parse (List Node)
  | [] => return []
  | [.mk .spread span [e]] => do
    if let .assign _ := e.kind then note span.start .badPattern
    if let some offset := comma then note offset (.misplaced "a comma after a rest element")
    let p ← turn e
    return [.mk .restPattern span [p, .absent]]
  | .mk .spread span _ :: rest => do
    note span.start .badPattern
    coverElements turn comma rest
  | .mk .absent span _ :: rest => do
    return .mk .absent span [] :: (← coverElements turn comma rest)
  | e :: rest => do
    let p ← turn e
    return p :: (← coverElements turn comma rest)

def coverProperties (cover : Cover) (turn : Node → Parse Node) (comma : Option Nat) :
    List Node → Parse (List Node)
  | [] => return []
  | .mk (.ident w) span _ :: rest => do
    let p := Node.mk .shorthandPattern span [.mk (.binding w) span [], .absent]
    return p :: (← coverProperties cover turn comma rest)
  | .mk .property span [key, value] :: rest => do
    let p ← turn value
    return .mk .keyedPattern span [key, p] :: (← coverProperties cover turn comma rest)
  | .mk .defaultedProperty span [.mk (.ident w) s _, value] :: rest => do
    let p := Node.mk .shorthandPattern span [.mk (.binding w) s [], value]
    return p :: (← coverProperties cover turn comma rest)
  | .mk .spread span [e] :: rest => do
    if rest.isEmpty then
      if let some offset := comma then note offset (.misplaced "a comma after a rest element")
    else note span.start .badPattern
    let p ← match cover, e with
      | .binding, .mk (.ident w) s _ => pure (Node.mk (.binding w) s [])
      | .binding, _ => do
        note span.start .badPattern
        pure (invalidAt span)
      | _, e => turn e
    if p.kind = .assignPattern then note span.start .badPattern
    return .mk .restPattern span [p, .absent] :: (← coverProperties cover turn comma rest)
  | p :: _ => failAt p.span.start .badPattern

/-- The place of the comma after the last element of the bracket that starts at an offset. -/
def commaOf (offset : Nat) : Parse (Option Nat) := do
  return ((← state).commas.find? (·.1 == offset)).map (·.2)

def coverForm (cover : Cover) (turn : Node → Parse Node) (e : Node) : Parse Node := do
  match e with
  | .mk (.ident w) span _ => return .mk (.binding w) span []
  | .mk (.assign "=") span [left, right] =>
    let p ← match left.kind with
      | .arrayPattern | .objectPattern | .binding _ => pure left
      | _ => turn left
    return .mk .assignPattern span [p, right]
  | .mk .array span es =>
    let comma ← commaOf span.start
    let ps ← coverElements turn comma es
    return .mk .arrayPattern span [.mk .elements span ps, .absent]
  | .mk .object span es =>
    let comma ← commaOf span.start
    let ps ← coverProperties cover turn comma es
    return .mk .objectPattern span [.mk .properties span ps, .absent]
  | .mk .arrayPattern _ _ => return e
  | .mk .objectPattern _ _ => return e
  | .mk (.binding _) _ _ => return e
  | .mk _ span _ =>
    note span.start .badPattern
    return invalidAt span

def coverFrom : Nat → Cover → Node → Parse Node
  | 0, _, _ => fail .depthExceeded
  | depth + 1, cover, e => do
    let turn := coverFrom depth cover.inner
    match cover with
    | .binding => coverForm cover turn e
    | .target =>
      match e.kind with
      | .array | .object => coverForm cover turn e
      | .ident w =>
        checkTarget e false
        return .mk (.binding w) e.span []
      | _ =>
        checkTarget e false
        return e
    | .part =>
      match e.kind with
      | .array | .object | .assign _ => coverForm cover turn e
      | .ident w =>
        unless isSimpleTarget (← context).strict e do note e.span.start .badTarget
        return .mk (.binding w) e.span []
      | k =>
        if isPlainPart k then
          unless isSimpleTarget (← context).strict e do note e.span.start .badTarget
          return e
        else
          note e.span.start .badPattern
          coverForm cover turn e

def toPattern (cover : Cover) (e : Node) : Parse Node := do
  coverFrom ((← context).size + 2) cover e

mutual

def checkStrictNames : Node → Parse Unit
  | .mk (.binding w) span _ => do if isRestricted w then noteStrict span.start w
  | .mk .assignPattern _ (p :: _) => checkStrictNames p
  | .mk .restPattern _ (p :: _) => checkStrictNames p
  | .mk .keyedPattern _ [_, p] => checkStrictNames p
  | .mk .shorthandPattern _ (p :: _) => checkStrictNames p
  | .mk .arrayPattern _ (ps :: _) => checkStrictNames ps
  | .mk .objectPattern _ (ps :: _) => checkStrictNames ps
  | .mk .elements _ ps => checkAllStrictNames ps
  | .mk .properties _ ps => checkAllStrictNames ps
  | _ => return

def checkAllStrictNames : List Node → Parse Unit
  | [] => return
  | p :: ps => do
    checkStrictNames p
    checkAllStrictNames ps

end

end Uplift.Grammar
