import Uplift.Grammar.Object

namespace Uplift.Grammar

open Parse

def spreadable (go : Level) : Parse Node := do
  let lo ← here
  if ← eat "..." then
    let e ← go .assignment
    node .spread lo [e]
  else go .assignment

def argumentsWith (go : Level) (trailing : Bool) : Parse Node := do
  let lo ← here
  expect "("
  let given ← under (fun c => { c with allowIn := true, colonAhead := false }) (many do
    if ← isPunct ")" then return none
    let a ← spreadable go
    unless ← isPunct ")" do
      expect ","
      if !trailing && (← isPunct ")") then failAt lo (.misplaced ",")
    return some a)
  expect ")"
  node .arguments lo given

def arguments (go : Level) : Parse Node := argumentsWith go true

def isOperatorToken : Token → Bool
  | .word w false => w = "in" || w = "instanceof" || w = "as" || w = "satisfies"
  | .punct p =>
    ["==", "===", "!=", "!==", "<=", ">=", "&&", "||", "??", "&", "|", "^", "*", "/", "%",
      "**", "<<", ">>", ">>>"].contains p
  | _ => false

def startsExpression : Token → Bool
  | .punct p =>
    ["(", "[", "\x7b", "+", "-", "!", "~", "++", "--", "\x60", "<", "@", "/", "/="].contains p
  | .word _ _ | .hash _ | .number _ | .bigint | .string _ | .regex => true
  | .eof | .bad _ => false

def closesInstantiation : Parse Bool := do
  let t ← token
  if ← isAnyPunct ["<", ">", "+", "-", "(", "\x60"] then return false
  return (← afterBreak) || isOperatorToken t || !startsExpression t

/-- The kind of an access or a call, which depends on whether its chain is optional. -/
def chained (base : Node) (plain : Kind) : Kind :=
  if base.kind = .optional then .optional else plain

def tagged (go : Level) (base args : Node) : Parse Node := do
  if base.kind = .optional then note (← here) (.misplaced "a template")
  let t ← template go true
  node .taggedTemplate base.span.start [base, args, t]

def typedAccess (go : Level) (base : Node) (calls : Bool) : Parse (Option Node) := attempt do
  let lo := base.span.start
  let args ← typeArguments go
  if calls && (← isPunct "(") then
    let given ← arguments go
    return some (← node (chained base .call) lo [base, args, given])
  if ← isPunct "\x60" then return some (← tagged go base args)
  if ← closesInstantiation then return some (← node .instantiation lo [base, args])
  return none

def optionalAccess (go : Level) (base : Node) (calls computed : Bool) : Parse Node := do
  let lo := base.span.start
  if computed && (← isPunct "[") then
    advance
    let e ← under (fun c => { c with allowIn := true, colonAhead := false }) (go .expression)
    expect "]"
    return ← node .optional lo [base, e]
  if calls && (← isPunct "(") then
    let given ← arguments go
    return ← node .optional lo [base, .absent, given]
  if ← isPunct "\x60" then fail (.misplaced "a template")
  if ← hasTypes <&&> isOpenAngle then
    let args ← typeArguments go
    let given ← arguments go
    return ← node .optional lo [base, args, given]
  let name ← memberName
  node .optional lo [base, name]

def memberAccess (base : Node) (plain : Kind) (part : Node) : Parse Node := do
  let lo := base.span.start
  if base.kind = .super then
    unless (← context).superAllowed || (← hasTypes) do failAt lo (.misplaced "super")
    if let .privateName _ := part.kind then fail (.misplaced "super")
    node .superMember lo [base, part]
  else node (chained base plain) lo [base, part]

def access (go : Level) (base : Node) (calls computed : Bool) : Parse (Option Node) := do
  let lo := base.span.start
  if ← hasTypes then
    if !(← afterBreak) && (← isPunct "!") then
      advance
      if base.kind = .super || base.kind = .importCallee then fail
      return some (← node .nonNull lo [base])
    if base.kind != .super && base.kind != .importCallee && (← isAnyPunct ["<", "<<"]) then
      if let some n ← typedAccess go base calls then return some n
  match ← token with
  | .punct "?." =>
    if base.kind = .super then fail
    advance
    return some (← optionalAccess go base calls computed)
  | .punct "[" =>
    unless computed do return none
    advance
    let e ← under (fun c => { c with allowIn := true, colonAhead := false }) (go .expression)
    expect "]"
    return some (← memberAccess base .index e)
  | .punct "." =>
    advance
    let name ← memberName
    return some (← memberAccess base .member name)
  | .punct "(" =>
    unless calls do return none
    let given ← argumentsWith go (base.kind != .importCallee || (← hasTypes))
    return some (← node (chained base .call) lo [base, .absent, given])
  | .punct "\x60" =>
    if base.kind = .super || base.kind = .importCallee then fail
    return some (← tagged go base .absent)
  | _ =>
    if base.kind = .super || base.kind = .importCallee then fail
    return none

/--
Reads the accesses that follow an operand; `calls` includes calls, and `computed` names in brackets.
-/
def accesses (go : Level) (base : Node) (calls computed : Bool) : Parse Node :=
  loop (fun e => do
    match ← access go e calls computed with
    | some e => return .inl e
    | none => return .inr e) base

def importOperand : Parse Node := do
  let lo ← here
  expectWord "import"
  if ← eat "." then
    modify fun s => { s with isModule := true }
    if ← eatWord "meta" then node .importMeta lo []
    else if ← eatWord "defer" <||> eatWord "source" then node .importCallee lo []
    else fail (.expected "meta")
  else
    unless ← isPunct "(" do fail (.expected "(")
    node .importCallee lo []

def newTarget (lo : Nat) : Parse Node := do
  expectWord "target"
  let c ← context
  unless c.inPlainFunction || c.inParams || c.inClass do note lo (.misplaced "new.target")
  node .newTarget lo []

def newExpr (go : Level) : Parse Node := do
  let lo ← here
  expectWord "new"
  if ← eat "." then return ← newTarget lo
  let callee ← go .newOperand
  if callee.kind = .optional then failAt callee.span.start (.misplaced "an optional chain")
  let args ←
    if ← hasTypes <&&> isAnyPunct ["<", "<<"] then do
      let tried ← attempt do
        let args ← typeArguments go
        if ← isPunct "(" then return some args
        return none
      pure (tried.getD .absent)
    else pure .absent
  let given ← if ← isPunct "(" then arguments go else pure .absent
  node .new lo [callee, args, given]

/-- Whether a node is `new` without arguments, which nothing follows. -/
def isBareNew : Node → Bool
  | .mk .new _ [_, _, given] => given.isAbsent
  | _ => false

def isArrow (n : Node) : Bool :=
  match n.kind with
  | .arrow _ => true
  | _ => false

def leftHandSide (go : Level) (primary : Parse Node) : Parse Node := do
  let lo ← here
  if ← isWord "super" then
    let s ← leaf .super
    accesses go s true true
  else if ← isWord "import" then
    let i ← importOperand
    accesses go i true true
  else if ← isWord "new" then
    let n ← newExpr go
    if isBareNew n then return n else accesses go n true true
  else
    let e ← primary
    if isArrow e && e.span.start = lo then return e else accesses go e true true

def newOperand (go : Level) (primary : Parse Node) : Parse Node := do
  if ← isWord "super" then
    let s ← leaf .super
    accesses go s false true
  else if ← isWord "import" then
    let i ← importOperand
    accesses go i false true
  else if ← isWord "new" then
    let n ← newExpr go
    if isBareNew n then return n else accesses go n false true
  else
    let e ← primary
    accesses go e false true

end Uplift.Grammar
