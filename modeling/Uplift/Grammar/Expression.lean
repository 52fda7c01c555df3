import Uplift.Grammar.Arrow
import Uplift.Grammar.Class
import Uplift.Grammar.Element

namespace Uplift.Grammar

open Parse

def regexLiteral : Parse Node := do
  let s ← state
  let r := Token.readRegex s.lo (s.whole.drop 1)
  match r.token with
  | .bad fault => do
    modify fun s => { s with token := .bad fault }
    fail
  | _ =>
    for fault in r.faults do note fault.offset fault.complaint
    goto (s.lo + r.length) r.rest
    node .regex s.lo []

def arrayItems (go : Level) : Parse (List Node × Option Nat) := do
  let items ← under (fun c => { c with allowIn := true, colonAhead := false }) (many do
    if ← isPunct "]" then return none
    if ← eat "," then return some (Node.absent, none)
    let e ← spreadable go
    if ← isPunct "]" then return some (e, none)
    let comma ← here
    expect ","
    return some (e, if e.kind = .spread then some comma else none))
  return (items.map (·.1), items.getLast?.bind (·.2))

def array (go : Level) : Parse Node := do
  let lo ← here
  expect "["
  let (items, comma) ← arrayItems go
  expect "]"
  noteComma lo comma
  node .array lo items

def wordOperand (go : Level) (arrow : Bool) (w : String) : Parse Node := do
  let lo ← here
  if w = "this" then leaf .this
  else if w = "null" then leaf .null
  else if w = "true" || w = "false" then leaf .boolean
  else if w = "function" then functionExpr go none
  else if w = "class" then classExpr go lo .absent
  else if (← context).reserves w then fail (.expected "an expression")
  else match ← asyncOperand? go arrow with
    | some e => return e
    | none => identOrArrow go arrow

def primary (go : Level) (arrow : Bool) : Parse Node := do
  let lo ← here
  match ← token with
  | .word w false => wordOperand go arrow w
  | .word _ true => identOrArrow go arrow
  | .number zero => leaf (.number zero)
  | .bigint => leaf .bigint
  | .string _ => leaf .string
  | .hash w =>
    let n ← leaf (.privateName w)
    unless ← isWord "in" do fail (.misplaced "a private name")
    return n
  | .punct "[" => array go
  | .punct "\x7b" => object go
  | .punct "(" => parenOrArrow go arrow none
  | .punct "\x60" => template go false
  | .punct "/" => regexLiteral
  | .punct "/=" => regexLiteral
  | .punct "@" =>
    let ds ← decoratorList go
    if ← notM (isWord "class") <&&> atReference then identNode
    else classExpr go lo (decoratorsNode ds)
  | _ => fail (.expected "an expression")

def operand (go : Level) (arrow : Bool) : Parse Node := leftHandSide go (primary go arrow)

def postfixed (go : Level) (arrow : Bool) : Parse Node := do
  let lo ← here
  let e ← operand go arrow
  if isArrow e && e.span.start = lo then return e
  if ← afterBreak then return e
  match ← token with
  | .punct op =>
    if op = "++" || op = "--" then
      checkTarget e true
      advance
      node (.update op) lo [e]
    else return e
  | _ => return e

def awaitExpr (go : Level) : Parse Node := do
  let lo ← here
  let c ← context
  expectWord "await"
  if ← isPunct "*" then fail
  if !c.inAsync then
    if ← isAnyPunct [")", "]", ","] <||> atEnd then return ← node (.ident "await") lo []
  if c.topLevel then modify fun s => { s with isModule := true }
  if c.inFunction && !c.inAsync then note lo (.misplaced "await")
  if c.inParams && !c.inFunction then note lo (.misplaced "await")
  let e ← go .unary
  node .await lo [e]

def castExpr (go : Level) : Parse Node := do
  let lo ← here
  expect "<"
  if ← isWord "const" then
    advance
    expectCloseAngle
    let e ← go .unary
    node .constAssertion lo [e]
  else
    let t ← go .type
    expectCloseAngle
    let e ← go .unary
    node .cast lo [t, e]

def prefixed (go : Level) (op : String) : Parse Node := do
  let lo ← here
  advance
  let argLo ← here
  let e ← recover (go .unary) (invalidAt ⟨argLo, argLo⟩)
  if op = "delete" && !(← hasTypes) then
    if let .ident _ := e.kind then noteStrict e.span.start "delete"
  node (.unary op) lo [e]

def unary (go : Level) (arrow : Bool) : Parse Node := do
  let lo ← here
  match ← token with
  | .punct "<" =>
    if (← hasTypes) && !(← hasJsx) then castExpr go
    else if ← hasJsx then do
      let e ← go .element
      advance
      return e
    else fail (.expected "an expression")
  | .punct op =>
    if op = "++" || op = "--" then
      advance
      let e ← go .unary
      checkTarget e true
      node (.update op) lo [e]
    else if ["+", "-", "~", "!"].contains op then prefixed go op
    else postfixed go arrow
  | .word w false =>
    if ["delete", "void", "typeof"].contains w then prefixed go w
    else if w = "await" then awaitExpr go
    else postfixed go arrow
  | _ => postfixed go arrow

def precedence? : String → Option Nat
  | "??" | "||" => some 1
  | "&&" => some 2
  | "|" => some 3
  | "^" => some 4
  | "&" => some 5
  | "==" | "!=" | "===" | "!==" => some 6
  | "<" | ">" | "<=" | ">=" | "in" | "instanceof" => some 7
  | "<<" | ">>" | ">>>" => some 8
  | "+" | "-" => some 9
  | "*" | "/" | "%" => some 10
  | "**" => some 11
  | _ => none

def operator? : Parse (Option (String × Nat)) := do
  match ← token with
  | .punct p => return (precedence? p).map fun n => (p, n)
  | .word "in" false => return if (← context).allowIn then some ("in", 7) else none
  | .word "instanceof" false => return some ("instanceof", 7)
  | _ => return none

/-- Whether an expression is one of `&&` and `||`, which `??` does not mix with. -/
def isLogical (e : Node) : Bool := e.kind = .binary "&&" || e.kind = .binary "||"

def typeClaim? (go : Level) (left : Node) : Parse (Option Node) := do
  let lo := left.span.start
  if (← afterBreak) || !(← hasTypes) then return none
  if ← isWord "as" then
    advance
    if ← eatWord "const" then return some (← node .constAssertion lo [left])
    let t ← go .type
    return some (← node .asType lo [left, t])
  if ← eatWord "satisfies" then
    let t ← go .type
    return some (← node .satisfies lo [left, t])
  return none

def operation? (go : Level) (left : Node) (level : Nat) : Parse (Option Node) := do
  if level < 7 then
    if let some e ← typeClaim? go left then return some e
  match ← operator? with
  | none => return none
  | some (op, binding) =>
    if binding ≤ level then return none
    advance
    if op = "**" then
      match left.kind with
      | .unary _ | .await => failAt left.span.start (.misplaced "a unary operator")
      | _ => pure ()
    let start ← go .unary
    let right ← go (.operators start (if op = "**" then binding - 1 else binding))
    if op = "??" then
      if isLogical left then note left.span.start (.misplaced "??")
      if isLogical right then note right.span.start (.misplaced "??")
    else if op = "||" || op = "&&" then
      if left.kind = .binary "??" then note left.span.start (.misplaced op)
    return some (← node (.binary op) left.span.start [left, right])

def operators (go : Level) (left : Node) (level : Nat) : Parse Node :=
  loop (fun e => do
    match ← operation? go e level with
    | some e => return .inl e
    | none => return .inr e) left

def atOperator : Parse Bool := do return (← operator?).isSome

/-- Reads operands and operators, or an arrow function. The first operand can be missing. -/
def operation (go : Level) (arrow : Bool) : Parse Node := do
  let lo ← here
  let e ← rescue (unary go arrow) atOperator fun fault => do
    note (← here) (.expected "an expression")
    return invalidAt ⟨fault.offset, fault.offset⟩
  if isArrow e && e.span.start = lo then return e
  operators go e 0

def endsYield : Parse Bool := do
  if ← atEnd then return true
  match ← token with
  | .word w false => return ["in", "of", "instanceof", "else"].contains w
  | .punct "*" => return false
  | t => return !startsExpression t

def yieldExpr (go : Level) : Parse Node := do
  let lo ← here
  let c ← context
  expectWord "yield"
  if c.inParams && !c.inFunction then failAt lo (.misplaced "yield")
  if ← endsYield then node .yield lo [.absent]
  else
    let _ ← eat "*"
    let e ← go .assignment
    node .yield lo [e]

/-- Type parameters that cannot be told from an element are refused where there are elements. -/
def isBareGeneric : Node → Bool
  | .mk .type whole [.mk .type span [_, constraint, _]] =>
    constraint.isAbsent && whole.stop ≤ span.stop + 1
  | _ => false

def genericArrow? (go : Level) : Parse (Option Node) := do
  unless ← hasTypes <&&> isPunct "<" do return none
  unless (match (← next).1 with | .word _ _ => true | _ => false) do return none
  let lo ← here
  attempt do
    let generics ← typeParams go
    if (← hasJsx) && isBareGeneric generics then return none
    match ← go .assignmentProper with
    | .mk (.arrow async) span [ps, _, result, body] =>
      return some (.mk (.arrow async) ⟨lo, span.stop⟩ [ps, generics, result, body])
    | _ => return none

def isOperation (e : Node) : Bool :=
  match e.kind with
  | .conditional | .binary _ | .unary _ | .update _ => true
  | _ => false

def assignmentProper (go : Level) : Parse Node := do
  if let some e ← genericArrow? go then return e
  if (← context).inGenerator && (← isWord "yield") then return ← yieldExpr go
  let lo ← here
  let e ← operation go (!(← isWord "let"))
  if isArrow e && e.span.start = lo then return e
  if ← isPunct "?" then branches go e
  else if isOperation e then return e
  else assigned go lo e

/-- Reads an assignment. What starts with an angle bracket is tried as an element first. -/
def assignment (go : Level) : Parse Node := do
  if (← hasTypes) && (← hasJsx) && (← isPunct "<") then
    if let some e ← attempt (some <$> assignmentProper go) then return e
  assignmentProper go

def expression (go : Level) : Parse Node := do
  let first ← assignment go
  unless ← isPunct "," do return first
  let more ← many do
    if ← eat "," then return some (← go .assignment)
    return none
  node .sequence first.span.start (first :: more)

end Uplift.Grammar
