import Uplift.Grammar.Function

namespace Uplift.Grammar

open Parse

def isRealParam : Node → Bool
  | .mk .param _ [_, .mk (.binding "this") _ _] => false
  | _ => true

def getterParams (go : Level) (lo : Nat) : Parse Node := do
  let ps ← formalParams go
  if ps.children.any isRealParam then note lo (.misplaced "a parameter")
  return ps

def setterParams (go : Level) (lo : Nat) : Parse Node := do
  let ps ← formalParams go
  if (ps.children.filter isRealParam).length != 1 then note lo (.missing "a parameter")
  if let .mk .param _ [_, .mk .restPattern span _] :: _ := ps.children then
    note span.start (.misplaced "a rest parameter")
  return ps

def objectMethod (go : Level) (lo : Nat) (key : Node) (async generator : Bool) : Parse Node := do
  let f ← under (·.forMethod) (functionParts go lo .absent async generator (formalParams go))
  node .method lo [key, f]

def objectGetter (go : Level) (lo : Nat) : Parse Node := do
  let keyLo ← here
  let key ← propertyKey go
  let f ← under (·.forMethod) (functionParts go lo .absent false false (getterParams go keyLo))
  node .getter lo [key, f.child 3, f.child 4]

def objectSetter (go : Level) (lo : Nat) : Parse Node := do
  let keyLo ← here
  let key ← propertyKey go
  let f ← under (·.forMethod) (functionParts go lo .absent false false (setterParams go keyLo))
  let param := (((f.child 1).children.filter isRealParam).head?.map (·.child 1)).getD .absent
  node .setter lo [key, param, f.child 4]

def propertyValue (go : Level) : Parse Node :=
  under (fun c => { c with allowIn := true, colonAhead := false }) (go .assignment)

/-- Reads a property that is a name alone, or with a default if it turns out to be a pattern. -/
def shorthand (go : Level) (lo : Nat) (w : String) (span : Range) : Parse Node := do
  if (← context).reserves w then note span.start .reservedWord
  let name := Node.mk (.ident w) span []
  if ← eat "=" then
    let value ← propertyValue go
    node .defaultedProperty lo [name, value]
  else return name

def followsKey (key : Node) : Parse Bool := do
  match ← token with
  | .punct "\x7d" => return match key.kind with | .name _ => true | _ => false
  | .punct p => return ["(", "[", ":", ",", "?", "=", "*", "<"].contains p
  | .word _ _ | .string _ | .number _ => return true
  | _ => return false

/--
Reads what follows the key of a property. With types, a property that breaks off is passed over.
-/
def afterKey (go : Level) (lo : Nat) (key : Node) : Parse Node := do
  if ← hasTypes <&&> notM (followsKey key) then
    note (← here) (.expected ":")
    return ← node .property lo [key, invalidAt key.span]
  if ← eat ":" then
    let value ← propertyValue go
    return ← node .property lo [key, value]
  if (← isPunct "(") || ((← hasTypes) && (← isPunct "<")) then
    return ← objectMethod go lo key false false
  match key with
  | .mk (.name w) span _ =>
    if ← eat "?" then note span.start (.misplaced "a question mark")
    if ← isAnyPunct ["=", ",", "\x7d"] then shorthand go lo w span
    else if w = "get" then objectGetter go lo
    else if w = "set" then objectSetter go lo
    else if w = "async" then
      let generator ← eat "*"
      let key ← propertyKey go
      objectMethod go lo key true generator
    else fail
  | _ => fail (.expected "an identifier")

def objectProperty (go : Level) : Parse Node := do
  let lo ← here
  if ← eat "..." then
    let e ← propertyValue go
    return ← node .spread lo [e]
  if ← eat "*" then
    let key ← propertyKey go
    return ← objectMethod go lo key false true
  let _ ← eatAccess
  let key ← propertyKey go
  afterKey go lo key

def noteComma (lo : Nat) (comma : Option Nat) : Parse Unit := do
  if let some offset := comma then modify fun s => { s with commas := (lo, offset) :: s.commas }

def object (go : Level) : Parse Node := do
  let lo ← here
  let (properties, comma) ← braced (objectProperty go)
  noteComma lo comma
  node .object lo properties

end Uplift.Grammar
