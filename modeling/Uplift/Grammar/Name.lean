import Uplift.Grammar.Parse

namespace Uplift.Grammar

open Parse

def atReference : Parse Bool := fun c s =>
  .done (match s.token with | .word w masked => masked || !c.reserves w | _ => false) s

def atWord : Parse Bool := fun _ s =>
  .done (match s.token with | .word _ _ => true | _ => false) s

def identifier : Parse (String × Nat) := do
  let lo ← here
  match ← token with
  | .word w true =>
    advance
    return (w, lo)
  | .word w false =>
    let c ← context
    if w = "enum" then
      note lo .reservedWord
      advance
    else if Word.strictReserved.contains w then
      noteStrict lo w
      advance
    else if w = "await" then
      advance
      if !c.ambient && (c.inStaticBlock || c.inAsync) then failAt lo .reservedWord
    else if w = "this" && c.dialect.hasTypes then advance
    else if Word.isReserved w then fail .reservedWord
    else
      if c.inField && w = "arguments" then note lo (.misplaced "arguments")
      advance
    return (w, lo)
  | _ => fail (.expected "an identifier")

def identNode : Parse Node := do
  let (w, lo) ← identifier
  node (.ident w) lo []

def isRestricted (name : String) : Bool := name = "eval" || name = "arguments"

/-- Reads an identifier that is bound; `lexical` forbids the name `let`. -/
def bindingIdent (lexical : Bool) : Parse Node := do
  if lexical && (← isWord "let") then fail .reservedWord
  let (w, lo) ← identifier
  let c ← context
  if isRestricted w then noteStrict lo w
  if w = "await" && (c.inAsync || c.inStaticBlock) then note lo .reservedWord
  if w = "yield" && c.inGenerator then note lo .reservedWord
  node (.binding w) lo []

def nameNode : Parse Node := do
  match ← token with
  | .word w _ => leaf (.name w)
  | _ => fail (.expected "a name")

def memberName : Parse Node := do
  match ← token with
  | .hash w => leaf (.privateName w)
  | _ => nameNode

def propertyKey (go : Level) : Parse Node := do
  let lo ← here
  match ← token with
  | .string _ => leaf .string
  | .number zero => leaf (.number zero)
  | .bigint => leaf .bigint
  | .word w _ => leaf (.name w)
  | .punct "[" =>
    advance
    let e ← under (fun c => { c with allowIn := true, colonAhead := false }) (go .assignment)
    expect "]"
    node .computed lo [e]
  | _ => fail (.expected "a property name")

def spells (raw value : String) : Bool :=
  match Quoted.value .string (raw.toList.drop 1).dropLast with
  | .ok units => units == value.toList.map Char.toNat
  | .error _ => false

/--
Reads the key of a class member, which can be private. A quoted constructor is one all the same.
-/
def memberKey (go : Level) : Parse Node := do
  match ← token with
  | .hash w =>
    if w = "constructor" then note (← here) (.misplaced "constructor")
    leaf (.privateName w)
  | .string raw => if spells raw "constructor" then leaf (.name "constructor") else leaf .string
  | _ => propertyKey go

end Uplift.Grammar
