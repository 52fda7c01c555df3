import Uplift.Grammar.Type

namespace Uplift.Grammar

open Parse

def tagWord : Parse (String × Nat) := do
  let s ← state
  match s.token with
  | .word _ _ =>
    let (w, rest) := s.here.span fun c => Letter.continuesWord c || c = '-'
    goto (s.start + Letter.width w) rest
    return (String.ofList w, s.lo)
  | _ => fail (.expected "a tag name")

def tagName : Parse Node := do
  let (w, lo) ← tagWord
  let first ← node (.ident w) lo []
  if ← eat ":" then
    let (v, nameLo) ← tagWord
    let second ← node (.name v) nameLo []
    node .jsxPart lo [.mk (.name w) first.span [], second]
  else if ← isPunct "." then
    let names ← many do
      unless ← eat "." do return none
      let (v, nameLo) ← tagWord
      return some (← node (.name v) nameLo [])
    node .jsxPart lo (first :: names)
  else return first

def tagText (n : Node) : List String :=
  match n with
  | .mk (.ident w) _ _ => [w]
  | .mk _ _ parts => parts.map fun p =>
    match p.kind with
    | .ident w => w
    | .name w => w
    | _ => ""

def container (go : Level) (empty : Bool) : Parse Node := do
  let lo ← here
  expect "\x7b"
  if ← isPunct "\x7d" then
    unless empty do note lo (.missing "an expression")
    return ← node .jsxPart lo []
  let _ ← eat "..."
  let e ← under (fun c => { c with allowIn := true, colonAhead := false }) (go .expression)
  unless ← isPunct "\x7d" do fail (.expected "\x7d")
  node .jsxPart lo [e]

/--
Reads the quoted value of an attribute, which knows no escapes. The current token is the equals
sign.
-/
def quotedValue? : Parse (Option Node) := do
  let s ← state
  let gap := Trivia.after s.hi s.rest
  match gap.rest with
  | q :: rest =>
    if q = '"' || q = '\'' then
      let (body, after) := rest.span (· != q)
      match after with
      | [] => failAt gap.offset .unterminatedString
      | _ :: after =>
        goto (gap.offset + 2 + Letter.width body) after
        return some (.mk .string ⟨gap.offset, gap.offset + 2 + Letter.width body⟩ [])
    else return none
  | [] => return none

def attributeValue (go : Level) : Parse Node := do
  if let some n ← quotedValue? then return n
  advance
  if ← isPunct "\x7b" then
    let n ← container go false
    advance
    return n
  if ← isPunct "<" then
    let n ← go .element
    advance
    return n
  fail (.expected "an attribute value")

def attribute? (go : Level) : Parse (Option Node) := do
  let lo ← here
  if ← isPunct "\x7b" then
    advance
    expect "..."
    let e ← under (fun c => { c with allowIn := true, colonAhead := false }) (go .assignment)
    expect "\x7d"
    return some (← node .jsxPart lo [e])
  match ← token with
  | .word _ _ =>
    let _ ← tagWord
    if ← eat ":" then let _ ← tagWord
    let value ← if ← isPunct "=" then attributeValue go else pure .absent
    return some (← node .jsxPart lo [value])
  | _ => return none

def checkElementText (offset : Nat) : List Char → Parse Unit
  | [] => return
  | c :: cs => do
    if c = '>' || c = '\x7d' then note offset .unexpectedCharacter
    checkElementText (offset + c.utf8Size) cs

/--
Passes the text behind the current bracket, up to the next one. What looks like a comment is text.
-/
def elementText : Parse Unit := do
  let s ← state
  let (text, rest) := s.rest.span fun c => c != '<' && c != '\x7b'
  let stop := s.hi + Letter.width text
  checkElementText s.hi text
  leap stop { fresh := false, offset := stop, rest }
  if rest.isEmpty then failAt stop .unterminatedElement

def atClosingTag : Parse Bool := do
  unless ← isOpenAngle do return false
  nextIsPunct ["/", "/="]

def elementChildren (go : Level) : Parse (List Node) := many do
  elementText
  if ← isPunct "\x7b" then return some (← container go true)
  if ← atClosingTag then return none
  let child ← go .element
  return some child

def bracketed (lo : Nat) (children : List Node) : Parse Node := do
  let s ← state
  return .mk .jsxElement ⟨lo, s.hi⟩ children

def closingTag (opening : Option Node) : Parse (List Node) := do
  expect "<"
  expect "/"
  match opening with
  | none =>
    unless ← isCloseAngle do fail (.expected ">")
    return []
  | some n =>
    let lo ← here
    let closing ← tagName
    if tagText closing != tagText n then failAt lo (.expected "a matching closing tag")
    unless ← isCloseAngle do fail (.expected ">")
    return [closing]

/--
Reads an element or a fragment. Its last bracket stays the current token, because the text behind it
is no sequence of tokens.
-/
def element (go : Level) : Parse Node := do
  let lo ← here
  unless ← isOpenAngle do fail (.expected "<")
  advance
  if ← isCloseAngle then
    let children ← elementChildren go
    let _ ← closingTag none
    return ← bracketed lo children
  let name ← tagName
  let args ←
    if ← hasTypes <&&> isOpenAngle then do
      pure ((← attempt (some <$> typeArguments go)).getD .absent)
    else pure .absent
  let attributes ← many (attribute? go)
  let head := name :: args :: attributes
  if ← eat "/" then
    unless ← isCloseAngle do fail (.expected ">")
    return ← bracketed lo head
  unless ← isCloseAngle do fail (.expected ">")
  let children ← elementChildren go
  let closing ← closingTag (some name)
  bracketed lo (head ++ children ++ closing)

end Uplift.Grammar
