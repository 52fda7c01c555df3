import Uplift.Token.Number
import Uplift.Token.Quoted
import Uplift.Token.Trivia
import Uplift.Token.Word

namespace Uplift.Token

open Letter

structure Reading where
  token : Token
  length : Nat
  rest : List Char
  faults : List Fault := []
  strictFaults : List Fault := []
  /-- Whether an escape stands in a word, though not at its start. -/
  escaped : Bool := false
deriving Repr, Inhabited

def punctuators : List String :=
  [">>>=", "...", "===", "!==", "**=", "<<=", ">>=", ">>>", "&&=", "||=", "??=", "=>", "==", "!=",
    "<=", ">=", "&&", "||", "??", "?.", "++", "--", "+=", "-=", "*=", "/=", "%=", "&=", "|=", "^=",
    "<<", ">>", "**", "\x7b", "\x7d", "(", ")", "[", "]", ";", ",", "<", ">", "+", "-", "*", "/",
    "%", "&", "|", "^", "!", "~", "?", ":", "=", ".", "@", "\x60"]

def spelled : List (List Char × String) := punctuators.map fun p => (p.toList, p)

/-- The longest punctuator at the start; `?.` before a digit is a `?`. -/
def punctuator? (cs : List Char) : Option (String × List Char) :=
  match cs with
  | '?' :: '.' :: d :: rest =>
    if d.isDigit then some ("?", '.' :: d :: rest) else some ("?.", d :: rest)
  | _ => (spelled.find? fun p => p.1.isPrefixOf cs).map fun p => (p.2, cs.drop p.1.length)

def readString (offset : Nat) (q : Char) (cs : List Char) : Reading :=
  let (body, ending, rest) := Quoted.scanString q false cs
  let legacy :=
    if Quoted.hasLegacy body.length body then [(⟨offset, .legacyNumber⟩ : Fault)] else []
  match ending with
  | .quote =>
    match Quoted.fault? .string (offset + 1) body with
    | some fault => { token := .bad fault, length := 2 + width body, rest }
    | none =>
      { token := .string (String.ofList (q :: (body ++ [q]))), length := 2 + width body, rest,
        strictFaults := legacy }
  | _ =>
    { token := .string (String.ofList (q :: body)), length := 1 + width body, rest,
      faults := [⟨offset, .unterminatedString⟩] }

def readWord (offset skipped : Nat) (make : String → Bool → Token) (cs : List Char) : Reading :=
  let w := Word.ofChars (offset + skipped) cs
  let masked := cs.head? = some '\\'
  let token := match w.fault with
    | some fault => .bad fault
    | none => make (String.ofList w.name) masked
  { token, length := skipped + w.length, rest := w.rest, escaped := w.escaped && !masked }

/--
The token at the start of `cs`, which starts with no trivia and stands at `offset`. A null character
ends a program.
-/
def read (types : Bool) (offset : Nat) (cs : List Char) : Reading :=
  match cs with
  | [] => { token := .eof, length := 0, rest := [] }
  | c :: rest =>
    let number : Unit → Reading := fun _ =>
      let lit := Number.read types offset cs
      ⟨lit.token, lit.length, lit.rest, lit.faults, lit.strictFaults, false⟩
    if c = '\x00' then { token := .eof, length := 1, rest }
    else if startsWord c || c = '\\' then readWord offset 0 .word cs
    else if c.isDigit then number ()
    else if c = '.' && rest.head?.any Char.isDigit then number ()
    else if c = '\'' || c = '"' then readString offset c rest
    else if c = '#' && rest.head?.any (fun d => startsWord d || d = '\\') then
      readWord offset 1 (fun name _ => .hash name) rest
    else match punctuator? cs with
      | some (p, rest) => { token := .punct p, length := p.utf8ByteSize, rest }
      | none => { token := .bad ⟨offset, .unexpectedCharacter⟩, length := c.utf8Size, rest }

def regexBody (inClass escaped : Bool) : List Char → Option (List Char × List Char)
  | [] => none
  | c :: rest =>
    if c = '\n' || c = '\r' then none
    else if escaped then (regexBody inClass false rest).map fun (body, rest) => (c :: body, rest)
    else if c = '/' && !inClass then some ([], rest)
    else
      let inClass := if c = '[' then true else if c = ']' then false else inClass
      (regexBody inClass (c = '\\') rest).map fun (body, rest) => (c :: body, rest)

def regexFlags : List Char := ['d', 'g', 'i', 'm', 's', 'u', 'v', 'y']

def repeated : List Char → Bool
  | [] => false
  | c :: cs => cs.contains c || repeated cs

def readRegex (offset : Nat) (cs : List Char) : Reading :=
  match regexBody false false cs with
  | none => { token := .bad ⟨offset, .unterminatedRegex⟩, length := 1, rest := cs }
  | some (body, rest) =>
    let flags : Word.Reading :=
      if rest.head?.any startsWord then Word.ofChars (offset + 2 + width body) rest
      else { name := [], escaped := false, length := 0, rest }
    let faults :=
      if repeated flags.name || flags.name.any (fun c => !regexFlags.contains c) then
        [(⟨offset, .badRegexFlags⟩ : Fault)]
      else []
    let token := match flags.fault with
      | some fault => .bad fault
      | none => .regex
    { token, length := 2 + width body + flags.length, rest := flags.rest, faults }

end Uplift.Token
