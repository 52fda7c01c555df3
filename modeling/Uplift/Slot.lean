import Uplift.Edit
import Uplift.Text.Neighbour

namespace Uplift

namespace Neighbour

def isPunctIn (n : Neighbour) (ps : List String) : Bool :=
  match n with
  | .punct t => ps.any fun p => Text.ofString p == t
  | _ => false

def isWordIn (n : Neighbour) (ws : List String) : Bool :=
  match n with
  | .word t => ws.any fun w => Text.ofString w == t
  | _ => false

end Neighbour

/-- The form of a replacement, by how loosely it binds. -/
inductive Form where
  | object
  | exponent
  | arrow
deriving DecidableEq, Repr, Inhabited

namespace Slot

open Neighbour

def assignmentOperators : List String :=
  ["=", "+=", "-=", "*=", "/=", "%=", "**=", "<<=", ">>=", ">>>=", "&=", "|=", "^=", "&&=", "||=",
    "??="]

def openers : List String := ["(", "[", ",", "$\x7b", "?", ":", "...", "=>"]

def binaryOperators : List String :=
  ["==", "===", "!=", "!==", "<", ">", "<=", ">=", "&&", "||", "??", "&", "|", "^", "*", "%", "<<",
    ">>", ">>>"]

def operandFollowers : List String :=
  ["?", "??", "==", "===", "!=", "!==", "<", ">", "<=", ">=", "&&", "||", "&", "|", "^", "+", "-",
    "*", "/", "%", "<<", ">>", ">>>"]

def closers : List String := [")", "]", ",", ";", "\x7d", ":"]

def isAttributeBrace (t : Text) (start : Nat) : Bool :=
  let (token, brace) := before t start
  token.isPunctIn ["\x7b"] && (before t brace).1.isPunctIn ["="]

/-- Whether an object literal would start a statement here, or cannot be told from a block. -/
def objectNeedsParens (t : Text) (start : Nat) : Bool :=
  let token := (before t start).1
  match token with
  | .boundary => true
  | .word w => token.isWordIn ["do", "else"] || !isOperatorKeyword w
  | .punct _ =>
    if token.isPunctIn ["\x7b"] then !isAttributeBrace t start
    else token.isPunctIn [";", "\x7d", ")", "]", "=>", ":"]

def arrowFitsAfter (t : Text) (start : Nat) : Bool :=
  let token := (before t start).1
  token.isWordIn ["return", "yield"] ||
    (if token.isPunctIn ["\x7b"] then isAttributeBrace t start
     else token.isPunctIn openers || token.isPunctIn assignmentOperators)

def closes (t : Text) (stop : Nat) : Bool :=
  let token := after t stop
  token = .boundary || token.isPunctIn closers

def exponentWords : List String :=
  ["return", "yield", "in", "instanceof", "case", "throw", "of", "else", "do"]

def exponentFitsAfter (t : Text) (start : Nat) : Bool :=
  let (token, offset) := before t start
  token = .boundary || token.isWordIn exponentWords || token.isPunctIn openers
    || token.isPunctIn assignmentOperators || token.isPunctIn binaryOperators
    || token.isPunctIn [";", "\x7b", "\x7d", ")", "]"]
    || (token.isPunctIn ["+", "-", "/"] && endsOperand t offset)

def exponentFitsBefore (t : Text) (stop : Nat) : Bool :=
  let token := after t stop
  token = .boundary || token.isWordIn ["in", "instanceof"] || token.isPunctIn closers
    || token.isPunctIn operandFollowers

def needsParens (t : Text) (range : Range) : Form → Bool
  | .object => objectNeedsParens t range.start
  | .arrow => !(arrowFitsAfter t range.start && closes t range.stop)
  | .exponent => !(exponentFitsAfter t range.start && exponentFitsBefore t range.stop)

/--
Where the text is cut to find out whether parentheses are needed: behind the range only if the form
can stand behind what is before it.
-/
def parensCuts (t : Text) (range : Range) : Form → List Nat
  | .object => [range.start]
  | .arrow => range.start :: if arrowFitsAfter t range.start then [range.stop] else []
  | .exponent => range.start :: if exponentFitsAfter t range.start then [range.stop] else []

/-- Whether an opening bracket or a backquote here would go on with the expression before it. -/
def continuesPrevious (t : Text) (start : Nat) : Bool :=
  endsOperand t start || (before t start).1.isPunctIn ["\x7d"]

/-- The first byte that the replacement of an edit will have. -/
def leadingByte? (t : Text) (segments : List Segment) : Option UInt8 :=
  segments.findSome? fun
    | .fresh text => text.head?
    | .reused r => t[r.start]?

def startsSafely (t : Text) (e : Edit) : Bool :=
  match leadingByte? t e.segments with
  | some b => !([40, 91, 96].contains b && continuesPrevious t e.range.start)
  | none => true

def startCuts (t : Text) (e : Edit) : List Nat :=
  if (leadingByte? t e.segments).any [40, 91, 96].contains then [e.range.start] else []

def safely (t : Text) (e : Edit) : Option Edit := if startsSafely t e then some e else none

def placed (t : Text) (form : Option Form) (e : Edit) : Edit :=
  e.parenthesizedIf (form.any (needsParens t e.range))

def fit (t : Text) (form : Option Form) (e : Edit) : Option Edit := safely t (placed t form e)

def cuts (t : Text) (form : Option Form) (e : Edit) : List Nat :=
  form.toList.flatMap (parensCuts t e.range) ++ startCuts t (placed t form e)

end Slot

end Uplift
