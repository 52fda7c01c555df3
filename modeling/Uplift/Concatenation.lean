import Uplift.Shape

namespace Uplift

/-- A template: stretches of text, each before a hole, and the text after the last hole. -/
structure Template where
  parts : List (List Char × Range) := []
  last : List Char := []
deriving DecidableEq, Repr, Inhabited

namespace Template

def quasis (t : Template) : List (List Char) := t.parts.map (·.1) ++ [t.last]

def holes (t : Template) : List Range := t.parts.map (·.2)

def endsOpen (text : List Char) : Bool :=
  match text.reverse with
  | '$' :: before => (before.takeWhile (· = '\\')).length % 2 = 0
  | _ => false

/-- Joins stretches of text. A dollar sign and a brace that meet must not open a hole. -/
def join (text more : List Char) : List Char :=
  if more.head? = some '\x7b' && endsOpen text then text.dropLast ++ '\\' :: '$' :: more
  else text ++ more

def addText (t : Template) (text : List Char) : Template := { t with last := join t.last text }

def addHole (t : Template) (hole : Range) : Template := { parts := t.parts ++ [(t.last, hole)] }

end Template

inductive Unflattenable where
  | noStringLiteral
  | legacyEscape
deriving DecidableEq, Repr, Inhabited

namespace Concatenation

def isLegacy (c : Char) (rest : List Char) : Bool :=
  ('1' ≤ c && c ≤ '9') || (c = '0' && rest.head?.any Char.isDigit)

/--
The template text for the body of a string; nothing if it has an escape that templates refuse.
-/
def templateText? : List Char → Option (List Char)
  | [] => some []
  | c :: rest =>
    if c = '\\' then
      match rest with
      | [] => some ['\\']
      | d :: rest =>
        if isLegacy d rest then none else (templateText? rest).map fun out => '\\' :: d :: out
    else if c = '\x60' || (c = '$' && rest.head? = some '\x7b') then
      (templateText? rest).map fun out => '\\' :: c :: out
    else (templateText? rest).map (c :: ·)

def quotedBody (raw : Text) : List Char := (Text.decode? (raw.drop 1).dropLast).getD []

/--
Whether an expression is a string whatever the values of its parts. A sum is one if one of its sides
is, so that sums of numbers stay as they are.
-/
def isString : Node → Bool
  | .mk .paren _ [e] => isString e
  | .mk .string _ _ => true
  | .mk .template _ _ => true
  | .mk (.binary "+") _ [a, b] => isString a || isString b
  | _ => false

inductive Part where
  | literal (text : List Char)
  | quasi (text : List Char)
  | hole (range : Range)
deriving DecidableEq, Repr, Inhabited

def templateParts : List Node → List Part
  | [] => []
  | .mk (.quasi raw) _ _ :: rest => .quasi raw.toList :: templateParts rest
  | e :: rest => .hole e.span :: templateParts rest

def parts? (source : Text) : Node → Option (List Part)
  | .mk .paren _ [e] => parts? source e
  | .mk (.binary "+") span [a, b] =>
    if isString a || isString b then do return (← parts? source a) ++ (← parts? source b)
    else some [.hole span]
  | .mk .string span _ => (templateText? (quotedBody (source.slice span))).map fun t => [.literal t]
  | .mk .template _ children => some (templateParts children)
  | n => some [.hole n.span]

/-- Where the text is cut when an operand is split: at both ends of each string that is reached. -/
def cuts (source : Text) : Node → List Nat
  | .mk .paren _ [e] => cuts source e
  | .mk (.binary "+") _ [a, b] =>
    if isString a || isString b then
      cuts source a ++ if (parts? source a).isSome then cuts source b else []
    else []
  | .mk .string span _ => [span.start, span.stop]
  | _ => []

def add (t : Template) : Part → Template
  | .literal text => t.addText text
  | .quasi text => t.addText text
  | .hole range => t.addHole range

def Part.isLiteral : Part → Bool
  | literal _ => true
  | _ => false

def flatten (source : Text) (left right : Node) : Except Unflattenable Template :=
  match parts? source left, parts? source right with
  | some a, some b =>
    if (a ++ b).any Part.isLiteral then .ok ((a ++ b).foldl add {}) else .error .noStringLiteral
  | _, _ => .error .legacyEscape

end Concatenation

end Uplift
