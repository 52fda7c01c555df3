import Uplift.Text

namespace Uplift

/--
What stands next to an offset: an end of the text, a run of word bytes, a run of operator bytes, `$`
with a brace, or any other single byte.
-/
inductive Neighbour where
  | boundary
  | word (text : Text)
  | punct (text : Text)
deriving DecidableEq, Repr, Inhabited

namespace Neighbour

def operatorKeywords : List String :=
  ["return", "typeof", "void", "delete", "in", "of", "instanceof", "new", "case", "throw", "yield",
    "await", "do", "else"]

def isOperatorKeyword (word : Text) : Bool :=
  operatorKeywords.any fun k => Text.ofString k == word

def isSpace (b : UInt8) : Bool := b = 32 || b = 9 || b = 10 || b = 12 || b = 13

def isWordByte (b : UInt8) : Bool :=
  (48 ≤ b && b ≤ 57) || (65 ≤ b && b ≤ 90) || (97 ≤ b && b ≤ 122) || b = 95 || b = 36 || 128 ≤ b

def operatorBytes : List UInt8 := "=+-*/%&|^!<>?:.~".toList.map Text.ascii

def isOperatorByte (b : UInt8) : Bool := operatorBytes.contains b

def afterClose : Text → Option Text
  | [] => none
  | 42 :: 47 :: rest => some rest
  | _ :: rest => afterClose rest

/-- What precedes the last `/*` of a text read backwards, if there is one. -/
def beforeOpen : Text → Option Text
  | [] => none
  | 42 :: 47 :: rest => some rest
  | _ :: rest => beforeOpen rest

inductive Quoting where
  | plain
  | inside (quote : UInt8)
deriving DecidableEq, Repr

/--
The length of what follows the start of the `//` comment of a line, the two slashes included. Quoted
text and block comments hide slashes, and a block comment left open hides all that follows.
-/
def lineComment (fuel : Nat) (q : Quoting) (line : Text) : Option Nat :=
  match fuel with
  | 0 => none
  | fuel + 1 =>
    match line with
    | [] => none
    | b :: rest =>
      match q with
      | .inside quote =>
        if b = 92 then lineComment fuel q (rest.drop 1)
        else if b = quote then lineComment fuel .plain rest
        else lineComment fuel q rest
      | .plain =>
        if b = 39 || b = 34 || b = 96 then lineComment fuel (.inside b) rest
        else if b = 47 then
          match rest with
          | 47 :: _ => some line.length
          | 42 :: inner =>
            match afterClose inner with
            | some after => lineComment fuel .plain after
            | none => none
          | _ => lineComment fuel .plain rest
        else lineComment fuel .plain rest

def currentLine (back : Text) : Text := (back.takeWhile (· != Text.newline)).reverse

/-- One step back over a comment that ends the text, which is read backwards. -/
def skipCommentBack (back : Text) : Option Text :=
  match back with
  | 47 :: 42 :: rest => beforeOpen rest
  | _ =>
    let line := currentLine back
    (lineComment (line.length + 1) .plain line).map fun n => back.drop n

def skipBack : Nat → Text → Text
  | 0, back => back
  | fuel + 1, back =>
    let back := back.dropWhile isSpace
    match skipCommentBack back with
    | some rest => skipBack fuel rest
    | none => back

def lastToken (back : Text) : Neighbour × Nat :=
  match back with
  | [] => (.boundary, 0)
  | b :: rest =>
    if isWordByte b then
      let run := back.takeWhile isWordByte
      (.word run.reverse, back.length - run.length)
    else if b = 123 && rest.head? = some 36 then (.punct [36, 123], back.length - 2)
    else if isOperatorByte b then
      let run := back.takeWhile isOperatorByte
      (.punct run.reverse, back.length - run.length)
    else (.punct [b], rest.length)

def before (t : Text) (offset : Nat) : Neighbour × Nat :=
  let back := (t.take offset).reverse
  lastToken (skipBack (back.length + 1) back)

/-- Skips whitespace and comments; a block comment left open reaches the end of the text. -/
def skipAhead : Nat → Text → Text
  | 0, rest => rest
  | fuel + 1, rest =>
    match rest.dropWhile isSpace with
    | 47 :: 47 :: line => skipAhead fuel (line.dropWhile (· != Text.newline))
    | 47 :: 42 :: inner => skipAhead fuel ((afterClose inner).getD [])
    | rest => rest

def firstToken (rest : Text) : Neighbour :=
  match rest with
  | [] => .boundary
  | b :: _ =>
    if isWordByte b then .word (rest.takeWhile isWordByte)
    else if isOperatorByte b then .punct (rest.takeWhile isOperatorByte)
    else .punct [b]

def after (t : Text) (offset : Nat) : Neighbour :=
  let rest := t.drop offset
  firstToken (skipAhead (rest.length + 1) rest)

def operandClosers : List Text := [[41], [93], [39], [34], [96]]

/-- Whether the token right before `offset` ends an operand, so that an operator there is binary. -/
def endsOperand (t : Text) (offset : Nat) : Bool :=
  match (before t offset).1 with
  | .word w => !isOperatorKeyword w
  | .punct p => operandClosers.contains p
  | .boundary => false

end Neighbour

end Uplift
