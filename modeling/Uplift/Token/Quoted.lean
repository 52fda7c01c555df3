import Uplift.Token.Escape

namespace Uplift.Quoted

open Letter

/--
Where a scan for the end of a quoted text stops: at the closing quote, at the start of a hole, or at
a line break in a string or the end of the text.
-/
inductive Ending where
  | quote
  | hole
  | unterminated
deriving DecidableEq, Repr, Inhabited

def scanString (quote : Char) (escaped : Bool) : List Char → List Char × Ending × List Char
  | [] => ([], .unterminated, [])
  | c :: rest =>
    if escaped then
      let (body, ending, rest) := scanString quote (c = '\r' && rest.head? = some '\n') rest
      (c :: body, ending, rest)
    else if c = quote then ([], .quote, rest)
    else if c = '\n' || c = '\r' then ([], .unterminated, c :: rest)
    else
      let (body, ending, rest) := scanString quote (c = '\\') rest
      (c :: body, ending, rest)

def scanTemplate (escaped : Bool) : List Char → List Char × Ending × List Char
  | [] => ([], .unterminated, [])
  | c :: rest =>
    if escaped then
      let (body, ending, rest) := scanTemplate false rest
      (c :: body, ending, rest)
    else if c = '\x60' then ([], .quote, rest)
    else if c = '$' && rest.head? = some '\x7b' then ([], .hole, rest.drop 1)
    else
      let (body, ending, rest) := scanTemplate (c = '\\') rest
      (c :: body, ending, rest)

inductive Rules where
  | string
  /-- Old octal escapes are refused, and every line break is a newline. -/
  | template
deriving DecidableEq, Repr, Inhabited

def Rules.accept : Rules → Escape.Meaning → Option (List Nat)
  | _, .plain us => some us
  | .string, .legacy us => some us
  | .template, .legacy _ => none

/-- The code units of a body, or what is left of it at the first escape that is refused. -/
def valueFrom (rules : Rules) : Nat → List Nat → List Char → Except (List Char) (List Nat)
  | 0, done, _ => .ok done.reverse
  | fuel + 1, done, cs =>
    match cs with
    | [] => .ok done.reverse
    | '\\' :: rest =>
      match Escape.read rest with
      | some (meaning, after) =>
        match rules.accept meaning with
        | some us => valueFrom rules fuel (us.reverse ++ done) after
        | none => .error cs
      | none => .error cs
    | '\r' :: rest =>
      match rules with
      | .template =>
        valueFrom rules fuel (10 :: done) (if rest.head? = some '\n' then rest.drop 1 else rest)
      | .string => valueFrom rules fuel (13 :: done) rest
    | c :: rest => valueFrom rules fuel ((Escape.units c.toNat).reverse ++ done) rest

def value (rules : Rules) (body : List Char) : Except (List Char) (List Nat) :=
  valueFrom rules body.length [] body

/-- Whether a body has an escape that strict code refuses. -/
def hasLegacy : Nat → List Char → Bool
  | 0, _ => false
  | fuel + 1, cs =>
    match cs with
    | [] => false
    | '\\' :: rest =>
      match Escape.read rest with
      | some (.legacy _, _) => true
      | some (.plain _, after) => hasLegacy fuel after
      | none => false
    | _ :: rest => hasLegacy fuel rest

def fault? (rules : Rules) (offset : Nat) (body : List Char) : Option Fault :=
  match value rules body with
  | .ok _ => none
  | .error rest => some ⟨offset + (width body - width rest), .badEscape⟩

end Uplift.Quoted
