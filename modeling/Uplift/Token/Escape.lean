import Uplift.Token

namespace Uplift.Escape

open Letter

/-- The UTF-16 code units of a code point. -/
def units (n : Nat) : List Nat :=
  if n < 0x10000 then [n] else [0xD800 + (n - 0x10000) / 0x400, 0xDC00 + (n - 0x10000) % 0x400]

def fixedHex (n : Nat) (acc : Nat) (cs : List Char) : Option (Nat × List Char) :=
  match n, cs with
  | 0, cs => some (acc, cs)
  | n + 1, c :: cs => do fixedHex n (acc * 16 + (← hexDigit? c)) cs
  | _ + 1, [] => none

/-- Hexadecimal digits up to a closing brace; at least one, with a value that is a code point. -/
def bracedHex (acc : Option Nat) : List Char → Option (Nat × List Char)
  | [] => none
  | c :: cs =>
    if c = '\x7d' then acc.map fun v => (v, cs)
    else match hexDigit? c with
      | some d =>
        let v := (acc.getD 0) * 16 + d
        if v ≤ 0x10FFFF then bracedHex (some v) cs else none
      | none => none

def codePoint : List Char → Option (Nat × List Char)
  | '\x7b' :: cs => bracedHex none cs
  | cs => fixedHex 4 0 cs

def isOctal (c : Char) : Bool := '0' ≤ c && c ≤ '7'

def octal (cs : List Char) : Nat × List Char :=
  match cs with
  | a :: b :: c :: rest =>
    if isOctal b then
      if isOctal c && a ≤ '3' then
        ((a.toNat - 48) * 64 + (b.toNat - 48) * 8 + (c.toNat - 48), rest)
      else ((a.toNat - 48) * 8 + (b.toNat - 48), c :: rest)
    else (a.toNat - 48, b :: c :: rest)
  | [a, b] => if isOctal b then ((a.toNat - 48) * 8 + (b.toNat - 48), []) else (a.toNat - 48, [b])
  | [a] => (a.toNat - 48, [])
  | [] => (0, [])

inductive Meaning where
  | plain (units : List Nat)
  /-- An octal escape: only in strings, and not in strict code. -/
  | legacy (units : List Nat)
deriving DecidableEq, Repr, Inhabited

def Meaning.units : Meaning → List Nat
  | plain us => us
  | legacy us => us

def simple? (c : Char) : Option Nat :=
  if c = 'n' then some 10 else if c = 't' then some 9 else if c = 'r' then some 13
  else if c = 'b' then some 8 else if c = 'f' then some 12 else if c = 'v' then some 11 else none

/-- Reads what follows a backslash; `none` for a malformed sequence or at the end. -/
def read (cs : List Char) : Option (Meaning × List Char) :=
  match cs with
  | [] => none
  | c :: rest =>
    if c = '\r' then some (.plain [], if rest.head? = some '\n' then rest.drop 1 else rest)
    else if isLineBreak c then some (.plain [], rest)
    else if c = 'x' then (fixedHex 2 0 rest).map fun (v, rest) => (.plain [v], rest)
    else if c = 'u' then (codePoint rest).map fun (v, rest) => (.plain (Escape.units v), rest)
    else if c = '0' && !(rest.head?.any isOctal) then some (.plain [0], rest)
    else if isOctal c then
      let (v, rest) := octal cs
      some (.legacy [v], rest)
    else match simple? c with
      | some v => some (.plain [v], rest)
      | none => some (.plain (Escape.units c.toNat), rest)

end Uplift.Escape
