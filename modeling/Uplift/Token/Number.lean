import Uplift.Token

namespace Uplift.Number

open Letter

structure Literal where
  token : Token
  length : Nat
  rest : List Char
  faults : List Fault := []
  strictFaults : List Fault := []
deriving Repr, Inhabited

def digits (isDigit : Char → Bool) (cs : List Char) : List Char × List Char :=
  cs.span fun c => isDigit c || c = '_'

/-- Whether a separator is not followed by a digit. One before the first digit is harmless. -/
def badSeparator : List Char → Bool
  | [] => false
  | ['_'] => true
  | '_' :: '_' :: _ => true
  | _ :: rest => badSeparator rest

def separatorFault (offset : Nat) (cs : List Char) : List Fault :=
  if badSeparator cs then [⟨offset, .badNumber⟩] else []

def significant (cs : List Char) : List Char := cs.filter (· != '_')

def natOf (base : Nat) (cs : List Char) : Nat :=
  (significant cs).foldl (fun acc c => acc * base + (hexDigit? c).getD 0) 0

/-- Whether `m · 10^e` rounds to zero as a double, that is, whether it is at most `2^-1075`. -/
def roundsToZero (m : Nat) (e : Int) : Bool :=
  if m = 0 then true
  else if 0 ≤ e then false
  else
    let size := (Nat.toDigits 10 m).length
    let down := (-e).toNat
    if size + 400 < down then true
    else if down ≤ size + 300 then false
    else m * Nat.pow 2 1075 ≤ Nat.pow 10 down

def exponent? (cs : List Char) : Option (Int × List Char × List Char) :=
  let (negative, sign, body) : Bool × List Char × List Char :=
    match cs with
    | '+' :: rest => (false, ['+'], rest)
    | '-' :: rest => (true, ['-'], rest)
    | _ => (false, [], cs)
  let (ds, rest) := digits Char.isDigit body
  if ds.isEmpty then none
  else
    let v : Int := natOf 10 ds
    some (if negative then -v else v, sign ++ ds, rest)

def closed (offset : Nat) (lit : Literal) : Literal :=
  match lit.rest with
  | c :: _ =>
    if startsWord c || c = '\\' then
      { lit with token := .bad ⟨offset + lit.length, .badNumber⟩ }
    else lit
  | [] => lit

def isBinary (c : Char) : Bool := c = '0' || c = '1'

def isOctal (c : Char) : Bool := '0' ≤ c && c ≤ '7'

def isHex (c : Char) : Bool := (hexDigit? c).isSome

def radix (offset base : Nat) (isDigit : Char → Bool) (cs : List Char) : Literal :=
  let (ds, rest) := digits isDigit cs
  let length := 2 + ds.length
  if (significant ds).isEmpty then
    { token := .bad ⟨offset, .badNumber⟩, length, rest }
  else
    let faults := separatorFault offset ds
    match rest with
    | 'n' :: rest => closed offset { token := .bigint, length := length + 1, rest, faults }
    | _ => closed offset { token := .number (natOf base ds = 0), length, rest, faults }

def fraction (offset : Nat) (whole : List Char) (cs : List Char) : Literal :=
  let (frac, dot, rest) : List Char × Nat × List Char :=
    match cs with
    | '.' :: rest =>
      let (ds, rest) := digits Char.isDigit rest
      (ds, 1, rest)
    | _ => ([], 0, cs)
  let length := whole.length + dot + frac.length
  let faults := separatorFault offset whole ++ separatorFault offset frac
  let m := natOf 10 (whole ++ frac)
  let scale : Int := -((significant frac).length : Int)
  match rest with
  | e :: more =>
    if e = 'e' || e = 'E' then
      match exponent? more with
      | some (v, text, rest) =>
        closed offset
          { token := .number (roundsToZero m (scale + v)), length := length + 1 + text.length, rest,
            faults := faults ++ separatorFault offset (text.dropWhile fun c => c = '+' || c = '-') }
      | none => { token := .bad ⟨offset, .badNumber⟩, length := length + 1, rest := more }
    else closed offset { token := .number (roundsToZero m scale), length, rest, faults }
  | [] => { token := .number (roundsToZero m scale), length, rest, faults }

def decimal (offset : Nat) (cs : List Char) : Literal :=
  let (whole, rest) := digits Char.isDigit cs
  match rest with
  | 'n' :: rest =>
    closed offset
      { token := .bigint, length := whole.length + 1, rest, faults := separatorFault offset whole }
  | _ => fraction offset whole rest

/-- A literal with a leading zero and further digits: octal if it can be, else decimal. -/
def legacy (types : Bool) (offset : Nat) (whole rest : List Char) : Literal :=
  let strictFaults := [(⟨offset, .legacyNumber⟩ : Fault)]
  if (significant whole).all isOctal then
    closed offset
      { token := .number (natOf 8 whole = 0), length := whole.length, rest, strictFaults,
        faults := separatorFault offset whole ++ if types then strictFaults else [] }
  else { fraction offset whole rest with strictFaults }

def read (types : Bool) (offset : Nat) (cs : List Char) : Literal :=
  match cs with
  | '0' :: rest =>
    match rest with
    | 'x' :: body => radix offset 16 isHex body
    | 'X' :: body => radix offset 16 isHex body
    | 'o' :: body => radix offset 8 isOctal body
    | 'O' :: body => radix offset 8 isOctal body
    | 'b' :: body => radix offset 2 isBinary body
    | 'B' :: body => radix offset 2 isBinary body
    | c :: _ =>
      if c.isDigit || c = '_' then
        let (whole, rest) := digits Char.isDigit cs
        legacy types offset whole rest
      else decimal offset cs
    | [] => decimal offset cs
  | _ => decimal offset cs

end Uplift.Number
