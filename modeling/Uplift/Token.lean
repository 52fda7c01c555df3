import Uplift.Fault
import Uplift.Token.Letter

namespace Uplift

/--
A token of a program. Templates and JSX text are read by the grammar, which knows where they are.
-/
inductive Token where
  | eof
  | punct (text : String)
  /--
  A word after its escapes are decoded. One that starts with an escape is an identifier, whatever it
  spells.
  -/
  | word (name : String) (masked : Bool)
  | hash (name : String)
  | number (zero : Bool)
  | bigint
  | string (raw : String)
  | regex
  | bad (fault : Fault)
deriving DecidableEq, Repr, Inhabited

namespace Letter

def isLineBreak (c : Char) : Bool := c = '\n' || c = '\r' || c = '\u2028' || c = '\u2029'

def isBlank (c : Char) : Bool :=
  c = ' ' || c = '\t' || c = '\x0b' || c = '\x0c' || c = '\u0085' || c = '\xa0' || c = '\ufeff'
    || c = '\u1680' || ('\u2000' ≤ c && c ≤ '\u200a') || c = '\u202f' || c =
      '\u205f' || c = '\u3000'

def startsWord (c : Char) : Bool :=
  c.isAlpha || c = '_' || c = '$' || (0x80 ≤ c.toNat && within starts c.toNat)

def continuesWord (c : Char) : Bool :=
  startsWord c || c.isDigit || (0x80 ≤ c.toNat && within continues c.toNat)

def hexDigit? (c : Char) : Option Nat :=
  if '0' ≤ c && c ≤ '9' then some (c.toNat - 48)
  else if 'a' ≤ c && c ≤ 'f' then some (c.toNat - 87)
  else if 'A' ≤ c && c ≤ 'F' then some (c.toNat - 55)
  else none

def width : List Char → Nat
  | [] => 0
  | c :: cs => c.utf8Size + width cs

end Letter

end Uplift
