import Uplift.Token.Escape

namespace Uplift.Word

open Letter

/-- A word that was read, or the place at which an escape in it is malformed. -/
structure Reading where
  name : List Char
  escaped : Bool
  length : Nat
  rest : List Char
  fault : Option Fault := none
deriving Repr, Inhabited

def char? (n : Nat) : Option Char := if h : n.isValidChar then some (Char.ofNatAux n h) else none

/-- Reads on from `cs`, with `name` read backwards so far. -/
def read (offset : Nat) : Nat → List Char → Bool → Nat → List Char → Reading
  | 0, name, escaped, length, cs => ⟨name.reverse, escaped, length, cs, none⟩
  | fuel + 1, name, escaped, length, cs =>
    match cs with
    | [] => ⟨name.reverse, escaped, length, [], none⟩
    | '\\' :: rest =>
      let bad : Reading := ⟨name.reverse, true, length, rest, some ⟨offset + length, .badEscape⟩⟩
      match rest with
      | 'u' :: body =>
        match Escape.codePoint body with
        | some (n, rest) =>
          match char? n with
          | some c =>
            if (if name.isEmpty then startsWord c else continuesWord c) then
              let used := 2 + (width body - width rest)
              read offset fuel (c :: name) true (length + used) rest
            else bad
          | none => bad
        | none => bad
      | _ => bad
    | c :: rest =>
      if (if name.isEmpty then startsWord c else continuesWord c) then
        read offset fuel (c :: name) escaped (length + c.utf8Size) rest
      else ⟨name.reverse, escaped, length, cs, none⟩

def ofChars (offset : Nat) (cs : List Char) : Reading := read offset cs.length [] false 0 cs

def reserved : List String :=
  ["break", "case", "catch", "class", "const", "continue", "debugger", "default", "delete", "do",
    "else", "enum", "export", "extends", "false", "finally", "for", "function", "if", "import",
    "in", "instanceof", "new", "null", "return", "super", "switch", "this", "throw", "true", "try",
    "typeof", "var", "void", "while", "with"]

def strictReserved : List String :=
  ["implements", "interface", "let", "package", "private", "protected", "public", "static", "yield"]

def isReserved (name : String) : Bool := reserved.contains name

end Uplift.Word
