
namespace Uplift

/-- Program text, as the bytes of its UTF-8 encoding. -/
abbrev Text := List UInt8

structure Range where
  start : Nat
  stop : Nat
deriving DecidableEq, Repr, Inhabited

namespace Range

/-- A range is empty when it holds no offset, also when its ends are reversed. -/
def isEmpty (r : Range) : Bool := r.stop ≤ r.start

def length (r : Range) : Nat := r.stop - r.start

def within (r s : Range) : Bool := s.start ≤ r.start && r.stop ≤ s.stop

end Range

namespace Text

def slice (t : Text) (r : Range) : Text := (t.take r.stop).drop r.start

def ofChars (cs : List Char) : Text := cs.flatMap String.utf8EncodeChar

def ofString (s : String) : Text := ofChars s.toList

def ascii (c : Char) : UInt8 := c.toUInt8

def newline : UInt8 := 10

def continuation? (b : UInt8) : Option Nat :=
  if b.toNat / 64 = 2 then some (b.toNat % 64) else none

/-- Whether no character is cut at an offset. -/
def isBoundary (t : Text) (i : Nat) : Bool :=
  i = 0 || i = t.length || t[i]?.any fun b => (continuation? b).isNone

def cutsCleanly (t : Text) (cuts : List Nat) : Bool := cuts.all t.isBoundary

/-- The scalar value written in `n` bytes with leading bits `lead`, if that is its shortest form. -/
def scalar? (least lead : Nat) (rest : List UInt8) : Option Char := do
  let tail ← rest.mapM continuation?
  let v := tail.foldl (fun acc x => acc * 64 + x) lead
  if h : v.isValidChar ∧ least ≤ v then some (Char.ofNatAux v h.1) else none

def decodeOnto (done : List Char) : Text → Option (List Char)
  | [] => some done
  | a :: rest =>
    if a < 0x80 then decodeOnto (Char.ofNat a.toNat :: done) rest
    else if a < 0xC0 then none
    else match rest with
      | [] => none
      | b :: rest =>
        if a < 0xE0 then
          match scalar? 0x80 (a.toNat % 32) [b] with
          | some c => decodeOnto (c :: done) rest
          | none => none
        else match rest with
          | [] => none
          | c :: rest =>
            if a < 0xF0 then
              match scalar? 0x800 (a.toNat % 16) [b, c] with
              | some c => decodeOnto (c :: done) rest
              | none => none
            else match rest with
              | [] => none
              | d :: rest =>
                if a < 0xF8 then
                  match scalar? 0x10000 (a.toNat % 8) [b, c, d] with
                  | some c => decodeOnto (c :: done) rest
                  | none => none
                else none

def decode? (t : Text) : Option (List Char) := (decodeOnto [] t).map List.reverse

def toString? (t : Text) : Option String := t.decode?.map String.ofList

/--
The least and the greatest byte that can follow the first byte of a longer character, and how many
bytes follow that one.
-/
def second? (a : UInt8) : Option (UInt8 × UInt8 × Nat) :=
  if 0xC2 ≤ a && a < 0xE0 then some (0x80, 0xBF, 0)
  else if a = 0xE0 then some (0xA0, 0xBF, 1)
  else if a = 0xED then some (0x80, 0x9F, 1)
  else if 0xE1 ≤ a && a < 0xF0 then some (0x80, 0xBF, 1)
  else if a = 0xF0 then some (0x90, 0xBF, 2)
  else if 0xF1 ≤ a && a < 0xF4 then some (0x80, 0xBF, 2)
  else if a = 0xF4 then some (0x80, 0x8F, 2)
  else none

def continued (a : UInt8) (rest : Text) : Text :=
  match second? a, rest with
  | some (least, greatest, more), b :: rest =>
    if least ≤ b && b ≤ greatest then b :: (rest.take more).takeWhile fun c =>
      (continuation? c).isSome
    else []
  | _, _ => []

/--
The characters of a text from its `skip`-th byte on; what starts a character without ending it reads
as one replacement character.
-/
def lossy : Nat → Text → List Char
  | _, [] => []
  | skip + 1, _ :: rest => lossy skip rest
  | 0, a :: rest =>
    let tail := continued a rest
    ((decode? (a :: tail)).getD ['\ufffd']) ++ lossy tail.length rest

/-- The characters of a text, one replacement character a byte when the bytes are no UTF-8. -/
def chars (t : Text) : List Char := t.decode?.getD (t.map fun _ => '\ufffd')

def toString (t : Text) : String := String.ofList t.chars

end Text

end Uplift
