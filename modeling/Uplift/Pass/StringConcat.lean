import Uplift.Concatenation
import Uplift.Program
import Uplift.Slot

namespace Uplift.StringConcat

def holes (e : Edit) : List (Range × List Char) → Edit
  | [] => e
  | (hole, text) :: rest =>
    holes (((e.string "$\x7b").reuse hole).text (Text.ofChars ('\x7d' :: text))) rest

def templateEdit (range : Range) (t : Template) : Edit :=
  let first := t.quasis.headD []
  let opened := (Edit.replacing range).text (Text.ofChars ('\x60' :: first))
  (holes opened (t.holes.zip (t.quasis.drop 1))).string "\x60"

def edit? (p : Program) (span : Range) (left right : Node) : Option Edit :=
  match Concatenation.flatten p.text left right with
  | .ok t => Slot.fit p.text none (templateEdit span t)
  | .error _ => none

def sum? (p : Program) : Node → Option Edit
  | .mk (.binary "+") span [a, b] => edit? p span a b
  | _ => none

mutual

/--
The sums of a tree for which a template is tried. An operand of a sum that has an edit of its own is
`inChain`.
-/
def tried (p : Program) (inChain : Bool) : Node → List Node
  | .mk .paren _ [e] => tried p inChain e
  | .mk (.binary "+") span [a, b] =>
    if Concatenation.isString a || Concatenation.isString b then
      if inChain then tried p true a ++ tried p true b
      else
        let rewritten := (edit? p span a b).isSome
        .mk (.binary "+") span [a, b] :: (tried p rewritten a ++ tried p rewritten b)
    else tried p false a ++ tried p false b
  | .mk _ _ cs => triedAll p cs

def triedAll (p : Program) : List Node → List Node
  | [] => []
  | n :: ns => tried p false n ++ triedAll p ns

end

/-- A sum that builds a string becomes a template. -/
def edits (p : Program) : List Edit := (tried p false p.tree).filterMap (sum? p)

def sumCuts (p : Program) : Node → List Nat
  | .mk (.binary "+") span [a, b] =>
    Concatenation.cuts p.text (.mk (.binary "+") span [a, b]) ++
      match Concatenation.flatten p.text a b with
      | .ok t => Slot.cuts p.text none (templateEdit span t)
      | .error _ => []
  | _ => []

def cuts (p : Program) : List Nat := (tried p false p.tree).flatMap (sumCuts p)

end Uplift.StringConcat
