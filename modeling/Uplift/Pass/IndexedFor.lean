import Uplift.Pass.Statement

namespace Uplift.IndexedFor

def index? : Node → Option String
  | .mk (.varDecl .scoped _) _ [.mk .declarator _ [.mk (.binding w) _ _, value]] =>
    if value.bare.kind = .number true then some w else none
  | _ => none

/-- The array whose length bounds the index. -/
def array? (index : String) (test : Node) : Option String :=
  match test.bare with
  | .mk (.binary "<") _ [left, right] => do
    let (object, name) ← right.bare.member?
    if left.bare.name? = some index && name = "length" then object.bare.name? else none
  | _ => none

def isStep (index : String) (step : Node) : Bool :=
  match step.bare with
  | .mk (.update "++") _ [e] => e.bare.name? = some index
  | _ => false

def isElement (array index : String) (n : Node) : Bool :=
  match n.bare with
  | .mk .index _ [object, i] => i.bare.name? = some index && object.bare.name? = some array
  | _ => false

/-- The declaration of the element, by how it is introduced and what it binds. -/
def element? (array index : String) : Node → Option (Declaring × Node)
  | .mk (.varDecl declaring _) _ [.mk .declarator _ [pattern, value]] =>
    if declaring != .disposable && pattern.isPlainPattern && !pattern.mentions index
        && isElement array index value then some (declaring, pattern)
    else none
  | _ => none

def edit? (p : Program) : Node → Option Edit
  | .mk .for span [first, test, step, .mk .block body (decl :: rest)] => do
    let index ← index? first
    let array ← array? index test
    if array = index || !isStep index step then none
    else
      let (declaring, pattern) ← element? array index decl
      if rest.any (·.mentions index) || rest.any (·.assigned.contains array) then none
      else
        let stop := (p.statementRange decl.span).stop
        let head :=
          (Edit.replacing span).string ("for (" ++ declaring.keyword ++ " ") |>.reuse pattern.span
        some ((head.string (" of " ++ array ++ ") \x7b")).reuse ⟨stop, body.stop⟩)
  | _ => none

/--
A loop that counts through an array only to read its elements becomes a loop over the elements.
-/
def edits (p : Program) : List Edit := p.tree.subtrees.filterMap (edit? p)

def firstStop? : Node → Option Nat
  | .mk .for _ [_, _, _, .mk .block _ (decl :: _)] => some decl.span.stop
  | _ => none

def cuts (p : Program) : List Nat :=
  (p.tree.subtrees.filter fun n => (edit? p n).isSome).filterMap firstStop?

end Uplift.IndexedFor
