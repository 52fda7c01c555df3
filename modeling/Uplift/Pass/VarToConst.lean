import Uplift.Edit
import Uplift.Names
import Uplift.Callback
import Uplift.Program

namespace Uplift.VarToConst

structure Site where
  start : Nat
  names : List String
  uninitialized : Bool
  blocked : Bool
deriving DecidableEq, Repr, Inhabited

/--
What has been found in a part of a scope. Names are counted per function scope; a write counts for
the nearest scope around it that declares the name.
-/
structure Findings where
  declared : List String := []
  written : List String := []
  sites : List Site := []
  edits : List Edit := []
deriving Repr, Inhabited

namespace Findings

def append (a b : Findings) : Findings :=
  ⟨a.declared ++ b.declared, a.written ++ b.written, a.sites ++ b.sites, a.edits ++ b.edits⟩

instance : Append Findings := ⟨append⟩

/--
The edit of a declaration, unless it must stay: where one of its names is declared twice, where it
hides the parameter of a `catch`, or where no block scoped declaration can stand.
-/
def edit? (f : Findings) (site : Site) : Option Edit :=
  if site.blocked || site.names.any (fun w => 1 < f.declared.count w) then none
  else
    let declaring : Declaring :=
      if site.uninitialized || site.names.any f.written.contains then .scoped else .constant
    some ((Edit.replacing ⟨site.start, site.start + 3⟩).string declaring.keyword)

/-- What a scope with the given parameters means for the scope around it. -/
def close (params : List String) (inner : Findings) : Findings :=
  let scope := { inner with declared := params ++ inner.declared }
  { written := scope.written.filter fun w => !scope.declared.contains w
    edits := scope.edits ++ scope.sites.filterMap scope.edit? }

end Findings

inductive Place where
  | ordinary
  | body
  | head
deriving DecidableEq, Repr, Inhabited

def lacksValue : Node → Bool
  | .mk .declarator _ [_, value] => value.isAbsent
  | _ => true

/-- The declaration of variables, apart from what their values hold. -/
def declaration (text : Text) (caught : List String) (place : Place) (span : Range)
    (declarators : List Node) : Findings :=
  if (text.drop span.start).take 3 != Text.ofString "var" then {}
  else
    let names := declarators.flatMap fun d => (d.child 0).bound
    let inHead := place = .head
    { declared := names
      sites := [{
        start := span.start
        names
        uninitialized := !inHead && declarators.any lacksValue
        blocked := caught.any names.contains || place = .body
          || (inHead && declarators.any fun d => !lacksValue d) }] }

def declaredName (name : Node) : Findings := { declared := name.name?.toList }

mutual

def find (text : Text) (caught : List String) (place : Place) : Node → Findings
  | .mk (.varDecl .hoisted false) span ds =>
    findAll text caught ds ++ declaration text caught place span ds
  | .mk (.assign op) span cs =>
    ({ written := (Node.mk (.assign op) span cs).writes } : Findings) ++ findAll text caught cs
  | .mk (.update op) span cs =>
    ({ written := (Node.mk (.update op) span cs).writes } : Findings) ++ findAll text caught cs
  | .mk .functionDecl _ [name, f] => declaredName name ++ find text caught .ordinary f
  | .mk .classDecl _ [name, c] => declaredName name ++ find text caught .ordinary c
  | .mk (.function _ _) _ [decorators, params, generics, result, body] =>
    (find text caught .ordinary decorators ++ find text caught .ordinary params
      ++ find text caught .ordinary generics ++ find text caught .ordinary result
      ++ find text caught .ordinary body).close (params.children.flatMap fun p => (p.child 1).bound)
  | .mk (.arrow _) _ (params :: rest) =>
    (find text caught .ordinary params ++ findAll text caught rest).close params.bound
  | .mk .constructor _ [key, params, body] =>
    (find text caught .ordinary key ++ find text caught .ordinary params
      ++ find text caught .ordinary body).close params.bound
  | .mk .getter _ cs => (findAll text caught cs).close []
  | .mk .setter _ [key, param, body] =>
    (find text caught .ordinary key ++ find text caught .ordinary param
      ++ find text caught .ordinary body).close param.bound
  | .mk .staticBlock _ cs => (findAll text caught cs).close []
  | .mk .catch _ [param, body] =>
    find text (param.bound ++ caught) .ordinary param ++
      find text (param.bound ++ caught) .ordinary body
  | .mk .forIn _ [head, object, body] =>
    ({ written := head.headNames } : Findings) ++ find text caught .head head
      ++ find text caught .ordinary object ++ find text caught .body body
  | .mk (.forOf _) _ [head, iterable, body] =>
    ({ written := head.headNames } : Findings) ++ find text caught .head head
      ++ find text caught .ordinary iterable ++ find text caught .body body
  | .mk .for _ [first, test, step, body] =>
    find text caught .ordinary first ++ find text caught .ordinary test
      ++ find text caught .ordinary step ++ find text caught .body body
  | .mk .while _ [test, body] => find text caught .ordinary test ++ find text caught .body body
  | .mk .doWhile _ [body, test] => find text caught .body body ++ find text caught .ordinary test
  | .mk .if _ [test, yes, no] =>
    find text caught .ordinary test ++ find text caught .body yes ++ find text caught .body no
  | .mk .labeled _ [label, body] => find text caught .ordinary label ++ find text caught .body body
  | .mk .with _ [object, body] => find text caught .ordinary object ++ find text caught .body body
  | .mk _ _ cs => findAll text caught cs

def findAll (text : Text) (caught : List String) : List Node → Findings
  | [] => {}
  | n :: ns => find text caught .ordinary n ++ findAll text caught ns

end

/-- `var` becomes `const`, or `let` where a name is written again. -/
def edits (p : Program) : List Edit := ((find p.text [] .ordinary p.tree).close []).edits

def start? : Node → Option Nat
  | .mk (.varDecl .hoisted false) span _ => some span.start
  | _ => none

def cuts (p : Program) : List Nat := p.tree.subtrees.filterMap start?

end Uplift.VarToConst
