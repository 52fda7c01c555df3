import Uplift.Text

namespace Uplift

structure Path where
  bytes : Text
deriving DecidableEq, Repr, Inhabited

namespace Path

def ofString (s : String) : Path := ⟨Text.ofString s⟩

def display (p : Path) : String := String.ofList (p.bytes.lossy 0)

inductive Component where
  | root
  | current
  | parent
  | name (bytes : Text)
deriving DecidableEq, Repr, Inhabited

namespace Component

def rank : Component → Nat
  | root => 0
  | current => 1
  | parent => 2
  | name _ => 3

def bytes : Component → Text
  | name t => t
  | _ => []

def precedes (a b : Component) : Bool :=
  a.rank < b.rank || (a.rank = b.rank && a.bytes < b.bytes)

end Component

def slash : UInt8 := 47

def dot : Text := [46]

def dots : Text := [46, 46]

def split : Text → List Text
  | [] => [[]]
  | b :: rest =>
    if b = slash then [] :: split rest
    else match split rest with
      | [] => [[b]]
      | first :: others => (b :: first) :: others

def segments (p : Path) : List Text := split p.bytes

def isAbsolute (p : Path) : Bool := p.bytes.head? = some slash

/-- The component of a segment; empty segments and single dots are none. -/
def component? (s : Text) : Option Component :=
  if s = [] || s = dot then none
  else if s = dots then some .parent
  else some (.name s)

/-- The components of a path. A dot counts only at the start. -/
def components (p : Path) : List Component :=
  let parts := p.segments.filterMap component?
  if p.isAbsolute then .root :: parts
  else if p.segments.head? = some dot then .current :: parts
  else parts

def listPrecedes : List Component → List Component → Bool
  | _, [] => false
  | [], _ :: _ => true
  | a :: as, b :: bs => a.precedes b || (a = b && listPrecedes as bs)

def precedes (p q : Path) : Bool := listPrecedes p.components q.components

def same (p q : Path) : Bool := p.components = q.components

def insert (p : Path) : List Path → List Path
  | [] => [p]
  | q :: rest => if q.precedes p then q :: insert p rest else p :: q :: rest

/-- The paths in order; paths with the same components keep theirs. -/
def sorted (ps : List Path) : List Path := ps.foldr insert []

/-- Keeps the first of neighbours with the same components. -/
def deduplicated : List Path → List Path
  | [] => []
  | p :: rest =>
    match deduplicated rest with
    | [] => [p]
    | q :: others => if p.same q then p :: others else p :: q :: others

def join (p : Path) (name : Text) : Path :=
  if p.bytes.getLast? = some slash then ⟨p.bytes ++ name⟩ else ⟨p.bytes ++ slash :: name⟩

def fileName? (p : Path) : Option Text :=
  match p.components.getLast? with
  | some (.name s) => some s
  | _ => none

/-- What follows the last dot of a name, unless the name only starts with it. It must be text. -/
def extensionOf? (name : Text) : Option String :=
  let back := name.reverse
  let after := back.takeWhile (· != 46)
  match back.drop after.length with
  | [] => none
  | [_] => none
  | _ => Text.toString? after.reverse

def extension? (p : Path) : Option String := p.fileName?.bind extensionOf?

end Path

end Uplift
