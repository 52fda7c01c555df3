import Uplift.Token

namespace Uplift.Trivia

open Letter

inductive Mode where
  | between
  | line
  | block
  /-- Inside a mark of several characters, of which `count` are still to come. -/
  | mark (count : Nat) (next : Mode)
deriving DecidableEq, Repr

structure Gap where
  fresh : Bool
  offset : Nat
  rest : List Char
  faults : List Fault := []
  old : List (Nat × List Char) := []
deriving Repr, Inhabited

namespace Gap

/--
Where the token counts as starting, and the text from there on. A comment of an old page belongs to
the token behind it, together with all that stands between the two.
-/
def beginning (gap : Gap) : Nat × List Char := gap.old.headD (gap.offset, gap.rest)

def moduleFaults (gap : Gap) : List Fault :=
  gap.old.map fun (offset, _) => ⟨offset, .misplaced "an HTML comment"⟩

end Gap

def opening? (fresh : Bool) : List Char → Option Mode
  | '/' :: '/' :: _ => some (.mark 1 .line)
  | '/' :: '*' :: _ => some (.mark 1 .block)
  | '<' :: '!' :: '-' :: '-' :: _ => some (.mark 3 .line)
  | '-' :: '-' :: '>' :: _ => if fresh then some (.mark 2 .line) else none
  | c :: _ => if isLineBreak c || isBlank c then some .between else none
  | [] => none

def opensOld (c : Char) : Bool := c = '<' || c = '-'

def closing : List Char → Bool
  | '*' :: '/' :: _ => true
  | _ => false

/-- Scans trivia from `offset` on. `fresh` tells whether a line break precedes. -/
def skip (mode : Mode) (fresh : Bool) (offset : Nat) (old : List (Nat × List Char)) :
    List Char → Gap
  | [] =>
    { fresh, offset, rest := [], old,
      faults := if mode = .block then [⟨offset, .unterminatedComment⟩] else [] }
  | c :: rest =>
    match mode with
    | .mark 0 next => skip next fresh (offset + c.utf8Size) old rest
    | .mark 1 next => skip next fresh (offset + c.utf8Size) old rest
    | .mark (n + 2) next => skip (.mark (n + 1) next) fresh (offset + c.utf8Size) old rest
    | .line =>
      if isLineBreak c then skip .between true (offset + c.utf8Size) old rest
      else skip .line fresh (offset + c.utf8Size) old rest
    | .block =>
      if closing (c :: rest) then skip (.mark 1 .between) fresh (offset + 1) old rest
      else skip .block (fresh || isLineBreak c) (offset + c.utf8Size) old rest
    | .between =>
      match opening? fresh (c :: rest) with
      | some next =>
        skip next (fresh || isLineBreak c) (offset + c.utf8Size)
          (if opensOld c then old ++ [(offset, c :: rest)] else old) rest
      | none => { fresh, offset, rest := c :: rest, old }

def after (offset : Nat) (cs : List Char) : Gap := skip .between false offset [] cs

def first (offset : Nat) (cs : List Char) : Gap := skip .between true offset [] cs

end Uplift.Trivia
