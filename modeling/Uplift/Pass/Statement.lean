import Uplift.Callback
import Uplift.Edit
import Uplift.Program

namespace Uplift

/-- The range of a statement with a semicolon that its node stops short of. -/
def Program.statementRange (p : Program) (range : Range) : Range :=
  if (p.text.take range.stop).getLast? = some (Text.ascii ';') then range
  else
    let rest := p.text.drop range.stop
    let gap := (rest.takeWhile fun b => b = Text.ascii ' ' || b = Text.ascii '\t').length
    if rest[gap]? = some (Text.ascii ';') then ⟨range.start, range.stop + gap + 1⟩ else range

/-- Where the text is cut to find the ends of the statements that have an edit. -/
def Program.statementCuts (p : Program) (edit? : Node → Option Edit) : List Nat :=
  (p.tree.subtrees.filter fun n => (edit? n).isSome).map (·.span.stop)

def Callback.Inlined.edit (loop : Inlined) (range iterable : Range) : Edit :=
  let head :=
    (Edit.replacing range).string ("for (" ++ loop.declaring.keyword ++ " ")
      |>.reuse loop.binding |>.string " of " |>.reuse iterable |>.string ") "
  match loop.body with
  | .block r => head.reuse r
  | .expression r => head.string "\x7b " |>.reuse r |>.string "; \x7d"

end Uplift
