import Uplift.Document
import Uplift.Options
import Uplift.Pass.ArrayConcat
import Uplift.Pass.ArrayFromForEach
import Uplift.Pass.ArrayFromSpread
import Uplift.Pass.DomForEach
import Uplift.Pass.FunctionToArrow
import Uplift.Pass.IndexedFor
import Uplift.Pass.MathPow
import Uplift.Pass.ObjectAssign
import Uplift.Pass.ObjectKeys
import Uplift.Pass.PromiseTry
import Uplift.Pass.StringConcat
import Uplift.Pass.VarToConst

namespace Uplift

def Pass.edits : Pass → Program → List Edit
  | varToConst => VarToConst.edits
  | objectAssignToSpread => ObjectAssign.edits
  | arrayFromForEachToForOf => ArrayFromForEach.edits
  | arrayFromToSpread => ArrayFromSpread.edits
  | arrayConcatToSpread => ArrayConcat.edits
  | mathPowToExponent => MathPow.edits
  | indexedForToForOf => IndexedFor.edits
  | domForEachToForOf => DomForEach.edits
  | objectKeysForOfToForIn => ObjectKeys.edits
  | stringConcatToTemplate => StringConcat.edits
  | functionToArrow => FunctionToArrow.edits
  | promiseConstructorToTry => PromiseTry.edits

def Pass.cuts : Pass → Program → List Nat
  | varToConst => VarToConst.cuts
  | objectAssignToSpread => ObjectAssign.cuts
  | arrayFromForEachToForOf => ArrayFromForEach.cuts
  | arrayFromToSpread => ArrayFromSpread.cuts
  | arrayConcatToSpread => ArrayConcat.cuts
  | mathPowToExponent => MathPow.cuts
  | indexedForToForOf => IndexedFor.cuts
  | domForEachToForOf => DomForEach.cuts
  | objectKeysForOfToForIn => fun _ => []
  | stringConcatToTemplate => StringConcat.cuts
  | functionToArrow => FunctionToArrow.cuts
  | promiseConstructorToTry => fun _ => []

/-- The edits that a pass makes, unless it cuts a character to find them. -/
def Pass.edits? (pass : Pass) (p : Program) : Option (List Edit) :=
  if p.text.cutsCleanly (pass.cuts p) then some (pass.edits p) else none

/-- A change that was made, with the line of the first text it was made to. -/
structure Change where
  pass : Pass
  line : Nat
deriving DecidableEq, Repr, Inhabited

structure Outcome where
  code : Text
  changes : List Change
deriving DecidableEq, Repr, Inhabited

def Outcome.modified (o : Outcome) : Bool := !o.changes.isEmpty

/--
Why a run failed: its text is no program, what a pass made of the text is none, or a pass would cut
the text inside a character.
-/
inductive Failure where
  | parse (line : Nat) (complaint : Complaint)
  | invalid (pass : Pass) (line : Nat) (complaint : Complaint)
  | severed (pass : Pass)
deriving DecidableEq, Repr, Inhabited

def Failure.message : Failure → String
  | parse line complaint => "parse error: line " ++ toString line ++ ": " ++ complaint.message
  | invalid pass line complaint =>
    pass.name ++ " produced invalid code: line " ++ toString line ++ ": " ++ complaint.message
  | severed pass => pass.name ++ " cut the text inside a character"

structure Run where
  document : Document
  program : Program
  changes : List Change
deriving Inhabited

namespace Run

def start (dialect : Dialect) (text : Text) : Except Failure Run :=
  match Program.parse dialect text with
  | .ok program => .ok ⟨Document.ofText text, program, []⟩
  | .error fault => .error (.parse (fault.line text) fault.complaint)

def step (dialect : Dialect) (run : Run) (pass : Pass) : Except Failure Run :=
  match (pass.edits? run.program).bind run.document.applyCleanly with
  | none => .error (.severed pass)
  | some (document, lines) =>
    if lines.isEmpty then .ok { run with document }
    else
      match Program.parse dialect document.text with
      | .ok program => .ok ⟨document, program, run.changes ++ lines.map (⟨pass, ·⟩)⟩
      | .error fault => .error (.invalid pass (fault.line document.text) fault.complaint)

def round (dialect : Dialect) (passes : List Pass) (run : Run) : Except Failure Run :=
  passes.foldlM (step dialect) run

/-- Runs rounds until one changes nothing, at most so many. -/
def rounds (dialect : Dialect) (passes : List Pass) : Nat → Run → Except Failure Run
  | 0, run => .ok run
  | n + 1, run => do
    let next ← round dialect passes run
    if next.changes.length = run.changes.length then return next
    else rounds dialect passes n next

end Run

def transform (options : Options) (text : Text) : Except Failure Outcome := do
  let start ← Run.start options.dialect text
  let run ← Run.rounds options.dialect options.baseline.passes options.convergence.rounds start
  return ⟨run.document.text, run.changes⟩

end Uplift
