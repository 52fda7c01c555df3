import Uplift.Grammar.Module
import Uplift.Text.Line

namespace Uplift

namespace Grammar

open Parse

def produce (go : Level) : Level
  | .expression => expression go
  | .assignment => assignment go
  | .assignmentProper => assignmentProper go
  | .operation => operation go true
  | .unary => unary go false
  | .operators left level => operators go left level
  | .leftHandSide => operand go false
  | .newOperand => newOperand go (primary go false)
  | .accesses base calls computed => accesses go base calls computed
  | .bindingPattern lexical => bindingPattern go lexical
  | .type => type go
  | .plainType => plainType go
  | .typeOperator => typeOperator go
  | .params => formalParams go
  | .element => element go
  | .statement declarations => statement go declarations
  | .namespaceBody => namespaceBody go

/-- The grammar, for constructs that are nested at most so deep. -/
def level : Nat → Level
  | 0, _ => fail .depthExceeded
  | n + 1, goal => produce (level n) goal

def program (go : Level) : Parse Node := do
  let items ← statementsUntil (moduleItem go) true (do return (← token) == .eof)
  let s ← state
  return .mk (.program s.isModule) ⟨0, s.hi⟩ items

/-- The first line of a script for an interpreter is no part of the program. -/
def skipInterpreter (offset : Nat) : List Char → Nat × List Char
  | '#' :: '!' :: rest =>
    let (line, rest) := rest.span fun c => !Letter.isLineBreak c
    (offset + 2 + Letter.width line, rest)
  | cs => (offset, cs)

def start (c : Context) (cs : List Char) : State :=
  let (offset, cs) := skipInterpreter 0 cs
  let before : State :=
    { here := cs, start := offset, token := .eof, lo := offset, hi := offset, whole := cs
      rest := cs, fresh := true }
  place c (Trivia.first offset cs) before

def firstFault (s : State) : Option Fault :=
  let moduleFaults := if s.isModule then s.moduleFaults else []
  s.faults.getLast? <|> moduleFaults.getLast?

def parse (dialect : Dialect) (cs : List Char) : Except Fault Node :=
  let c : Context := { dialect, size := cs.length, topLevel := true }
  match program (level (4 * cs.length + 64)) c (start c cs) with
  | .stop fault _ => .error fault
  | .done n s =>
    match firstFault s with
    | some fault => .error fault
    | none => .ok n

end Grammar

def Fault.line (fault : Fault) (text : Text) : Nat :=
  (LineIndex.ofText text).lineNumber fault.offset

structure Program where
  text : Text
  tree : Node
deriving Inhabited

namespace Program

/-- The mark that can stand before a text to tell its encoding is no part of the program. -/
def withoutMark : List Char → List Char
  | c :: cs => if c.toNat = 0xFEFF then cs else c :: cs
  | [] => []

/-- Reads a text. The offsets of nodes count from behind an encoding mark. -/
def parse (dialect : Dialect) (text : Text) : Except Fault Program := do
  let tree ← Grammar.parse dialect (withoutMark text.chars)
  return { text, tree }

def isModule (p : Program) : Bool := p.tree.kind = .program true

def snippet (p : Program) (n : Node) : Text := p.text.slice n.span

def expressions (p : Program) : List Node :=
  p.tree.children.filterMap fun
    | .mk .exprStmt _ [e] => some e
    | _ => none

end Program

end Uplift
