import Uplift.Path
import Uplift.Transform

namespace Uplift

structure LineTable where
  entries : List (String × List Nat) := []
deriving DecidableEq, Repr, Inhabited

namespace LineTable

def linesOf (t : LineTable) (name : String) : List Nat := (t.entries.lookup name).getD []

def erase (t : LineTable) (name : String) : LineTable := ⟨t.entries.filter (·.1 ≠ name)⟩

def push (t : LineTable) (name : String) (line : Nat) : LineTable :=
  ⟨(name, t.linesOf name ++ [line]) :: (t.erase name).entries⟩

/-- Pairs each pass with the lines under its name, which are taken out. -/
def drain (t : LineTable) : List Pass → List (Pass × List Nat)
  | [] => []
  | p :: rest => (p, t.linesOf p.name) :: (t.erase p.name).drain rest

end LineTable

structure Grouping where
  order : List Pass := []
  table : LineTable := {}
deriving DecidableEq, Repr, Inhabited

/-- Takes a change in. A pass is new when no line stands under its name. -/
def Grouping.add (g : Grouping) (c : Change) : Grouping :=
  { order := if (g.table.linesOf c.pass.name).isEmpty then g.order ++ [c.pass] else g.order
    table := g.table.push c.pass.name c.line }

def Change.grouped (changes : List Change) : List (Pass × List Nat) :=
  let g := changes.foldl Grouping.add {}
  g.table.drain g.order

namespace Report

def groupLine (pass : Pass) (lines : List Nat) : String :=
  let label := if lines.length = 1 then "line " else "lines "
  "  " ++ pass.name ++ ": " ++ label ++ String.intercalate ", " (lines.map Nat.repr)

def lines (path : Path) (changes : List Change) : List String :=
  path.display :: (Change.grouped changes).map fun (pass, lines) => groupLine pass lines

def hexDigit (n : Nat) : Char := if n < 10 then Char.ofNat (48 + n) else Char.ofNat (87 + n)

def escape (c : Char) : List Char :=
  if c = '"' then ['\\', '"']
  else if c = '\\' then ['\\', '\\']
  else if c = '\n' then ['\\', 'n']
  else if c = '\r' then ['\\', 'r']
  else if c = '\t' then ['\\', 't']
  else if c = '\x08' then ['\\', 'b']
  else if c = '\x0c' then ['\\', 'f']
  else if c.toNat < 32 then ['\\', 'u', '0', '0', hexDigit (c.toNat / 16), hexDigit (c.toNat % 16)]
  else [c]

def quoted (s : String) : String := "\"" ++ String.ofList (s.toList.flatMap escape) ++ "\""

def changeJson (c : Change) : String :=
  "\x7b\"type\":" ++ quoted c.pass.name ++ ",\"line\":" ++ c.line.repr ++ "\x7d"

/-- A JSON object about a file; nothing if its path is no text. -/
def object? (path : Path) (fields : String) : Option String :=
  path.bytes.toString?.map fun name => "\x7b\"path\":" ++ quoted name ++ "," ++ fields ++ "\x7d"

def json? (path : Path) (o : Outcome) : Option String :=
  object? path ("\"modified\":" ++ (if o.modified then "true" else "false")
    ++ ",\"changes\":[" ++ String.intercalate "," (o.changes.map changeJson) ++ "]")

def failureJson? (path : Path) (error : String) : Option String :=
  object? path ("\"error\":" ++ quoted error)

end Report

end Uplift
