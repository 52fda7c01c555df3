import Uplift.Disk
import Uplift.Report

namespace Uplift

structure Request where
  paths : List Path := []
  baseline : Option Baseline := none
  write : Bool := false
  json : Bool := false
  untilStable : Bool := false
  verbose : Bool := false
deriving DecidableEq, Repr, Inhabited

inductive Invocation where
  | run (request : Request)
  | help
  | misuse
deriving DecidableEq, Repr, Inhabited

namespace Request

def addPath (r : Request) (bytes : Text) : Option Request :=
  if bytes.isEmpty then none else some { r with paths := r.paths ++ [⟨bytes⟩] }

def setBaseline (r : Request) (s : String) : Option Request :=
  match r.baseline, Baseline.ofName s with
  | none, .ok b => some { r with baseline := some b }
  | _, _ => none

def setFlag (r : Request) : String → Option Request
  | "write" => if r.write then none else some { r with write := true }
  | "json" => if r.json then none else some { r with json := true }
  | "until-stable" => if r.untilStable then none else some { r with untilStable := true }
  | "verbose" => if r.verbose then none else some { r with verbose := true }
  | _ => none

def ofPaths (r : Request) (paths : List Text) : Option Request := paths.foldlM addPath r

/-- What a list of arguments means, after those that have been read. Only paths need not be text. -/
def ofArguments (r : Request) : List Text → Invocation
  | [] => if r.paths.isEmpty then .misuse else .run r
  | a :: rest =>
    match a with
    | [45, 45] =>
      match r.ofPaths rest with
      | some r => if r.paths.isEmpty then .misuse else .run r
      | none => .misuse
    | 45 :: 45 :: option =>
      if option = Text.ofString "help" then .help
      else if option = Text.ofString "baseline" then
        match rest with
        | [] => .misuse
        | value :: rest =>
          match value.toString?.bind r.setBaseline with
          | some r => ofArguments r rest
          | none => .misuse
      else
        let next :=
          if (Text.ofString "baseline=").isPrefixOf option then
            (Text.toString? (option.drop 9)).bind r.setBaseline
          else (Text.toString? option).bind r.setFlag
        match next with
        | some r => ofArguments r rest
        | none => .misuse
    | [45, 118] =>
      match r.setFlag "verbose" with
      | some r => ofArguments r rest
      | none => .misuse
    | [45, 104] => .help
    | 45 :: _ :: _ => .misuse
    | _ =>
      match r.addPath a with
      | some r => ofArguments r rest
      | none => .misuse

def usage : String :=
  "Usage: uplift [--baseline <tier>] [--write] [--json] [--until-stable] [-v|--verbose] <paths>..."

def maxRounds : Nat := 16

def options (r : Request) (p : Path) : Options :=
  { baseline := r.baseline.getD .widelyAvailable
    dialect := (p.extension?.bind Dialect.ofExtension?).getD .ecmascript
    convergence := if r.untilStable then .untilStable maxRounds else .singlePass }

def files (r : Request) (d : Disk) : List Path :=
  Path.deduplicated (Path.sorted (r.paths.flatMap d.select))

end Request

/--
Why a command stops before its last file: a text would be cut inside a character, or a path that is
no text cannot be told in JSON.
-/
inductive Halt where
  | severed
  | nameless
deriving DecidableEq, Repr, Inhabited

structure Session where
  disk : Disk
  out : List String := []
  err : List String := []
  writes : List (Path × Text) := []
  pending : Nat := 0
  written : Nat := 0
  failed : Nat := 0
  halt : Option Halt := none
deriving Inhabited

namespace Session

/--
What becomes of a file: its outcome, or why there is none. Nothing becomes of one that stops the
command.
-/
def outcome (r : Request) (d : Disk) (p : Path) : Option (Except String Outcome) :=
  match d.read p with
  | .error e => some (.error ("failed to read " ++ p.display ++ ": " ++ e.message))
  | .ok text =>
    match transform (r.options p) text with
    | .ok o => some (.ok o)
    | .error (.severed _) => none
    | .error e => some (.error e.message)

def print (s : Session) : Option String → Session
  | some line => { s with out := s.out ++ [line] }
  | none =>
    { s with
      err := s.err ++ ["error: path contains invalid UTF-8 characters"]
      halt := some .nameless }

def fail (r : Request) (s : Session) (p : Path) (error : String) : Session :=
  let s := { s with failed := s.failed + 1 }
  if r.json then s.print (Report.failureJson? p error)
  else { s with err := s.err ++ [p.display ++ ": " ++ error] }

def tell (r : Request) (s : Session) (p : Path) (o : Outcome) : Session :=
  if r.json then s.print (Report.json? p o)
  else if o.modified then { s with out := s.out ++ Report.lines p o.changes }
  else s

def keep (r : Request) (s : Session) (p : Path) (o : Outcome) : Session :=
  if !o.modified then s
  else if r.write then
    { s with
      disk := s.disk.write p o.code
      writes := s.writes ++ [(p, o.code)]
      written := s.written + 1 }
  else { s with pending := s.pending + 1 }

def handle (r : Request) (s : Session) (p : Path) : Session :=
  match outcome r s.disk p with
  | none => { s with halt := some .severed }
  | some (.error e) => s.fail r p e
  | some (.ok o) =>
    let s := s.tell r p o
    if s.halt.isSome then s else s.keep r p o

def handleAll (r : Request) (s : Session) : List Path → Session
  | [] => s
  | p :: rest =>
    let s := s.handle r p
    if s.halt.isSome then s else handleAll r s rest

def summary (r : Request) (s : Session) (total : Nat) : String :=
  (if r.write then "rewrote " ++ s.written.repr else "would rewrite " ++ s.pending.repr)
    ++ " of " ++ total.repr ++ " file(s), " ++ s.failed.repr ++ " failed"

def run (r : Request) (d : Disk) : Session :=
  let files := r.files d
  let s := handleAll r { disk := d } files
  if r.json || s.halt.isSome then s else { s with err := s.err ++ [s.summary r files.length] }

/--
The exit status: 2 after a failure, 1 if a file would change, 0 otherwise. A command that was
stopped has a status of its own.
-/
def status (s : Session) : Nat :=
  match s.halt with
  | some .severed => 101
  | some .nameless => 2
  | none => if 0 < s.failed then 2 else if 0 < s.pending then 1 else 0

end Session

end Uplift
