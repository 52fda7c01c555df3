import Uplift.Dialect
import Uplift.Node
import Uplift.Token.Next

namespace Uplift.Grammar

structure Context where
  dialect : Dialect
  size : Nat
  strict : Bool := false
  topLevel : Bool := false
  inFunction : Bool := false
  inAsync : Bool := false
  inGenerator : Bool := false
  inPlainFunction : Bool := false
  inParams : Bool := false
  inClass : Bool := false
  inField : Bool := false
  inStaticBlock : Bool := false
  superAllowed : Bool := false
  allowIn : Bool := true
  inHead : Bool := false
  inAwaitHead : Bool := false
  breakable : Bool := false
  continuable : Bool := false
  ambient : Bool := false
  inNamespace : Bool := false
  inConditional : Bool := false
  colonAhead : Bool := false
  /-- Whether a conditional type may not follow an `infer` constraint. -/
  plainTypes : Bool := false
  lenient : Bool := false
deriving Repr

def Context.reserves (c : Context) (w : String) : Bool :=
  Word.isReserved w || (c.strict && Word.strictReserved.contains w)
    || (w = "await" && (c.inAsync || c.inStaticBlock))
    || (w = "yield" && (c.inGenerator || c.strict))

structure State where
  here : List Char
  start : Nat
  token : Token
  /--
  The offsets between which the token counts as standing. A comment of an old page can precede it.
  -/
  lo : Nat
  hi : Nat
  whole : List Char
  rest : List Char
  fresh : Bool
  lastStart : Nat := 0
  lastStop : Nat := 0
  faults : List Fault := []
  /-- Faults that count only if the program turns out to be a module, the latest first. -/
  moduleFaults : List Fault := []
  isModule : Bool := false
  labels : List String := []
  /--
  The starts of brackets whose last element is followed by a comma, with the place of the comma.
  -/
  commas : List (Nat × Nat) := []
deriving Repr

inductive Outcome (α : Type) where
  | done (value : α) (state : State)
  | stop (fault : Fault) (state : State)

/--
A reader of syntax, which answers with what it read or stops at a fault. It can also note a fault
and go on.
-/
def Parse (α : Type) : Type := Context → State → Outcome α

namespace Parse

@[always_inline, inline]
protected def pure {α : Type} (a : α) : Parse α := fun _ s => .done a s

@[always_inline, inline]
protected def bind {α β : Type} (p : Parse α) (f : α → Parse β) : Parse β := fun c s =>
  match p c s with
  | .done a s => f a c s
  | .stop e s => .stop e s

instance : Monad Parse where
  pure := Parse.pure
  bind := Parse.bind

instance {α : Type} : Inhabited (Parse α) := ⟨fun _ s => .stop default s⟩

def context : Parse Context := fun c s => .done c s

def state : Parse State := fun _ s => .done s s

def modify (f : State → State) : Parse Unit := fun _ s => .done () (f s)

def under {α : Type} (f : Context → Context) (p : Parse α) : Parse α := fun c s => p (f c) s

def failAt {α : Type} (offset : Nat) (complaint : Complaint) : Parse α := fun _ s =>
  .stop ⟨offset, complaint⟩ s

/-- Stops at the current token. Text that is no token brings its own complaint. -/
def fail {α : Type} (complaint : Complaint := .unexpectedToken) : Parse α := fun _ s =>
  match s.token with
  | .bad fault => .stop fault s
  | _ => .stop ⟨s.lo, complaint⟩ s

def note (offset : Nat) (complaint : Complaint) : Parse Unit := fun c s =>
  .done () (if c.lenient then s else { s with faults := ⟨offset, complaint⟩ :: s.faults })

/-- Notes a fault of strict code; all code of a module is strict. -/
def noteStrict (offset : Nat) (what : String) : Parse Unit := fun c s =>
  if c.lenient then .done () s
  else
    let fault : Fault := ⟨offset, .strictMode what⟩
    .done () { s with
      faults := if c.strict then fault :: s.faults else s.faults
      moduleFaults := fault :: s.moduleFaults }

def noted (c : Context) (gap : Trivia.Gap) (r : Token.Reading) (s : State) : State :=
  if c.lenient then s
  else
    let strictFaults := if c.strict then r.strictFaults else []
    { s with
      faults := (gap.faults ++ r.faults ++ strictFaults).reverse ++ s.faults
      moduleFaults := (gap.moduleFaults ++ r.strictFaults).reverse ++ s.moduleFaults }

/-- Reads the token behind a gap. A keyword cannot be written with an escape. -/
def behind (c : Context) (gap : Trivia.Gap) : Token.Reading :=
  let r := Token.read c.dialect.hasTypes gap.offset gap.rest
  match r.token with
  | .word w false =>
    if r.escaped && c.reserves w then { r with token := .bad ⟨gap.offset, .reservedWord⟩ } else r
  | _ => r

def place (c : Context) (gap : Trivia.Gap) (s : State) : State :=
  let r := behind c gap
  let (lo, whole) := gap.beginning
  { noted c gap r s with
    here := gap.rest, start := gap.offset, token := r.token, lo, hi := gap.offset + r.length, whole
    rest := r.rest, fresh := gap.fresh }

def leap (stop : Nat) (gap : Trivia.Gap) : Parse Unit := fun c s =>
  .done () (place c gap { s with lastStart := s.lo, lastStop := stop })

def goto (offset : Nat) (cs : List Char) : Parse Unit := leap offset (Trivia.after offset cs)

def advance : Parse Unit := fun c s => goto s.hi s.rest c s

def again : Parse Unit := fun c s =>
  .done () { place c { fresh := s.fresh, offset := s.start, rest := s.here } s with
    lo := s.lo, whole := s.whole, lastStart := s.lastStart, lastStop := s.lastStop }

/-- Reads on only if the reading succeeds; otherwise nothing has happened. -/
def attempt {α : Type} (p : Parse (Option α)) : Parse (Option α) := fun c s =>
  match p { c with lenient := true } s with
  | .done (some a) s => .done (some a) s
  | .done none _ => .done none s
  | .stop _ _ => .done none s

def ahead {α : Type} (p : Parse α) (failed : α) : Parse α := fun c s =>
  match p { c with lenient := true } s with
  | .done a _ => .done a s
  | .stop _ _ => .done failed s

def recover {α : Type} (p : Parse α) (instead : α) : Parse α := fun c s =>
  match p c s with
  | .done a s => .done a s
  | .stop fault s => (do note fault.offset fault.complaint; Parse.pure instead : Parse α) c s

/--
Goes on with another reader after a fault, if the token at which the first one stops passes a test.
-/
def rescue {α : Type} (p : Parse α) (test : Parse Bool) (instead : Fault → Parse α) : Parse α :=
  fun c s =>
  match p c s with
  | .done a s => .done a s
  | .stop fault s =>
    match test c s with
    | .done true s => instead fault c s
    | _ => .stop fault s

def tolerate {α : Type} (p : Parse α) : Parse Unit := fun c s =>
  match p c s with
  | .done _ s => .done () s
  | .stop _ s => .done () s

def manyFrom {α : Type} (p : Parse (Option α)) : Nat → List α → Parse (List α)
  | 0, _ => fail .depthExceeded
  | n + 1, done => do
    match ← p with
    | some a => manyFrom p n (a :: done)
    | none => return done.reverse

def many {α : Type} (p : Parse (Option α)) : Parse (List α) :=
  fun c s => manyFrom p (c.size + 2) [] c s

def loopFrom {σ β : Type} (step : σ → Parse (σ ⊕ β)) : Nat → σ → Parse β
  | 0, _ => fail .depthExceeded
  | n + 1, a => do
    match ← step a with
    | .inl a => loopFrom step n a
    | .inr b => return b

def loop {σ β : Type} (step : σ → Parse (σ ⊕ β)) (start : σ) : Parse β := fun c s =>
  loopFrom step (c.size + 2) start c s

def token : Parse Token := fun _ s => .done s.token s

def here : Parse Nat := fun _ s => .done s.lo s

def last : Parse Nat := fun _ s => .done s.lastStop s

def previous : Parse Nat := fun _ s => .done s.lastStart s

def afterBreak : Parse Bool := fun _ s => .done s.fresh s

def isPunct (p : String) : Parse Bool := fun _ s => .done (s.token == .punct p) s

def isAnyPunct (ps : List String) : Parse Bool := fun _ s =>
  .done (match s.token with | .punct p => ps.contains p | _ => false) s

def isWord (w : String) : Parse Bool := fun _ s => .done (s.token == .word w false) s

def isAnyWord (ws : List String) : Parse Bool := fun _ s =>
  .done (match s.token with | .word w false => ws.contains w | _ => false) s

def eat (p : String) : Parse Bool := do
  if ← isPunct p then advance; return true
  else return false

def eatWord (w : String) : Parse Bool := do
  if ← isWord w then advance; return true
  else return false

def expect (p : String) : Parse Unit := do
  unless ← eat p do fail (.expected p)

def expectWord (w : String) : Parse Unit := do
  unless ← eatWord w do fail (.expected w)

def next : Parse (Token × Bool) := fun c s =>
  let gap := Trivia.after s.hi s.rest
  .done ((behind c gap).token, gap.fresh) s

def nextIsPunct (ps : List String) : Parse Bool := do
  match (← next).1 with
  | .punct p => return ps.contains p
  | _ => return false

def nextIsWordInLine : Parse Bool := do
  match ← next with
  | (.word _ _, fresh) => return !fresh
  | _ => return false

def nextIsWord (ws : List String) : Parse Bool := do
  match (← next).1 with
  | .word w false => return ws.contains w
  | _ => return false

/-- Keeps the first character of the current punctuator, and puts the others back. -/
def split (first : String) : Parse Unit := fun _ s =>
  .done () { s with token := .punct first, hi := s.start + 1, rest := s.here.drop 1 }

def isCloseAngle : Parse Bool := do
  match ← token with
  | .punct p =>
    if p.startsWith ">" then
      if p != ">" then split ">"
      return true
    else return false
  | _ => return false

def expectCloseAngle : Parse Unit := do
  if ← isCloseAngle then advance else fail (.expected ">")

def isOpenAngle : Parse Bool := do
  match ← token with
  | .punct p =>
    if p == "<" then return true
    else if p == "<<" then split "<"; return true
    else return false
  | _ => return false

def atEnd : Parse Bool := fun _ s =>
  .done (s.token == .punct ";" || s.token == .punct "\x7d" || s.token == .eof || s.fresh) s

def eatEnd : Parse Bool := do
  if ← eat ";" then return true
  atEnd

def expectEnd : Parse Unit := do
  unless ← eatEnd do fail (.expected ";")

def hasTypes : Parse Bool := fun c s => .done c.dialect.hasTypes s

def hasJsx : Parse Bool := fun c s => .done c.dialect.hasJsx s

def node (kind : Kind) (lo : Nat) (children : List Node) : Parse Node := fun _ s =>
  .done (.mk kind ⟨lo, s.lastStop⟩ children) s

def leaf (kind : Kind) : Parse Node := do
  let lo ← here
  advance
  node kind lo []

end Parse

/-- The constructs that contain themselves. Each is read with the means of the level below. -/
inductive Goal where
  | expression
  | assignment
  | assignmentProper
  | operation
  | unary
  | operators (left : Node) (level : Nat)
  | leftHandSide
  | newOperand
  | accesses (base : Node) (calls computed : Bool)
  | bindingPattern (lexical : Bool)
  | type
  | plainType
  | typeOperator
  | params
  | element
  | statement (declarations : Bool)
  | namespaceBody
deriving Repr, Inhabited

abbrev Level := Goal → Parse Node

end Uplift.Grammar
