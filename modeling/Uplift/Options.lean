import Uplift.Dialect
import Uplift.Pass.Basic

namespace Uplift

inductive Convergence where
  | singlePass
  | untilStable (maxRounds : Nat)
deriving DecidableEq, Repr, Inhabited

/-- The largest number of rounds; there is always at least one. -/
def Convergence.rounds : Convergence → Nat
  | singlePass => 1
  | untilStable n => max n 1

structure Options where
  baseline : Baseline := .widelyAvailable
  dialect : Dialect := .tsx
  convergence : Convergence := .singlePass
deriving DecidableEq, Repr, Inhabited

/-- Structured data. A number is kept only if it is written as an integer. -/
inductive Data where
  | null
  | bool (b : Bool)
  | integer (n : Int)
  | real
  | string (s : String)
  | list (items : List Data)
  | record (fields : List (String × Data))
deriving Repr, Inhabited

namespace Data

def field? (fields : List (String × Data)) (key : String) : Option Data :=
  (fields.find? (·.1 == key)).map (·.2)

def word? : Data → Option Nat
  | integer n => if 0 ≤ n ∧ n < 4294967296 then some n.toNat else none
  | _ => none

def tagged? : Data → Option (String × Option Data)
  | string s => some (s, none)
  | record [(s, d)] => some (s, some d)
  | _ => none

def tag? (d : Data) : Option String :=
  match d.tagged? with
  | some (s, none) => some s
  | some (s, some null) => some s
  | _ => none

def baseline? (d : Data) : Option Baseline := do
  let s ← d.tag?
  Baseline.all.find? (·.name == s)

def dialect? (d : Data) : Option Dialect := do
  let s ← d.tag?
  Dialect.all.find? (·.name == s)

def convergence? (d : Data) : Option Convergence :=
  match d.tagged? with
  | some ("single-pass", none) => some .singlePass
  | some ("single-pass", some null) => some .singlePass
  | some ("until-stable", some (record fields)) => do
    let rounds ← field? fields "max_rounds"
    .untilStable <$> rounds.word?
  | _ => none

def orDefault {α : Type} (read : Data → Option α) (default : α) : Option Data → Option α
  | none => some default
  | some d => read d

/--
Reads options from a record, in which every field is optional, or from the list of its fields.
-/
def options? : Data → Option Options
  | record fields => do
    let baseline ← orDefault baseline? .widelyAvailable (field? fields "baseline")
    let dialect ← orDefault dialect? .tsx (field? fields "dialect")
    let convergence ← orDefault convergence? .singlePass (field? fields "convergence")
    pure { baseline, dialect, convergence }
  | list items => do
    if 3 < items.length then none
    let baseline ← orDefault baseline? .widelyAvailable items[0]?
    let dialect ← orDefault dialect? .tsx items[1]?
    let convergence ← orDefault convergence? .singlePass items[2]?
    pure { baseline, dialect, convergence }
  | _ => none

end Data

end Uplift
