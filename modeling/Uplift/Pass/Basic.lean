
namespace Uplift

inductive Pass where
  | varToConst
  | objectAssignToSpread
  | arrayFromForEachToForOf
  | arrayFromToSpread
  | arrayConcatToSpread
  | mathPowToExponent
  | indexedForToForOf
  | domForEachToForOf
  | objectKeysForOfToForIn
  | stringConcatToTemplate
  | functionToArrow
  | promiseConstructorToTry
deriving DecidableEq, Repr, Inhabited

def Pass.name : Pass → String
  | varToConst => "var-to-const"
  | objectAssignToSpread => "object-assign-to-spread"
  | arrayFromForEachToForOf => "array-from-for-each-to-for-of"
  | arrayFromToSpread => "array-from-to-spread"
  | arrayConcatToSpread => "array-concat-to-spread"
  | mathPowToExponent => "math-pow-to-exponent"
  | indexedForToForOf => "indexed-for-to-for-of"
  | domForEachToForOf => "dom-for-each-to-for-of"
  | objectKeysForOfToForIn => "object-keys-for-of-to-for-in"
  | stringConcatToTemplate => "string-concat-to-template"
  | functionToArrow => "function-to-arrow"
  | promiseConstructorToTry => "promise-constructor-to-try"

/--
How widely the constructs that a run emits must be available: on every supported platform, or also
where they came lately.
-/
inductive Baseline where
  | widelyAvailable
  | newlyAvailable
deriving DecidableEq, Repr, Inhabited

structure UnknownBaseline where
  name : String
deriving DecidableEq, Repr

def UnknownBaseline.message (e : UnknownBaseline) : String :=
  "unknown baseline '" ++ e.name ++ "' (expected 'widely-available' or 'newly-available')"

namespace Baseline

def name : Baseline → String
  | widelyAvailable => "widely-available"
  | newlyAvailable => "newly-available"

def all : List Baseline := [widelyAvailable, newlyAvailable]

def ofName (s : String) : Except UnknownBaseline Baseline :=
  if s = "widely" then .ok widelyAvailable
  else if s = "newly" then .ok newlyAvailable
  else match all.find? (·.name == s) with
    | some b => .ok b
    | none => .error ⟨s⟩

/-- The passes that need nothing new, in the order in which they run. -/
def commonPasses : List Pass :=
  [.varToConst, .objectAssignToSpread, .arrayFromForEachToForOf, .arrayFromToSpread,
    .arrayConcatToSpread, .mathPowToExponent, .indexedForToForOf, .domForEachToForOf,
    .objectKeysForOfToForIn, .stringConcatToTemplate, .functionToArrow]

def passes : Baseline → List Pass
  | widelyAvailable => commonPasses
  | newlyAvailable => commonPasses ++ [.promiseConstructorToTry]

end Baseline

end Uplift
