
namespace Uplift

/--
The grammar of a program: types and JSX, types with casts in place of JSX, or JSX without types.
-/
inductive Dialect where
  | tsx
  | typescript
  | ecmascript
deriving DecidableEq, Repr, Inhabited

structure UnknownDialect where
  name : String
deriving DecidableEq, Repr

def UnknownDialect.message (e : UnknownDialect) : String :=
  "unknown dialect '" ++ e.name ++ "' (expected 'tsx', 'typescript' or 'ecmascript')"

namespace Dialect

def name : Dialect → String
  | tsx => "tsx"
  | typescript => "typescript"
  | ecmascript => "ecmascript"

def all : List Dialect := [tsx, typescript, ecmascript]

/-- The dialect of a full name or of one of the short names `ts` and `js`. -/
def ofName (s : String) : Except UnknownDialect Dialect :=
  if s = "ts" then .ok typescript
  else if s = "js" then .ok ecmascript
  else match all.find? (·.name == s) with
    | some d => .ok d
    | none => .error ⟨s⟩

def ofExtension? (s : String) : Option Dialect :=
  if s = "tsx" then some tsx
  else if ["ts", "mts", "cts"].contains s then some typescript
  else if ["js", "jsx", "mjs", "cjs"].contains s then some ecmascript
  else none

def hasTypes : Dialect → Bool
  | ecmascript => false
  | _ => true

def hasJsx : Dialect → Bool
  | typescript => false
  | _ => true

end Dialect

end Uplift
