import Uplift.Node

namespace Uplift.Node

def bare : Node → Node
  | .mk .paren _ [e] => bare e
  | n => n

def name? : Node → Option String
  | .mk (.ident w) _ _ => some w
  | _ => none

def member? : Node → Option (Node × String)
  | .mk .member _ [object, .mk (.name w) _ _] => some (object, w)
  | _ => none

def plainArguments? (n : Node) : Option (List Node) :=
  if n.children.any (·.kind = .spread) then none else some n.children

def call? : Node → Option (Node × Node)
  | .mk .call _ [callee, _, arguments] => some (callee, arguments)
  | _ => none

def methodCall? (n : Node) : Option (Node × String × Node) := do
  let (callee, arguments) ← n.call?
  let (receiver, name) ← callee.bare.member?
  return (receiver, name, arguments)

/-- The arguments of a call of the method `method` of the global object `object`. -/
def staticCall? (n : Node) (object method : String) : Option Node := do
  let (receiver, name, arguments) ← n.methodCall?
  if receiver.bare.name? = some object && name = method then some arguments else none

def soleArgument? (arguments : Node) : Option Node :=
  match arguments.plainArguments? with
  | some [e] => some e
  | _ => none

/-- Whether an expression can be an operand of `**` without parentheses. -/
def isAtom : Node → Bool
  | .mk .new _ [_, _, given] => !given.isAbsent
  | n => match n.kind with
    | .ident _ | .string | .number _ | .bigint | .boolean | .null | .regex | .this | .array
    | .object | .template | .taggedTemplate | .paren | .member | .index | .superMember | .call
    | .optional | .newTarget | .importMeta | .update _ | .nonNull => true
    | _ => false

def isObject (n : Node) : Bool := n.bare.kind = .object

def isPlainPattern : Node → Bool
  | .mk (.binding _) _ cs => cs.isEmpty
  | .mk .arrayPattern _ [_, t] => t.isAbsent
  | .mk .objectPattern _ [_, t] => t.isAbsent
  | _ => false

def plainName? : Node → Option String
  | .mk (.binding w) _ [] => some w
  | _ => none

end Uplift.Node
