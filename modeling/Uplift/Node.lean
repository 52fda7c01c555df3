import Uplift.Text

namespace Uplift

inductive Declaring where
  | hoisted
  | scoped
  | constant
  | disposable
deriving DecidableEq, Repr, Inhabited

/--
What a node stands for. Where the children are not plain, a comment gives them, with `?` after an
optional one. An `ident` is an occurrence of an identifier, a `binding` is an identifier that a
pattern binds or an assignment writes, and a `name` refers to no variable.
-/
inductive Kind where
  | absent -- a missing optional child
  | ident (name : String)
  | binding (name : String)
  | name (text : String) -- a key or a name after a dot
  | privateName (text : String)
  | string
  | number (zero : Bool)
  | bigint
  | boolean
  | null
  | regex
  | quasi (raw : String)
  | template -- quasi, then expression and quasi in turn
  | taggedTemplate -- tag, type arguments?, template
  | this
  | super
  | newTarget
  | importMeta
  | importCallee
  | array -- elements, each an expression, a spread or absent
  | object -- properties: shorthand identifiers, properties, methods, accessors and spreads
  | property
  | defaultedProperty -- identifier, default: only part of an object that turns out to be a pattern
  | method
  | getter -- key, annotation?, block
  | setter -- key, pattern, block
  | computed
  | spread
  | functionExpr -- name?, function
  | arrow (async : Bool) -- patterns, type parameters?, return type?, block or expression
  | classExpr
  | call -- callee, type arguments?, arguments
  | new
  | arguments
  | member
  | index
  | superMember
  | optional -- a member access or a call in an optional chain: object, then what follows it
  | assign (op : String)
  | binary (op : String)
  | unary (op : String)
  | update (op : String)
  | conditional
  | sequence
  | await
  | yield
  | paren
  | jsxElement -- parts of the opening tag, children and closing tag
  | jsxPart -- a tag name, an attribute, a container or other part of an element
  | asType
  | satisfies
  | constAssertion
  | nonNull
  | cast
  | instantiation
  | invalid -- what stands for an expression or pattern that is in error
  | arrayPattern -- elements, annotation?
  | objectPattern -- properties, annotation?
  | elements
  | properties -- keyed patterns, shorthands and rests
  | keyedPattern
  | shorthandPattern -- binding, default?
  | restPattern -- pattern, annotation?
  | assignPattern
  | function (async generator : Bool) -- decorators, params, type parameters?, return type?, block?
  | params
  | param
  | decorators
  | decorator
  | classBody -- decorators, type parameters?, superclass?, type arguments?, interfaces, members
  | interfaces
  | members
  | constructor -- key, parameters, block?
  | field -- decorators, key, annotation?, value?
  | staticBlock
  | exprStmt
  | block
  | empty
  | debugger
  | with
  | return
  | labeled
  | break
  | continue
  | if
  | switch
  | case -- test?, statements
  | throw
  | try -- block, handler?, finalizer?
  | catch
  | while
  | doWhile
  | for -- initializer?, test?, update?, statement
  | forIn -- declaration or pattern, expression, statement
  | forOf (await : Bool) -- declaration or pattern, expression, statement
  | varDecl (declaring : Declaring) (ambient : Bool)
  | declarator
  | functionDecl
  | classDecl
  | defaultDecl -- an exported default: name?, function or class
  | type -- any part of a type, an annotation, or a list of type parameters or arguments
  | typeDecl -- an interface, a type alias, an enumeration or a namespace
  | moduleItem
  | program (module : Bool) -- top-level statements and declarations, of a module or of a script
deriving DecidableEq, Repr, Inhabited

namespace Kind

def isExpression : Kind → Bool
  | ident _ | privateName _ | string | number _ | bigint | boolean | null | regex | template
  | taggedTemplate | this | newTarget | importMeta | array | object | functionExpr | arrow _
  | classExpr | call | new | member | index | superMember | optional | assign _ | binary _ | unary _
  | update _ | conditional | sequence | await | yield | paren | jsxElement | asType | satisfies
  | constAssertion | nonNull | cast | instantiation | invalid => true
  | _ => false

end Kind

/--
A syntax tree: a kind, the range of text that it covers, and children in an order that the kind
determines. Parentheses and optional chains are nodes of their own.
-/
inductive Node where
  | mk (kind : Kind) (span : Range) (children : List Node)
deriving Repr

namespace Node

def kind : Node → Kind
  | mk k _ _ => k

def span : Node → Range
  | mk _ s _ => s

def children : Node → List Node
  | mk _ _ cs => cs

def absent : Node := mk .absent ⟨0, 0⟩ []

instance : Inhabited Node := ⟨absent⟩

def isAbsent (n : Node) : Bool := n.kind = .absent

def isExpression (n : Node) : Bool := n.kind.isExpression

def child (n : Node) (i : Nat) : Node := n.children[i]?.getD absent

mutual

/--
The nodes met on a walk from the root that enters only nodes that satisfy `enter`, parents before
children and siblings in order.
-/
def walk (enter : Node → Bool) : Node → List Node
  | mk k s cs => mk k s cs :: (if enter (mk k s cs) then walkAll enter cs else [])

def walkAll (enter : Node → Bool) : List Node → List Node
  | [] => []
  | c :: cs => walk enter c ++ walkAll enter cs

end

def subtrees (n : Node) : List Node := n.walk fun _ => true

def identifier? (n : Node) : Option String :=
  match n.kind with
  | .ident name => some name
  | .binding name => some name
  | _ => none

end Node

end Uplift
