import Uplift.Names

namespace Uplift

set_option autoImplicit true

namespace Scope

open Node

mutual

def leaves : Node → List Node
  | .mk .arrayPattern _ (elements :: _) => leaves elements
  | .mk .objectPattern _ (properties :: _) => leaves properties
  | .mk .elements _ cs => leavesAll cs
  | .mk .properties _ cs => leavesAll cs
  | .mk .params _ cs => leavesAll cs
  | .mk .param _ [_, p] => leaves p
  | .mk .keyedPattern _ [_, p] => leaves p
  | .mk .shorthandPattern _ (p :: _) => leaves p
  | .mk .restPattern _ (p :: _) => leaves p
  | .mk .assignPattern _ (p :: _) => leaves p
  | n => [n]

def leavesAll : List Node → List Node
  | [] => []
  | n :: ns => leaves n ++ leavesAll ns

end

def patternNames (pattern : Node) : List String := (leaves pattern).filterMap binding?

def parenthesized? : Node → Option String
  | .mk .paren _ [e] => e.bare.name?
  | _ => none

def parenthesized (pattern : Node) : List String := (leaves pattern).filterMap parenthesized?

def targets : Node → List String
  | .mk (.assign _) _ (target :: _) => patternNames target ++ parenthesized target
  | .mk (.update _) _ [e] => e.bare.name?.toList
  | .mk .forIn _ [head, _, _] => patternNames head ++ parenthesized head
  | .mk (.forOf _) _ [head, _, _] => patternNames head ++ parenthesized head
  | _ => []

def declaratorNames (declarators : List Node) : List String :=
  declarators.flatMap fun d => patternNames (d.child 0)

def lexicalNames : Node → List String
  | .mk (.varDecl declaring false) _ ds => if declaring = .hoisted then [] else declaratorNames ds
  | .mk .functionDecl _ (name :: _) => name.name?.toList
  | .mk .classDecl _ (name :: _) => name.name?.toList
  | .mk .labeled _ [_, statement] => lexicalNames statement
  | _ => []

def statements : Node → List Node
  | .mk .block _ cs => cs
  | n => [n]

def paramDecorators : Node → List Node
  | .mk .params _ ps => ps.flatMap fun
    | .mk .param _ [decorators, _] => [decorators]
    | _ => []
  | _ => []

def paramPatterns : Node → List Node
  | .mk .params _ ps => ps.map fun
    | .mk .param _ [_, pattern] => pattern
    | p => p
  | n => [n]

end Scope

/-- A scope of `var`. -/
structure Scope where
  parts : List Node
  outside : List Node := []
  head : List Node := []
  parameters : List String := []
  body : List Node

namespace Scope

/--
The scope of a function, an accessor or a static block. Only functions other than arrow functions
bind `arguments`.
-/
def ofNode? : Node → Option Scope
  | .mk (.function _ _) _ [decorators, params, generics, result, body] => some {
      parts := [decorators, params, generics, result, body]
      outside := decorators :: paramDecorators params
      head := paramPatterns params ++ [generics, result]
      parameters := "arguments" :: patternNames params
      body := statements body }
  | .mk (.arrow _) _ (params :: rest) => some {
      parts := params :: rest
      head := paramPatterns params
      parameters := patternNames params
      body := rest.flatMap statements }
  | .mk .constructor _ [key, params, body] => some {
      parts := [key, params, body]
      outside := key :: paramDecorators params
      head := paramPatterns params
      parameters := "arguments" :: patternNames params
      body := statements body }
  | .mk .getter _ cs => some {
      parts := cs
      outside := cs.take 1
      parameters := ["arguments"]
      body := (cs.drop 1).flatMap statements }
  | .mk .setter _ [key, param, body] => some {
      parts := [key, param, body]
      outside := [key]
      head := [param]
      parameters := "arguments" :: patternNames param
      body := statements body }
  | .mk .staticBlock _ cs => some {
      parts := cs
      body := cs.flatMap statements }
  | _ => none

def ofProgram (tree : Node) : List Scope :=
  { parts := [tree], body := [tree] } :: tree.subtrees.filterMap ofNode?

def surface (n : Node) : List Node := n.walk fun m => (ofNode? m).isNone

/-- The declarations by `var` that belong to a scope. -/
def vars (s : Scope) : List Node :=
  (s.parts.flatMap surface).filter fun n => n.kind = .varDecl .hoisted false

/--
The names that a tree declares for the scope of `var` around it. A function in a block can be among
them; which ones are depends on whether the code is strict.
-/
def hoistedNames (hoists : Node → Bool) (n : Node) : List String :=
  (surface n).flatMap fun
    | .mk (.varDecl .hoisted false) _ ds => declaratorNames ds
    | .mk .functionDecl span (name :: cs) =>
      if hoists (.mk .functionDecl span (name :: cs)) then name.name?.toList else []
    | _ => []

def bodyNames (hoists : Node → Bool) (s : Scope) : List String :=
  s.parameters ++ s.body.flatMap lexicalNames ++ s.body.flatMap (hoistedNames hoists)

/-- The parts of a class with the names it binds in them: decorators do not see the class. -/
def classRegions (name : Node) : Node → List (Node × List String)
  | .mk .classBody _ (decorators :: rest) =>
    (decorators, []) :: rest.map fun m => (m, name.name?.toList)
  | n => [(n, name.name?.toList)]

def blockRegions : Node → List (Node × List String)
  | .mk .functionDecl _ [_, f] => [(f, [])]
  | .mk .functionExpr _ [name, f] => [(f, name.name?.toList)]
  | .mk .classDecl _ [name, c] => classRegions name c
  | .mk .classExpr _ [name, c] => classRegions name c
  | .mk .block _ cs => cs.map fun m => (m, cs.flatMap lexicalNames)
  | .mk .switch _ (e :: cases) =>
    (e, []) :: cases.map fun m => (m, cases.flatMap fun c => c.children.flatMap lexicalNames)
  | .mk .catch _ [param, body] => [(param, patternNames param), (body, patternNames param)]
  | .mk .for _ (first :: rest) => (first :: rest).map fun m => (m, lexicalNames first)
  | .mk .forIn _ (head :: rest) => (head :: rest).map fun m => (m, lexicalNames head)
  | .mk (.forOf _) _ (head :: rest) => (head :: rest).map fun m => (m, lexicalNames head)
  | .mk _ _ cs => cs.map fun m => (m, [])

def regions (hoists : Node → Bool) (n : Node) : List (Node × List String) :=
  match ofNode? n with
  | some s => s.outside.map (fun m => (m, [])) ++ s.head.map (fun m => (m, s.parameters))
      ++ s.body.map fun m => (m, s.bodyNames hoists)
  | none => blockRegions n

/--
`Free hoists n w`: somewhere in the tree `n` the name `w` is written, and nothing between there and
the root of `n` binds it.
-/
inductive Free (hoists : Node → Bool) : Node → String → Prop where
  | here (h : w ∈ targets n) : Free hoists n w
  | inside (h : (m, names) ∈ regions hoists n) (hm : Free hoists m w) (hn : w ∉ names) :
      Free hoists n w

def freeNames (hoists : Node → Bool) : Nat → Node → List String
  | 0, _ => []
  | depth + 1, n => targets n ++ (regions hoists n).flatMap fun (m, names) =>
      (freeNames hoists depth m).filter fun w => !names.contains w

theorem free_of_mem_freeNames (h : w ∈ freeNames hoists depth n) : Free hoists n w := by
  induction depth generalizing n with
  | zero => cases h
  | succ depth ih =>
    rw [freeNames, List.mem_append, List.mem_flatMap] at h
    rcases h with h | ⟨⟨m, names⟩, hm, hw⟩
    · exact .here h
    · obtain ⟨hfree, hn⟩ := List.mem_filter.1 hw
      refine .inside hm (ih hfree) ?_
      rw [Bool.not_eq_true', ← Bool.not_eq_true, List.contains_iff_mem] at hn
      exact hn

end Scope

namespace Node

variable {m n c : Node} {enter : Node → Bool}

mutual

theorem induct {P : Node → Prop} (mk : ∀ k span cs, (∀ c ∈ cs, P c) → P (.mk k span cs)) : ∀ n, P n
  | .mk k span cs => mk k span cs (inductAll mk cs)

theorem inductAll {P : Node → Prop} (mk : ∀ k span cs, (∀ c ∈ cs, P c) → P (.mk k span cs)) :
    ∀ (cs : List Node), ∀ c ∈ cs, P c
  | [], _, h => nomatch h
  | c :: cs, d, h => (List.mem_cons.1 h).elim (fun e => e ▸ induct mk c) (inductAll mk cs d)

end

theorem walkAll_eq (enter : Node → Bool) (cs : List Node) :
    walkAll enter cs = cs.flatMap (walk enter) := by
  induction cs with
  | nil => rfl
  | cons c cs ih => rw [walkAll, ih, List.flatMap_cons]

theorem mem_walk_self (enter : Node → Bool) (n : Node) : n ∈ n.walk enter := by
  obtain ⟨k, span, cs⟩ := n
  exact List.mem_cons_self

theorem mem_walk_of_mem_child (he : enter n = true) (hc : c ∈ n.children) (h : m ∈ c.walk enter) :
    m ∈ n.walk enter := by
  obtain ⟨k, span, cs⟩ := n
  rw [walk, if_pos he, walkAll_eq]
  exact List.mem_cons_of_mem _ (List.mem_flatMap.2 ⟨c, hc, h⟩)

theorem mem_subtrees_of_mem_child (hc : c ∈ n.children) (h : m ∈ c.subtrees) : m ∈ n.subtrees :=
  mem_walk_of_mem_child rfl hc h

theorem bound_mk (k : Kind) (span : Range) (cs : List Node) :
    (mk k span cs).bound = (mk k span cs).binding?.toList ++
      if (mk k span cs).holdsPatterns then cs.flatMap bound else [] := by
  rw [bound, walk, List.filterMap_cons]
  have hrest :
      (if (mk k span cs).holdsPatterns then walkAll holdsPatterns cs else []).filterMap binding? =
        if (mk k span cs).holdsPatterns then cs.flatMap bound else [] := by
    split
    · rw [walkAll_eq, List.filterMap_flatMap]
      rfl
    · rfl
  rw [hrest]
  cases (mk k span cs).binding? with
  | none => rfl
  | some w => rfl

theorem binding?_of_isExpression (h : n.isExpression = true) : n.binding? = none := by
  obtain ⟨k, span, cs⟩ := n
  cases k <;> first | rfl | cases h

theorem bound_of_isExpression (h : n.isExpression = true) : n.bound = [] := by
  have hbinding := binding?_of_isExpression h
  obtain ⟨k, span, cs⟩ := n
  rw [bound_mk, holdsPatterns, hbinding, h]
  rfl

end Node

namespace Scope

open Node

theorem leavesAll_eq (cs : List Node) : leavesAll cs = cs.flatMap leaves := by
  induction cs with
  | nil => rfl
  | cons c cs ih => rw [leavesAll, ih, List.flatMap_cons]

theorem leaves_subset (n : Node) : leaves n ⊆ n.walk holdsPatterns := by
  induction n using induct with
  | mk k span cs ih =>
    have hchild : ∀ c ∈ cs, holdsPatterns (.mk k span cs) = true →
        leaves c ⊆ (Node.mk k span cs).walk holdsPatterns :=
      fun c hc he m hm => mem_walk_of_mem_child he hc (ih c hc hm)
    have hall : holdsPatterns (.mk k span cs) = true →
        leavesAll cs ⊆ (Node.mk k span cs).walk holdsPatterns := by
      intro he m hm
      rw [leavesAll_eq, List.mem_flatMap] at hm
      obtain ⟨c, hc, hm⟩ := hm
      exact hchild c hc he hm
    rw [leaves.eq_def]
    split
    next e => cases e; exact hchild _ List.mem_cons_self rfl
    next e => cases e; exact hchild _ List.mem_cons_self rfl
    next e => cases e; exact hall rfl
    next e => cases e; exact hall rfl
    next e => cases e; exact hall rfl
    next e => cases e; exact hchild _ (List.mem_cons_of_mem _ List.mem_cons_self) rfl
    next e => cases e; exact hchild _ (List.mem_cons_of_mem _ List.mem_cons_self) rfl
    next e => cases e; exact hchild _ List.mem_cons_self rfl
    next e => cases e; exact hchild _ List.mem_cons_self rfl
    next e => cases e; exact hchild _ List.mem_cons_self rfl
    next =>
      intro m hm
      rw [List.mem_singleton.1 hm]
      exact mem_walk_self _ _

theorem patternNames_subset (n : Node) : patternNames n ⊆ n.bound := by
  intro w hw
  obtain ⟨m, hm, hw⟩ := List.mem_filterMap.1 hw
  exact List.mem_filterMap.2 ⟨m, leaves_subset n hm, hw⟩

end Scope

end Uplift
