import Uplift.Proofs.Host
import Uplift.Proofs.Reader

namespace Uplift

set_option autoImplicit true

namespace Node

def isHole : Node → Bool
  | .mk .absent _ [] => true
  | _ => false

def isKey : Node → Bool
  | .mk (.name _) _ [] => true
  | .mk .computed _ [e] => e.isExpression
  | n => n.isExpression

def isPlace (n : Node) : Bool := n.binding?.isSome || n.isHole || (n.isExpression && n.name?.isNone)

mutual

/--
Whether a target has the form that the grammar gives to targets: there is no annotation, keys are
keys and defaults are expressions.
-/
def isTarget : Node → Bool
  | .mk .arrayPattern _ [elements, annotation] => isTarget elements && annotation.isHole
  | .mk .objectPattern _ [properties, annotation] => isTarget properties && annotation.isHole
  | .mk .elements _ cs => areTargets cs
  | .mk .properties _ cs => areTargets cs
  | .mk .keyedPattern _ [key, p] => key.isKey && isTarget p
  | .mk .shorthandPattern _ [p, value] => isTarget p && (value.isHole || value.isExpression)
  | .mk .restPattern _ [p, annotation] => isTarget p && annotation.isHole
  | .mk .assignPattern _ [p, value] => isTarget p && value.isExpression
  | n => n.isPlace

def areTargets : List Node → Bool
  | [] => true
  | n :: ns => isTarget n && areTargets ns

end

def isDeclaration (head : Node) : Bool :=
  match head.kind with
  | .varDecl _ _ => true
  | _ => false

variable {n c : Node} {k : Kind} {span : Range} {cs : List Node}

theorem areTargets_iff (cs : List Node) : areTargets cs = true ↔ ∀ c ∈ cs, c.isTarget = true := by
  induction cs with
  | nil => simp [areTargets]
  | cons c cs ih => simp [areTargets, ih]

def isElement : Node → Bool
  | .mk .spread _ [e] => e.isExpression
  | .mk .absent _ _ => true
  | n => n.isExpression

def isProperty : Node → Bool
  | .mk .property _ [key, value] => key.isKey && value.isExpression
  | .mk .defaultedProperty _ [_, value] => value.isExpression
  | .mk .spread _ [e] => e.isExpression
  | _ => true

/-- Whether the parts of a node itself have the form that the grammar gives to them. -/
def isProper : Node → Bool
  | .mk (.assign _) _ (target :: values) => target.isTarget && values.all isExpression
  | .mk (.update _) _ [e] => e.isExpression
  | .mk .forIn _ (head :: _) => head.isDeclaration || head.isTarget
  | .mk (.forOf _) _ (head :: _) => head.isDeclaration || head.isTarget
  | .mk .array _ es => es.all isElement
  | .mk .object _ ps => ps.all isProperty
  | _ => true

/-- All nodes of a tree are proper, and the statements in it stand where statements can. -/
def Orderly (n : Node) : Prop := ∀ m ∈ n.subtrees, m.isProper = true ∧ m.isSeated = true

def AllOrderly (ns : List Node) : Prop := ∀ n ∈ ns, n.Orderly

structure Formed (n : Node) : Prop where
  orderly : n.Orderly
  isStatement : n.kind.isStatement = false

def AllFormed (ns : List Node) : Prop := ∀ n ∈ ns, n.Formed

structure Expressed (n : Node) : Prop where
  isExpression : n.isExpression = true
  formed : n.Formed

structure Aimed (n : Node) : Prop where
  isTarget : n.isTarget = true
  formed : n.Formed

structure Receiving (n : Node) : Prop where
  formed : n.Formed
  pattern : ∀ p ∈ n.children, (p.child 1).Formed

theorem orderly_mk : (mk k span cs).Orderly ↔
    (mk k span cs).isProper = true ∧ (mk k span cs).isSeated = true ∧ AllOrderly cs := by
  unfold AllOrderly Orderly
  rw [subtrees, walk, if_pos rfl, walkAll_eq, List.forall_mem_cons, and_assoc]
  apply and_congr_right
  intro _
  apply and_congr_right
  intro _
  simp only [List.mem_flatMap, subtrees]
  constructor
  · intro h c hc m hm
    exact h m ⟨c, hc, hm⟩
  · rintro h m ⟨c, hc, hm⟩
    exact h c hc m hm

@[simp] theorem allOrderly_nil : AllOrderly [] := nofun

@[simp] theorem allOrderly_cons {ns : List Node} :
    AllOrderly (n :: ns) ↔ n.Orderly ∧ AllOrderly ns :=
  List.forall_mem_cons

@[simp] theorem allOrderly_append {ms ns : List Node} :
    AllOrderly (ms ++ ns) ↔ AllOrderly ms ∧ AllOrderly ns :=
  List.forall_mem_append

@[simp] theorem allFormed_nil : AllFormed [] := nofun

@[simp] theorem allFormed_cons {ns : List Node} : AllFormed (n :: ns) ↔ n.Formed ∧ AllFormed ns :=
  List.forall_mem_cons

@[simp] theorem allFormed_append {ms ns : List Node} :
    AllFormed (ms ++ ns) ↔ AllFormed ms ∧ AllFormed ns :=
  List.forall_mem_append

@[simp] theorem allFormed_reverse {ns : List Node} : AllFormed ns.reverse ↔ AllFormed ns := by
  simp only [AllFormed, List.mem_reverse]

theorem AllFormed.orderly {ns : List Node} (h : AllFormed ns) : AllOrderly ns :=
  fun n hn => (h n hn).orderly

theorem Orderly.isProper (h : n.Orderly) : n.isProper = true := (h n (mem_walk_self _ n)).1

theorem Orderly.children (h : n.Orderly) : AllOrderly n.children := fun _ hc m hm =>
  h m (mem_subtrees_of_mem_child hc hm)

end Node

namespace Kind

def isOpen : Kind → Bool
  | .forIn | .forOf _ => false
  | k => k.isStatement

/-- Whether no part of a node of a kind can be a statement, not even the last. -/
def isPure (k : Kind) : Bool := !k.isStatement && !k.isHost

def isFree : Kind → Bool
  | .assign _ | .update _ | .array | .object => false
  | k => k.isPure

end Kind

namespace Node

variable {n c body : Node} {k : Kind} {span : Range} {cs : List Node}

theorem isProper_of_isOpen (hk : k.isOpen = true) : (mk k span cs).isProper = true := by
  cases k <;> first | rfl | cases hk

theorem isProper_of_isFree (hk : k.isFree = true) : (mk k span cs).isProper = true := by
  cases k <;> first | rfl | cases hk

theorem isProper_of_isHost (hk : k.isHost = true) : (mk k span cs).isProper = true := by
  cases k <;> first | rfl | cases hk

theorem isStatement_of_isOpen (hk : k.isOpen = true) : k.isStatement = true := by
  cases k <;> first | rfl | cases hk

theorem isPure_of_isFree (hk : k.isFree = true) : k.isPure = true := by
  cases k <;> first | rfl | cases hk

theorem isPure_iff : k.isPure = true ↔ k.isStatement = false ∧ k.isHost = false := by
  rw [Kind.isPure, Bool.and_eq_true, Bool.not_eq_true', Bool.not_eq_true']

theorem isSeated_of_isStatement (hk : k.isStatement = true) : (mk k span cs).isSeated = true := by
  rw [isSeated, kind, hk]
  rfl

theorem isSeated_of_forepart (h : AllFormed (mk k span cs).forepart) :
    (mk k span cs).isSeated = true := by
  rw [isSeated, Bool.or_eq_true, List.all_eq_true]
  right
  intro c hc
  rw [(h c hc).isStatement]
  rfl

theorem forepart_of_isPure (hk : k.isPure = true) : (mk k span cs).forepart = cs := by
  rw [forepart, kind, (isPure_iff.1 hk).2]
  rfl

theorem orderly_of_isOpen (hk : k.isOpen = true) (h : AllOrderly cs) : (mk k span cs).Orderly :=
  orderly_mk.2 ⟨isProper_of_isOpen hk, isSeated_of_isStatement (isStatement_of_isOpen hk), h⟩

theorem mem_children_of_mem_forepart (hc : c ∈ n.forepart) : c ∈ n.children := by
  rw [forepart] at hc
  split at hc
  next => exact (List.dropLast_sublist _).subset hc
  next => exact hc

theorem Formed.of_mem_forepart (h : n.Formed) (hc : c ∈ n.forepart) : c.Formed := by
  refine ⟨h.orderly.children c (mem_children_of_mem_forepart hc), ?_⟩
  have hseated := (h.orderly n (mem_walk_self _ n)).2
  rw [isSeated, h.isStatement, Bool.false_or, List.all_eq_true] at hseated
  exact (Bool.not_eq_true' _).mp (hseated c hc)

theorem formed_mk (hk : k.isPure = true) :
    (mk k span cs).Formed ↔ (mk k span cs).isProper = true ∧ AllFormed cs := by
  constructor
  · intro h
    refine ⟨h.orderly.isProper, fun c hc => h.of_mem_forepart ?_⟩
    rwa [forepart_of_isPure hk]
  · rintro ⟨hproper, hcs⟩
    have hseated : (mk k span cs).isSeated = true := by
      apply isSeated_of_forepart
      rwa [forepart_of_isPure hk]
    exact ⟨orderly_mk.2 ⟨hproper, hseated, hcs.orderly⟩, (isPure_iff.1 hk).1⟩

theorem formed_of_isFree (hk : k.isFree = true) (h : AllFormed cs) : (mk k span cs).Formed :=
  (formed_mk (isPure_of_isFree hk)).2 ⟨isProper_of_isFree hk, h⟩

theorem formed_of_isHost (hk : k.isHost = true) (h : AllFormed cs) (hbody : body.Orderly) :
    (mk k span (cs ++ [body])).Formed := by
  have hseated : (mk k span (cs ++ [body])).isSeated = true := by
    apply isSeated_of_forepart
    rwa [forepart, kind, hk, if_pos rfl, children, List.dropLast_concat]
  have hparts : AllOrderly (cs ++ [body]) := by simp [h.orderly, hbody]
  exact ⟨orderly_mk.2 ⟨isProper_of_isHost hk, hseated, hparts⟩, Kind.isStatement_of_isHost hk⟩

theorem Formed.isProper (h : n.Formed) : n.isProper = true := h.orderly.isProper

theorem Formed.of_mem_children (h : n.Formed) (hk : n.kind.isPure = true) (hc : c ∈ n.children) :
    c.Formed := by
  obtain ⟨k, span, cs⟩ := n
  exact ((formed_mk hk).1 h).2 c hc

@[simp] theorem formed_absent : absent.Formed := formed_of_isFree rfl nofun

@[simp] theorem orderly_absent : absent.Orderly := formed_absent.orderly

theorem Formed.children (h : n.Formed) (hk : n.kind.isPure = true) : AllFormed n.children :=
  fun _ hc =>
  h.of_mem_children hk hc

theorem Formed.child (h : n.Formed) (hk : n.kind.isPure = true) (i : Nat) : (n.child i).Formed := by
  unfold Node.child
  cases hi : n.children[i]? with
  | none => exact formed_absent
  | some c => exact h.of_mem_children hk (List.mem_of_getElem? hi)

theorem Orderly.child (h : n.Orderly) (i : Nat) : (n.child i).Orderly := by
  unfold Node.child
  cases hi : n.children[i]? with
  | none => exact orderly_absent
  | some c => exact h.children c (List.mem_of_getElem? hi)

theorem Orderly.bare (h : n.Orderly) : n.bare.Orderly := by
  induction n using induct with
  | mk k span cs ih =>
    rw [Node.bare.eq_def]
    split
    next e heq =>
      cases heq
      exact ih e List.mem_cons_self (h.children e List.mem_cons_self)
    next => exact h

theorem Orderly.respan {s t : Range} (h : (mk k s cs).Orderly) : (mk k t cs).Orderly := by
  obtain ⟨hproper, hseated, hcs⟩ := orderly_mk.1 h
  have hsame : (mk k t cs).isProper = (mk k s cs).isProper := by
    rcases cs with _ | ⟨_, _ | _⟩ <;> cases k <;> rfl
  exact orderly_mk.2 ⟨hsame ▸ hproper, hseated, hcs⟩

theorem Formed.respan {s t : Range} (h : (Node.mk k s cs).Formed) : (Node.mk k t cs).Formed :=
  ⟨h.orderly.respan, h.isStatement⟩

theorem formed_getD {o : Option Node} (h : ∀ n ∈ o, n.Formed) : (o.getD absent).Formed := by
  cases o with
  | none => exact formed_absent
  | some n => exact h n rfl

theorem formed_ite {m : Node} [Decidable b] (hn : n.Formed) (hm : m.Formed) :
    (if b then n else m).Formed := by
  split
  next => exact hn
  next => exact hm

theorem expressed_of_isFree (hk : k.isFree = true) (he : k.isExpression = true) (h : AllFormed cs) :
    (mk k span cs).Expressed := ⟨he, formed_of_isFree hk h⟩

theorem expressed_invalid : (mk .invalid span []).Expressed := expressed_of_isFree rfl rfl nofun

theorem expressed_ident (w : String) (span : Range) : (mk (.ident w) span []).Expressed :=
  expressed_of_isFree rfl rfl nofun

theorem isTarget_of_isExpression (h : n.isExpression = true) (hname : n.name? = none) :
    n.isTarget = true := by
  obtain ⟨k, span, cs⟩ := n
  cases k with
  | ident w => cases hname
  | _ => first | rfl | cases h

end Node

namespace Grammar

open Node

variable {k : Kind} {cs : List Node}

/-- What the readers of a level yield. -/
structure Level.Formed (go : Level) : Prop where
  expression : (go .expression).Yields Expressed
  assignment : (go .assignment).Yields Expressed
  assignmentProper : (go .assignmentProper).Yields Expressed
  operation : (go .operation).Yields Expressed
  unary : (go .unary).Yields Expressed
  operators : ∀ {left level}, left.Expressed → (go (.operators left level)).Yields Expressed
  leftHandSide : (go .leftHandSide).Yields Expressed
  newOperand : (go .newOperand).Yields Node.Formed
  accesses : ∀ {base calls computed}, base.Expressed →
      (go (.accesses base calls computed)).Yields Expressed
  bindingPattern : ∀ {lexical}, (go (.bindingPattern lexical)).Yields Node.Formed
  type : (go .type).Yields Node.Formed
  plainType : (go .plainType).Yields Node.Formed
  typeOperator : (go .typeOperator).Yields Node.Formed
  params : (go .params).Yields Receiving
  element : (go .element).Yields Expressed
  statement : ∀ {declarations}, (go (.statement declarations)).Yields Node.Orderly
  namespaceBody : (go .namespaceBody).Yields Node.Orderly

namespace Parse.Yields

theorem formed {p : Parse Node} (hp : p.Yields Expressed) : p.Yields Node.Formed :=
  hp.mono fun _ h => h.formed

theorem orderly {p : Parse Node} (hp : p.Yields Node.Formed) : p.Yields Node.Orderly :=
  hp.mono fun _ h => h.orderly

theorem allFormed {p : Parse (Option Node)} (hp : p.Yields fun r => ∀ n ∈ r, n.Formed) :
    (Parse.many p).Yields AllFormed := many hp

theorem plain (hk : k.isFree = true) (h : AllFormed cs) : (Parse.node k lo cs).Yields Node.Formed :=
  .node fun _ => formed_of_isFree hk h

theorem single {n : Node} (hk : k.isFree = true) (h : n.Formed) :
    (Parse.node k lo [n]).Yields Node.Formed :=
  plain hk (by simpa using h)

theorem plainLeaf (hk : k.isFree = true) : (Parse.leaf k).Yields Node.Formed :=
  .leaf fun _ => formed_of_isFree hk nofun

theorem hosting {body : Node} (cs : List Node) (hk : k.isHost = true) (h : AllFormed cs)
    (hbody : body.Orderly) : (Parse.node k lo (cs ++ [body])).Yields Node.Formed :=
  .node fun _ => formed_of_isHost hk h hbody

theorem allOrderly {p : Parse (Option Node)} (hp : p.Yields fun r => ∀ n ∈ r, n.Orderly) :
    (Parse.many p).Yields AllOrderly := many hp

theorem stated (hk : k.isOpen = true) (h : AllOrderly cs) :
    (Parse.node k lo cs).Yields Node.Orderly :=
  .node fun _ => orderly_of_isOpen hk h

theorem statedSingle {n : Node} (hk : k.isOpen = true) (h : n.Orderly) :
    (Parse.node k lo [n]).Yields Node.Orderly := stated hk (by simpa using h)

theorem statedLeaf (hk : k.isOpen = true) : (Parse.leaf k).Yields Node.Orderly :=
  .leaf fun _ => orderly_of_isOpen hk nofun

theorem term (hk : k.isFree = true) (he : k.isExpression = true) (h : AllFormed cs) :
    (Parse.node k lo cs).Yields Expressed := .node fun _ => expressed_of_isFree hk he h

theorem termLeaf (hk : k.isFree = true) (he : k.isExpression = true) :
    (Parse.leaf k).Yields Expressed :=
  .leaf fun _ => expressed_of_isFree hk he nofun

end Parse.Yields

end Grammar

end Uplift
