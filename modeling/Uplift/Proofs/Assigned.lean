import Mathlib.Data.List.Basic
import Uplift.Proofs.Formed.Statement
import Uplift.Proofs.Transform

namespace Uplift

set_option autoImplicit true

namespace Node

open Scope

def isWrapped : Node → Bool
  | .mk .paren _ [_] => true
  | .mk .nonNull _ [_] => true
  | .mk .asType _ [_, _] => true
  | .mk .satisfies _ [_, _] => true
  | .mk .cast _ [_, _] => true
  | _ => false

def stripped : Node → Node
  | .mk .paren _ [e] => stripped e
  | .mk .nonNull _ [e] => stripped e
  | .mk .asType _ [e, _] => stripped e
  | .mk .satisfies _ [e, _] => stripped e
  | .mk .cast _ [_, e] => stripped e
  | n => n

/-- The variable that a place is: a binding, or an identifier inside what is wrapped around it. -/
def placeName? (place : Node) : Option String := place.binding? <|> place.stripped.name?

def destinations : Node → List Node
  | .mk (.assign _) _ (target :: _) => leaves target
  | .mk (.update _) _ [e] => [e]
  | .mk .forIn _ (head :: _) => leaves head
  | .mk (.forOf _) _ (head :: _) => leaves head
  | _ => []

def unwraps : Node → Bool
  | .mk (.assign _) _ (.mk .paren _ [_] :: _) => true
  | .mk (.update _) _ [_] => true
  | _ => false

/-- Whether a node misses the variable at a place for what is wrapped around it. -/
def conceals (n place : Node) : Bool := if n.unwraps then place.bare.isWrapped else place.isWrapped

theorem bound_of_isHole {n : Node} (h : n.isHole = true) : n.bound = [] := by
  unfold isHole at h
  split at h
  next => rfl
  next => cases h

theorem bound_of_isKey {n : Node} (h : n.isKey = true) : n.bound = [] := by
  unfold isKey at h
  split at h
  next => rfl
  next span e =>
    rw [bound_mk]
    change e.bound ++ [] = []
    rw [bound_of_isExpression h]
    rfl
  next => exact bound_of_isExpression h

theorem bound_of_isPlace {n : Node} (h : n.isPlace = true) : n.bound = n.binding?.toList := by
  rw [isPlace, Bool.or_eq_true, Bool.or_eq_true, Bool.and_eq_true] at h
  rcases h with (h | h) | ⟨h, _⟩
  · obtain ⟨k, span, cs⟩ := n
    rw [bound_mk, holdsPatterns, ← Option.not_isSome, h]
    exact List.append_nil _
  · rw [bound_of_isHole h]
    unfold isHole at h
    split at h
    next => rfl
    next => cases h
  · rw [bound_of_isExpression h, binding?_of_isExpression h]
    rfl

theorem leaves_of_isPlace {n : Node} (h : n.isPlace = true) : leaves n = [n] := by
  obtain ⟨k, span, cs⟩ := n
  cases k <;> first | rfl | cases h

theorem bound_of_isTarget (n : Node) (h : n.isTarget = true) : n.bound = patternNames n := by
  induction n using induct with
  | mk k span cs ih =>
    have hall (hcs : areTargets cs = true) :
        cs.flatMap bound = (leavesAll cs).filterMap binding? := by
      rw [leavesAll_eq, List.filterMap_flatMap]
      apply List.flatMap_congr
      intro c hc
      exact ih c hc ((areTargets_iff cs).1 hcs c hc)
    have hfirst (p other : Node) (hp : p ∈ cs) (htarget : p.isTarget = true)
        (hother : other.bound = []) :
        [p, other].flatMap bound = patternNames p := by
      rw [List.flatMap_cons, List.flatMap_singleton, ih p hp htarget, hother, List.append_nil]
    rw [isTarget.eq_def] at h
    split at h
    next e =>
      cases e
      obtain ⟨helements, hannotation⟩ := Bool.and_eq_true_iff.1 h
      rw [bound_mk]
      exact hfirst _ _ List.mem_cons_self helements (bound_of_isHole hannotation)
    next e =>
      cases e
      obtain ⟨hproperties, hannotation⟩ := Bool.and_eq_true_iff.1 h
      rw [bound_mk]
      exact hfirst _ _ List.mem_cons_self hproperties (bound_of_isHole hannotation)
    next e =>
      cases e
      rw [bound_mk]
      exact hall h
    next e =>
      cases e
      rw [bound_mk]
      exact hall h
    next key p e =>
      cases e
      obtain ⟨hkey, hp⟩ := Bool.and_eq_true_iff.1 h
      rw [bound_mk]
      change [key, p].flatMap bound = patternNames p
      rw [List.flatMap_cons, List.flatMap_singleton, bound_of_isKey hkey]
      exact ih p (List.mem_cons_of_mem _ List.mem_cons_self) hp
    next e =>
      cases e
      obtain ⟨hp, hvalue⟩ := Bool.and_eq_true_iff.1 h
      rw [bound_mk]
      apply hfirst _ _ List.mem_cons_self hp
      exact (Bool.or_eq_true_iff.1 hvalue).elim bound_of_isHole bound_of_isExpression
    next e =>
      cases e
      obtain ⟨hp, hannotation⟩ := Bool.and_eq_true_iff.1 h
      rw [bound_mk]
      exact hfirst _ _ List.mem_cons_self hp (bound_of_isHole hannotation)
    next e =>
      cases e
      obtain ⟨hp, hvalue⟩ := Bool.and_eq_true_iff.1 h
      rw [bound_mk]
      exact hfirst _ _ List.mem_cons_self hp (bound_of_isExpression hvalue)
    next =>
      rw [bound_of_isPlace h, patternNames, leaves_of_isPlace h, List.filterMap_cons]
      cases (mk k span cs).binding? <;> rfl

theorem isPlace_of_mem_leaves (n : Node) (h : n.isTarget = true) :
    ∀ place ∈ leaves n, place.isPlace = true := by
  induction n using induct with
  | mk k span cs ih =>
    have hall (hcs : areTargets cs = true) : ∀ place ∈ leavesAll cs, place.isPlace = true := by
      intro place hplace
      rw [leavesAll_eq, List.mem_flatMap] at hplace
      obtain ⟨c, hc, hplace⟩ := hplace
      exact ih c hc ((areTargets_iff cs).1 hcs c hc) place hplace
    rw [isTarget.eq_def] at h
    split at h
    next p _ e => cases e; exact ih p List.mem_cons_self (Bool.and_eq_true_iff.1 h).1
    next p _ e => cases e; exact ih p List.mem_cons_self (Bool.and_eq_true_iff.1 h).1
    next e => cases e; exact hall h
    next e => cases e; exact hall h
    next p e =>
      cases e; exact ih p (List.mem_cons_of_mem _ List.mem_cons_self) (Bool.and_eq_true_iff.1 h).2
    next p _ e => cases e; exact ih p List.mem_cons_self (Bool.and_eq_true_iff.1 h).1
    next p _ e => cases e; exact ih p List.mem_cons_self (Bool.and_eq_true_iff.1 h).1
    next p _ e => cases e; exact ih p List.mem_cons_self (Bool.and_eq_true_iff.1 h).1
    next =>
      rw [leaves_of_isPlace h]
      intro place hplace
      cases List.mem_singleton.1 hplace
      exact h

theorem stripped_of_not_isWrapped {n : Node} (h : n.isWrapped = false) : n.stripped = n := by
  rw [stripped.eq_def]
  split
  next => cases h
  next => cases h
  next => cases h
  next => cases h
  next => cases h
  next => rfl

theorem stripped_bare (n : Node) : n.bare.stripped = n.stripped := by
  induction n using induct with
  | mk k span cs ih =>
    rw [bare.eq_def]
    split
    next e => cases e; exact ih _ List.mem_cons_self
    next => rfl

theorem isWrapped_of_name? {n : Node} (h : n.name? = some x) : n.isWrapped = false := by
  unfold name? at h
  split at h
  next => rfl
  next => cases h

theorem isWrapped_of_binding? {n : Node} (h : n.binding? = some x) : n.isWrapped = false := by
  unfold binding? at h
  split at h
  next => rfl
  next => cases h

theorem placeName?_of_isExpression {n : Node} (h : n.isExpression = true) :
    n.placeName? = n.stripped.name? := by
  rw [placeName?, binding?_of_isExpression h]
  rfl

/--
Inside parentheses only, an expression is the variable unless a mark of a type stands around it.
-/
theorem bare_name?_eq_some_iff {n : Node} (h : n.isExpression = true) :
    n.bare.name? = some x ↔ n.placeName? = some x ∧ n.bare.isWrapped = false := by
  rw [placeName?_of_isExpression h, ← stripped_bare]
  constructor
  · intro hname
    have hwrapped := isWrapped_of_name? hname
    rw [stripped_of_not_isWrapped hwrapped]
    exact ⟨hname, hwrapped⟩
  · rintro ⟨hname, hwrapped⟩
    rwa [stripped_of_not_isWrapped hwrapped] at hname

theorem name?_of_isPlace {n : Node} (h : n.isPlace = true) : n.name? = none := by
  obtain ⟨k, span, cs⟩ := n
  cases k <;> first | rfl | cases h

theorem binding?_eq_some_iff {n : Node} (h : n.isPlace = true) :
    n.binding? = some x ↔ n.placeName? = some x ∧ n.isWrapped = false := by
  constructor
  · intro hbinding
    rw [placeName?, hbinding]
    exact ⟨rfl, isWrapped_of_binding? hbinding⟩
  · rintro ⟨hname, hwrapped⟩
    rw [placeName?, stripped_of_not_isWrapped hwrapped, name?_of_isPlace h] at hname
    cases hbinding : n.binding? with
    | none =>
      rw [hbinding] at hname
      cases hname
    | some y =>
      rw [hbinding] at hname
      exact hname

theorem mem_bound_iff {n : Node} (h : n.isTarget = true) :
    x ∈ n.bound ↔ ∃ place ∈ leaves n, place.placeName? = some x ∧ place.isWrapped = false := by
  rw [bound_of_isTarget n h, patternNames, List.mem_filterMap]
  apply exists_congr
  intro place
  apply and_congr_right
  intro hplace
  exact binding?_eq_some_iff (isPlace_of_mem_leaves n h place hplace)

theorem mem_targetNames_iff {op : String} {span : Range} {target : Node} {rest : List Node}
    (h : target.isTarget = true) :
    x ∈ target.targetNames ↔
      ∃ place ∈ leaves target,
        place.placeName? = some x ∧
        (mk (.assign op) span (target :: rest)).conceals place = false := by
  unfold targetNames
  split
  next s e =>
    -- Parentheses around the whole are the one place of the target.
    have hplace := bare_name?_eq_some_iff (x := x) (n := mk .paren s [e]) rfl
    simpa [leaves, conceals, unwraps, bare] using hplace
  next hparen =>
    have hunwraps : (mk (.assign op) span (target :: rest)).unwraps = false := by
      unfold unwraps
      split
      next e => cases e; exact absurd rfl (hparen _ _)
      next e => cases e
      next => rfl
    simp only [conceals, hunwraps]
    exact mem_bound_iff h

theorem headNames_eq (head : Node) :
    head.headNames = if head.isDeclaration then [] else head.bound := by
  obtain ⟨k, span, cs⟩ := head
  cases k <;> rfl

theorem mem_headNames_iff {head : Node} (h : (head.isDeclaration || head.isTarget) = true) :
    x ∈ head.headNames ↔ ∃ place ∈ leaves head, place.placeName? = some x ∧
      place.isWrapped = false := by
  rw [headNames_eq]
  cases hdeclaration : head.isDeclaration with
  | false =>
    rw [hdeclaration] at h
    exact mem_bound_iff h
  | true =>
    -- A declaration is the one place of the head, and no variable.
    obtain ⟨k, span, cs⟩ := head
    unfold isDeclaration at hdeclaration
    split at hdeclaration
    next hkind =>
      cases hkind
      simp [leaves, placeName?, binding?, stripped, name?]
    next => cases hdeclaration

theorem mem_writes_iff {n : Node} (h : n.isProper = true) :
    x ∈ n.writes ↔ ∃ place ∈ n.destinations, place.placeName? = some x ∧
      n.conceals place = false := by
  unfold writes
  split
  next op span target rest => exact mem_targetNames_iff (Bool.and_eq_true_iff.1 h).1
  next op span e => simpa [destinations, conceals, unwraps] using bare_name?_eq_some_iff h
  next span head rest => exact mem_headNames_iff h
  next awaited span head rest => exact mem_headNames_iff h
  next hassign hupdate hkeys hitems =>
    rw [destinations] <;> simp_all

end Node

/--
The names that a program is taken to write are those of the variables at the places that it writes
to, apart from the concealed ones.
-/
theorem Program.mem_assigned_iff {dialect : Dialect} {text : Text} {p : Program}
    (h : Program.parse dialect text = .ok p) (x : String) :
    x ∈ p.tree.assigned ↔
      ∃ m ∈ p.tree.subtrees, ∃ place ∈ m.destinations, place.placeName? = some x ∧
        m.conceals place = false := by
  rw [Node.assigned, List.mem_flatMap]
  apply exists_congr
  intro m
  apply and_congr_right
  intro hm
  exact Node.mem_writes_iff (Program.formed_of_parse h m hm)

theorem Program.mem_assigned_iff_destructured :
    ∃ p, Program.parse .tsx (Text.ofString "[a, \x7b b: c = d, ...(e) \x7d] = f;") = .ok p ∧
      (∃ m ∈ p.tree.subtrees, ∃ place ∈ m.destinations, place.placeName? = some "c" ∧
        m.conceals place = false) ∧
      ¬∃ m ∈ p.tree.subtrees, ∃ place ∈ m.destinations, place.placeName? = some "d" ∧
        m.conceals place = false := by
  have hparse :
      ∃ p ∈ (Program.parse .tsx (Text.ofString "[a, \x7b b: c = d, ...(e) \x7d] = f;")).toOption,
      "c" ∈ p.tree.assigned ∧ "d" ∉ p.tree.assigned := by
    decide +kernel
  obtain ⟨p, hp, hc, hd⟩ := hparse
  have hok := Program.parse_eq_of_mem hp
  exact ⟨p, hok, (Program.mem_assigned_iff hok "c").1 hc,
    mt (Program.mem_assigned_iff hok "d").2 hd⟩

def Program.MissesWrite (source x : String) : Prop :=
  ∃ p ∈ (Program.parse .tsx (Text.ofString source)).toOption,
    (∃ m ∈ p.tree.subtrees, ∃ place ∈ m.destinations, place.placeName? = some x) ∧
      x ∉ p.tree.assigned

instance (source x : String) : Decidable (Program.MissesWrite source x) := by
  unfold Program.MissesWrite
  infer_instance

open Program in
/-- A variable is concealed by parentheses inside a pattern or a head, and by any mark of a type. -/
theorem Program.assigned_misses_wrapped :
    MissesWrite "[(x)] = [1];" "x" ∧ MissesWrite "for ((x) of xs) \x7b\x7d" "x" ∧
    MissesWrite "x! = 1;" "x" ∧
      MissesWrite "(x as any)++;" "x" ∧ MissesWrite "(x satisfies any) = 1;" "x" := by
  decide +kernel

end Uplift
