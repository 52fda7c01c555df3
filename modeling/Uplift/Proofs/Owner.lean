import Mathlib.Data.List.Basic
import Uplift.Pass.FunctionToArrow
import Uplift.Proofs.Scope

namespace Uplift

set_option autoImplicit true

/-- What a node is to the references in it. -/
inductive Role where
  | owner
  | outlying
  | parameter
  | plain
deriving DecidableEq

def Kind.role : Kind → Role
  | function _ _ | constructor | getter | setter | field | staticBlock => .owner
  | decorators | computed => .outlying
  | params | param => .parameter
  | _ => .plain

/-- The owners of references at a place of a tree; `none` is what is around the tree. -/
structure Owners where
  around : Option Node
  own : Option Node

namespace Owners

def outermost : Owners := ⟨none, none⟩

def owner (s : Owners) (n : Node) : Option Node :=
  if n.kind.role = .outlying then s.around else s.own

def below (s : Owners) (n : Node) : Owners :=
  match n.kind.role with
  | .owner => ⟨s.own, some n⟩
  | .outlying => ⟨s.around, s.around⟩
  | .parameter => s
  | .plain => ⟨s.own, s.own⟩

end Owners

namespace Node

mutual

/-- The nodes of a tree, each with what owns the references where it stands. -/
def placed (s : Owners) : Node → List (Node × Option Node)
  | mk k span cs => (mk k span cs, s.owner (mk k span cs)) :: placedAll (s.below (mk k span cs)) cs

def placedAll (s : Owners) : List Node → List (Node × Option Node)
  | [] => []
  | c :: cs => placed s c ++ placedAll s cs

end

/-- The references of one kind in a tree, each with its owner. -/
def owned (r : Capture) (s : Owners) (n : Node) : List (Node × Option Node) :=
  (n.placed s).filter fun x => r.isAt x.1

mutual

def outlying : Node → List Node
  | mk k _ cs =>
    match k.role with
    | .outlying => cs
    | .parameter => outlyingAll cs
    | _ => []

def outlyingAll : List Node → List Node
  | [] => []
  | c :: cs => outlying c ++ outlyingAll cs

end

/--
The tree leaves `m` to what is around it, by way of the decorators of a function or of its
parameters.
-/
def Overlooks (n m : Node) : Prop :=
  ∃ g, (g, none) ∈ n.placed .outermost ∧ g.isFunction = true ∧
    ∃ c ∈ g.children, ∃ d ∈ c.outlying, (m, none) ∈ d.placed .outermost

/-- The parameters and the body of a function. -/
def inner (f : Node) : List Node := (f.child 1).children ++ [f.child 4]

end Node

namespace Owners

def Has (s : Owners) (o : Option Node) : Prop := o = s.around ∨ o = s.own

theorem has_owner (s : Owners) (n : Node) : s.Has (s.owner n) := by
  rw [owner]
  split
  · exact .inl rfl
  · exact .inr rfl

theorem Has.of_below {s : Owners} (h : (s.below n).Has o) :
    s.Has o ∨ n.kind.role = .owner ∧ o = some n := by
  rw [below] at h
  split at h
  next hrole => exact h.imp .inr fun ho => ⟨hrole, ho⟩
  next => exact .inl (.inl (h.elim id id))
  next => exact .inl h
  next => exact .inl (.inr (h.elim id id))

end Owners

namespace Node

variable {m n c g : Node} {s : Owners} {o : Option Node} {r : Capture}

theorem placedAll_eq (s : Owners) (cs : List Node) : placedAll s cs = cs.flatMap (placed s) := by
  induction cs with
  | nil => rfl
  | cons c cs ih => rw [placedAll, ih, List.flatMap_cons]

theorem outlyingAll_eq (cs : List Node) : outlyingAll cs = cs.flatMap outlying := by
  induction cs with
  | nil => rfl
  | cons c cs ih => rw [outlyingAll, ih, List.flatMap_cons]

theorem placed_eq (s : Owners) (n : Node) :
    n.placed s = (n, s.owner n) :: n.children.flatMap (placed (s.below n)) := by
  obtain ⟨k, span, cs⟩ := n
  rw [placed, placedAll_eq, children]

theorem mem_placed {x : Node × Option Node} : x ∈ n.placed s ↔
    x = (n, s.owner n) ∨ ∃ c ∈ n.children, x ∈ c.placed (s.below n) := by
  rw [placed_eq, List.mem_cons, List.mem_flatMap]

theorem mem_placed_of_child {x : Node × Option Node} (hc : c ∈ n.children)
    (h : x ∈ c.placed (s.below n)) : x ∈ n.placed s :=
  mem_placed.2 (.inr ⟨c, hc, h⟩)

theorem map_fst_placed (s : Owners) (n : Node) : (n.placed s).map Prod.fst = n.subtrees := by
  induction n using induct generalizing s with
  | mk k span cs ih =>
    rw [placed_eq, subtrees, walk, if_pos rfl, walkAll_eq, List.map_cons,
      List.map_flatMap, children]
    rw [List.flatMap_congr fun c hc => ih c hc _]
    rfl

theorem mem_subtrees_of_mem_placed (h : (m, o) ∈ n.placed s) : m ∈ n.subtrees := by
  rw [← map_fst_placed s]
  exact List.mem_map_of_mem h

theorem owner_of_mem_placed (h : (m, o) ∈ n.placed s) :
    s.Has o ∨ ∃ g ∈ n.subtrees, o = some g ∧ g.kind.role = .owner ∧ m ∈ g.subtrees := by
  induction n using induct generalizing s with
  | mk k span cs ih =>
    rcases mem_placed.1 h with he | ⟨c, hc, hm⟩
    · cases he
      exact .inl (s.has_owner _)
    · rcases ih c hc hm with hhas | ⟨g, hg, hin⟩
      · rcases hhas.of_below with hhas | ⟨hrole, ho⟩
        · exact .inl hhas
        · refine .inr ⟨_, mem_walk_self _ _, ho, hrole, ?_⟩
          exact mem_subtrees_of_mem_child hc (mem_subtrees_of_mem_placed hm)
      · exact .inr ⟨g, mem_subtrees_of_mem_child hc hg, hin⟩

theorem not_mem_placed (hs : ¬s.Has none) : (m, none) ∉ n.placed s := by
  intro h
  rcases owner_of_mem_placed h with hhas | ⟨g, _, ho, _⟩
  · exact hs hhas
  · cases ho

theorem role_of_isAt (h : r.isAt n = true) : n.kind.role ≠ .outlying := by
  intro hrole
  obtain ⟨k, span, cs⟩ := n
  rw [kind, Kind.role.eq_def] at hrole
  split at hrole
  case h_7 => cases r <;> cases h
  case h_8 => cases r <;> cases h
  all_goals cases hrole

theorem exists_outlying (hm : r.isAt m = true) (h : (m, none) ∈ n.placed ⟨none, some g⟩) :
    ∃ d ∈ n.outlying, (m, none) ∈ d.placed .outermost := by
  induction n using induct with
  | mk k span cs ih =>
    rcases mem_placed.1 h with he | ⟨c, hc, hmc⟩
    · rw [Owners.owner] at he
      split at he
      next hrole =>
        cases he
        exact absurd hrole (role_of_isAt hm)
      next => cases he
    · rw [outlying]
      rw [Owners.below] at hmc
      split at hmc
      next hrole => exact absurd hmc (not_mem_placed (by simp [Owners.Has]))
      next hrole =>
        rw [show k.role = .outlying from hrole]
        exact ⟨c, hc, hmc⟩
      next hrole =>
        rw [show k.role = .parameter from hrole, outlyingAll_eq]
        obtain ⟨d, hd, hmd⟩ := ih c hc hmc
        exact ⟨d, List.mem_flatMap.2 ⟨c, hc, hd⟩, hmd⟩
      next => exact absurd hmc (not_mem_placed (by simp [Owners.Has]))

theorem placed_outlying (hd : d ∈ n.outlying) (h : (m, o) ∈ d.placed .outermost) :
    (m, o) ∈ n.placed ⟨none, some g⟩ := by
  induction n using induct with
  | mk k span cs ih =>
    rw [outlying] at hd
    split at hd
    next hrole =>
      refine mem_placed_of_child hd ?_
      rw [Owners.below, show (mk k span cs).kind.role = .outlying from hrole]
      exact h
    next hrole =>
      rw [outlyingAll_eq] at hd
      obtain ⟨c, hc, hd⟩ := List.mem_flatMap.1 hd
      refine mem_placed_of_child hc ?_
      rw [Owners.below, show (mk k span cs).kind.role = .parameter from hrole]
      exact ih c hc hd
    next => cases hd

theorem role_of_isFunction (h : n.isFunction = true) : n.kind.role = .owner := by
  obtain ⟨k, span, cs⟩ := n
  rw [isFunction] at h
  split at h
  next hk =>
    rw [hk]
    rfl
  next => cases h

theorem below_around (hs : s.around = none) (h : (m, none) ∈ c.placed (s.below n)) :
    (s.below n).around = none := by
  have hhas : (s.below n).Has none := by
    by_contra hno
    exact not_mem_placed hno h
  revert hhas
  rw [Owners.below]
  split
  next => exact fun hhas => hhas.elim Eq.symm (fun ho => nomatch ho)
  next => exact fun _ => hs
  next => exact fun _ => hs
  next => exact fun hhas => hhas.elim Eq.symm Eq.symm

theorem met_of_mem_placed (hm : r.isAt m = true) (h : (m, none) ∈ n.placed s)
    (hs : s.around = none) :
    m ∈ n.walk (fun k => !k.isFunction) ∨
      ∃ g, (g, none) ∈ n.placed s ∧ g.isFunction = true ∧
        ∃ c ∈ g.children, ∃ d ∈ c.outlying, (m, none) ∈ d.placed .outermost := by
  induction n using induct generalizing s with
  | mk k span cs ih =>
    rcases mem_placed.1 h with he | ⟨c, hc, hmc⟩
    · rw [(Prod.mk.inj he).1]
      exact .inl (mem_walk_self _ _)
    · cases hf : (mk k span cs).isFunction with
      | true =>
        have hrole := role_of_isFunction hf
        rw [Owners.below, hrole] at hmc
        have hown : s.own = none := by
          by_contra hne
          exact not_mem_placed (by simp [Owners.Has, eq_comm, hne]) hmc
        rw [hown] at hmc
        refine .inr ⟨mk k span cs, mem_placed.2 (.inl ?_), hf, c, hc, exists_outlying hm hmc⟩
        rw [Owners.owner, hrole, if_neg (by decide), hown]
      | false =>
        rcases ih c hc hmc (below_around hs hmc) with hw | ⟨g, hg, hrest⟩
        · refine .inl (mem_walk_of_mem_child ?_ hc hw)
          rw [hf]
          rfl
        · exact .inr ⟨g, mem_placed_of_child hc hg, hrest⟩

theorem exists_mem_placed (h : (g, o) ∈ n.placed s) :
    ∃ t : Owners, o = t.owner g ∧ ∀ x ∈ g.placed t, x ∈ n.placed s := by
  induction n using induct generalizing s with
  | mk k span cs ih =>
    rcases mem_placed.1 h with he | ⟨c, hc, hg⟩
    · obtain ⟨rfl, rfl⟩ := Prod.mk.inj he
      exact ⟨s, rfl, fun _ hx => hx⟩
    · obtain ⟨t, ho, ht⟩ := ih c hc hg
      exact ⟨t, ho, fun x hx => mem_placed_of_child hc (ht x hx)⟩

theorem Overlooks.mem_placed (h : n.Overlooks m) : (m, none) ∈ n.placed .outermost := by
  obtain ⟨g, hg, hf, c, hc, d, hd, hm⟩ := h
  obtain ⟨t, ho, ht⟩ := exists_mem_placed hg
  have hrole := role_of_isFunction hf
  rw [Owners.owner, hrole, if_neg (by decide)] at ho
  refine ht _ (mem_placed_of_child hc ?_)
  rw [Owners.below, hrole, ← ho]
  exact placed_outlying hd hm

/-- A search that finds no reference leaves only those that it overlooks. -/
theorem overlooks_of_references (h : n.references r = false) (hm : r.isAt m = true) :
    (m, none) ∈ n.placed .outermost ↔ n.Overlooks m := by
  refine ⟨fun hmem => ?_, fun ho => ho.mem_placed⟩
  refine (met_of_mem_placed hm hmem rfl).resolve_left fun hw => ?_
  have hmet : n.references r = true := List.any_eq_true.2 ⟨m, hw, hm⟩
  rw [h] at hmet
  cases hmet

end Node

namespace Owners

/-- `s` knows no owner that `t` does not know. -/
def Blurs (s t : Owners) : Prop :=
  (s.around = none ∨ s.around = t.around) ∧ (s.own = none ∨ s.own = t.own)

theorem Blurs.below {s t : Owners} (h : s.Blurs t) (n : Node) : (s.below n).Blurs (t.below n) := by
  rw [Owners.below, Owners.below]
  split
  next => exact ⟨h.2, .inr rfl⟩
  next => exact ⟨h.1, h.1⟩
  next => exact h
  next => exact ⟨h.2, h.2⟩

theorem Blurs.owner {s t : Owners} (h : s.Blurs t) (n : Node) :
    s.owner n = none ∨ s.owner n = t.owner n := by
  rw [Owners.owner, Owners.owner]
  split
  · exact h.1
  · exact h.2

end Owners

namespace Node

variable {n f : Node} {r : Capture}

theorem owned_eq (r : Capture) (s : Owners) (n : Node) :
    n.owned r s = (if r.isAt n = true then [(n, s.owner n)] else []) ++
      n.children.flatMap (owned r (s.below n)) := by
  rw [owned, placed_eq, List.filter_cons, List.filter_flatMap]
  split
  · rfl
  · rfl

theorem owned_blurred {s t : Owners} (h : s.Blurs t)
    (hn : ∀ m, r.isAt m = true → (m, none) ∉ n.placed s) : n.owned r s = n.owned r t := by
  induction n using induct generalizing s t with
  | mk k span cs ih =>
    have hbelow (c : Node) (hc : c ∈ cs) := ih c hc (h.below (mk k span cs)) fun m hm hmc =>
      hn m hm (mem_placed_of_child hc hmc)
    rw [owned_eq, owned_eq, children, List.flatMap_congr hbelow]
    split
    next hat =>
      have hown := (h.owner (mk k span cs)).resolve_left fun ho => by
        refine hn _ hat (mem_placed.2 (.inl ?_))
        rw [ho]
      rw [hown]
    next => rfl

theorem owned_eq_iff : (∀ s t, n.owned r s = n.owned r t) ↔
    ∀ m, r.isAt m = true → (m, none) ∉ n.placed .outermost := by
  constructor
  · intro h m hm hmem
    have hout : (m, none) ∈ n.owned r .outermost := List.mem_filter.2 ⟨hmem, hm⟩
    rw [h .outermost ⟨some n, some n⟩] at hout
    refine not_mem_placed ?_ (List.mem_filter.1 hout).1
    rintro (ho | ho) <;> cases ho
  · intro h s t
    have hblurs (s : Owners) : Owners.outermost.Blurs s := ⟨.inl rfl, .inl rfl⟩
    exact (owned_blurred (hblurs s) h).symm.trans (owned_blurred (hblurs t) h)

theorem references_of_capture? (hf : f.isFunction = true) (hl : f.children.length = 5)
    (h : f.capture? = none) (hn : n ∈ f.inner) (r : Capture) : n.references r = false := by
  obtain ⟨k, span, cs⟩ := f
  rw [isFunction, kind] at hf
  split at hf
  next =>
    match cs, hl with
    | [decorators, params, generics, result, body], _ =>
      rw [capture?, List.find?_eq_none] at h
      have hr := h r (by cases r <;> decide)
      rw [Bool.or_eq_true, not_or, List.any_eq_true] at hr
      rcases List.mem_append.1 hn with hn | hn
      · rw [← Bool.not_eq_true]
        exact fun href => hr.1 ⟨n, hn, href⟩
      · rw [List.mem_singleton.1 hn, ← Bool.not_eq_true]
        exact hr.2
  next => cases hf

/--
If a function is found to capture nothing, then every reference in its parameters or its body is
owned by something inside, unless it is overlooked. If none is overlooked, then the owners do not
depend on what is around: they are the same in the function and in an arrow function in its place.
-/
theorem owned_of_capture?_eq_none (f : Node) (hf : f.isFunction = true) (hl : f.children.length = 5)
    (h : f.capture? = none) (r : Capture) (n : Node) (hn : n ∈ f.inner) :
    (∀ x ∈ n.owned r .outermost,
      (∃ g ∈ n.subtrees, x.2 = some g ∧ g.kind.role = .owner ∧ x.1 ∈ g.subtrees) ∨
        x.2 = none ∧ n.Overlooks x.1) ∧
    ((∀ m, r.isAt m = true → ¬n.Overlooks m) ↔ ∀ s t, n.owned r s = n.owned r t) := by
  have href := references_of_capture? hf hl h hn r
  constructor
  · rintro ⟨m, o⟩ hx
    obtain ⟨hmem, hm⟩ := List.mem_filter.1 hx
    cases o with
    | none => exact .inr ⟨rfl, (overlooks_of_references href hm).1 hmem⟩
    | some g =>
      rcases owner_of_mem_placed hmem with hhas | hin
      · rcases hhas with ho | ho <;> cases ho
      · exact .inl hin
  · rw [owned_eq_iff]
    refine forall_congr' fun m => imp_congr_right fun hm => not_congr ?_
    exact (overlooks_of_references href hm).symm

theorem owned_of_capture?_eq_none_nested :
    ∃ p ∈ (Program.parse .tsx (Text.ofString
        "f(function (a) \x7b return [function () \x7b return () => this; \x7d, () => a]; \x7d);")).toOption,
      ∃ f ∈ p.tree.functionExprs, f.isFunction = true ∧ f.children.length = 5 ∧ f.capture? = none ∧
        (f.inner.flatMap (owned .this .outermost)).length = 1 ∧
        ∀ n ∈ f.inner, ∀ s t, n.owned .this s = n.owned .this t := by
  have hparse : ∃ p ∈ (Program.parse .tsx (Text.ofString
        "f(function (a) \x7b return [function () \x7b return () => this; \x7d, () => a]; \x7d);")).toOption,
      ∃ f ∈ p.tree.functionExprs, f.isFunction = true ∧ f.children.length = 5 ∧ f.capture? = none ∧
        (f.inner.flatMap (owned .this .outermost)).length = 1 ∧
        ∀ n ∈ f.inner, ∀ x ∈ n.owned .this .outermost, x.2.isNone = false := by
    decide +kernel
  obtain ⟨p, hp, f, hf, hfun, hl, hc, hone, howned⟩ := hparse
  refine ⟨p, hp, f, hf, hfun, hl, hc, hone, fun n hn => ?_⟩
  refine (owned_of_capture?_eq_none f hfun hl hc .this n hn).2.1 fun m hm ho => ?_
  have hsome : true = false := howned n hn (m, none) (List.mem_filter.2 ⟨ho.mem_placed, hm⟩)
  cases hsome

def Recaptured (r : Capture) (source : String) : Prop :=
  ∃ p ∈ (Program.parse .tsx (Text.ofString source)).toOption,
    (∃ f ∈ p.tree.functionExprs, f.capture? = none ∧
      ∃ n ∈ f.inner, ∃ x ∈ n.owned r .outermost, x.2.isNone = true) ∧
    (FunctionToArrow.edits p).length = 1

instance (r : Capture) (source : String) : Decidable (Recaptured r source) := by
  unfold Recaptured
  infer_instance

/--
Decorators of methods, and of their parameters, are evaluated by the function around the class.
-/
theorem recaptured_of_decorators :
    Recaptured .this
      "f(function () \x7b class A \x7b @dec(this.x) m() \x7b\x7d \x7d return A; \x7d);" ∧
    Recaptured .arguments
      "f(function () \x7b class A \x7b m(@dec(arguments[0]) x) \x7b\x7d \x7d return A; \x7d);" := by
  constructor
  · decide +kernel
  · decide +kernel

end Node

end Uplift
