import Uplift.Pass.ArrayFromForEach
import Uplift.Proofs.Aside
import Uplift.Proofs.Formed.Statement
import Uplift.Proofs.Layout
import Uplift.Proofs.Transform

namespace Uplift

set_option autoImplicit true

namespace Callback

open Node

structure Anatomy where
  name : Option String
  first : Node
  extra : List Node
  body : Node

def anatomy? : Node → Option Anatomy
  | .mk (.arrow _) _ [.mk _ _ (first :: extra), _, _, body] => some ⟨none, first, extra, body⟩
  | .mk .functionExpr _ [name, .mk (.function _ _) _ [_, .mk _ _ (first :: extra), _, _, body]] =>
    some ⟨name.name?, first.child 1, extra.map (·.child 1), body⟩
  | _ => none

namespace Anatomy

/-- The names that are no longer bound in the loop, unless by the loop variable. -/
def lost (a : Anatomy) : List String := a.name.toList ++ a.extra.flatMap bound

/-- The names that the code of the loop writes. -/
def written (a : Anatomy) : List String := a.first.assigned ++ a.body.assigned

def mentions (a : Anatomy) (w : String) : Bool := a.first.mentions w || a.body.mentions w

/-- The callback has these parts, and the loop is made of its first parameter and its body. -/
structure Becomes (a : Anatomy) (callback : Node) (loop : Inlined) : Prop where
  anatomy : anatomy? callback.bare = some a
  binding : loop.binding = a.first.span
  names : loop.names = a.first.bound
  body : loop.body = if a.body.kind = .block then .block a.body.span else .expression a.body.span

end Anatomy

variable {n callback first body : Node} {extra : List Node} {rules : Rules} {loop : Inlined}
    {w : String}

theorem bound_of_plainName? (h : n.plainName? = some w) : n.bound = [w] := by
  unfold plainName? at h
  split at h
  next =>
    cases h
    rw [bound_mk]
    rfl
  next => cases h

theorem anatomy?_of_parts? (h : parts? n = some ⟨first :: extra, body⟩) :
    ∃ name, anatomy? n = some ⟨name, first, extra, body⟩ ∧ ∀ w ∈ name, body.mentions w = false := by
  unfold parts? at h
  split at h
  next params generics _ body =>
    split at h
    next =>
      obtain ⟨k, span, ps⟩ := params
      cases h
      exact ⟨none, rfl, nofun⟩
    next => cases h
  next name f =>
    split at h
    next params generics _ body =>
      split at h
      next hkept =>
        obtain ⟨k, span, ps⟩ := params
        cases ps with
        | nil => cases h
        | cons p ps =>
          cases h
          refine ⟨name.name?, rfl, ?_⟩
          intro w hw
          rw [Option.mem_def.1 hw] at hkept
          simpa using (Bool.and_eq_true_iff.1 hkept).2
      next => cases h
    next => cases h
  next => cases h

theorem mentions_of_acceptsExtra (h : acceptsExtra rules first extra body = true)
    (hw : w ∈ extra.flatMap bound) : body.mentions w = false := by
  obtain ⟨p, hp, hw⟩ := List.mem_flatMap.1 hw
  rcases Bool.or_eq_true_iff.1 h with hnone | hunused
  · rw [List.isEmpty_iff.1 hnone] at hp
    cases hp
  · have hall := List.all_eq_true.1 (Bool.and_eq_true_iff.1 hunused).2 p hp
    obtain ⟨v, hv, hbody⟩ := (Option.any_eq_true _ _).1 hall
    rw [bound_of_plainName? hv, List.mem_singleton] at hw
    rw [hw]
    exact (Bool.not_eq_true' _).mp hbody

theorem of_loopBody? {made : LoopBody} (h : loopBody? rules body = some made) :
    (made = if body.kind = .block then .block body.span else .expression body.span) ∧
      (body.kind = .block → leavesLoop body = false) := by
  unfold loopBody? at h
  split at h
  next hblock =>
    split at h
    next => cases h
    next hstays =>
      cases h
      exact ⟨(if_pos hblock).symm, fun _ => eq_false_of_ne_true hstays⟩
  next hblock =>
    split at h
    next =>
      cases h
      exact ⟨(if_neg hblock).symm, fun h => absurd h hblock⟩
    next => cases h

theorem exists_becomes (h : inline? rules callback = some loop) :
    ∃ a : Anatomy, a.Becomes callback loop ∧ (∀ w ∈ a.lost, a.body.mentions w = false) ∧
      (a.body.kind = .block → leavesLoop a.body = false) ∧
      (loop.declaring = .constant ↔ ∀ w ∈ a.first.bound, w ∉ a.body.assigned) := by
  obtain ⟨⟨params, body⟩, hparts, h⟩ := Option.bind_eq_some_iff.1 h
  simp only at h
  split at h
  next => cases h
  next first extra =>
    split at h
    next => cases h
    next hkept =>
      obtain ⟨loopBody, hbody, h⟩ := Option.bind_eq_some_iff.1 h
      obtain ⟨name, hanatomy, hname⟩ := anatomy?_of_parts? hparts
      simp only [Bool.not_eq_true', Bool.not_eq_false, Bool.and_eq_true] at hkept
      cases h
      obtain ⟨hmade, hstays⟩ := of_loopBody? hbody
      refine ⟨⟨name, first, extra, body⟩, ⟨hanatomy, rfl, rfl, hmade⟩, ?_, hstays, ?_⟩
      · intro w hw
        rcases List.mem_append.1 hw with hw | hw
        · exact hname w (Option.mem_toList.1 hw)
        · exact mentions_of_acceptsExtra hkept.2 hw
      · simp

/--
Where a loop says `const`, a name of its variable is written just if a part of the variable's
pattern that binds nothing writes it.
-/
theorem mem_written_iff_of_constant (h : inline? rules callback = some loop)
    (hconst : loop.declaring = .constant) :
    ∃ a : Anatomy, a.Becomes callback loop ∧
      ∀ w ∈ loop.names, w ∉ a.body.assigned ∧
        (w ∈ a.written ↔ ∃ e ∈ a.first.asides, w ∈ e.assigned) := by
  obtain ⟨a, ha, _, _, hdeclaring⟩ := exists_becomes h
  refine ⟨a, ha, ?_⟩
  intro w hw
  rw [ha.names] at hw
  have hbody := hdeclaring.1 hconst w hw
  refine ⟨hbody, ?_⟩
  rw [Anatomy.written, List.mem_append, or_iff_left hbody, assigned_eq_asides, List.mem_flatMap]

theorem mem_written_iff_of_constant_default :
    ∃ p ∈
      (Program.parse .tsx (Text.ofString "(([a, b = (c = 1)]) => \x7b use(a, b); \x7d);")).toOption,
      ∃ callback ∈ p.tree.subtrees, ∃ loop ∈ inline? ⟨false, false⟩ callback,
        loop.declaring = .constant ∧ loop.names = ["a", "b"] ∧
        ∃ a : Anatomy, a.Becomes callback loop ∧ ∀ w ∈ loop.names, w ∉ a.written := by
  have hparse :
      ∃ p ∈
        (Program.parse .tsx
          (Text.ofString "(([a, b = (c = 1)]) => \x7b use(a, b); \x7d);")).toOption,
      ∃ callback ∈ p.tree.subtrees, ∃ loop ∈ inline? ⟨false, false⟩ callback,
        loop.declaring = .constant ∧ loop.names = ["a", "b"] ∧
        ∃ a ∈ anatomy? callback.bare, a.first.asides.flatMap assigned = ["c"] := by
    decide +kernel
  obtain ⟨p, hp, callback, hcallback, loop, hloop, hconst, hnames, a, hanatomy, hasides⟩ := hparse
  obtain ⟨b, hb, hwritten⟩ := mem_written_iff_of_constant hloop hconst
  cases hanatomy.symm.trans hb.anatomy
  refine ⟨p, hp, callback, hcallback, loop, hloop, hconst, hnames, a, hb, ?_⟩
  intro w hw hmem
  have hc : w ∈ a.first.asides.flatMap assigned := List.mem_flatMap.2 ((hwritten w hw).2.1 hmem)
  rw [hasides, List.mem_singleton] at hc
  rw [hc, hnames] at hw
  exact absurd hw (by decide)

def OverwritesConstant (source : String) : Prop :=
  ∃ p ∈ (Program.parse .tsx (Text.ofString source)).toOption,
    ∃ callback ∈ p.tree.subtrees, ∃ loop ∈ inline? ⟨false, false⟩ callback,
      loop.declaring = .constant ∧
      ∃ a ∈ anatomy? callback.bare, ∃ w ∈ loop.names, w ∈ a.written

instance (source : String) : Decidable (OverwritesConstant source) := by
  unfold OverwritesConstant
  infer_instance

/-- Writes in default values and in computed keys are overlooked. -/
theorem overwritesConstant_of_pattern :
    OverwritesConstant "(([a, b = (a = 1)]) => \x7b use(a, b); \x7d);" ∧
    OverwritesConstant "((\x7b [k = 1]: k \x7d) => \x7b use(k); \x7d);" := by
  constructor
  · decide +kernel
  · decide +kernel

/--
A lost name occurs in the code of a loop just if the loop variable has the name, or if it occurs in
a part of the variable's pattern that binds nothing.
-/
theorem mentions_iff_of_mem_lost (h : inline? rules callback = some loop) :
    ∃ a : Anatomy, a.Becomes callback loop ∧ ∀ w ∈ a.lost, a.body.mentions w = false ∧
      (a.mentions w = true ↔ w ∈ loop.names ∨ ∃ e ∈ a.first.asides, e.mentions w = true) := by
  obtain ⟨a, ha, hlost, _, _⟩ := exists_becomes h
  refine ⟨a, ha, ?_⟩
  intro w hw
  have hbody := hlost w hw
  refine ⟨hbody, ?_⟩
  rw [Anatomy.mentions, hbody, Bool.or_false, ha.names, mentions_iff_asides]

theorem mentions_iff_of_mem_lost_unused :
    ∃ p ∈
      (Program.parse .tsx
        (Text.ofString "(function f([a, b = g], i) \x7b use(a, b); \x7d);")).toOption,
      ∃ callback ∈ p.tree.subtrees, ∃ loop ∈ inline? ⟨false, true⟩ callback,
        ∃ a : Anatomy, a.Becomes callback loop ∧ a.lost = ["f", "i"] ∧
          ∀ w ∈ a.lost, a.mentions w = false := by
  have hparse : ∃ p ∈ (Program.parse .tsx
        (Text.ofString "(function f([a, b = g], i) \x7b use(a, b); \x7d);")).toOption,
      ∃ callback ∈ p.tree.subtrees, ∃ loop ∈ inline? ⟨false, true⟩ callback,
        loop.names = ["a", "b"] ∧ ∃ a ∈ anatomy? callback.bare, a.lost = ["f", "i"] ∧
          ∀ e ∈ a.first.asides, ∀ w ∈ a.lost, e.mentions w = false := by
    decide +kernel
  obtain ⟨p, hp, callback, hcallback, loop, hloop, hnames, a, hanatomy, hlost, hasides⟩ := hparse
  obtain ⟨b, hb, hmentions⟩ := mentions_iff_of_mem_lost hloop
  cases hanatomy.symm.trans hb.anatomy
  refine ⟨p, hp, callback, hcallback, loop, hloop, a, hb, hlost, ?_⟩
  intro w hw
  apply eq_false_of_ne_true
  intro hmem
  rcases (hmentions w hw).2.1 hmem with hname | ⟨e, he, hmentioned⟩
  · rw [hlost] at hw
    rw [hnames] at hname
    have hdisjoint : ∀ w ∈ ["f", "i"], w ∉ ["a", "b"] := by decide
    exact hdisjoint w hw hname
  · rw [hasides e he w hw] at hmentioned
    cases hmentioned

def Rebinds (source : String) : Prop :=
  ∃ p ∈ (Program.parse .tsx (Text.ofString source)).toOption,
    ∃ callback ∈ p.tree.subtrees, ∃ loop ∈ inline? ⟨false, true⟩ callback,
      ∃ a ∈ anatomy? callback.bare, ∃ w ∈ a.lost, a.mentions w = true ∧ w ∉ loop.names

instance (source : String) : Decidable (Rebinds source) := by
  unfold Rebinds
  infer_instance

/-- In default values neither the name of the function nor a second parameter is looked for. -/
theorem rebinds_of_default :
    Rebinds "(function f([a, b = f]) \x7b use(a, b); \x7d);" ∧
    Rebinds "(([a, b = i], i) => \x7b use(a, b); \x7d);" := by
  constructor
  · decide +kernel
  · decide +kernel

theorem isOwn_of_isStatement (h : n.kind.isStatement = true) : isOwn n = true := by
  obtain ⟨k, span, cs⟩ := n
  cases k <;> first | rfl | cases h

theorem isStatement_of_escapes (h : escapes n = true) : n.kind.isStatement = true := by
  obtain ⟨k, span, cs⟩ := n
  cases k <;> first | rfl | cases h

theorem Anatomy.Becomes.orderly_body {a : Anatomy} (ha : a.Becomes callback loop)
    (h : callback.Orderly) : a.body.Orderly := by
  have hanatomy := ha.anatomy
  have hbare := h.bare
  unfold anatomy? at hanatomy
  split at hanatomy
  next he =>
    cases hanatomy
    rw [he] at hbare
    exact hbare.children _ (by simp [children])
  next he =>
    cases hanatomy
    rw [he] at hbare
    have hfunction := hbare.children _ (List.mem_cons_of_mem _ List.mem_cons_self)
    exact hfunction.children _ (by simp [children])
  next => cases hanatomy

theorem exists_hosts_of_escapes {o : Option Node} (hbody : body.Orderly)
    (hstays : leavesLoop body = false) (hm : (n, o) ∈ body.hosted none) (hn : escapes n = true) :
    ∃ g ∈ body.subtrees, o = some g ∧ g.Hosts n := by
  rcases hosts_of_mem_hosted hm with rfl | hhost
  · -- By way of statements the search enters everything, so it meets one that belongs to nothing.
    have hseated (p : Node) (hp : p ∈ body.subtrees) : p.isSeated = true := (hbody p hp).2
    have hwalk := mem_walk_of_mem_hosted hseated (isStatement_of_escapes hn) hm
    have hown := mem_walk_of_imp (fun p => isOwn_of_isStatement) hwalk
    have hleaves : leavesLoop body = true := List.any_eq_true.2 ⟨n, hown, hn⟩
    rw [hstays] at hleaves
    cases hleaves
  · exact hhost

/--
In a callback that becomes a loop with its block, every `var` belongs to a function or a static
block inside the block, and so does every `return`.
-/
theorem exists_hosts_of_inline? {dialect : Dialect} {text : Text} {p : Program} {range : Range}
    (hparse : Program.parse dialect text = .ok p) (hcallback : callback ∈ p.tree.subtrees)
    (h : inline? rules callback = some loop) (hblock : loop.body = .block range) :
    ∃ a : Anatomy, a.Becomes callback loop ∧ ∀ x ∈ a.body.hosted none,
      (∀ ambient, x.1.kind = .varDecl .hoisted ambient → ∃ g ∈ a.body.subtrees, x.2 = some g ∧
        g.Hosts x.1) ∧
      (x.1.kind = .return → ∃ g ∈ a.body.subtrees, x.2 = some g ∧ g.Hosts x.1 ∧
        (g.kind.isCallable = true ∨ g.kind = .staticBlock)) := by
  obtain ⟨a, ha, _, hstays, _⟩ := exists_becomes h
  have hkind : a.body.kind = .block := by
    by_contra hk
    rw [ha.body, if_neg hk] at hblock
    cases hblock
  have hbody := ha.orderly_body fun m hm =>
    Program.orderly_of_parse hparse m (mem_subtrees_trans hcallback hm)
  refine ⟨a, ha, ?_⟩
  intro x hx
  have hhosts (hescapes : escapes x.1 = true) :=
    exists_hosts_of_escapes hbody (hstays hkind) hx hescapes
  constructor
  · intro ambient hvar
    apply hhosts
    rw [escapes, hvar]
  · intro hreturn
    have hescapes : escapes x.1 = true := by rw [escapes, hreturn]
    obtain ⟨g, hg, ho, hhost⟩ := hhosts hescapes
    refine ⟨g, hg, ho, hhost, ?_⟩
    simpa [Kind.isHost] using hhost.isHost

theorem exists_hosts_of_inline?_nested :
    ∃ p, Program.parse .tsx (Text.ofString
        "(x => \x7b class A \x7b static \x7b var y; \x7d m() \x7b return y; \x7d \x7d \x7d);") =
          .ok p ∧
      ∃ callback ∈ p.tree.subtrees, ∃ loop ∈ inline? ⟨false, false⟩ callback, ∃ a :
      Anatomy, a.Becomes callback loop ∧
        ((a.body.hosted none).filter fun x => escapes x.1).length = 2 ∧
        ∀ x ∈ a.body.hosted none, x.1.kind = .return →
          ∃ g ∈ a.body.subtrees, x.2 = some g ∧ g.Hosts x.1 ∧ g.kind.isCallable = true := by
  have hparse : ∃ p ∈ (Program.parse .tsx (Text.ofString
        "(x => \x7b class A \x7b static \x7b var y; \x7d m() \x7b return y; \x7d \x7d \x7d);")).toOption,
      ∃ callback ∈ p.tree.subtrees, ∃ loop ∈ inline? ⟨false, false⟩ callback,
        loop.body = .block ⟨6, 57⟩ ∧
        ∃ a ∈ anatomy? callback.bare,
          ((a.body.hosted none).filter fun x => escapes x.1).length = 2 ∧
          ((a.body.hosted none).filter fun x => x.1.kind = .return).all fun x =>
            x.2.any (·.kind.isCallable) := by
    decide +kernel
  obtain ⟨p, hp, callback, hcallback, loop, hloop, hblock, a, hanatomy, hcount, hreturns⟩ := hparse
  have hok := Program.parse_eq_of_mem hp
  obtain ⟨b, hb, hhosts⟩ := exists_hosts_of_inline? hok hcallback hloop hblock
  cases hanatomy.symm.trans hb.anatomy
  refine ⟨p, hok, callback, hcallback, loop, hloop, a, hb, hcount, ?_⟩
  intro x hx hreturn
  obtain ⟨g, hg, ho, hhost, _⟩ := (hhosts x hx).2 hreturn
  have hcallable := List.all_eq_true.1 hreturns x (List.mem_filter.2 ⟨hx, decide_eq_true hreturn⟩)
  rw [ho] at hcallable
  exact ⟨g, hg, ho, hhost, hcallable⟩

/--
A `return` that belongs to a static block is overlooked, and the program with the loop cannot be
read.
-/
theorem return_overlooked_in_static :
    ∃ p ∈ (Program.parse .tsx (Text.ofString
        "Array.from(xs).forEach(x => \x7b class A \x7b static \x7b return; \x7d \x7d \x7d);\n")).toOption,
      (∃ callback ∈ p.tree.subtrees, (inline? ⟨false, false⟩ callback).isSome = true ∧
        ∃ a ∈ anatomy? callback.bare, ∃ x ∈ a.body.hosted none,
          x.1.kind = .return ∧ x.2.map kind = some .staticBlock) ∧
      (Program.parse .tsx ((Document.ofText p.text).apply
        (ArrayFromForEach.edits p)).1.text).toOption.isNone = true := by
  decide +kernel

end Callback

end Uplift
