import Mathlib.Algebra.GroupWithZero.Nat
import Mathlib.Algebra.Order.BigOperators.Group.List
import Mathlib.Algebra.Order.Group.Nat
import Mathlib.Data.List.Perm.Subperm
import Uplift.Proofs.Encoding
import Uplift.Proofs.Frame
import Uplift.Proofs.Layout
import Uplift.Proofs.Made

namespace Uplift

set_option autoImplicit true

namespace Text

/-- Brackets, quotes, separators and blanks weigh nothing. -/
def inkOf (b : UInt8) : Nat :=
  if b = ascii 'v' || b = ascii '=' || b = ascii '>' then 3
  else if b = ascii 'a' || b = ascii 'w' then 2
  else if b = ascii '+' || (48 ≤ b && b ≤ 57) || (65 ≤ b && b ≤ 90) || (97 ≤ b && b ≤ 122) then 1
  else 0

def ink (t : Text) : Nat := (t.map inkOf).sum

theorem ink_append (t u : Text) : ink (t ++ u) = ink t + ink u := by
  rw [ink, List.map_append, List.sum_append]
  rfl

theorem ink_cons (b : UInt8) (t : Text) : ink (b :: t) = inkOf b + ink t := by
  rw [ink, List.map_cons, List.sum_cons]
  rfl

theorem ofString_append (s s' : String) : ofString (s ++ s') = ofString s ++ ofString s' := by
  rw [ofString, String.toList_append, ofChars, List.flatMap_append]
  rfl

theorem ink_slice_split (t : Text) (h : a ≤ b) (h' : b ≤ c) :
    ink (t.slice ⟨a, b⟩) + ink (t.slice ⟨b, c⟩) = ink (t.slice ⟨a, c⟩) := by
  rw [← ink_append]
  exact congrArg ink (Range.cut_append t h h')

theorem ink_ordered (t : Text) {rs : List Range} (ho : rs.Pairwise fun r s => r.stop ≤ s.start)
    (hr : ∀ s ∈ rs, a ≤ s.start ∧ s.start ≤ s.stop ∧ s.stop ≤ b) :
    (rs.map fun s => ink (t.slice s)).sum ≤ ink (t.slice ⟨a, b⟩) := by
  induction rs generalizing a with
  | nil => exact Nat.zero_le _
  | cons r rs ih =>
    obtain ⟨hfirst, hrest⟩ := List.pairwise_cons.1 ho
    obtain ⟨ha, hrr, hb⟩ := hr r List.mem_cons_self
    have hle := @ih r.stop hrest fun s hs =>
      ⟨hfirst s hs, (hr s (List.mem_cons_of_mem r hs)).2⟩
    have hleft := ink_slice_split t ha (Nat.le_trans hrr hb)
    have hright := ink_slice_split t hrr hb
    rw [List.map_cons, List.sum_cons]
    change ink (t.slice ⟨r.start, r.stop⟩) + _ ≤ _
    omega

end Text

namespace Node

/-- The words and operators that a node is written with, besides its parts. -/
def words (n : Node) : List String :=
  match n with
  | mk (.ident w) _ _ | mk (.name w) _ _ => [w]
  | mk (.arrow _) _ _ => ["=>"]
  | mk (.binary op) _ _ => [op]
  | mk .template _ cs => cs.filterMap raw?
  | n => n.heading

def run (cs : List Node) : List Range :=
  match cs.head?, cs.getLast? with
  | some first, some last => [⟨first.span.start, last.span.stop⟩]
  | _, _ => []

theorem run_cons (c : Node) (cs : List Node) :
    run (c :: cs) = [⟨c.span.start, ((c :: cs).getLast (List.cons_ne_nil c cs)).span.stop⟩] := by
  rw [run, List.head?_cons, List.getLast?_eq_some_getLast (List.cons_ne_nil c cs)]

def weight (words : List String) : Nat := (words.map fun w => (Text.ofString w).ink).sum

end Node

namespace Program

def ink (p : Program) (r : Range) : Nat := (p.text.slice r).ink

/-- A program whose text has the words of its nodes, besides what their parts have. -/
structure Legible (p : Program) : Prop where
  spelled : ∀ n ∈ p.tree.subtrees, n.isSolid = true →
    Node.weight n.words + (n.parts.map fun c => p.ink c.span).sum ≤ p.ink n.span
  headed : ∀ n ∈ p.tree.subtrees, ∀ c ∈ n.parts,
    Node.weight n.heading ≤ p.ink ⟨n.span.start, c.span.start⟩

instance (p : Program) : Decidable p.Legible :=
  decidable_of_iff
    ((∀ n ∈ p.tree.subtrees, n.isSolid = true →
        Node.weight n.words + (n.parts.map fun c => p.ink c.span).sum ≤ p.ink n.span) ∧
      ∀ n ∈ p.tree.subtrees, ∀ c ∈ n.parts,
        Node.weight n.heading ≤ p.ink ⟨n.span.start, c.span.start⟩)
    ⟨fun ⟨hs, hh⟩ => ⟨hs, hh⟩, fun ⟨hs, hh⟩ => ⟨hs, hh⟩⟩

/-- In the range `r` stand ranges apart from one another, and ink besides. -/
structure Holds (p : Program) (r : Range) (own : Nat) (rs : List Range) : Prop where
  within : ∀ s ∈ rs, s.within r = true
  apart : rs.Pairwise Range.Apart
  weight : p.Legible → own + (rs.map p.ink).sum ≤ p.ink r

structure Has (p : Program) (n : Node) : Prop where
  mem : n ∈ p.tree.subtrees
  solid : n.isSolid = true

variable {p : Program} {r s : Range} {own own' : Nat} {rs rs' before after : List Range}

theorem Holds.refl (p : Program) (r : Range) : p.Holds r 0 [r] where
  within s hs := by
    rw [List.mem_singleton.1 hs]
    exact Range.within_self r
  apart := List.pairwise_singleton _ _
  weight _ := by simp

/-- What stands in a range that stands in another stands in the other. -/
theorem Holds.trans (h : p.Holds r own (before ++ s :: after)) (hs : p.Holds s own' rs) :
    p.Holds r (own + own') (before ++ (rs ++ after)) where
  within t ht := by
    rcases List.mem_append.1 ht with ht | ht
    · exact h.within t (List.mem_append_left _ ht)
    · rcases List.mem_append.1 ht with ht | ht
      · exact Range.within_trans (hs.within t ht) (h.within s (by simp))
      · exact h.within t (by simp [ht])
  apart := by
    obtain ⟨hbefore, hrest, hcross⟩ := List.pairwise_append.1 h.apart
    obtain ⟨hsafter, hafter⟩ := List.pairwise_cons.1 hrest
    refine List.pairwise_append.2 ⟨hbefore, List.pairwise_append.2 ⟨hs.apart, hafter, ?_⟩, ?_⟩
    · intro t ht u hu
      exact (hsafter u hu).within (hs.within t ht) (Range.within_self u)
    · intro t ht u hu
      rcases List.mem_append.1 hu with hu | hu
      · exact (hcross t ht s List.mem_cons_self).within (Range.within_self t) (hs.within u hu)
      · exact hcross t ht u (List.mem_cons_of_mem s hu)
  weight hl := by
    have hr := h.weight hl
    have hs := hs.weight hl
    simp only [List.map_append, List.sum_append, List.map_cons, List.sum_cons] at hr ⊢
    omega

theorem Holds.subperm (h : p.Holds r own rs) (hrs : rs'.Subperm rs) (ho : own' ≤ own) :
    p.Holds r own' rs' where
  within s hs := h.within s (hrs.subset hs)
  apart := by
    obtain ⟨l, hperm, hsub⟩ := hrs
    exact (hperm.pairwise_iff fun h => h.symm).1 (h.apart.sublist hsub)
  weight hl := by
    obtain ⟨l, hperm, hsub⟩ := hrs
    have hr := h.weight hl
    have heq := (hperm.map p.ink).sum_eq
    have hle := (hsub.map p.ink).sum_le_sum fun _ _ => Nat.zero_le _
    omega

theorem Holds.sublist (h : p.Holds r own rs) (hrs : rs'.Sublist rs) (ho : own' ≤ own) :
    p.Holds r own' rs' := h.subperm hrs.subperm ho

theorem Holds.head (h : p.Holds r own (s :: after)) (hs : p.Holds s own' rs) :
    p.Holds r (own + own') (rs ++ after) := by
  have h' : p.Holds r own ([] ++ s :: after) := h
  exact h'.trans hs

section Nodes

open Node (weight pieces_of_isSolid pieces_of_isLoose flatMap_pieces parts_eq)

variable {k : Kind} {span : Range} {cs : List Node} {n receiver arguments : Node}
  {name object method : String} (hp : p.WellFormed)

theorem mem_of_child (hn : n ∈ p.tree.subtrees) (hc : c ∈ n.children) : c ∈ p.tree.subtrees :=
  Node.mem_subtrees_trans hn (Node.mem_subtrees_of_mem_child hc (Node.mem_walk_self _ _))

include hp

theorem laid_of_has (hn : p.Has n) :
    (∀ c ∈ n.parts, c.span.within n.span = true) ∧ (n.parts.map Node.span).Pairwise Range.Apart :=
  hp.laidOut n hn.mem (Node.isFirm_of_isSolid hn.solid)

theorem holds_node (hn : p.Has n) : p.Holds n.span (weight n.words) (n.parts.map Node.span) := by
  obtain ⟨hin, hapart⟩ := laid_of_has hp hn
  refine ⟨?_, hapart, ?_⟩
  · intro s hs
    obtain ⟨c, hc, rfl⟩ := List.mem_map.1 hs
    exact hin c hc
  · intro hl
    rw [List.map_map]
    exact hl.spelled n hn.mem hn.solid

theorem holds_child (hn : p.Has n) (hc : c ∈ n.children) (hs : c.isSolid = true) :
    p.Holds n.span 0 [c.span] := by
  refine (holds_node hp hn).sublist ?_ (Nat.zero_le _)
  rw [List.singleton_sublist]
  apply List.mem_map_of_mem
  rw [parts_eq, List.mem_flatMap]
  refine ⟨c, hc, ?_⟩
  rw [pieces_of_isSolid hs]
  exact List.mem_singleton_self _

theorem holds_tail (hn : p.Has n) (hc : c ∈ n.children) (hs : c.isSolid = true) :
    p.Holds n.span 0 [c.span, ⟨c.span.stop, n.span.stop⟩] := by
  have hchild := holds_child hp hn hc hs
  have hcn := Range.within_iff.1 (hchild.within c.span List.mem_cons_self)
  have hpos := Node.start_lt_stop_of_isSolid hs
  have hordered : [c.span, ⟨c.span.stop, n.span.stop⟩].Pairwise fun r s : Range =>
      r.stop ≤ s.start := by
    simp
  have hin : ∀ s ∈ [c.span, ⟨c.span.stop, n.span.stop⟩], n.span.start ≤ s.start ∧ s.start ≤ s.stop ∧
      s.stop ≤ n.span.stop := by
    simp only [List.forall_mem_cons, List.not_mem_nil, false_implies, implies_true, and_true]
    omega
  refine ⟨fun s hs => Range.within_iff.2 ⟨(hin s hs).1, (hin s hs).2.2⟩, hordered.imp .inl,
    fun _ => ?_⟩
  rw [Nat.zero_add]
  exact Text.ink_ordered p.text hordered hin

theorem has_plain (hn : .mk k span cs ∈ p.tree.subtrees) (hk : k.isPlain = true) :
    p.Has (.mk k span cs) ∧ ∀ c ∈ cs, p.Has c := by
  have h := hp.shaped _ hn
  rw [Node.isShaped.eq_def] at h
  split at h
  all_goals try next e => cases e; cases hk
  next e =>
    cases e
    rw [hk, Bool.not_true, Bool.false_or, Bool.and_eq_true, List.all_eq_true] at h
    exact ⟨⟨hn, h.1⟩, fun c hc => ⟨mem_of_child hn hc, h.2 c hc⟩⟩

theorem holds_plain (hn : .mk k span cs ∈ p.tree.subtrees) (hk : k.isPlain = true) :
    p.Holds span (weight (Node.mk k span cs).words) (cs.map Node.span) := by
  obtain ⟨hself, hcs⟩ := has_plain hp hn hk
  have h := holds_node hp hself
  rwa [parts_eq, Node.children, flatMap_pieces fun c hc => (hcs c hc).solid] at h

theorem holds_bare (hn : p.Has n) : p.Has n.bare ∧ p.Holds n.span 0 [n.bare.span] := by
  fun_induction Node.bare n with
  | case1 span e ih =>
    obtain ⟨_, he⟩ := has_plain hp hn.mem rfl
    obtain ⟨hbare, hin⟩ := ih (he e List.mem_cons_self)
    exact ⟨hbare, (holds_plain hp hn.mem rfl).head hin⟩
  | case2 n => exact ⟨hn, .refl p n.span⟩

theorem holds_word (hn : p.Has n) (hw : n.words = [name]) :
    p.Holds n.span (Text.ofString name).ink [] := by
  have h := holds_node hp hn
  rw [hw] at h
  exact h.sublist (List.nil_sublist _) (Nat.le_refl _)

theorem holds_name (hn : p.Has n) (h : n.bare.name? = some name) :
    p.Holds n.span (Text.ofString name).ink [] := by
  obtain ⟨hbare, hin⟩ := holds_bare hp hn
  obtain ⟨span, cs, he⟩ := Node.name?_eq_some h
  have hword : p.Holds n.bare.span (Text.ofString name).ink [] := by
    apply holds_word hp hbare
    rw [he]
    rfl
  have hboth := hin.head hword
  rwa [Nat.zero_add] at hboth

theorem holds_member (hn : p.Has n) (h : n.bare.member? = some (receiver, name)) :
    p.Has receiver ∧ p.Holds n.span (Text.ofString name).ink [receiver.span] := by
  obtain ⟨hbare, hin⟩ := holds_bare hp hn
  obtain ⟨span, s, cs, he⟩ := Node.member?_eq_some h
  rw [he] at hbare hin
  obtain ⟨_, hparts⟩ := has_plain hp hbare.mem rfl
  have hname : p.Holds s (Text.ofString name).ink [] :=
    holds_word hp (hparts (.mk (.name name) s cs) (by simp)) rfl
  have hmember : p.Holds span 0 ([receiver.span] ++ s :: []) := holds_plain hp hbare.mem rfl
  have hboth := hin.head (hmember.trans hname)
  rw [Nat.zero_add, Nat.zero_add] at hboth
  exact ⟨hparts receiver List.mem_cons_self, hboth⟩

theorem has_call (hn : .mk k span [callee, types, arguments] ∈ p.tree.subtrees)
    (hk : k = .call ∨ k = .new ∧ arguments.isAbsent = false) :
    p.Has (.mk k span [callee, types, arguments]) ∧ p.Has callee ∧
    (∀ c ∈ arguments.children, p.Has c) ∧
      (Node.mk k span [callee, types, arguments]).parts =
        callee :: (types.pieces ++ arguments.children) := by
  have hshape := hp.shaped _ hn
  obtain ⟨hsolid, hcallee, hkind⟩ : (Node.mk k span [callee, types, arguments]).isSolid = true ∧
      callee.isSolid = true ∧ arguments.kind = .arguments := by
    rcases hk with rfl | ⟨rfl, habsent⟩
    · simp only [Node.isShaped, Bool.and_eq_true, decide_eq_true_eq] at hshape
      exact ⟨hshape.1.1, hshape.1.2, hshape.2⟩
    · simp only [Node.isShaped, habsent, Bool.false_or, Bool.and_eq_true,
        decide_eq_true_eq] at hshape
      exact ⟨hshape.1.1, hshape.1.2, hshape.2⟩
  have hgiven : ∀ c ∈ arguments.children, p.Has c := by
    have hmem : arguments ∈ p.tree.subtrees := mem_of_child hn (by simp [Node.children])
    have hargs := hp.shaped arguments hmem
    obtain ⟨_, s, cs⟩ := arguments
    cases hkind
    intro c hc
    exact ⟨mem_of_child hmem hc, List.all_eq_true.1 hargs c hc⟩
  refine ⟨⟨hn, hsolid⟩, ⟨mem_of_child hn (by simp [Node.children]), hcallee⟩, hgiven, ?_⟩
  have hpieces : arguments.pieces = arguments.children := by
    rw [pieces_of_isLoose (by rw [hkind]; rfl), parts_eq, flatMap_pieces fun c hc =>
      (hgiven c hc).solid]
  simp only [parts_eq, Node.children, List.flatMap_cons, List.flatMap_nil, List.append_nil,
    pieces_of_isSolid hcallee, hpieces, List.singleton_append]

theorem holds_call (hn : .mk k span [callee, types, arguments] ∈ p.tree.subtrees)
    (hk : k = .call ∨ k = .new ∧ arguments.isAbsent = false) :
    p.Holds span (weight (Node.mk k span [callee, types, arguments]).words)
      (callee.span :: arguments.children.map Node.span) := by
  obtain ⟨hself, _, _, hparts⟩ := has_call hp hn hk
  have h := holds_node hp hself
  rw [hparts, List.map_cons, List.map_append] at h
  exact h.sublist ((List.sublist_append_right _ _).cons_cons _) (Nat.le_refl _)

theorem holds_methodCall (hn : n ∈ p.tree.subtrees)
    (h : n.methodCall? = some (receiver, name, arguments)) :
    p.Has n ∧ p.Has receiver ∧ (∀ c ∈ arguments.children, p.Has c) ∧
      p.Holds n.span (Text.ofString name).ink
        (receiver.span :: arguments.children.map Node.span) := by
  obtain ⟨span, callee, types, rfl, hmember⟩ := Node.methodCall?_eq_some h
  obtain ⟨hself, hcallee, hgiven, _⟩ := has_call hp hn (.inl rfl)
  obtain ⟨hreceiver, hin⟩ := holds_member hp hcallee hmember
  have hcall := (holds_call hp hn (.inl rfl)).head hin
  exact ⟨hself, hreceiver, hgiven, hcall.sublist (.refl _) (Nat.le_add_left _ _)⟩

theorem holds_staticCall (hn : n ∈ p.tree.subtrees)
    (h : n.staticCall? object method = some arguments) :
    p.Has n ∧ (∀ c ∈ arguments.children, p.Has c) ∧
      p.Holds n.span ((Text.ofString method).ink + (Text.ofString object).ink)
        (arguments.children.map Node.span) := by
  obtain ⟨receiver, hcall, hobject⟩ := Node.staticCall?_eq_some h
  obtain ⟨hself, hreceiver, hgiven, hin⟩ := holds_methodCall hp hn hcall
  exact ⟨hself, hgiven, hin.head (holds_name hp hreceiver hobject)⟩

theorem holds_arrow (hn : .mk (.arrow async) span [ps, types, result, body] ∈ p.tree.subtrees) :
    p.Has body ∧ p.Holds span 6 (ps.parts.map Node.span ++ [body.span]) := by
  have hshape := hp.shaped _ hn
  simp only [Node.isShaped, Bool.and_eq_true, decide_eq_true_eq] at hshape
  obtain ⟨⟨hsolid, hkind⟩, hbody⟩ := hshape
  refine ⟨⟨mem_of_child hn (by simp [Node.children]), hbody⟩, ?_⟩
  have harrow := holds_node hp ⟨hn, hsolid⟩
  simp only [parts_eq, Node.children, List.flatMap_cons, List.flatMap_nil, List.append_nil,
    pieces_of_isSolid hbody] at harrow
  rw [pieces_of_isLoose (by rw [hkind]; rfl)] at harrow
  refine harrow.sublist ?_ (Nat.le_refl _)
  simp only [List.map_append, List.map_cons, List.map_nil]
  refine List.Sublist.append_left ?_ _
  exact (List.sublist_append_right _ _).trans (List.sublist_append_right _ _)

theorem has_function (hn : .mk .functionExpr span
      [name', .mk (.function async generator) s [ds, ps, types, result, body]] ∈ p.tree.subtrees)
    (hb : body.isAbsent = false) :
    p.Has
      (.mk .functionExpr span [name',
        .mk (.function async generator) s [ds, ps, types, result, body]]) ∧
      (∀ c ∈ ps.children, p.Has c) ∧ (result.isAbsent = false → p.Has result) ∧ p.Has body ∧
      (Node.mk .functionExpr span
        [name', .mk (.function async generator) s [ds, ps, types, result, body]]).parts =
      name'.pieces ++
        (ds.pieces ++ (ps.children ++ (types.pieces ++ (result.pieces ++ [body])))) := by
  have hshape := hp.shaped _ hn
  simp only [Node.isShaped, Node.isOptional, hb, Bool.false_or, Bool.and_eq_true, decide_eq_true_eq,
    Bool.or_eq_true, List.all_eq_true] at hshape
  obtain ⟨⟨⟨⟨hsolid, hkind⟩, hps⟩, hresult⟩, hbody⟩ := hshape
  have hinner : .mk (.function async generator) s [ds, ps, types, result, body] ∈ p.tree.subtrees :=
    mem_of_child hn (by simp [Node.children])
  have hmem : ps ∈ p.tree.subtrees := mem_of_child hinner (by simp [Node.children])
  refine ⟨⟨hn, hsolid⟩, fun c hc => ⟨mem_of_child hmem hc, hps c hc⟩, ?_,
    ⟨mem_of_child hinner (by simp [Node.children]), hbody⟩, ?_⟩
  · intro hr
    exact ⟨mem_of_child hinner (by simp [Node.children]), hresult.resolve_left (by simp [hr])⟩
  · have hpieces : ps.pieces = ps.children := by
      rw [pieces_of_isLoose (by rw [hkind]; rfl), parts_eq, flatMap_pieces hps]
    have hfunction : (Node.mk (.function async generator) s [ds, ps, types, result, body]).pieces =
        ds.pieces ++ (ps.children ++ (types.pieces ++ (result.pieces ++ [body]))) := by
      rw [pieces_of_isLoose rfl, parts_eq]
      simp only [Node.children, List.flatMap_cons, List.flatMap_nil, List.append_nil, hpieces,
        pieces_of_isSolid hbody]
    simp only [parts_eq, Node.children, List.flatMap_cons, List.flatMap_nil, List.append_nil,
      hfunction]

theorem holds_function (hn : .mk .functionExpr span
      [name', .mk (.function async generator) s [ds, ps, types, result, body]] ∈ p.tree.subtrees)
    (hb : body.isAbsent = false) : p.Holds span 8 (ps.children.map Node.span ++ [body.span]) := by
  obtain ⟨hself, _, _, _, hparts⟩ := has_function hp hn hb
  have h := holds_node hp hself
  rw [hparts] at h
  refine h.sublist ?_ ?_
  · simp only [List.map_append, List.map_cons, List.map_nil]
    refine List.Sublist.trans ?_ (List.sublist_append_right _ _)
    refine List.Sublist.trans ?_ (List.sublist_append_right _ _)
    refine List.Sublist.append_left ?_ _
    exact (List.sublist_append_right _ _).trans (List.sublist_append_right _ _)
  · cases async with
    | true => exact (by decide : 8 ≤ weight ["async", "function"])
    | false => exact (by decide : 8 ≤ weight ["function"])

/--
Ranges in order that start no sooner than a part of a node stand in it with the words it starts
with.
-/
theorem holds_ordered (hn : p.Has n) (hc : c ∈ n.parts)
    (ho : rs.Pairwise fun r s => r.stop ≤ s.start)
    (hr : ∀ s ∈ rs, c.span.start ≤ s.start ∧ s.start ≤ s.stop ∧ s.stop ≤ n.span.stop) :
    p.Holds n.span (weight n.heading) rs := by
  have hcn := Range.within_iff.1 ((laid_of_has hp hn).1 c hc)
  have hpos := Node.start_lt_stop_of_isSolid (Node.isSolid_of_mem_parts hc)
  refine ⟨?_, ho.imp .inl, ?_⟩
  · intro s hs
    obtain ⟨hstart, _, hstop⟩ := hr s hs
    exact Range.within_iff.2 ⟨Nat.le_trans hcn.1 hstart, hstop⟩
  · intro hl
    have hhead := hl.headed n hn.mem c hc
    have hrest := Text.ink_ordered p.text ho hr
    have hsplit := Text.ink_slice_split p.text hcn.1 (Nat.le_trans (Nat.le_of_lt hpos) hcn.2)
    exact Nat.le_trans (Nat.add_le_add hhead hrest) (Nat.le_of_eq hsplit)

theorem holds_run {xs ys : List Node} (hn : p.Has n) (hmem : ∀ c ∈ xs ++ ys, c ∈ n.parts)
    (hne : ys ≠ []) (ho : ((xs ++ ys).map Node.span).Pairwise fun r s => r.stop ≤ s.start) :
    p.Holds n.span (weight n.heading) (Node.run xs ++ ys.map Node.span) := by
  have hin {c : Node} (hc : c ∈ xs ++ ys) : c.span.start < c.span.stop ∧
      c.span.stop ≤ n.span.stop := by
    have hwithin := (laid_of_has hp hn).1 c (hmem c hc)
    exact ⟨Node.start_lt_stop_of_isSolid (Node.isSolid_of_mem_parts (hmem c hc)),
      (Range.within_iff.1 hwithin).2⟩
  have hfirst {c d : Node} {more : List Node} (hcs : xs ++ ys = c :: more) (hd : d ∈ xs ++ ys) :
      c.span.start ≤ d.span.start := by
    have hc := (hin (hcs ▸ List.mem_cons_self : c ∈ xs ++ ys)).1
    rw [hcs, List.map_cons, List.pairwise_cons] at ho
    rw [hcs] at hd
    rcases List.mem_cons.1 hd with rfl | hd
    · exact Nat.le_refl _
    · exact Nat.le_trans (Nat.le_of_lt hc) (ho.1 _ (List.mem_map_of_mem hd))
  have hys {c : Node} {more : List Node} (hcs : xs ++ ys = c :: more) (s : Range)
      (hs : s ∈ ys.map Node.span) :
      c.span.start ≤ s.start ∧ s.start ≤ s.stop ∧ s.stop ≤ n.span.stop := by
    obtain ⟨d, hd, rfl⟩ := List.mem_map.1 hs
    have hd' := List.mem_append_right xs hd
    exact ⟨hfirst hcs hd', Nat.le_of_lt (hin hd').1, (hin hd').2⟩
  cases xs with
  | nil =>
    obtain ⟨c, more, hcs⟩ := List.exists_cons_of_ne_nil hne
    exact holds_ordered hp hn (hmem c (by simp [hcs])) ho (hys hcs)
  | cons q qs =>
    have hlast := List.getLast_mem (List.cons_ne_nil q qs)
    have hlast' := List.mem_append_left ys hlast
    rw [List.map_append, List.pairwise_append] at ho
    rw [Node.run_cons]
    refine holds_ordered hp hn (hmem q (by simp)) (List.pairwise_cons.2 ⟨?_, ho.2.1⟩) ?_
    · intro s hs
      exact ho.2.2 _ (List.mem_map_of_mem hlast) s hs
    · intro s hs
      rcases List.mem_cons.1 hs with rfl | hs
      · have hle := hfirst rfl hlast'
        have hend := hin hlast'
        exact ⟨Nat.le_refl _, Nat.le_trans hle (Nat.le_of_lt hend.1), hend.2⟩
      · exact hys rfl s hs

theorem within_of_mem_descendants (hn : p.Has n) (hm : m ∈ n.descendants) (hs : m.isSolid = true) :
    m.span.within n.span = true := by
  obtain ⟨c, hc, hin⟩ := Node.exists_part (hp.laidOut_of_mem hn.mem) hm hs
  exact Range.within_trans hin ((laid_of_has hp hn).1 c hc)

theorem span_ne_of_parts (hn : p.Has n) (h : ∀ c ∈ n.parts, c.span ≠ n.span)
    (hm : m ∈ n.descendants) (hs : m.isSolid = true) : m.span ≠ n.span := by
  intro he
  obtain ⟨c, hc, hin⟩ := Node.exists_part (hp.laidOut_of_mem hn.mem) hm hs
  have hcn := (laid_of_has hp hn).1 c hc
  rw [he] at hin
  exact h c hc (Range.within_antisymm hcn hin)

theorem span_ne_of_cons (hn : p.Has n) (hparts : n.parts = a :: rest) (hne : rest ≠ []) :
    ∀ c ∈ n.parts, c.span ≠ n.span := by
  obtain ⟨hin, hapart⟩ := laid_of_has hp hn
  have hpos {c : Node} (hc : c ∈ n.parts) : c.span.start < c.span.stop :=
    Node.start_lt_stop_of_isSolid (Node.isSolid_of_mem_parts hc)
  rw [hparts] at hin hapart hpos ⊢
  rw [List.map_cons, List.pairwise_cons] at hapart
  have hfirst {b : Node} (hb : b ∈ rest) : a.span.Apart b.span :=
    hapart.1 _ (List.mem_map_of_mem hb)
  have hcovers {b c : Node} (hb : b ∈ a :: rest) (hbc : b.span.Apart c.span) : c.span ≠ n.span := by
    intro he
    have hw := Range.within_iff.1 (hin b hb)
    have hb := hpos hb
    rw [← he] at hw
    simp only [Range.Apart] at hbc
    omega
  intro c hc
  rcases List.mem_cons.1 hc with rfl | hc
  · obtain ⟨b, hb⟩ := List.exists_mem_of_ne_nil rest hne
    exact hcovers (List.mem_cons_of_mem c hb) (hfirst hb).symm
  · exact hcovers List.mem_cons_self (hfirst hc)

theorem span_ne_of_heading (hn : n ∈ p.tree.subtrees) (hw : n.heading ≠ []) :
    ∀ c ∈ n.parts, c.span ≠ n.span := by
  intro c hc he
  have hlt := hp.headed n hn hw c hc
  rw [he] at hlt
  exact Nat.lt_irrefl _ hlt

end Nodes

end Program

end Uplift
