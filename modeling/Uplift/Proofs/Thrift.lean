import Uplift.Proofs.Ink

namespace Uplift

set_option autoImplicit true

open Edit Segment

def Segment.written : Segment → Text
  | .fresh t => t
  | .reused _ => []

namespace Edit

def inkOf (segments : List Segment) : Nat := (segments.map fun s => s.written.ink).sum

theorem inkOf_append (segments segments' : List Segment) :
    inkOf (segments ++ segments') = inkOf segments + inkOf segments' := by
  rw [inkOf, List.map_append, List.sum_append]
  rfl

theorem inkOf_cons (s : Segment) (segments : List Segment) :
    inkOf (s :: segments) = s.written.ink + inkOf segments := by
  rw [inkOf, List.map_cons, List.sum_cons]
  rfl

theorem inkOf_wrapped (wrap : Bool) (segments : List Segment) :
    inkOf (wrapped wrap segments) = inkOf segments := by
  cases wrap with
  | false => rfl
  | true =>
    rw [wrapped, if_pos rfl, inkOf_cons, inkOf_append]
    exact Nat.zero_add _

theorem reused_wrapped (wrap : Bool) (segments : List Segment) :
    (wrapped wrap segments).filterMap reused? = segments.filterMap reused? := by
  cases wrap with
  | false => rfl
  | true =>
    rw [wrapped, if_pos rfl, List.filterMap_cons_none rfl, List.filterMap_append]
    exact List.append_nil _

theorem inkOf_laid_le (range : Range) (segments : List Segment) :
    inkOf (laid range segments).segments ≤ inkOf segments := by
  rw [laid, inkOf, inkOf]
  exact (List.filter_sublist.map _).sum_le_sum fun _ _ => Nat.zero_le _

theorem reusedRanges_laid (range : Range) (segments : List Segment) :
    (laid range segments).reusedRanges.Sublist (segments.filterMap reused?) := by
  rw [laid, reusedRanges]
  exact List.filter_sublist.filterMap _

theorem filled_laid {segments : List Segment} (h : s ∈ (laid r segments).reusedRanges) :
    s.start < s.stop := by
  have hempty : (Segment.reused s).isEmpty = false := by
    simpa using (List.mem_filter.1 (mem_reusedRanges.1 h)).2
  exact Nat.lt_of_not_ge (of_decide_eq_false hempty)

end Edit

/--
An edit that reuses ranges which stand apart in its own, and writes less ink than its range has
besides.
-/
structure Program.Affords (p : Program) (e : Edit) : Prop where
  filled : ∀ s ∈ e.reusedRanges, s.start < s.stop
  holds : ∃ own, inkOf e.segments < own ∧ p.Holds e.range own e.reusedRanges

theorem Program.Holds.affords {segments : List Segment}
    (h : Program.Holds p r own (segments.filterMap reused?)) (hink : inkOf segments < own) :
    p.Affords (laid r segments) where
  filled _ hs := filled_laid hs
  holds := ⟨own, Nat.lt_of_le_of_lt (inkOf_laid_le r segments) hink,
    h.sublist (reusedRanges_laid r segments) (Nat.le_refl _)⟩

/-- An edit that replaces a node of kind `k`, no other of which covers the node. -/
structure Program.Replaces (p : Program) (k : Kind) (n : Node) (e : Edit) : Prop where
  has : p.Has n
  kind : n.kind = k
  range : e.range = n.span
  alone : ∀ m ∈ n.descendants, m.isSolid = true → m.kind = k → m.span ≠ n.span
  affords : p.Affords e

theorem MathPow.reused_operand (n : Node) : (operandSegments n).filterMap reused? = [n.span] := by
  rw [operandSegments]
  split
  · rfl
  · rfl

theorem MathPow.inkOf_operand (n : Node) : inkOf (operandSegments n) = 0 := by
  rw [operandSegments]
  split
  · rfl
  · rfl

theorem ArrayConcat.reused_elements (ns : List Node) :
    (ns.flatMap elementSegments).filterMap reused? = ns.map Node.span := by
  induction ns with
  | nil => rfl
  | cons n ns ih =>
    rw [List.flatMap_cons, List.filterMap_append, ih]
    rfl

theorem ArrayConcat.inkOf_elements (ns : List Node) : inkOf (ns.flatMap elementSegments) = 0 := by
  induction ns with
  | nil => rfl
  | cons n ns ih =>
    rw [List.flatMap_cons, inkOf_append, ih, elementSegments]
    split
    · rfl
    · rfl

theorem ObjectAssign.reused_spread (ns : List Node) :
    (spreadSegments ns).filterMap reused? = ns.map Node.span := by
  fun_induction spreadSegments ns with
  | case1 => rfl
  | case2 n => rfl
  | case3 n ns _ ih => exact congrArg (n.span :: ·) ih

theorem ObjectAssign.inkOf_spread (ns : List Node) : inkOf (spreadSegments ns) = 0 := by
  fun_induction spreadSegments ns with
  | case1 => rfl
  | case2 n => rfl
  | case3 n ns _ ih =>
    rw [inkOf_append, ih]
    rfl

section Calls

variable {p : Program} (hp : p.WellFormed)

include hp

theorem alone_of_methodCall (hn : n ∈ p.tree.subtrees)
    (h : n.methodCall? = some (receiver, name, arguments)) (hne : arguments.children ≠ []) :
    n.kind = .call ∧ ∀ m ∈ n.descendants, m.isSolid = true → m.span ≠ n.span := by
  obtain ⟨span, callee, types, rfl, _⟩ := Node.methodCall?_eq_some h
  obtain ⟨hself, _, _, hparts⟩ := Program.has_call hp hn (.inl rfl)
  refine ⟨rfl, ?_⟩
  intro m hm hs
  apply Program.span_ne_of_parts hp hself ?_ hm hs
  apply Program.span_ne_of_cons hp hself hparts
  exact List.append_ne_nil_of_right_ne_nil _ hne

theorem replaces_of_methodCall (hn : n ∈ p.tree.subtrees)
    (h : n.methodCall? = some (receiver, name, arguments)) (hne : arguments.children ≠ [])
    (hrange : e.range = n.span) (ha : p.Affords e) : p.Replaces .call n e := by
  obtain ⟨hself, _⟩ := Program.holds_methodCall hp hn h
  obtain ⟨hkind, halone⟩ := alone_of_methodCall hp hn h hne
  exact ⟨hself, hkind, hrange, fun m hm hs _ => halone m hm hs, ha⟩

theorem replaces_of_staticCall (hn : n ∈ p.tree.subtrees)
    (h : n.staticCall? object method = some arguments) (hargs : arguments.children = first :: more)
    (hrange : e.range = n.span) (ha : p.Affords e) : p.Replaces .call n e := by
  obtain ⟨receiver, hcall, _⟩ := Node.staticCall?_eq_some h
  apply replaces_of_methodCall hp hn hcall ?_ hrange ha
  rw [hargs]
  exact List.cons_ne_nil _ _

/-- A node that starts with a word is covered by none of its parts. -/
theorem replaces_of_heading (hn : p.Has n) (hw : n.heading ≠ []) (hrange : e.range = n.span)
    (ha : p.Affords e) : p.Replaces n.kind n e := by
  have halone := Program.span_ne_of_heading hp hn.mem hw
  exact ⟨hn, rfl, hrange, fun m hm hs _ => Program.span_ne_of_parts hp hn halone hm hs, ha⟩

theorem MathPow.replaces (hn : n ∈ p.tree.subtrees) (h : edit? p n = some e) :
    p.Replaces .call n e := by
  obtain ⟨arguments, base, exponent, wrap, hcall, hargs, _, rfl⟩ := edit?_eq_some h
  obtain ⟨_, _, hin⟩ := Program.holds_staticCall hp hn hcall
  rw [hargs] at hin
  apply replaces_of_staticCall hp hn hcall hargs rfl
  apply Program.Holds.affords
  · rw [reused_wrapped, List.filterMap_append, List.filterMap_append, reused_operand,
      reused_operand]
    exact hin
  · rw [inkOf_wrapped, inkOf_append, inkOf_append, inkOf_operand, inkOf_operand]
    decide

theorem ArrayFromSpread.replaces (hn : n ∈ p.tree.subtrees) (h : edit? p chained n = some e) :
    p.Replaces .call n e := by
  obtain ⟨arguments, iterable, hcall, hargs, _, rfl⟩ := edit?_eq_some h
  obtain ⟨_, _, hin⟩ := Program.holds_staticCall hp hn hcall
  rw [hargs] at hin
  apply replaces_of_staticCall hp hn hcall hargs rfl
  exact Program.Holds.affords hin (by decide : 0 < 10)

theorem ArrayConcat.replaces (hn : n ∈ p.tree.subtrees) (h : edit? p n = some e) :
    p.Replaces .call n e := by
  obtain ⟨receiver, arguments, hcall, hne, _, rfl⟩ := edit?_eq_some h
  obtain ⟨_, _, _, hin⟩ := Program.holds_methodCall hp hn hcall
  apply replaces_of_methodCall hp hn hcall hne rfl
  apply Program.Holds.affords
  · rw [List.filterMap_append, List.filterMap_append, reused_elements]
    exact (List.append_nil (receiver.span :: arguments.children.map Node.span)).symm ▸ hin
  · rw [inkOf_append, inkOf_append, inkOf_elements]
    exact (by decide : 0 < 7)

theorem ObjectAssign.replaces (hn : n ∈ p.tree.subtrees) (h : edit? p n = some e) :
    p.Replaces .call n e := by
  obtain ⟨arguments, target, sources, wrap, hcall, hargs, _, rfl⟩ := edit?_eq_some h
  obtain ⟨_, _, hin⟩ := Program.holds_staticCall hp hn hcall
  rw [hargs, List.map_cons] at hin
  have hsources := hin.sublist (List.sublist_cons_self _ _) (Nat.le_refl _)
  apply replaces_of_staticCall hp hn hcall hargs rfl
  apply Program.Holds.affords
  · rw [reused_wrapped]
    split
    next hempty =>
      rw [List.isEmpty_iff.1 hempty] at hsources
      exact hsources
    next =>
      rw [List.filterMap_append, List.filterMap_append, reused_spread]
      exact (List.append_nil (sources.map Node.span)).symm ▸ hsources
  · rw [inkOf_wrapped]
    split
    · decide
    · rw [inkOf_append, inkOf_append, inkOf_spread]
      decide

end Calls

namespace FunctionToArrow

theorem inkOf_params (ps : List Node) : inkOf (paramSegments ps) = 0 := by
  rw [paramSegments]
  split
  · rfl
  · rfl

theorem inkOf_return (p : Program) (t : Node) : inkOf (returnSegments p t) = 0 := by
  rw [returnSegments]
  split
  · rfl
  · split
    · rfl
    · rfl

theorem reused_return (p : Program) (t : Node) :
    (returnSegments p t).filterMap reused? = ([t].filter fun c => !c.isAbsent).map Node.span := by
  rw [returnSegments, List.filter_cons]
  cases t.isAbsent with
  | true => rfl
  | false =>
    rw [if_neg (by simp)]
    split
    · rfl
    · rfl

theorem reused_params (ps : List Node) : (paramSegments ps).filterMap reused? = Node.run ps := by
  rw [paramSegments, Node.run]
  cases ps.head? with
  | none => rfl
  | some first =>
    cases ps.getLast? with
    | none => rfl
    | some last => rfl

end FunctionToArrow

namespace PromiseTry

theorem isAbsent_of_substitute (h : substitute? resolve body = some substitute) :
    body.isAbsent = false := by
  obtain ⟨k, s, cs⟩ := body
  apply decide_eq_false
  rintro rfl
  cases h

theorem reused_handed (s : Substitute) : (handedSegments s).filterMap reused? = [s.code.span] := by
  cases s with
  | thunk n =>
    rw [handedSegments]
    split
    · rfl
    · rfl
  | callee f => rfl

theorem inkOf_handed (s : Substitute) : inkOf (handedSegments s) ≤ 6 := by
  cases s with
  | thunk n =>
    rw [handedSegments]
    split
    · exact (by decide : 6 ≤ 6)
    · exact (by decide : 6 ≤ 6)
  | callee f => exact (by decide : 0 ≤ 6)

end PromiseTry

section Functions

variable {p : Program} (hp : p.WellFormed)

include hp

theorem has_of_isPlainPattern (hn : n ∈ p.tree.subtrees) (h : n.isPlainPattern = true) :
    p.Has n := by
  have hshape := hp.shaped n hn
  rw [Node.isPlainPattern.eq_def] at h
  split at h
  next => exact ⟨hn, by simpa [Node.isShaped, Node.isAnnotated, h] using hshape⟩
  next => exact ⟨hn, by simpa [Node.isShaped, Node.isAnnotated, h] using hshape⟩
  next => exact ⟨hn, by simpa [Node.isShaped, Node.isAnnotated, h] using hshape⟩
  next => cases h

theorem holds_pattern (hn : p.Has n) (h : (n.child 1).isPlainPattern = true) :
    p.Holds n.span 0 [(n.child 1).span] := by
  have hmem : n.child 1 ∈ n.children := by
    rw [Node.child] at h ⊢
    cases hc : n.children[1]? with
    | none =>
      rw [hc] at h
      cases h
    | some c => exact List.mem_of_getElem? hc
  have hpattern := has_of_isPlainPattern hp (Program.mem_of_child hn.mem hmem) h
  exact Program.holds_child hp hn hmem hpattern.solid

theorem Callback.holds_parts (hn : p.Has callback)
    (h : parts? callback.bare = some ⟨first :: extra, body⟩)
    (hplain : first.isPlainPattern = true) : p.Holds callback.span 6 [first.span, body.span] := by
  obtain ⟨hbare, hin⟩ := Program.holds_bare hp hn
  suffices hparts : p.Holds callback.bare.span 6 [first.span, body.span] by
    have hboth := hin.head hparts
    rwa [Nat.zero_add] at hboth
  generalize callback.bare = n at hbare h
  rw [parts?.eq_def] at h
  split at h
  next span ps generics result body' =>
    split at h
    next =>
      simp only [Option.some.injEq, Parts.mk.injEq] at h
      obtain ⟨hps, rfl⟩ := h
      obtain ⟨_, harrow⟩ := Program.holds_arrow hp hbare.mem
      have hfirst : p.Has first := by
        have hmem : ps ∈ p.tree.subtrees := Program.mem_of_child hbare.mem (by simp [Node.children])
        exact has_of_isPlainPattern hp (Program.mem_of_child hmem (by simp [hps])) hplain
      refine harrow.sublist ?_ (Nat.le_refl _)
      rw [Node.parts_eq, hps, List.flatMap_cons, Node.pieces_of_isSolid hfirst.solid,
        List.map_append]
      exact (List.sublist_append_right _ _).cons_cons _
    next => cases h
  next span name f =>
    split at h
    next s ds ps generics result body' =>
      split at h
      next hkept =>
        simp only [Option.some.injEq, Parts.mk.injEq] at h
        obtain ⟨hps, rfl⟩ := h
        simp only [Bool.and_eq_true, Bool.not_eq_true'] at hkept
        obtain ⟨q, qs, hq, rfl, _⟩ := List.map_eq_cons_iff.1 hps
        obtain ⟨_, hhas, _, _⟩ := Program.has_function hp hbare.mem hkept.1.2
        have hfunction := Program.holds_function hp hbare.mem hkept.1.2
        rw [hq, List.map_cons, List.cons_append] at hfunction
        have hboth := hfunction.head (holds_pattern hp (hhas q (by simp [hq])) hplain)
        refine hboth.sublist ?_ (by decide)
        exact (List.sublist_append_right _ _).cons_cons _
      next => cases h
    next => cases h
  next => cases h

theorem FunctionToArrow.holds_parts (hn : .mk .functionExpr span
      [name, .mk (.function async false) s [ds, ps, types, result, body]] ∈ p.tree.subtrees)
    (hb : body.isAbsent = false) :
    p.Holds span (Node.weight (if async then ["async", "function"] else ["function"]))
      ((paramSegments ps.children).filterMap reused? ++
        ((returnSegments p result).filterMap reused? ++ [body.span])) := by
  obtain ⟨hself, hps, hresult, hbody, hparts⟩ := Program.has_function hp hn hb
  have hfilter : ps.children.filter (fun c => !c.isAbsent) = ps.children := by
    rw [List.filter_eq_self]
    intro c hc
    rw [Node.isAbsent_of_isSolid (hps c hc).solid]
    rfl
  have htail : (returnSegments p result).filterMap reused? ++ [body.span] =
      ([result, body].filter fun c => !c.isAbsent).map Node.span := by
    rw [reused_return, List.filter_cons, List.filter_cons, List.filter_cons, hb]
    split
    · rfl
    · rfl
  rw [reused_params, htail]
  apply Program.holds_run hp hself
  · intro c hc
    rw [hparts]
    simp only [List.mem_append, List.mem_filter, List.mem_cons, List.not_mem_nil, or_false,
      Bool.not_eq_true'] at hc
    obtain hc | ⟨rfl | rfl, ha⟩ := hc
    · simp [hc]
    · simp [Node.pieces_of_isSolid (hresult ha).solid]
    · simp
  · exact List.ne_nil_of_mem (List.mem_filter.2 ⟨by simp, by simp [hb]⟩ : body ∈ _)
  · have hordered := hp.ordered _ hn
    rwa [Node.signature, List.filter_append, hfilter] at hordered

theorem FunctionToArrow.replaces (hn : n ∈ p.tree.subtrees) (h : edit? p constructed n = some e) :
    p.Replaces .functionExpr n e := by
  obtain ⟨span, name, async, s, ds, ps, types, result, body, wrap, rfl, hb, _, rfl⟩ :=
    edit?_eq_some h
  obtain ⟨hself, _⟩ := Program.has_function hp hn hb
  apply replaces_of_heading hp hself ?_ rfl
  · apply Program.Holds.affords
    · rw [reused_wrapped, List.filterMap_cons_none rfl, List.filterMap_append,
        List.filterMap_cons_none rfl, List.filterMap_append]
      exact holds_parts hp hn hb
    · rw [inkOf_wrapped, inkOf_cons, inkOf_append, inkOf_params, inkOf_cons, inkOf_append,
        inkOf_return]
      cases async with
      | true => exact (by decide : 12 < 14)
      | false => exact (by decide : 6 < 8)
  · cases async with
    | true => exact List.cons_ne_nil _ _
    | false => exact List.cons_ne_nil _ _

namespace PromiseTry

theorem holds_soleExpression (hn : p.Has body) (h : soleExpression? body = some e) :
    p.Has e ∧ p.Holds body.span 0 [e.span] := by
  rw [soleExpression?.eq_def] at h
  split at h
  next span s e' =>
    cases h
    have hmem : .mk .exprStmt s [e] ∈ p.tree.subtrees :=
      Program.mem_of_child hn.mem (by simp [Node.children])
    obtain ⟨hstatement, he⟩ := Program.has_plain hp hmem rfl
    have hblock := Program.holds_node hp hn
    simp only [Node.parts_eq, Node.children, List.flatMap_cons, List.flatMap_nil, List.append_nil,
      Node.pieces_of_isSolid hstatement.solid] at hblock
    exact ⟨he e List.mem_cons_self, hblock.head (Program.holds_plain hp hmem rfl)⟩
  next => cases h
  next =>
    cases h
    exact ⟨hn, .refl p _⟩

theorem holds_executor (hn : p.Has argument) (h : executor? argument = some executor)
    (he : executor.expression.isAbsent = false) :
    p.Has executor.expression ∧ p.Holds argument.span 6 [executor.expression.span] := by
  obtain ⟨hbare, hin⟩ := Program.holds_bare hp hn
  suffices hparts : p.Has executor.expression ∧
      p.Holds argument.bare.span 6 [executor.expression.span] by
    have hboth := hin.head hparts.2
    rw [Nat.zero_add] at hboth
    exact ⟨hparts.1, hboth⟩
  rw [executor?] at h
  generalize argument.bare = n at hbare h
  split at h
  next span ps generics result body =>
    split at h
    next =>
      obtain ⟨e, hsole, rfl⟩ := Option.map_eq_some_iff.1 h
      obtain ⟨hbody, harrow⟩ := Program.holds_arrow hp hbare.mem
      obtain ⟨hhas, hexpr⟩ := holds_soleExpression hp hbody hsole
      exact ⟨hhas, (harrow.trans hexpr).sublist (List.sublist_append_right _ _) (Nat.le_refl _)⟩
    next => cases h
  next span name f =>
    split at h
    next s ds ps generics result body =>
      obtain ⟨e, hsole, h⟩ := Option.bind_eq_some_iff.1 h
      split at h
      next =>
        cases h
        have hb : body.isAbsent = false := by
          obtain ⟨k, s, cs⟩ := body
          apply decide_eq_false
          rintro rfl
          cases hsole
          cases he
        obtain ⟨_, _, _, hbody, _⟩ := Program.has_function hp hbare.mem hb
        obtain ⟨hhas, hexpr⟩ := holds_soleExpression hp hbody hsole
        have hfunction := (Program.holds_function hp hbare.mem hb).trans hexpr
        exact ⟨hhas, hfunction.sublist (List.sublist_append_right _ _) (by decide)⟩
      next => cases h
    next => cases h
  next => cases h

theorem holds_substitute (hn : p.Has body) (h : substitute? resolve body = some substitute) :
    p.Holds body.span 0 [substitute.code.span] := by
  obtain ⟨hbare, hin⟩ := Program.holds_bare hp hn
  suffices hcode : p.Holds body.bare.span 0 [substitute.code.span] from hin.head hcode
  rw [substitute?.eq_def] at h
  split at h
  next span callee types arguments he =>
    rw [he] at hbare ⊢
    obtain ⟨argument, hsole, h⟩ := Option.bind_eq_some_iff.1 h
    obtain ⟨name, _, h⟩ := Option.bind_eq_some_iff.1 h
    obtain ⟨_, hcallee, _, _⟩ := Program.has_call hp hbare.mem (.inl rfl)
    have hcall := Program.holds_call hp hbare.mem (.inl rfl)
    rw [Node.soleArgument?_eq_some hsole] at hcall
    split at h
    next => cases h
    next =>
      split at h
      next =>
        cases h
        exact hcall.sublist (List.sublist_cons_self _ _) (Nat.zero_le _)
      next =>
        split at h
        next =>
          cases h
          have hboth := hcall.head (Program.holds_bare hp hcallee).2
          exact hboth.sublist ((List.nil_sublist _).cons_cons _) (Nat.zero_le _)
        next => cases h
  next => cases h

theorem replaces (hn : n ∈ p.tree.subtrees) (h : edit? awaited n = some e) :
    p.Replaces .new n e := by
  obtain ⟨span, callee, types, arguments, argument, executor, resolve, substitute, rfl, hpromise,
    hgiven, hargs, hexecutor, hsubstitute, rfl⟩ := edit?_eq_some h
  obtain ⟨hself, hcallee, hhas, _⟩ := Program.has_call hp hn (.inr ⟨rfl, hgiven⟩)
  have hargument := hhas argument (by simp [hargs])
  obtain ⟨hexpr, hbody⟩ :=
    holds_executor hp hargument hexecutor (isAbsent_of_substitute hsubstitute)
  have hnew := Program.holds_call hp hn (.inr ⟨rfl, hgiven⟩)
  rw [hargs] at hnew
  have hparts := (hnew.head (Program.holds_name hp hcallee hpromise)).head
    (hbody.head (holds_substitute hp hexpr hsubstitute))
  apply replaces_of_heading hp hself (List.cons_ne_nil _ _) rfl
  apply Program.Holds.affords
  · rw [List.filterMap_append, List.filterMap_append, reused_handed]
    exact hparts
  · rw [inkOf_append, inkOf_append]
    have hhanded := inkOf_handed substitute
    exact Nat.lt_of_le_of_lt (Nat.add_le_add_right (Nat.add_le_add_left hhanded 10) 0)
      (by decide : 16 < 17)

end PromiseTry

end Functions

theorem Callback.Inlined.reused_segments (loop : Callback.Inlined) (iterable r : Range)
    (h : loop.body = .block r ∨ loop.body = .expression r) :
    (loop.segments iterable).filterMap reused? = [loop.binding, iterable, r] := by
  rw [Callback.Inlined.segments]
  rcases h with h | h
  · rw [h]
    rfl
  · rw [h]
    rfl

theorem inkOf_head (declaring : Declaring) (segments : List Segment) :
    inkOf (.string ("for (" ++ declaring.keyword ++ " ") :: segments) =
      3 + (Text.ofString declaring.keyword).ink + inkOf segments := by
  rw [inkOf_cons, Segment.string, Segment.written, Text.ofString_append, Text.ofString_append,
    Text.ink_append, Text.ink_append]
  rfl

theorem Callback.Inlined.inkOf_segments (loop : Callback.Inlined) (iterable : Range)
    (h : loop.declaring = .scoped ∨ loop.declaring = .constant) :
    inkOf (loop.segments iterable) ≤ 10 := by
  obtain ⟨declaring, binding, body, names⟩ := loop
  have hkeyword : (Text.ofString declaring.keyword).ink ≤ 5 := by
    rcases h with rfl | rfl
    · decide
    · decide
  rw [Callback.Inlined.segments, List.cons_append, inkOf_head]
  cases body with
  | block r => exact Nat.add_le_add_right (Nat.add_le_add_left hkeyword 3) 2
  | expression r => exact Nat.add_le_add_right (Nat.add_le_add_left hkeyword 3) 2

theorem Program.Holds.affords_loop (h : Program.Holds p span own [iterable, loop.binding, r])
    (hbody : loop.body = .block r ∨ loop.body = .expression r)
    (hdeclaring : loop.declaring = .scoped ∨ loop.declaring = .constant) (hown : 10 < own) :
    p.Affords (laid span (Callback.Inlined.segments loop iterable)) := by
  apply Program.Holds.affords
  · rw [Callback.Inlined.reused_segments loop iterable r hbody]
    exact h.subperm (List.Perm.swap _ _ _).subperm (Nat.le_refl _)
  · exact Nat.lt_of_le_of_lt (Callback.Inlined.inkOf_segments loop iterable hdeclaring) hown

section Loops

variable {p : Program} (hp : p.WellFormed)

include hp

theorem inside_of_bare (hx : p.Has x) (h : x.bare.methodCall? = some (receiver, name, arguments))
    (hne : arguments.children ≠ []) (hm : m ∈ x.subtrees) (hs : m.isSolid = true)
    (hk : m.kind = .exprStmt) : m.span.Inside x.bare.span := by
  fun_induction Node.bare x with
  | case1 span e ih =>
    rw [Node.subtrees_eq, List.mem_cons] at hm
    rcases hm with rfl | hm
    · cases hk
    · obtain ⟨_, he⟩ := Program.has_plain hp hx.mem rfl
      simp only [Node.descendants, Node.children, List.flatMap_cons, List.flatMap_nil,
        List.append_nil] at hm
      exact ih (he e List.mem_cons_self) h hm
  | case2 n =>
    rw [Node.subtrees_eq, List.mem_cons] at hm
    rcases hm with rfl | hm
    · obtain ⟨_, _, _, rfl, _⟩ := Node.methodCall?_eq_some h
      cases hk
    · exact ⟨Program.within_of_mem_descendants hp hx hm hs,
        (alone_of_methodCall hp hx.mem h hne).2 m hm hs⟩

theorem alone_of_exprStmt (hn : .mk .exprStmt span [x] ∈ p.tree.subtrees)
    (h : x.bare.methodCall? = some (receiver, name, arguments)) (hne : arguments.children ≠ []) :
    ∀ m ∈ (Node.mk .exprStmt span [x]).descendants, m.isSolid = true → m.kind = .exprStmt →
      m.span ≠ span := by
  obtain ⟨_, hx⟩ := Program.has_plain hp hn rfl
  have hx := hx x List.mem_cons_self
  intro m hm hs hk
  simp only [Node.descendants, Node.children, List.flatMap_cons, List.flatMap_nil,
    List.append_nil] at hm
  have hcall := (Program.holds_plain hp hn rfl).head (Program.holds_bare hp hx).2
  have hin := (inside_of_bare hp hx h hne hm hs hk).trans_within (hcall.within _ List.mem_cons_self)
  exact hin.2

/-- What a loop is made from stands in the statement that it replaces. -/
theorem Callback.holds_loop (hn : .mk .exprStmt span [x] ∈ p.tree.subtrees)
    (hcall : x.bare.methodCall? = some (receiver, name, arguments))
    (hargs : arguments.children = [callback]) (hloop : inline? rules callback = some loop) :
    ∃ r, (loop.body = .block r ∨ loop.body = .expression r) ∧
      (loop.declaring = .scoped ∨ loop.declaring = .constant) ∧ p.Has receiver ∧
      p.Holds span ((Text.ofString name).ink + 6) [receiver.span, loop.binding, r] := by
  obtain ⟨first, extra, body, hparts, hplain, hbinding, hdeclaring, hbody⟩ := inline?_eq_some hloop
  obtain ⟨_, hx⟩ := Program.has_plain hp hn rfl
  obtain ⟨hbare, hinner⟩ := Program.holds_bare hp (hx x List.mem_cons_self)
  obtain ⟨_, hreceiver, hhas, hin⟩ := Program.holds_methodCall hp hbare.mem hcall
  rw [hargs] at hin
  have hcallback := holds_parts hp (hhas callback (by simp [hargs])) hparts hplain
  have hstatement :
      p.Holds span (0 + (0 + (Text.ofString name).ink)) ([receiver.span] ++ callback.span :: []) :=
    (Program.holds_plain hp hn rfl).head (hinner.head hin)
  rw [Nat.zero_add, Nat.zero_add] at hstatement
  rw [hbinding]
  exact ⟨body.span, hbody, hdeclaring, hreceiver, hstatement.trans hcallback⟩

theorem DomForEach.replaces (hn : n ∈ p.tree.subtrees) (h : edit? p n = some e) :
    p.Replaces .exprStmt n e := by
  obtain ⟨span, x, receiver, arguments, callback, loop, rfl, hcall, hargs, hloop, rfl⟩ :=
    edit?_eq_some h
  have hne : arguments.children ≠ [] := by rw [hargs]; exact List.cons_ne_nil _ _
  have hrange : p.statementRange span = span := hp.terminated _ hn _ List.mem_cons_self
  obtain ⟨r, hbody, hdeclaring, _, hin⟩ := Callback.holds_loop hp hn hcall hargs hloop
  refine ⟨(Program.has_plain hp hn rfl).1, rfl, hrange, alone_of_exprStmt hp hn hcall hne, ?_⟩
  rw [hrange]
  exact hin.affords_loop hbody hdeclaring (by decide)

theorem ArrayFromForEach.replaces (hn : n ∈ p.tree.subtrees) (h : edit? p n = some e) :
    p.Replaces .exprStmt n e := by
  obtain ⟨span, x, receiver, arguments, given, iterable, callback, loop, rfl, hcall, hargs, hfrom,
    hgiven, hloop, rfl⟩ := edit?_eq_some h
  have hne : arguments.children ≠ [] := by rw [hargs]; exact List.cons_ne_nil _ _
  have hrange : p.statementRange span = span := hp.terminated _ hn _ List.mem_cons_self
  obtain ⟨r, hbody, hdeclaring, hreceiver, hin⟩ := Callback.holds_loop hp hn hcall hargs hloop
  obtain ⟨hbare, hinner⟩ := Program.holds_bare hp hreceiver
  obtain ⟨_, _, hiterable⟩ := Program.holds_staticCall hp hbare.mem hfrom
  rw [hgiven] at hiterable
  refine ⟨(Program.has_plain hp hn rfl).1, rfl, hrange, alone_of_exprStmt hp hn hcall hne, ?_⟩
  rw [hrange]
  exact ((hin.head hinner).head hiterable).affords_loop hbody hdeclaring (by decide)

theorem ObjectKeys.replaces (hn : n ∈ p.tree.subtrees) (h : edit? n = some e) :
    p.Replaces (.forOf false) n e := by
  obtain ⟨span, left, right, body, arguments, object, rfl, hcall, hargs, rfl⟩ := edit?_eq_some h
  obtain ⟨hself, hparts⟩ := Program.has_plain hp hn rfl
  obtain ⟨hbare, hinner⟩ := Program.holds_bare hp (hparts right (by simp))
  obtain ⟨_, _, hobject⟩ := Program.holds_staticCall hp hbare.mem hcall
  rw [hargs] at hobject
  have hloop : p.Holds span 3 ([left.span] ++ right.span :: [body.span]) :=
    Program.holds_plain hp hn rfl
  apply replaces_of_heading hp hself (List.cons_ne_nil _ _) rfl
  exact (hloop.trans (hinner.head hobject)).affords (by decide : 5 < 13)

namespace IndexedFor

theorem holds_index (hn : n ∈ p.tree.subtrees) (h : index? n = some index) :
    p.Has n ∧ p.Holds n.span 3 [] := by
  obtain ⟨ambient, span, s, s', cs, value, rfl⟩ := index?_eq_some h
  obtain ⟨hself, _⟩ := Program.has_plain hp hn rfl
  exact ⟨hself, (Program.holds_node hp hself).sublist (List.nil_sublist _) (Nat.le_refl _)⟩

theorem holds_array (hn : p.Has test) (h : array? index test = some array) :
    p.Holds test.span (6 + (Text.ofString array).ink) [] := by
  obtain ⟨span, left, right, object, he, hmember, hname⟩ := array?_eq_some h
  obtain ⟨hbare, hinner⟩ := Program.holds_bare hp hn
  rw [he] at hbare hinner
  obtain ⟨_, hparts⟩ := Program.has_plain hp hbare.mem rfl
  obtain ⟨hobject, hright⟩ := Program.holds_member hp (hparts right (by simp)) hmember
  have hlength := hright.head (Program.holds_name hp hobject hname)
  have hbinary : p.Holds span 0 ([left.span] ++ right.span :: []) :=
    Program.holds_plain hp hbare.mem rfl
  have hink : (Text.ofString "length").ink = 6 := by decide
  exact (hinner.head (hbinary.trans hlength)).sublist (List.nil_sublist _) (by omega)

theorem holds_element (hn : n ∈ p.tree.subtrees)
    (h : element? array index n = some (declaring, pattern)) :
    p.Has n ∧ p.Holds n.span (Text.ofString declaring.keyword).ink [pattern.span] := by
  obtain ⟨ambient, span, s, value, rfl, _, hplain⟩ := element?_eq_some h
  obtain ⟨hself, hparts⟩ := Program.has_plain hp hn rfl
  have hdeclarator := hparts (.mk .declarator s [pattern, value]) List.mem_cons_self
  have hpattern := has_of_isPlainPattern hp
    (Program.mem_of_child hdeclarator.mem (by simp [Node.children])) hplain
  have hin := Program.holds_child hp hdeclarator (by simp [Node.children]) hpattern.solid
  exact ⟨hself, (Program.holds_plain hp hn rfl).head hin⟩

omit hp in
theorem isAbsent_of_array (h : array? index test = some array) : test.isAbsent = false := by
  obtain ⟨_, _, _, _, he, _⟩ := array?_eq_some h
  obtain ⟨k, s, cs⟩ := test
  apply decide_eq_false
  rintro rfl
  cases he

theorem replaces (hn : n ∈ p.tree.subtrees) (h : edit? p n = some e) : p.Replaces .for n e := by
  obtain ⟨span, first, test, step, body, decl, rest, index, array, declaring, pattern, rfl, hindex,
    harray, helement, rfl⟩ := edit?_eq_some h
  have hmem {c : Node} (hc : c ∈ [first, test, step, .mk .block body (decl :: rest)]) :
      c ∈ p.tree.subtrees :=
    Program.mem_of_child hn hc
  have hshape := hp.shaped _ hn
  simp only [Node.isShaped, Node.isOptional, Bool.and_eq_true, List.all_eq_true,
    Bool.or_eq_true] at hshape
  have hself : p.Has (.mk .for span [first, test, step, .mk .block body (decl :: rest)]) :=
    ⟨hn, hshape.1⟩
  have htest : p.Has test := ⟨hmem (by simp), (hshape.2 test (by simp)).resolve_left (by
    rw [isAbsent_of_array harray]
    exact Bool.false_ne_true)⟩
  have hblock : p.Has (.mk .block body (decl :: rest)) := by
    have hblock := hmem (by simp : .mk .block body (decl :: rest) ∈ _)
    exact ⟨hblock, hp.shaped _ hblock⟩
  have hdecl : decl ∈ p.tree.subtrees := Program.mem_of_child hblock.mem List.mem_cons_self
  obtain ⟨hfirst, hlet⟩ := holds_index hp (hmem (by simp)) hindex
  obtain ⟨hhas, hpattern⟩ := holds_element hp hdecl helement
  have hvar : decl.isVarDecl = true := by
    obtain ⟨_, _, _, _, rfl, _, _⟩ := element?_eq_some helement
    rfl
  have hrange : p.statementRange decl.span = decl.span :=
    hp.terminated _ hblock.mem decl (List.mem_filter.2 ⟨List.mem_cons_self, hvar⟩)
  have hloop : p.Holds span 3 (first.span :: test.span :: [body]) := by
    have hparts := Program.holds_node hp hself
    simp only [Node.parts_eq, Node.children, List.flatMap_cons, List.flatMap_nil, List.append_nil,
      Node.pieces_of_isSolid hfirst.solid, Node.pieces_of_isSolid htest.solid,
      Node.pieces_of_isSolid hblock.solid, List.map_append, List.map_cons, List.map_nil] at hparts
    exact hparts.sublist (((List.sublist_append_right _ _).cons_cons _).cons_cons _) (Nat.le_refl _)
  have hbody := (Program.holds_tail hp hblock List.mem_cons_self hhas.solid).head hpattern
  have hall := ((hloop.head hlet).head (holds_array hp htest harray)).head hbody
  rw [hrange]
  apply replaces_of_heading hp hself (List.cons_ne_nil _ _) rfl
  apply Program.Holds.affords
  · exact hall
  · rw [inkOf_head, inkOf_cons, inkOf_cons, Segment.string, Segment.written, Segment.written,
      Text.ofString_append, Text.ofString_append, Text.ink_append, Text.ink_append]
    have hof : (Text.ofString " of ").ink = 2 := by decide
    have hclose : (Text.ofString ") \x7b").ink = 0 := by decide
    have hnone : Text.ink [] = 0 := rfl
    have htail : inkOf [.reused ⟨decl.span.stop, body.stop⟩] = 0 := rfl
    omega

end IndexedFor

end Loops

end Uplift
