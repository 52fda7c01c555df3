import Mathlib.Data.List.Flatten
import Mathlib.Data.List.Perm.Subperm
import Uplift.Proofs.Constant
import Uplift.Proofs.Rendering
import Uplift.Transform

namespace Uplift

set_option autoImplicit true

def Segment.isEmpty : Segment → Bool
  | .fresh t => t.isEmpty
  | .reused r => r.isEmpty

def Segment.string (s : String) : Segment := .fresh (Text.ofString s)

namespace Edit

/-- The edit that writes the given segments, the empty ones left out. -/
def laid (range : Range) (segments : List Segment) : Edit :=
  ⟨range, segments.filter fun s => !s.isEmpty⟩

def wrapped (wrap : Bool) (segments : List Segment) : List Segment :=
  if wrap then .fresh [40] :: (segments ++ [.fresh [41]]) else segments

theorem segments_laid_cons {s : Segment} (h : s.isEmpty = false) (range : Range)
    (segments : List Segment) :
    (laid range (s :: segments)).segments = s :: (laid range segments).segments := by
  rw [laid, List.filter_cons, h]
  rfl

theorem laid_cons_of_isEmpty {s : Segment} (h : s.isEmpty = true) (range : Range)
    (segments : List Segment) : laid range (s :: segments) = laid range segments := by
  rw [laid, List.filter_cons, h]
  rfl

theorem replacing_eq_laid (range : Range) : replacing range = laid range [] := rfl

theorem text_laid (range : Range) (segments : List Segment) (t : Text) :
    (laid range segments).text t = laid range (segments ++ [.fresh t]) := by
  rw [text]
  cases h : t.isEmpty with
  | true =>
    simp only [laid, List.filter_append, List.filter_cons, Segment.isEmpty, h, ↓reduceIte,
      Bool.not_true, Bool.false_eq_true, List.filter_nil, List.append_nil]
  | false =>
    simp only [laid, List.filter_append, List.filter_cons, Segment.isEmpty, h, ↓reduceIte,
      Bool.not_false, Bool.false_eq_true, List.filter_nil]

theorem string_laid (range : Range) (segments : List Segment) (s : String) :
    (laid range segments).string s = laid range (segments ++ [.string s]) :=
  text_laid range segments _

theorem reuse_laid (range : Range) (segments : List Segment) (r : Range) :
    (laid range segments).reuse r = laid range (segments ++ [.reused r]) := by
  rw [reuse]
  cases h : r.isEmpty with
  | true =>
    simp only [laid, List.filter_append, List.filter_cons, Segment.isEmpty, h, ↓reduceIte,
      Bool.not_true, Bool.false_eq_true, List.filter_nil, List.append_nil]
  | false =>
    simp only [laid, List.filter_append, List.filter_cons, Segment.isEmpty, h, ↓reduceIte,
      Bool.not_false, Bool.false_eq_true, List.filter_nil]

theorem parenthesizedIf_laid (range : Range) (segments : List Segment) (wrap : Bool) :
    (laid range segments).parenthesizedIf wrap = laid range (wrapped wrap segments) := by
  cases wrap with
  | false => rfl
  | true =>
    simp only [parenthesizedIf, parenthesized, wrapped, laid, ↓reduceIte, List.filter_cons,
      List.filter_append, Segment.isEmpty, List.isEmpty_cons, Bool.not_false, List.filter_nil]

end Edit

namespace Node

variable {n receiver arguments e : Node} {name object method : String}

theorem member?_eq_some (h : n.member? = some (receiver, name)) :
    ∃ span s cs, n = .mk .member span [receiver, .mk (.name name) s cs] := by
  rw [member?.eq_def] at h
  split at h
  next =>
    cases h
    exact ⟨_, _, _, rfl⟩
  next => cases h

theorem methodCall?_eq_some (h : n.methodCall? = some (receiver, name, arguments)) :
    ∃ span callee types, n = .mk .call span [callee, types, arguments] ∧
      callee.bare.member? = some (receiver, name) := by
  obtain ⟨⟨callee, given⟩, hcall, h⟩ := Option.bind_eq_some_iff.1 h
  obtain ⟨⟨r, w⟩, hm, h⟩ := Option.bind_eq_some_iff.1 h
  cases h
  rw [call?.eq_def] at hcall
  split at hcall
  next =>
    cases hcall
    exact ⟨_, _, _, rfl, hm⟩
  next => cases hcall

theorem staticCall?_eq_some (h : n.staticCall? object method = some arguments) :
    ∃ receiver, n.methodCall? = some (receiver, method, arguments) ∧
      receiver.bare.name? = some object := by
  obtain ⟨⟨receiver, name, given⟩, hcall, h⟩ := Option.bind_eq_some_iff.1 h
  simp only [Bool.and_eq_true, decide_eq_true_eq] at h
  split at h
  next hnames =>
    cases h
    exact ⟨receiver, hnames.2 ▸ hcall, hnames.1⟩
  next => cases h

theorem plainArguments?_eq_some (h : n.plainArguments? = some cs) : n.children = cs := by
  rw [plainArguments?] at h
  split at h
  · cases h
  · exact Option.some.inj h

theorem soleArgument?_eq_some (h : n.soleArgument? = some e) : n.children = [e] := by
  rw [soleArgument?] at h
  split at h
  next hp =>
    cases h
    exact plainArguments?_eq_some hp
  next => cases h

theorem kind_ne_spread_of_soleArgument? (h : n.soleArgument? = some e) : e.kind ≠ .spread := by
  rw [soleArgument?] at h
  split at h
  next hplain =>
    cases h
    rw [plainArguments?] at hplain
    split at hplain
    next => cases hplain
    next hnone =>
      intro hspread
      refine hnone (List.any_eq_true.2 ⟨e, ?_, decide_eq_true hspread⟩)
      rw [Option.some.inj hplain]
      exact List.mem_singleton_self e
  next => cases h

theorem name?_eq_some (h : n.name? = some name) : ∃ span cs, n = .mk (.ident name) span cs := by
  rw [name?.eq_def] at h
  split at h
  next =>
    cases h
    exact ⟨_, _, rfl⟩
  next => cases h

end Node

theorem Slot.safely_eq_some (h : Slot.safely t e = some f) :
    f = e ∧ Slot.startsSafely t e = true := by
  rw [Slot.safely] at h
  split at h
  next hs => exact ⟨(Option.some.inj h).symm, hs⟩
  next => cases h

open Edit Segment

theorem Slot.placed_laid (t : Text) (form : Option Form) (range : Range) (segments : List Segment) :
    Slot.placed t form (laid range segments) =
      laid range (wrapped (form.any (Slot.needsParens t range)) segments) :=
  parenthesizedIf_laid _ _ _

theorem Slot.fit_laid {form : Option Form} {range : Range} {segments : List Segment}
    (h : Slot.fit t form (laid range segments) = some e) :
    Slot.startsSafely t e = true ∧
      e = laid range (wrapped (form.any (Slot.needsParens t range)) segments) := by
  obtain ⟨rfl, hsafe⟩ := Slot.safely_eq_some h
  exact ⟨hsafe, Slot.placed_laid t form range segments⟩

namespace MathPow

def operandSegments (n : Node) : List Segment :=
  if n.isAtom then [.reused n.span] else [.string "(", .reused n.span, .string ")"]

theorem operand_laid (range : Range) (segments : List Segment) (n : Node) :
    operand (laid range segments) n = laid range (segments ++ operandSegments n) := by
  rw [operand, operandSegments]
  split
  · exact reuse_laid _ _ _
  · simp only [string_laid, reuse_laid, List.append_assoc, List.cons_append, List.nil_append]

theorem bare?_eq_some (h : bare? n = some e) :
    ∃ arguments base exponent, n.staticCall? "Math" "pow" = some arguments ∧
      arguments.children = [base, exponent] ∧
      e = laid n.span (operandSegments base ++ [.string " ** "] ++ operandSegments exponent) := by
  obtain ⟨arguments, hcall, h⟩ := Option.bind_eq_some_iff.1 h
  obtain ⟨given, hgiven, h⟩ := Option.bind_eq_some_iff.1 h
  split at h
  next base exponent =>
    simp only [replacing_eq_laid, operand_laid, string_laid, List.nil_append] at h
    exact ⟨arguments, base, exponent, hcall, Node.plainArguments?_eq_some hgiven,
      (Option.some.inj h).symm⟩
  next => cases h

theorem edit?_eq_laid (h : edit? p n = some e) :
    ∃ arguments base exponent, n.staticCall? "Math" "pow" = some arguments ∧
      arguments.children = [base, exponent] ∧ Slot.startsSafely p.text e = true ∧
      e = laid n.span (wrapped (Slot.needsParens p.text n.span .exponent)
        (operandSegments base ++ [.string " ** "] ++ operandSegments exponent)) := by
  obtain ⟨bare, hbare, h⟩ := Option.bind_eq_some_iff.1 h
  obtain ⟨arguments, base, exponent, hcall, hgiven, rfl⟩ := bare?_eq_some hbare
  obtain ⟨hsafe, rfl⟩ := Slot.fit_laid h
  exact ⟨arguments, base, exponent, hcall, hgiven, hsafe, rfl⟩

theorem edit?_eq_some (h : edit? p n = some e) :
    ∃ arguments base exponent wrap, n.staticCall? "Math" "pow" = some arguments ∧
      arguments.children = [base, exponent] ∧ Slot.startsSafely p.text e = true ∧
      e =
        laid n.span
          (wrapped wrap (operandSegments base ++ [.string " ** "] ++
            operandSegments exponent)) := by
  obtain ⟨arguments, base, exponent, hcall⟩ := edit?_eq_laid h
  exact ⟨arguments, base, exponent, _, hcall⟩

end MathPow

namespace ArrayFromSpread

theorem bare?_eq_some (h : bare? chained n = some e) :
    ∃ arguments iterable, n.staticCall? "Array" "from" = some arguments ∧
      arguments.children = [iterable] ∧
      e = laid n.span [.string "[...", .reused iterable.span, .string "]"] := by
  obtain ⟨arguments, hcall, h⟩ := Option.bind_eq_some_iff.1 h
  obtain ⟨iterable, hsole, h⟩ := Option.bind_eq_some_iff.1 h
  split at h
  next => cases h
  next =>
    simp only [replacing_eq_laid, string_laid, reuse_laid, List.nil_append, List.cons_append] at h
    exact ⟨arguments, iterable, hcall, Node.soleArgument?_eq_some hsole, (Option.some.inj h).symm⟩

theorem edit?_eq_some (h : edit? p chained n = some e) :
    ∃ arguments iterable, n.staticCall? "Array" "from" = some arguments ∧
      arguments.children = [iterable] ∧ Slot.startsSafely p.text e = true ∧
      e = laid n.span [.string "[...", .reused iterable.span, .string "]"] := by
  obtain ⟨bare, hbare, h⟩ := Option.bind_eq_some_iff.1 h
  obtain ⟨arguments, iterable, hcall, hgiven, rfl⟩ := bare?_eq_some hbare
  obtain ⟨hsafe, rfl⟩ := Slot.fit_laid h
  exact ⟨arguments, iterable, hcall, hgiven, hsafe, rfl⟩

end ArrayFromSpread

namespace ArrayConcat

def elementSegments (n : Node) : List Segment :=
  [.string (if isSingle n then ", " else ", ..."), .reused n.span]

theorem elements_laid (range : Range) (segments : List Segment) (ns : List Node) :
    ns.foldl element (laid range segments) =
      laid range (segments ++ ns.flatMap elementSegments) := by
  induction ns generalizing segments with
  | nil => simp only [List.foldl_nil, List.flatMap_nil, List.append_nil]
  | cons n ns ih =>
    rw [List.foldl_cons, element, string_laid, reuse_laid, ih, List.flatMap_cons, elementSegments]
    simp only [List.append_assoc, List.cons_append, List.nil_append]

theorem bare?_eq_some (h : bare? n = some e) :
    ∃ receiver arguments, n.methodCall? = some (receiver, "concat", arguments) ∧
      arguments.children ≠ [] ∧
      e = laid n.span ([.string "[...", .reused receiver.span] ++
        arguments.children.flatMap elementSegments ++ [.string "]"]) := by
  obtain ⟨⟨receiver, name, arguments⟩, hcall, h⟩ := Option.bind_eq_some_iff.1 h
  obtain ⟨given, hgiven, h⟩ := Option.bind_eq_some_iff.1 h
  simp only at h
  split at h
  next => cases h
  next hname =>
    simp only [replacing_eq_laid, string_laid, reuse_laid, elements_laid, List.nil_append,
      List.cons_append] at h
    cases h
    simp only [Bool.or_eq_true, bne_iff_ne, not_or, Decidable.not_not, List.isEmpty_iff] at hname
    obtain ⟨⟨rfl, _⟩, hne⟩ := hname
    rw [← Node.plainArguments?_eq_some hgiven] at hne ⊢
    exact ⟨receiver, arguments, hcall, hne, rfl⟩

theorem edit?_eq_some (h : edit? p n = some e) :
    ∃ receiver arguments, n.methodCall? = some (receiver, "concat", arguments) ∧
      arguments.children ≠ [] ∧ Slot.startsSafely p.text e = true ∧
      e = laid n.span ([.string "[...", .reused receiver.span] ++
        arguments.children.flatMap elementSegments ++ [.string "]"]) := by
  obtain ⟨bare, hbare, h⟩ := Option.bind_eq_some_iff.1 h
  obtain ⟨receiver, arguments, hcall, hne, rfl⟩ := bare?_eq_some hbare
  obtain ⟨hsafe, rfl⟩ := Slot.fit_laid h
  exact ⟨receiver, arguments, hcall, hne, hsafe, rfl⟩

end ArrayConcat

namespace ObjectAssign

def spreadSegments : List Node → List Segment
  | [] => []
  | [n] => [.string "...", .reused n.span]
  | n :: rest => [.string "...", .reused n.span, .string ", "] ++ spreadSegments rest

theorem spreads_laid (range : Range) (segments : List Segment) (ns : List Node) :
    spreads (laid range segments) ns = laid range (segments ++ spreadSegments ns) := by
  induction ns generalizing segments with
  | nil => rw [spreads, spreadSegments, List.append_nil]
  | cons n ns ih =>
    cases ns with
    | nil =>
      rw [spreads, spreadSegments, string_laid, reuse_laid]
      simp only [List.append_assoc, List.cons_append, List.nil_append]
    | cons m ns =>
      rw [spreads, spreadSegments, string_laid, reuse_laid, string_laid, ih]
      · simp only [List.append_assoc, List.cons_append, List.nil_append]
      · simp
      · simp

def literalSegments (sources : List Node) : List Segment :=
  if sources.isEmpty then [.string "\x7b\x7d"]
    else [.string "\x7b "] ++ spreadSegments sources ++ [.string " \x7d"]

theorem bare?_eq_some (h : bare? n = some e) :
    ∃ arguments target sources, n.staticCall? "Object" "assign" = some arguments ∧
      arguments.children = target :: sources ∧ e = laid n.span (literalSegments sources) := by
  obtain ⟨arguments, hcall, h⟩ := Option.bind_eq_some_iff.1 h
  obtain ⟨given, hgiven, h⟩ := Option.bind_eq_some_iff.1 h
  split at h
  next => cases h
  next target sources =>
    split at h
    next => cases h
    next =>
      simp only [replacing_eq_laid, string_laid, spreads_laid, List.nil_append] at h
      rw [← apply_ite some, ← apply_ite] at h
      exact ⟨arguments, target, sources, hcall, Node.plainArguments?_eq_some hgiven,
        (Option.some.inj h).symm⟩

theorem edit?_eq_laid (h : edit? p n = some e) :
    ∃ arguments target sources, n.staticCall? "Object" "assign" = some arguments ∧
      arguments.children = target :: sources ∧ Slot.startsSafely p.text e = true ∧
      e =
        laid n.span
          (wrapped (Slot.needsParens p.text n.span .object) (literalSegments sources)) := by
  obtain ⟨bare, hbare, h⟩ := Option.bind_eq_some_iff.1 h
  obtain ⟨arguments, target, sources, hcall, hgiven, rfl⟩ := bare?_eq_some hbare
  obtain ⟨hsafe, rfl⟩ := Slot.fit_laid h
  exact ⟨arguments, target, sources, hcall, hgiven, hsafe, rfl⟩

theorem edit?_eq_some (h : edit? p n = some e) :
    ∃ arguments target sources wrap, n.staticCall? "Object" "assign" = some arguments ∧
      arguments.children = target :: sources ∧ Slot.startsSafely p.text e = true ∧
      e = laid n.span (wrapped wrap (if sources.isEmpty then [.string "\x7b\x7d"]
        else [.string "\x7b "] ++ spreadSegments sources ++ [.string " \x7d"])) := by
  obtain ⟨arguments, target, sources, hcall⟩ := edit?_eq_laid h
  exact ⟨arguments, target, sources, _, hcall⟩

end ObjectAssign

namespace FunctionToArrow

def paramSegments (ps : List Node) : List Segment :=
  match ps.head?, ps.getLast? with
  | some first, some last => [.reused ⟨first.span.start, last.span.stop⟩]
  | _, _ => []

def returnSegments (p : Program) (t : Node) : List Segment :=
  if t.isAbsent then []
  else if p.text[t.span.start]? = some (Text.ascii ':') then [.reused t.span]
  else [.string ": ", .reused t.span]

theorem params_laid (range : Range) (segments : List Segment) (ps : List Node) :
    params (laid range segments) ps = laid range (segments ++ paramSegments ps) := by
  rw [params, paramSegments]
  cases ps.head? with
  | none => simp only [List.append_nil]
  | some first =>
    cases ps.getLast? with
    | none => simp only [List.append_nil]
    | some last => exact reuse_laid _ _ _

theorem returnType_laid (p : Program) (range : Range) (segments : List Segment) (t : Node) :
    returnType p (laid range segments) t = laid range (segments ++ returnSegments p t) := by
  rw [returnType, returnSegments]
  split
  · rw [List.append_nil]
  · split
    · exact reuse_laid _ _ _
    · simp only [string_laid, reuse_laid, List.append_assoc, List.cons_append, List.nil_append]

theorem bare?_eq_some (h : bare? p constructed n = some e) :
    ∃ span name async span' decorators ps generics result body,
      n = .mk .functionExpr span
        [name, .mk (.function async false) span' [decorators, ps, generics, result, body]] ∧
      body.isAbsent = false ∧
      e = laid span (.string (if async then "async (" else "(") ::
        (paramSegments ps.children ++ .string ")" ::
          (returnSegments p result ++ [.string " => ", .reused body.span]))) := by
  rw [bare?.eq_def] at h
  split at h
  next span name f =>
    split at h
    next async span' decorators ps generics result body =>
      simp only at h
      split at h
      next => cases h
      next hkept =>
        simp only [replacing_eq_laid, string_laid, reuse_laid, params_laid, returnType_laid,
          List.nil_append, List.append_assoc, List.cons_append] at h
        simp only [Bool.or_eq_true, not_or, Bool.not_eq_true] at hkept
        exact ⟨span, name, async, span', decorators, ps, generics, result, body, rfl,
          hkept.1.1.1.1.2, (Option.some.inj h).symm⟩
    next => cases h
  next => cases h

theorem edit?_eq_some (h : edit? p constructed n = some e) :
    ∃ span name async span' decorators ps generics result body wrap,
      n = .mk .functionExpr span
        [name, .mk (.function async false) span' [decorators, ps, generics, result, body]] ∧
      body.isAbsent = false ∧ Slot.startsSafely p.text e = true ∧
      e = laid span (wrapped wrap (.string (if async then "async (" else "(") ::
        (paramSegments ps.children ++ .string ")" ::
          (returnSegments p result ++ [.string " => ", .reused body.span])))) := by
  obtain ⟨bare, hbare, h⟩ := Option.bind_eq_some_iff.1 h
  obtain ⟨span, name, async, span', decorators, ps, generics, result, body, hn, hbody, rfl⟩ :=
    bare?_eq_some hbare
  obtain ⟨hsafe, rfl⟩ := Slot.fit_laid h
  exact ⟨span, name, async, span', decorators, ps, generics, result, body, _, hn, hbody, hsafe, rfl⟩

end FunctionToArrow

namespace ObjectKeys

theorem edit?_eq_some (h : edit? n = some e) :
    ∃ span left right body arguments object, n = .mk (.forOf false) span [left, right, body] ∧
      right.bare.staticCall? "Object" "keys" = some arguments ∧ arguments.children = [object] ∧
      e = laid span [.string "for (", .reused left.span, .string " in ", .reused object.span,
        .string ") ", .reused body.span] := by
  rw [edit?.eq_def] at h
  split at h
  next span left right body =>
    obtain ⟨arguments, hcall, h⟩ := Option.bind_eq_some_iff.1 h
    obtain ⟨object, hsole, h⟩ := Option.bind_eq_some_iff.1 h
    split at h
    next => cases h
    next =>
      simp only [replacing_eq_laid, string_laid, reuse_laid, List.nil_append, List.cons_append] at h
      exact ⟨span, left, right, body, arguments, object, rfl, hcall,
        Node.soleArgument?_eq_some hsole, (Option.some.inj h).symm⟩
  next => cases h

end ObjectKeys

namespace PromiseTry

def handedSegments : Substitute → List Segment
  | .thunk n =>
    if n.kind = .object then [.string "() => (", .reused n.span, .string ")"]
    else [.string "() => ", .reused n.span]
  | .callee f => [.reused f.span]

theorem handed_laid (range : Range) (segments : List Segment) (s : Substitute) :
    handed (laid range segments) s = laid range (segments ++ handedSegments s) := by
  cases s with
  | thunk n =>
    rw [handed, handedSegments]
    split
    · simp only [string_laid, reuse_laid, List.append_assoc, List.cons_append, List.nil_append]
    · simp only [string_laid, reuse_laid, List.append_assoc, List.cons_append, List.nil_append]
  | callee f => exact reuse_laid _ _ _

theorem edit?_eq_laid (h : edit? awaited n = some e) :
    ∃ span callee types arguments argument executor names resolve substitute,
      n = .mk .new span [callee, types, arguments] ∧ callee.bare.name? = some "Promise" ∧
      arguments.isAbsent = false ∧
      arguments.soleArgument? = some argument ∧ executor? argument = some executor ∧
      executor.params.mapM Node.plainName? = some names ∧ names.head? = some resolve ∧
      substitute? resolve executor.expression = some substitute ∧
      e = laid span ([.string "Promise.try("] ++ handedSegments substitute ++ [.string ")"]) := by
  rw [edit?.eq_def] at h
  split at h
  next span callee types arguments =>
    split at h
    next => cases h
    next habsent =>
      obtain ⟨argument, hsole, h⟩ := Option.bind_eq_some_iff.1 h
      obtain ⟨executor, hexecutor, h⟩ := Option.bind_eq_some_iff.1 h
      obtain ⟨names, hnames, h⟩ := Option.bind_eq_some_iff.1 h
      obtain ⟨resolve, hresolve, h⟩ := Option.bind_eq_some_iff.1 h
      obtain ⟨substitute, hsubstitute, h⟩ := Option.bind_eq_some_iff.1 h
      split at h
      next => cases h
      next hkept =>
        simp only [replacing_eq_laid, string_laid, handed_laid, List.nil_append,
          List.cons_append] at h
        simp only [Bool.or_eq_true, not_or, Bool.not_eq_true, bne_eq_false_iff_eq] at hkept
        exact ⟨span, callee, types, arguments, argument, executor, names, resolve, substitute, rfl,
          hkept.1.1.2, Bool.not_eq_true _ ▸ habsent, hsole, hexecutor, hnames, hresolve,
          hsubstitute, (Option.some.inj h).symm⟩
  next => cases h

theorem edit?_eq_some (h : edit? awaited n = some e) :
    ∃ span callee types arguments argument executor resolve substitute,
      n = .mk .new span [callee, types, arguments] ∧ callee.bare.name? = some "Promise" ∧
      arguments.isAbsent = false ∧
      arguments.children = [argument] ∧ executor? argument = some executor ∧
      substitute? resolve executor.expression = some substitute ∧
      e = laid span ([.string "Promise.try("] ++ handedSegments substitute ++ [.string ")"]) := by
  obtain ⟨span, callee, types, arguments, argument, executor, _, resolve, substitute, hn, hpromise,
    hgiven, hsole, hexecutor, _, _, hsubstitute, he⟩ := edit?_eq_laid h
  exact ⟨span, callee, types, arguments, argument, executor, resolve, substitute, hn,
    hpromise, hgiven, Node.soleArgument?_eq_some hsole, hexecutor, hsubstitute, he⟩

end PromiseTry

def Callback.Inlined.segments (loop : Callback.Inlined) (iterable : Range) : List Segment :=
  [.string ("for (" ++ loop.declaring.keyword ++ " "), .reused loop.binding, .string " of ",
    .reused iterable, .string ") "] ++
  match loop.body with
  | .block r => [.reused r]
  | .expression r => [.string "\x7b ", .reused r, .string "; \x7d"]

theorem Callback.Inlined.edit_eq (loop : Callback.Inlined) (range iterable : Range) :
    loop.edit range iterable = laid range (loop.segments iterable) := by
  rw [Callback.Inlined.edit, Callback.Inlined.segments]
  cases loop.body with
  | block r =>
    simp only [replacing_eq_laid, string_laid, reuse_laid, List.nil_append, List.cons_append]
  | expression r =>
    simp only [replacing_eq_laid, string_laid, reuse_laid, List.nil_append, List.cons_append]

namespace Callback

/-- A callback that becomes a loop has a first parameter and a body, which the loop takes up. -/
theorem inline?_eq_some (h : inline? rules callback = some loop) :
    ∃ first extra body, parts? callback.bare = some ⟨first :: extra, body⟩ ∧
      first.isPlainPattern = true ∧ loop.binding = first.span ∧
      (loop.declaring = .scoped ∨ loop.declaring = .constant) ∧
      (loop.body = .block body.span ∨ loop.body = .expression body.span) := by
  obtain ⟨⟨params, body⟩, hparts, h⟩ := Option.bind_eq_some_iff.1 h
  simp only at h
  split at h
  next => cases h
  next first extra =>
    split at h
    next => cases h
    next hplain =>
      obtain ⟨loopBody, hbody, h⟩ := Option.bind_eq_some_iff.1 h
      cases h
      simp only [Bool.not_eq_true', Bool.not_eq_false, Bool.and_eq_true] at hplain
      refine ⟨first, extra, body, hparts, hplain.1, rfl, ?_, ?_⟩
      · simp only
        split
        · exact .inl rfl
        · exact .inr rfl
      · rw [loopBody?] at hbody
        split at hbody
        · split at hbody
          · cases hbody
          · exact .inl (Option.some.inj hbody).symm
        · split at hbody
          · exact .inr (Option.some.inj hbody).symm
          · cases hbody

end Callback

namespace ArrayFromForEach

theorem edit?_eq_some (h : edit? p n = some e) :
    ∃ span x receiver arguments given iterable callback loop, n = .mk .exprStmt span [x] ∧
      x.bare.methodCall? = some (receiver, "forEach", arguments) ∧ arguments.children = [callback] ∧
      receiver.bare.staticCall? "Array" "from" = some given ∧ given.children = [iterable] ∧
      Callback.inline? rules callback = some loop ∧
      e = laid (p.statementRange span) (loop.segments iterable.span) := by
  rw [edit?.eq_def] at h
  split at h
  next span x =>
    obtain ⟨⟨receiver, name, arguments⟩, hcall, h⟩ := Option.bind_eq_some_iff.1 h
    simp only at h
    split at h
    next => cases h
    next hname =>
      obtain ⟨given, hgiven, h⟩ := Option.bind_eq_some_iff.1 h
      obtain ⟨iterable, hiterable, h⟩ := Option.bind_eq_some_iff.1 h
      obtain ⟨callback, hcallback, h⟩ := Option.bind_eq_some_iff.1 h
      obtain ⟨loop, hloop, h⟩ := Option.bind_eq_some_iff.1 h
      split at h
      next => cases h
      next =>
        simp only [bne_iff_ne, Decidable.not_not] at hname
        subst hname
        rw [Callback.Inlined.edit_eq] at h
        exact ⟨span, x, receiver, arguments, given, iterable, callback, loop, rfl, hcall,
          Node.soleArgument?_eq_some hcallback, hgiven, Node.soleArgument?_eq_some hiterable, hloop,
          (Option.some.inj h).symm⟩
  next => cases h

end ArrayFromForEach

namespace DomForEach

theorem edit?_eq_some (h : edit? p n = some e) :
    ∃ span x receiver arguments callback loop, n = .mk .exprStmt span [x] ∧
      x.bare.methodCall? = some (receiver, "forEach", arguments) ∧ arguments.children = [callback] ∧
      Callback.inline? rules callback = some loop ∧
      e = laid (p.statementRange span) (loop.segments receiver.span) := by
  rw [edit?.eq_def] at h
  split at h
  next span x =>
    obtain ⟨⟨receiver, name, arguments⟩, hcall, h⟩ := Option.bind_eq_some_iff.1 h
    simp only at h
    split at h
    next => cases h
    next hname =>
      obtain ⟨callback, hcallback, h⟩ := Option.bind_eq_some_iff.1 h
      obtain ⟨loop, hloop, h⟩ := Option.bind_eq_some_iff.1 h
      split at h
      next => cases h
      next =>
        simp only [Bool.or_eq_true, bne_iff_ne, not_or, Decidable.not_not] at hname
        obtain ⟨rfl, _⟩ := hname
        rw [Callback.Inlined.edit_eq] at h
        exact ⟨span, x, receiver, arguments, callback, loop, rfl, hcall,
          Node.soleArgument?_eq_some hcallback, hloop, (Option.some.inj h).symm⟩
  next => cases h

end DomForEach

namespace IndexedFor

theorem index?_eq_some (h : index? n = some index) :
    ∃ ambient span span' span'' cs value, n = .mk (.varDecl .scoped ambient) span
      [.mk .declarator span' [.mk (.binding index) span'' cs, value]] := by
  rw [index?.eq_def] at h
  split at h
  next =>
    split at h
    next =>
      cases h
      exact ⟨_, _, _, _, _, _, rfl⟩
    next => cases h
  next => cases h

theorem array?_eq_some (h : array? index test = some array) :
    ∃ span left right object, test.bare = .mk (.binary "<") span [left, right] ∧
      right.bare.member? = some (object, "length") ∧ object.bare.name? = some array := by
  rw [array?.eq_def] at h
  split at h
  next span left right hbare =>
    obtain ⟨⟨object, name⟩, hmember, h⟩ := Option.bind_eq_some_iff.1 h
    simp only [Bool.and_eq_true, decide_eq_true_eq] at h
    split at h
    next hname => exact ⟨span, left, right, object, hbare, hname.2 ▸ hmember, h⟩
    next => cases h
  next => cases h

theorem element?_eq_some (h : element? array index n = some (declaring, pattern)) :
    ∃ ambient span span' value,
      n = .mk (.varDecl declaring ambient) span [.mk .declarator span' [pattern, value]] ∧
      declaring ≠ .disposable ∧ pattern.isPlainPattern = true := by
  rw [element?.eq_def] at h
  split at h
  next =>
    simp only [Bool.and_eq_true, bne_iff_ne] at h
    split at h
    next hkept =>
      cases h
      exact ⟨_, _, _, _, rfl, hkept.1.1.1, hkept.1.1.2⟩
    next => cases h
  next => cases h

theorem edit?_eq_some (h : edit? p n = some e) :
    ∃ span first test step body decl rest index array declaring pattern,
      n = .mk .for span [first, test, step, .mk .block body (decl :: rest)] ∧
      index? first = some index ∧ array? index test = some array ∧
      element? array index decl = some (declaring, pattern) ∧
      e = laid span [.string ("for (" ++ declaring.keyword ++ " "), .reused pattern.span,
        .string (" of " ++ array ++ ") \x7b"),
          .reused ⟨(p.statementRange decl.span).stop, body.stop⟩] := by
  rw [edit?.eq_def] at h
  split at h
  next span first test step body decl rest =>
    obtain ⟨index, hindex, h⟩ := Option.bind_eq_some_iff.1 h
    obtain ⟨array, harray, h⟩ := Option.bind_eq_some_iff.1 h
    split at h
    next => cases h
    next =>
      obtain ⟨⟨declaring, pattern⟩, helement, h⟩ := Option.bind_eq_some_iff.1 h
      simp only at h
      split at h
      next => cases h
      next =>
        simp only [replacing_eq_laid, string_laid, reuse_laid, List.nil_append,
          List.cons_append] at h
        exact ⟨span, first, test, step, body, decl, rest, index, array, declaring, pattern,
          rfl, hindex, harray, helement, (Option.some.inj h).symm⟩
  next => cases h

end IndexedFor

namespace StringConcat

def holeSegments (holes : List (Range × List Char)) : List Segment :=
  holes.flatMap fun (hole, text) =>
    [.string "$\x7b", .reused hole, .fresh (Text.ofChars ('\x7d' :: text))]

theorem holes_laid (range : Range) (segments : List Segment) (hs : List (Range × List Char)) :
    holes (laid range segments) hs = laid range (segments ++ holeSegments hs) := by
  induction hs generalizing segments with
  | nil => rw [holes, holeSegments, List.flatMap_nil, List.append_nil]
  | cons h hs ih =>
    rw [holes, string_laid, reuse_laid, text_laid, ih, holeSegments, holeSegments,
      List.flatMap_cons]
    simp only [List.append_assoc, List.cons_append, List.nil_append]

def templateSegments (t : Template) : List Segment :=
  .fresh (Text.ofChars ('\x60' :: t.quasis.headD [])) ::
    (holeSegments (t.holes.zip (t.quasis.drop 1)) ++ [.string "\x60"])

theorem templateEdit_eq (range : Range) (t : Template) :
    templateEdit range t = laid range (templateSegments t) := by
  simp only [templateEdit, templateSegments, replacing_eq_laid, text_laid, holes_laid, string_laid,
    List.nil_append, List.cons_append]

theorem edit?_eq_some (h : edit? p span a b = some e) :
    ∃ t, Concatenation.flatten p.text a b = .ok t ∧ Slot.startsSafely p.text e = true ∧
      e = laid span (templateSegments t) := by
  rw [edit?] at h
  split at h
  next t ht =>
    rw [templateEdit_eq] at h
    obtain ⟨hsafe, rfl⟩ := Slot.fit_laid h
    exact ⟨t, ht, hsafe, rfl⟩
  next => cases h

theorem triedAll_eq (p : Program) (ns : List Node) :
    triedAll p ns = ns.flatMap (tried p false) := by
  induction ns with
  | nil => rw [triedAll, List.flatMap_nil]
  | cons n ns ih => rw [triedAll, ih, List.flatMap_cons]

/-- Templates are tried for nodes of the tree, in their order. -/
theorem tried_sublist (p : Program) (inChain : Bool) (n : Node) :
    (tried p inChain n).Sublist n.subtrees := by
  induction n using Node.induct generalizing inChain with
  | mk k span cs ih =>
    have hsubtrees : (Node.mk k span cs).subtrees = .mk k span cs :: cs.flatMap Node.subtrees := by
      rw [Node.subtrees, Node.walk, if_pos rfl, Node.walkAll_eq]
      rfl
    rw [hsubtrees, tried.eq_def]
    split
    next e =>
      cases e
      simp only [List.flatMap_cons, List.flatMap_nil, List.append_nil]
      exact (ih _ List.mem_cons_self inChain).cons _
    next a b e =>
      cases e
      have hparts (c : Bool) :
          (tried p c a ++ tried p c b).Sublist ([a, b].flatMap Node.subtrees) := by
        simp only [List.flatMap_cons, List.flatMap_nil, List.append_nil]
        exact (ih a List.mem_cons_self c).append (ih b (by simp) c)
      split
      next =>
        split
        next => exact (hparts true).cons _
        next => exact (hparts _).cons_cons _
      next => exact (hparts false).cons _
    next e =>
      cases e
      rw [triedAll_eq]
      exact List.Sublist.cons _ (.flatMap_right cs fun c hc => ih c hc false)

theorem edits_sublist (p : Program) : (edits p).Sublist (p.tree.subtrees.filterMap (sum? p)) :=
  (tried_sublist p false p.tree).filterMap _

theorem sum?_eq_some (h : sum? p n = some e) :
    ∃ span a b, n = .mk (.binary "+") span [a, b] ∧ edit? p span a b = some e := by
  rw [sum?.eq_def] at h
  split at h
  next => exact ⟨_, _, _, rfl, h⟩
  next => cases h

end StringConcat

namespace VarToConst

open Findings Scope

def keyword? (text : Text) : Node → Option Nat
  | .mk (.varDecl .hoisted false) span _ =>
    if (text.drop span.start).take 3 = Text.ofString "var" then some span.start else none
  | _ => none

def starts (f : Findings) : List Nat := f.edits.map (·.range.start) ++ f.sites.map Site.start

theorem edit?_eq_some {f : Findings} (h : f.edit? site = some e) :
    ∃ declaring : Declaring, (declaring = .scoped ∨ declaring = .constant) ∧
      e = laid ⟨site.start, site.start + 3⟩ [.string declaring.keyword] := by
  rw [Findings.edit?] at h
  split at h
  next => cases h
  next =>
    simp only [replacing_eq_laid, string_laid, List.nil_append] at h
    cases h
    exact ⟨_, ite_eq_or_eq _ _ _, rfl⟩

theorem starts_append (f g : Findings) : (starts (f ++ g)).Perm (starts f ++ starts g) := by
  change List.Perm ((f.edits ++ g.edits).map _ ++ (f.sites ++ g.sites).map _) _
  rw [List.map_append, List.map_append, starts, starts]
  simp only [List.append_assoc]
  refine List.Perm.append_left _ ?_
  rw [← List.append_assoc, ← List.append_assoc]
  exact List.Perm.append_right _ List.perm_append_comm

theorem starts_close (ps : List String) (f : Findings) :
    (starts (close ps f)).Sublist (starts f) := by
  change ((f.edits ++ f.sites.filterMap _).map _ ++ [].map _).Sublist _
  rw [List.map_append, List.map_nil, List.append_nil, starts]
  refine List.Sublist.append_left ?_ _
  generalize hg : Findings.edit? _ = g
  have hstart (site : Site) (e : Edit) (h : g site = some e) : e.range.start = site.start := by
    rw [← hg] at h
    obtain ⟨_, _, rfl⟩ := edit?_eq_some h
    rfl
  clear hg
  induction f.sites with
  | nil => exact .slnil
  | cons site sites ih =>
    rw [List.filterMap_cons]
    split
    next => exact ih.cons _
    next e he =>
      rw [List.map_cons, List.map_cons, hstart site e he]
      exact ih.cons_cons _

theorem starts_gather (text : Text) (visits : List Visit) :
    (starts (gather text visits)).Perm (visits.flatMap fun v => starts (v.find text)) := by
  induction visits with
  | nil => exact .refl _
  | cons v visits ih =>
    rw [gather, List.flatMap_cons]
    exact (starts_append _ _).trans (ih.append_left _)

theorem starts_own (text : Text) (caught : List String) (place : Place) (n : Node) :
    starts (own text caught place n) = (keyword? text n).toList := by
  rw [own.eq_def]
  split
  next span ds =>
    rw [declaration, keyword?]
    by_cases h : (text.drop span.start).take 3 = Text.ofString "var"
    · rw [if_neg (by simp [h]), if_pos h]
      rfl
    · rw [if_pos (by simp [h]), if_neg h]
      rfl
  next hvar =>
    rw [keyword?.eq_def]
    split
    next => exact absurd rfl (hvar _ _)
    next => rfl

theorem starts_parts (hs : ofNode? n = none) (text : Text) (caught : List String) (place : Place) :
    (starts (find text caught place n)).Perm
      ((keyword? text n).toList ++ starts (gather text (visits caught n))) := by
  rw [← starts_own text caught place]
  rcases find_parts hs text caught place with hfind | hfind
  · rw [hfind]
    exact starts_append _ _
  · rw [hfind]
    exact (starts_append _ _).trans List.perm_append_comm

theorem subperm_flatMap {xs : List α} {f g : α → List β} (h : ∀ x ∈ xs, (f x).Subperm (g x)) :
    (xs.flatMap f).Subperm (xs.flatMap g) := by
  induction xs with
  | nil => exact .refl _
  | cons x xs ih =>
    rw [List.flatMap_cons, List.flatMap_cons]
    exact (h x List.mem_cons_self).append (ih fun y hy => h y (List.mem_cons_of_mem x hy))

/-- Every declaration is found at most once. -/
theorem starts_find (text : Text) (caught : List String) (place : Place) (n : Node) :
    (starts (find text caught place n)).Subperm (n.subtrees.filterMap (keyword? text)) := by
  induction n using Node.induct generalizing caught place with
  | mk k span cs ih =>
    have hparts : (starts (gather text (visits caught (.mk k span cs)))).Subperm
        ((cs.flatMap Node.subtrees).filterMap (keyword? text)) := by
      have hnodes : ((visits caught (.mk k span cs)).flatMap fun v => starts (v.find text)).Subperm
          (((visits caught (.mk k span cs)).map Visit.node).flatMap
            fun c => c.subtrees.filterMap (keyword? text)) := by
        rw [List.flatMap_map]
        exact subperm_flatMap fun v hv => ih _ (mem_children_of_mem_visits hv) _ _
      rw [List.filterMap_flatMap]
      exact (starts_gather _ _).subperm.trans
        (hnodes.trans ((map_node_visits_sublist caught _).flatMap _).subperm)
    rw [Node.subtrees, Node.walk, if_pos rfl, Node.walkAll_eq]
    cases hs : ofNode? (.mk k span cs) with
    | some s =>
      rw [find_realm hs]
      refine (starts_close _ _).subperm.trans (hparts.trans ?_)
      exact ((List.Sublist.refl _).cons _).filterMap _ |>.subperm
    | none =>
      refine (starts_parts hs text caught place).subperm.trans ?_
      refine ((List.subperm_append_left _).2 hparts).trans ?_
      rw [List.filterMap_cons]
      cases keyword? text (.mk k span cs) with
      | none => exact .refl _
      | some start => exact .refl _

theorem edit_eq_laid (h : e ∈ edits p) :
    ∃ start declaring, (declaring = .scoped ∨ declaring = .constant) ∧
      e = laid ⟨start, start + 3⟩ [.string (Declaring.keyword declaring)] := by
  obtain ⟨s, _, ⟨caught, params, site, _, he⟩, _⟩ := exists_scope_of_program h
  obtain ⟨declaring, hdeclaring, rfl⟩ := edit?_eq_some he
  exact ⟨site.start, declaring, hdeclaring, rfl⟩

theorem starts_edits (p : Program) :
    ((edits p).map (·.range.start)).Subperm (p.tree.subtrees.filterMap (keyword? p.text)) := by
  have hclose := starts_close [] (find p.text [] .ordinary p.tree)
  rw [starts] at hclose
  exact (List.sublist_append_left _ _).subperm.trans
    (hclose.subperm.trans (starts_find p.text [] .ordinary p.tree))

end VarToConst

end Uplift
