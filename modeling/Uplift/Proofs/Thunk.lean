import Uplift.Proofs.Frame
import Uplift.Proofs.Laminar

namespace Uplift

set_option autoImplicit true

open Edit

namespace Node

def isBraced (n : Node) : Bool := n.kind = .object || n.kind = .objectPattern

/-- An object literal or an object pattern starts where the node starts. -/
def BraceLed (n : Node) : Prop := ∃ m ∈ n.subtrees, m.isBraced = true ∧ m.span.start = n.span.start

end Node

/--
A program whose text has a brace at the start of an expression just if an object literal or pattern
starts there: it is the expression itself, or starts the expression that its first part is.
-/
structure Program.Braced (p : Program) : Prop where
  opened : ∀ n ∈ p.tree.subtrees, n.isBraced = true → p.text[n.span.start]? = some 123
  led : ∀ n ∈ p.tree.subtrees, n.isExpression = true → p.text[n.span.start]? = some 123 →
      n.isBraced = true ∨
    ∃ c ∈ n.parts, (c.isExpression = true ∨ c.isBraced = true) ∧ c.span.start = n.span.start
  given : ∀ n ∈ p.tree.subtrees, n.kind = .arguments → ∀ c ∈ n.children, c.isExpression = true ∨
      c.kind = .spread

instance (p : Program) : Decidable p.Braced :=
  decidable_of_iff
    ((∀ n ∈ p.tree.subtrees, n.isBraced = true → p.text[n.span.start]? = some 123) ∧
      (∀ n ∈ p.tree.subtrees, n.isExpression = true → p.text[n.span.start]? = some 123 →
        n.isBraced = true ∨
        ∃ c ∈ n.parts, (c.isExpression = true ∨ c.isBraced = true) ∧ c.span.start = n.span.start) ∧
      ∀ n ∈ p.tree.subtrees, n.kind = .arguments → ∀ c ∈ n.children, c.isExpression = true ∨
        c.kind = .spread)
    ⟨fun ⟨ho, hl, hg⟩ => ⟨ho, hl, hg⟩, fun ⟨ho, hl, hg⟩ => ⟨ho, hl, hg⟩⟩

namespace Program.Braced

variable {p : Program} (hb : p.Braced)

include hb

/--
Inside a tree whose root need not be an expression, since the first part of a node can be deep below
it.
-/
theorem braceLed_of_mem (hn : n ∈ p.tree.subtrees) (hm : m ∈ n.subtrees)
    (hexpr : m.isExpression = true) (hbyte : p.text[m.span.start]? = some 123) : m.BraceLed := by
  induction n using Node.induct generalizing m with
  | mk k span cs ih =>
    have hbelow {x : Node} (hx : x ∈ (Node.mk k span cs).descendants)
        (hexpr : x.isExpression = true)
        (hbyte : p.text[x.span.start]? = some 123) : x.BraceLed := by
      obtain ⟨c, hc, hx⟩ := List.mem_flatMap.1 hx
      exact ih c hc (Program.mem_of_child hn hc) hx hexpr hbyte
    rw [Node.subtrees_eq, List.mem_cons] at hm
    rcases hm with rfl | hm
    · rcases hb.led _ hn hexpr hbyte with hself | ⟨c, hc, hkind, hstart⟩
      · exact ⟨_, Node.mem_walk_self _ _, hself, rfl⟩
      · have hdesc := Node.mem_descendants_of_mem_parts hc
        have hsub : c ∈ (Node.mk k span cs).subtrees := by
          rw [Node.subtrees_eq]
          exact List.mem_cons_of_mem _ hdesc
        rcases hkind with hexpr | hself
        · obtain ⟨x, hx, hbraced, hxstart⟩ := hbelow hdesc hexpr (hstart ▸ hbyte)
          exact ⟨x, Node.mem_subtrees_trans hsub hx, hbraced, hxstart.trans hstart⟩
        · exact ⟨c, hsub, hself, hstart⟩
    · exact hbelow hm hexpr hbyte

theorem byte_iff_braceLed (hn : n ∈ p.tree.subtrees) (hexpr : n.isExpression = true) :
    p.text[n.span.start]? = some 123 ↔ n.BraceLed := by
  constructor
  · exact hb.braceLed_of_mem hn (Node.mem_walk_self _ _) hexpr
  · rintro ⟨m, hm, hbraced, hstart⟩
    rw [← hstart]
    exact hb.opened m (Node.mem_subtrees_trans hn hm) hbraced

theorem byte_ne_of_new (hp : p.WellFormed) (hn : n ∈ p.tree.subtrees) (hk : n.kind = .new) :
    p.text[n.span.start]? ≠ some 123 := by
  obtain ⟨k, span, cs⟩ := n
  cases hk
  intro hbyte
  rcases hb.led _ hn rfl hbyte with hself | ⟨c, hc, _, hstart⟩
  · cases hself
  · have hlt := hp.headed _ hn (List.cons_ne_nil _ _) c hc
    exact absurd hstart.symm (Nat.ne_of_lt hlt)

end Program.Braced

theorem Document.flatMap_rendered_laid (d : Document) (edits : List Edit) (range : Range)
    {segs : List Segment} (h : ∀ r, .reused r ∈ segs → r.isEmpty = false) :
    (laid range segs).segments.flatMap (d.rendered edits) = segs.flatMap (d.rendered edits) := by
  induction segs with
  | nil => rfl
  | cons s segs ih =>
    have hrest := ih fun r hr => h r (List.mem_cons_of_mem s hr)
    cases hs : s.isEmpty with
    | true =>
      have hnone : d.rendered edits s = [] := by
        cases s with
        | fresh t => exact List.isEmpty_iff.1 hs
        | reused r => exact absurd hs (ne_true_of_eq_false (h r List.mem_cons_self))
      rw [laid_cons_of_isEmpty hs, hrest, List.flatMap_cons, hnone, List.nil_append]
    | false => rw [segments_laid_cons hs, List.flatMap_cons, List.flatMap_cons, hrest]

namespace PromiseTry

open Document

def Substitute.thunk? : Substitute → Option Node
  | thunk a => some a
  | callee _ => none

/-- The expression that a promise is resolved with, if its executor does nothing else. -/
def resolved? : Node → Option Node
  | .mk .new _ [_, _, arguments] => do
    let executor ← executor? (← arguments.soleArgument?)
    let names ← executor.params.mapM Node.plainName?
    let substitute ← substitute? (← names.head?) executor.expression
    substitute.thunk?
  | _ => none

theorem soleArgument?_of_thunk (h : substitute? resolve body = some (.thunk a)) :
    ∃ span callee types arguments, body.bare = .mk .call span [callee, types, arguments] ∧
      arguments.soleArgument? = some a := by
  rw [substitute?.eq_def] at h
  split at h
  next span callee types arguments hbare =>
    obtain ⟨argument, hsole, h⟩ := Option.bind_eq_some_iff.1 h
    obtain ⟨name, _, h⟩ := Option.bind_eq_some_iff.1 h
    split at h
    next => cases h
    next =>
      split at h
      next =>
        cases h
        exact ⟨span, callee, types, arguments, hbare, hsole⟩
      next =>
        split at h
        next => cases h
        next => cases h
  next => cases h

theorem Substitute.thunk?_eq_some (h : thunk? s = some a) : s = .thunk a := by
  cases s with
  | thunk b => exact congrArg _ (Option.some.inj h)
  | callee f => cases h

theorem exists_resolved (h : edit? awaited n = some e) :
    ∃ span callee types arguments argument executor resolve s,
      n = .mk .new span [callee, types, arguments] ∧
      arguments.isAbsent = false ∧ arguments.soleArgument? = some argument ∧
      executor? argument = some executor ∧
      substitute? resolve executor.expression = some s ∧ resolved? n = s.thunk? ∧
      e = laid n.span ([.string "Promise.try("] ++ handedSegments s ++ [.string ")"]) := by
  obtain ⟨span, callee, types, arguments, argument, executor, names, resolve, s, rfl, _, hgiven,
    hsole, hexecutor, hnames, hresolve, hs, he⟩ := edit?_eq_laid h
  refine ⟨span, callee, types, arguments, argument, executor, resolve, s, rfl, hgiven, hsole,
    hexecutor, hs, ?_, he⟩
  simp only [resolved?, hsole, hexecutor, hnames, hresolve, hs, Option.bind_eq_bind,
    Option.bind_some]

theorem laid_of_resolved (h : edit? awaited n = some e) (ha : resolved? n = some a) :
    e = laid n.span ([.string "Promise.try("] ++ handedSegments (.thunk a) ++ [.string ")"]) := by
  obtain ⟨_, _, _, _, _, _, _, s, _, _, _, _, _, hresolved, he⟩ := exists_resolved h
  rw [hresolved] at ha
  rw [he, Substitute.thunk?_eq_some ha]

variable {p : Program} {d : Document} {e : Edit} {a : Node}

section Thunk

variable (hp : p.WellFormed) (hb : p.Braced)

include hp hb

theorem has_of_thunk (hbody : p.Has body) (h : substitute? resolve body = some (.thunk a)) :
    p.Has a ∧ a.isExpression = true := by
  obtain ⟨span, callee, types, arguments, hbare, hsole⟩ := soleArgument?_of_thunk h
  have hcall := (Program.holds_bare hp hbody).1.mem
  rw [hbare] at hcall
  have hgiven : a ∈ arguments.children := Node.soleArgument?_eq_some hsole ▸ List.mem_cons_self
  obtain ⟨_, _, hhas, _⟩ := Program.has_call hp hcall (.inl rfl)
  refine ⟨hhas a hgiven, ?_⟩
  have hshape := hp.shaped _ hcall
  simp only [Node.isShaped, Bool.and_eq_true, decide_eq_true_eq] at hshape
  have hmem : arguments ∈ p.tree.subtrees := Program.mem_of_child hcall (by simp [Node.children])
  rcases hb.given arguments hmem hshape.2 a hgiven with hexpr | hspread
  · exact hexpr
  · exact absurd hspread (Node.kind_ne_spread_of_soleArgument? hsole)

theorem has_of_resolved (hn : n ∈ p.tree.subtrees) (h : edit? awaited n = some e)
    (ha : resolved? n = some a) : p.Has a ∧ a.isExpression = true := by
  obtain ⟨span, callee, types, arguments, argument, executor, resolve, s, rfl, hgiven, hsole,
    hexecutor, hs, hresolved, _⟩ := exists_resolved h
  obtain ⟨_, _, hhas, _⟩ := Program.has_call hp hn (.inr ⟨rfl, hgiven⟩)
  have hargument := hhas argument (Node.soleArgument?_eq_some hsole ▸ List.mem_cons_self)
  obtain ⟨hbody, _⟩ := holds_executor hp hargument hexecutor (isAbsent_of_substitute hs)
  rw [hresolved] at ha
  rw [Substitute.thunk?_eq_some ha] at hs
  exact has_of_thunk hp hb hbody hs

omit hb in
theorem proper_of_wellFormed : ∀ f ∈ edits p, f.Proper :=
  (Pass.collects .promiseConstructorToTry hp).laminar.proper

theorem head?_rendition (he : e ∈ edits p) :
    (d.rendition (edits p) e).head? = some 80 ∧ p.text[e.range.start]? ≠ some 123 := by
  obtain ⟨n, hn, hedit⟩ := List.mem_filterMap.1 he
  obtain ⟨_, _, _, _, _, _, _, s, hnew, _, _, _, _, _, hlaid⟩ := exists_resolved hedit
  constructor
  · rw [rendition_eq (proper_of_wellFormed hp) he, hlaid]
    rfl
  · rw [hlaid]
    exact hb.byte_ne_of_new hp hn (hnew ▸ rfl)

/-- What is written for a reused expression starts with a brace just if the expression does. -/
theorem head?_rendered_iff (hd : d.text = p.text) (ha : p.Has a) :
    (d.rendered (edits p) (.reused a.span)).head? = some 123 ↔
    p.text[a.span.start]? = some 123 := by
  have hlt := Node.start_lt_stop_of_isSolid ha.solid
  have hlength : a.span.start < d.text.length :=
    hd ▸ Nat.lt_of_lt_of_le hlt (hp.stop_le ha.mem ha.solid)
  rw [rendered, ← hd]
  cases htaken : taken (edits p) false a.span with
  | nil =>
    rw [replacements, List.map_nil, head?_spliced hlt hlength]
    intro x hx
    cases hx
  | cons f fs =>
    have hf : f ∈ taken (edits p) false a.span := htaken ▸ List.mem_cons_self
    have hmem : f ∈ edits p := (sorted_perm _).mem_iff.1 ((taken_sublist _ _ _).subset hf)
    obtain ⟨hwithin, _⟩ :=
      Rendering.within_of_mem_picked (proper_sorted (proper_of_wellFormed hp)) hf
    rw [replacements, List.map_cons]
    rcases Nat.eq_or_lt_of_le (Range.within_iff.1 hwithin).1 with heq | hlater
    · obtain ⟨hhead, hbyte⟩ := @head?_rendition p d f hp hb hmem
      rw [← heq, ← hd] at hbyte
      have hempty : Range.cut ⟨a.span.start, f.range.start⟩ d.text = [] :=
        Range.cut_of_isEmpty _ (decide_eq_true (Nat.le_of_eq heq.symm))
      rw [spliced, hempty, List.nil_append, List.head?_append, hhead, Option.some_or]
      exact iff_of_false (by decide) hbyte
    · rw [head?_spliced hlt hlength]
      intro x hx
      cases hx
      exact hlater

end Thunk

def thunkBody (d : Document) (edits : List Edit) (a : Node) : Text :=
  if a.kind = .object then Text.ofString "(" ++ d.rendered edits (.reused a.span) ++
    Text.ofString ")"
  else d.rendered edits (.reused a.span)

theorem rendition_eq_thunk (hp : p.WellFormed) (he : e ∈ edits p) (ha : p.Has a)
    (hlaid : e =
      laid span ([.string "Promise.try("] ++ handedSegments (.thunk a) ++ [.string ")"])) :
    d.rendition (edits p) e = Text.ofString "Promise.try(() => " ++ thunkBody d (edits p) a ++
      Text.ofString ")" := by
  have hsolid : a.span.isEmpty = false :=
    decide_eq_false (Nat.not_le_of_lt (Node.start_lt_stop_of_isSolid ha.solid))
  rw [rendition_eq (proper_of_wellFormed hp) he, hlaid, flatMap_rendered_laid, handedSegments,
    thunkBody]
  · split
    next =>
      simp only [List.cons_append, List.nil_append, List.flatMap_cons, List.flatMap_nil,
        List.append_assoc]
      rfl
    next =>
      simp only [List.cons_append, List.nil_append, List.flatMap_cons, List.flatMap_nil,
        List.append_assoc]
      rfl
  · intro r hr
    have hmem := List.mem_filterMap.2 ⟨_, hr, (rfl : Segment.reused? (.reused r) = some r)⟩
    rw [List.filterMap_append, List.filterMap_append, reused_handed] at hmem
    rw [List.mem_singleton.1 hmem]
    exact hsolid

/--
A promise that is resolved with an expression becomes a call with a function whose body is that
expression, in parentheses just if it is an object literal. The body starts with a brace, as a block
does, just if the expression is led by an object literal or pattern and is no object literal itself.
-/
theorem thunkBody_opens_iff (hd : d.text = p.text) (he : e ∈ edits p) :
    (e ∈ d.outermost (edits p) → d.rendition (edits p) e <:+: (d.apply (edits p)).1.text) ∧
    ∃ n ∈ p.tree.subtrees, edit? (p.tree.subtrees.filterMap awaited?) n = some e ∧
    ∀ a ∈ resolved? n,
      e = laid n.span (if a.kind = .object
        then [.string "Promise.try(", .string "() => (", .reused a.span, .string ")", .string ")"]
        else [.string "Promise.try(", .string "() => ", .reused a.span, .string ")"]) ∧
      (p.WellFormed → p.Braced →
        d.rendition (edits p) e = Text.ofString "Promise.try(() => " ++ thunkBody d (edits p) a ++
          Text.ofString ")" ∧
        (p.text[a.span.start]? = some 123 ↔ a.BraceLed) ∧
        ((thunkBody d (edits p) a).head? = some 123 ↔ a.kind ≠ .object ∧ a.BraceLed)) := by
  constructor
  · intro hout
    rw [text_apply_eq_spliced]
    exact infix_spliced (List.mem_map.2 ⟨e, hout, rfl⟩)
  obtain ⟨n, hn, hedit⟩ := List.mem_filterMap.1 he
  refine ⟨n, hn, hedit, ?_⟩
  intro a ha
  have hlaid := laid_of_resolved hedit ha
  constructor
  · rw [hlaid, handedSegments]
    split
    · rfl
    · rfl
  · intro hp hb
    obtain ⟨hhas, hexpr⟩ := has_of_resolved hp hb hn hedit ha
    have hbyte := hb.byte_iff_braceLed hhas.mem hexpr
    refine ⟨rendition_eq_thunk hp he hhas hlaid, hbyte, ?_⟩
    rw [thunkBody]
    split
    next hobject =>
      have hparen (t : Text) : (Text.ofString "(" ++ t ++ Text.ofString ")").head? = some 40 := rfl
      rw [hparen]
      exact iff_of_false (by decide) fun h => h.1 hobject
    next hother => rw [head?_rendered_iff hp hb hd hhas, hbyte, and_iff_right hother]

theorem thunkBody_opens_iff_sum :
    ∃ p ∈
      (Program.parse .tsx
        (Text.ofString "p = new Promise(r => r(\x7b a: 1 \x7d.a + b));\n")).toOption,
      p.WellFormed ∧ p.Braced ∧ ∃ e ∈ edits p, ∃ n ∈ p.tree.subtrees, ∃ a ∈ resolved? n,
        a.kind = .binary "+" ∧
        a.BraceLed ∧ (thunkBody (ofText p.text) (edits p) a).head? = some 123 := by
  have hparse :
      ∃ p ∈
        (Program.parse .tsx
          (Text.ofString "p = new Promise(r => r(\x7b a: 1 \x7d.a + b));\n")).toOption,
      p.WellFormed ∧ p.Braced ∧ (edits p).length = 1 ∧ ∀ n ∈ p.tree.subtrees,
        (edit? (p.tree.subtrees.filterMap awaited?) n).isSome = true →
          ∃ a ∈ resolved? n, a.kind = .binary "+" ∧ p.text[a.span.start]? = some 123 := by
    decide +kernel
  obtain ⟨p, hparse, hp, hb, hone, hsum⟩ := hparse
  obtain ⟨e, he⟩ := List.exists_mem_of_length_pos (hone ▸ Nat.one_pos)
  obtain ⟨_, n, hn, hedit, hbody⟩ := thunkBody_opens_iff (d := ofText p.text) rfl he
  obtain ⟨a, ha, hkind, hbyte⟩ := hsum n hn (hedit ▸ rfl)
  obtain ⟨_, hled, hopens⟩ := (hbody a ha).2 hp hb
  have hled := hled.1 hbyte
  refine ⟨p, hparse, hp, hb, e, he, n, hn, a, ha, hkind, hled, hopens.2 ⟨?_, hled⟩⟩
  rw [hkind]
  exact Kind.noConfusion

/-- A member of an object literal becomes a block, and the text is no program any more. -/
theorem thunk_reads_as_block :
    ∃ p ∈
      (Program.parse .tsx (Text.ofString "p = new Promise(r => r(\x7b a: 1 \x7d.a));\n")).toOption,
      ((ofText p.text).apply (edits p)).1.text =
        Text.ofString "p = Promise.try(() => \x7b a: 1 \x7d.a);\n" ∧
      (Program.parse .tsx ((ofText p.text).apply (edits p)).1.text).toOption.isNone = true := by
  decide +kernel

end PromiseTry

end Uplift
