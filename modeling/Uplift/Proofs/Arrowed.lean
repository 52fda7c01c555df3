import Uplift.Proofs.Laminar
import Uplift.Proofs.Owner
import Uplift.Proofs.Transform

namespace Uplift.FunctionToArrow

set_option autoImplicit true

open Slot

def starts (p : Program) : List Nat := p.tree.subtrees.filterMap constructed?

/-- Whether a function could be an arrow function, whatever stands before it. -/
def isConvertible (constructed : List Nat) : Node → Bool
  | .mk .functionExpr span [name, f] =>
    match f with
    | .mk (.function _ false) _ [_, ps, generics, _, body] =>
      let names := ps.children.flatMap fun q => (q.child 1).bound
      !(!name.isAbsent || !generics.isAbsent || body.isAbsent || constructed.contains span.start
          || names.contains "this" || repeats names || f.capture?.isSome)
    | _ => false
  | _ => false

def converts (p : Program) (n : Node) : Bool := (edit? p (starts p) n).isSome

/--
Whether a function stays only because a bracket in its place would go on with what stands before it.
-/
def isHeld (p : Program) (n : Node) : Bool :=
  isConvertible (starts p) n && continuesPrevious p.text n.span.start

theorem edits_eq (p : Program) : edits p = p.tree.subtrees.filterMap (edit? p (starts p)) := rfl

theorem continuesPrevious_of_fits (h : arrowFitsAfter t start = true) :
    continuesPrevious t start = false := by
  rw [arrowFitsAfter] at h
  rw [continuesPrevious, Neighbour.endsOperand]
  cases htoken : (Neighbour.before t start).1 with
  | boundary =>
    rw [htoken] at h
    cases h
  | word w =>
    simp only [htoken, Neighbour.isWordIn, Neighbour.isPunctIn, Bool.or_false, List.any_cons,
      List.any_nil, Bool.or_eq_true, beq_iff_eq, Bool.false_eq_true, if_false] at h
    rcases h with rfl | rfl
    · decide
    · decide
  | punct w =>
    have hw : ∃ s ∈ "\x7b" :: (openers ++ assignmentOperators), w = Text.ofString s := by
      simp only [htoken, Neighbour.isWordIn, Neighbour.isPunctIn, Bool.false_or] at h
      split at h
      next hbrace =>
        obtain ⟨s, hs, hw⟩ := List.any_eq_true.1 hbrace
        rw [List.mem_singleton.1 hs, beq_iff_eq] at hw
        exact ⟨_, List.mem_cons_self, hw.symm⟩
      next =>
        rw [Bool.or_eq_true, List.any_eq_true, List.any_eq_true] at h
        rcases h with ⟨s, hs, hw⟩ | ⟨s, hs, hw⟩
        · exact ⟨s, List.mem_cons_of_mem _ (List.mem_append_left _ hs), (beq_iff_eq.1 hw).symm⟩
        · exact ⟨s, List.mem_cons_of_mem _ (List.mem_append_right _ hs), (beq_iff_eq.1 hw).symm⟩
    have hall : ∀ s ∈ "\x7b" :: (openers ++ assignmentOperators),
        (Neighbour.operandClosers.contains (Text.ofString s) ||
          (Neighbour.punct (Text.ofString s)).isPunctIn ["\x7d"]) = false := by
      decide
    obtain ⟨s, hs, rfl⟩ := hw
    exact hall s hs

theorem startsSafely_arrow (t : Text) (span : Range) (async : Bool) (segs : List Segment) :
    startsSafely t (Edit.laid span (Edit.wrapped (needsParens t span .arrow)
      (.string (if async then "async (" else "(") :: segs))) = !continuesPrevious t span.start := by
  cases hwrap : needsParens t span .arrow with
  | true => rfl
  | false =>
    cases async with
    | false => rfl
    | true =>
      have hfits : arrowFitsAfter t span.start = true := by
        rw [needsParens, Bool.not_eq_false', Bool.and_eq_true] at hwrap
        exact hwrap.1
      rw [continuesPrevious_of_fits hfits]
      rfl

theorem isSome_bare? (p : Program) (constructed : List Nat) (n : Node) :
    (bare? p constructed n).isSome = isConvertible constructed n := by
  rw [bare?.eq_def]
  split
  next span name f =>
    split
    next async s ds ps generics result body =>
      simp only [isConvertible]
      split
      next hstays =>
        rw [hstays]
        rfl
      next hstays =>
        rw [Bool.not_eq_true] at hstays
        rw [hstays]
        rfl
    next hother =>
      rw [isConvertible]
      · rfl
      · exact hother
  next hother =>
    rw [isConvertible.eq_def]
    split
    next => exact absurd rfl (hother _ _ _)
    next => rfl

theorem isSome_edit? (p : Program) (constructed : List Nat) (n : Node) :
    (edit? p constructed n).isSome =
      (isConvertible constructed n && !continuesPrevious p.text n.span.start) := by
  rw [← isSome_bare? p, edit?]
  cases hbare : bare? p constructed n with
  | none => rfl
  | some e =>
    obtain ⟨span, _, async, _, _, _, _, _, _, rfl, _, rfl⟩ := bare?_eq_some hbare
    rw [Option.bind_some, fit, safely, placed_laid, Option.any_some, startsSafely_arrow, Node.span]
    cases continuesPrevious p.text span.start with
    | true => rfl
    | false => rfl

theorem converts_eq (p : Program) (n : Node) :
    converts p n = (isConvertible (starts p) n && !continuesPrevious p.text n.span.start) :=
  isSome_edit? p (starts p) n

theorem isConvertible_mk_iff :
    isConvertible constructed
        (.mk .functionExpr span [name,
          .mk (.function async false) s [ds, ps, generics, result, body]]) = true ↔
      name.isAbsent = true ∧ generics.isAbsent = true ∧ body.isAbsent = false ∧
      span.start ∉ constructed ∧
        "this" ∉ ps.children.flatMap (fun q => (q.child 1).bound) ∧
        repeats (ps.children.flatMap fun q => (q.child 1).bound) = false ∧
        (Node.mk (.function async false) s [ds, ps, generics, result, body]).capture? = none := by
  simp only [isConvertible, Bool.not_eq_true', Bool.or_eq_false_iff, Bool.not_eq_false',
    List.contains_eq_mem, decide_eq_false_iff_not, Option.isSome_eq_false_iff,
    Option.isNone_iff_eq_none, and_assoc]

theorem form_of_isConvertible (h : isConvertible constructed n = true) :
    ∃ span name async s ds ps generics result body,
      n = .mk .functionExpr span [name,
        .mk (.function async false) s [ds, ps, generics, result, body]] := by
  rw [isConvertible.eq_def] at h
  split at h
  next =>
    split at h
    next => exact ⟨_, _, _, _, _, _, _, _, _, rfl⟩
    next => cases h
  next => cases h

theorem start_not_mem_of_isConvertible (h : isConvertible constructed n = true) :
    n.span.start ∉ constructed := by
  obtain ⟨span, name, async, s, ds, ps, generics, result, body, rfl⟩ := form_of_isConvertible h
  exact (isConvertible_mk_iff.1 h).2.2.2.1

def arrowParts? (n : Node) : Option (Bool × List Node × Node × Node) :=
  match n.bare with
  | .mk (.arrow async) _ [.mk .params _ ps, .mk .absent _ [], result, body] =>
    some (async, ps, result, body)
  | _ => none

mutual

/--
The nodes of a tree, each with the one that has taken its place in another tree. There are none
unless the other tree has, for every function that becomes an arrow function, one with the same
parameters and the same body, and is otherwise the same.
-/
def pairs? (p : Program) : Node → Node → Option (List (Node × Node))
  | .mk k span cs, n' =>
    if converts p (.mk k span cs) then
      match cs with
      | [.mk .absent _ [], .mk (.function async _) _
          [.mk .absent _ [], .mk .params _ ps, .mk .absent _ [], result, body]] =>
        match arrowParts? n' with
        | some (async', ps', result', body') =>
          if async' = async then do
            let params ← paramPairs? p ps ps'
            let types ← pairs? p result result'
            let block ← pairs? p body body'
            some ((.mk k span cs, n') :: (params ++ (types ++ block)))
          else none
        | none => none
      | _ => none
    else if n'.kind = k then (pairsAll? p cs n'.children).map ((.mk k span cs, n') :: ·)
    else none

def pairsAll? (p : Program) : List Node → List Node → Option (List (Node × Node))
  | [], [] => some []
  | c :: cs, c' :: cs' => do some ((← pairs? p c c') ++ (← pairsAll? p cs cs'))
  | _, _ => none

def paramPairs? (p : Program) : List Node → List Node → Option (List (Node × Node))
  | [], [] => some []
  | .mk .param _ [.mk .absent _ [], q] :: ps, q' :: ps' =>
    do some ((← pairs? p q q') ++ (← paramPairs? p ps ps'))
  | _, _ => none

end

def isBareParam : Node → Bool
  | .mk .param _ [.mk .absent _ [], _] => true
  | _ => false

def isFrame : Kind → Bool
  | .absent | .function _ _ | .params | .param => true
  | _ => false

/-- How a node takes the place of another, with the pairs of which the two are made. -/
inductive Matches (p : Program) : Node → Node → List (Node × Node) → Prop
  | kept {k : Kind} {span span' : Range} {cs cs' : List Node}
      (hconverts : converts p (.mk k span cs) = false)
      (hlength : cs.length = cs'.length) : Matches p (.mk k span cs) (.mk k span' cs') (cs.zip cs')
  | converted {ps ps' : List Node} {result body result' body' n' : Node} {async generator : Bool}
      {k : Kind}
      {span s₁ s₂ s₃ s₄ s₅ : Range}
      (hconverts : converts p (.mk k span [.mk .absent s₁ [], .mk (.function async generator) s₂
        [.mk .absent s₃ [], .mk .params s₄ ps, .mk .absent s₅ [], result, body]]) = true)
      (hps : ∀ q ∈ ps, isBareParam q = true) (hlength : ps.length = ps'.length)
      (hparts : arrowParts? n' = some (async, ps', result', body')) :
      Matches p (.mk k span [.mk .absent s₁ [], .mk (.function async generator) s₂
        [.mk .absent s₃ [], .mk .params s₄ ps, .mk .absent s₅ [], result, body]]) n'
        ((ps.map (·.child 1)).zip ps' ++ [(result, result'), (body, body')])

def below (p : Program) (z : Node × Node) : List (Node × Node) := (pairs? p z.1 z.2).getD []

theorem pairsAll?_eq_some (h : pairsAll? p cs cs' = some l) :
    cs.length = cs'.length ∧ (∀ z ∈ cs.zip cs', pairs? p z.1 z.2 = some (below p z)) ∧
      l = (cs.zip cs').flatMap (below p) := by
  induction cs generalizing cs' l with
  | nil =>
    cases cs' with
    | nil =>
      cases h
      exact ⟨rfl, (fun z hz => nomatch hz), rfl⟩
    | cons c' cs' => cases h
  | cons c cs ih =>
    cases cs' with
    | nil => cases h
    | cons c' cs' =>
      obtain ⟨a, ha, h⟩ := Option.bind_eq_some_iff.1 h
      obtain ⟨b, hb, h⟩ := Option.bind_eq_some_iff.1 h
      cases h
      obtain ⟨hlength, hall, rfl⟩ := ih hb
      have hfirst : below p (c, c') = a := by
        rw [below, ha]
        rfl
      refine ⟨congrArg Nat.succ hlength, ?_, ?_⟩
      · intro z hz
        rcases List.mem_cons.1 hz with rfl | hz
        · rwa [hfirst]
        · exact hall z hz
      · rw [List.zip_cons_cons, List.flatMap_cons, hfirst]

theorem paramPairs?_eq_some (h : paramPairs? p ps ps' = some l) :
    (∀ q ∈ ps, isBareParam q = true) ∧ pairsAll? p (ps.map (·.child 1)) ps' = some l := by
  induction ps generalizing ps' l with
  | nil =>
    cases ps' with
    | nil => exact ⟨fun _ hq => absurd hq List.not_mem_nil, h⟩
    | cons q' ps' => cases h
  | cons q ps ih =>
    rw [paramPairs?.eq_def] at h
    split at h
    next e => cases e
    next e =>
      cases e
      obtain ⟨a, ha, h⟩ := Option.bind_eq_some_iff.1 h
      obtain ⟨b, hb, h⟩ := Option.bind_eq_some_iff.1 h
      obtain ⟨hall, hpairs⟩ := ih hb
      refine ⟨?_, ?_⟩
      · intro r hr
        rcases List.mem_cons.1 hr with rfl | hr
        · rfl
        · exact hall r hr
      · exact Option.bind_eq_some_iff.2 ⟨a, ha, Option.bind_eq_some_iff.2 ⟨b, hpairs, h⟩⟩
    next => cases h

theorem pairs?_eq_some (h : pairs? p n n' = some l) :
    ∃ zs, Matches p n n' zs ∧ (∀ z ∈ zs, pairs? p z.1 z.2 = some (below p z)) ∧
      l = (n, n') :: zs.flatMap (below p) := by
  obtain ⟨k, span, cs⟩ := n
  rw [pairs?.eq_def] at h
  simp only at h
  split at h
  next hconverts =>
    split at h
    next =>
      split at h
      next hparts =>
        split at h
        next e =>
          cases e
          obtain ⟨a, ha, h⟩ := Option.bind_eq_some_iff.1 h
          obtain ⟨b, hb, h⟩ := Option.bind_eq_some_iff.1 h
          obtain ⟨c, hc, h⟩ := Option.bind_eq_some_iff.1 h
          cases h
          obtain ⟨hps, ha⟩ := paramPairs?_eq_some ha
          obtain ⟨hlength, hall, rfl⟩ := pairsAll?_eq_some ha
          rw [List.length_map] at hlength
          refine ⟨_, .converted hconverts hps hlength hparts, ?_, ?_⟩
          · intro z hz
            rcases List.mem_append.1 hz with hz | hz
            · exact hall z hz
            · simp only [List.mem_cons, List.not_mem_nil, or_false] at hz
              rcases hz with rfl | rfl
              · rw [below, hb]
                rfl
              · rw [below, hc]
                rfl
          · rw [List.flatMap_append, List.flatMap_cons, List.flatMap_cons, List.flatMap_nil,
              List.append_nil, below, below, hb, hc]
            rfl
        next => cases h
      next => cases h
    next => cases h
  next hconverts =>
    split at h
    next hkind =>
      obtain ⟨k', span', cs'⟩ := n'
      cases hkind
      obtain ⟨l, hl, rfl⟩ := Option.map_eq_some_iff.1 h
      obtain ⟨hlength, hall, rfl⟩ := pairsAll?_eq_some hl
      exact ⟨_, .kept (Bool.not_eq_true _ ▸ hconverts) hlength, hall, rfl⟩
    next => cases h

section Pairs

variable {p : Program} {n n' m q : Node} {cs ps : List Node} {l zs : List (Node × Node)}

theorem arrowParts?_eq_some (h : arrowParts? n = some (async, ps, result, body)) :
    ∃ s s' s'', n.bare =
      .mk (.arrow async) s [.mk .params s' ps, .mk .absent s'' [], result, body] := by
  rw [arrowParts?] at h
  split at h
  next hbare =>
    cases h
    exact ⟨_, _, _, hbare⟩
  next => cases h

theorem mem_subtrees_of_mem_bare (h : m ∈ n.bare.subtrees) : m ∈ n.subtrees := by
  fun_induction Node.bare n with
  | case1 span e ih => exact Node.mem_subtrees_of_mem_child List.mem_cons_self (ih h)
  | case2 n _ => exact h

theorem mem_bare_of_mem_subtrees (h : m ∈ n.subtrees) (hm : m.kind ≠ .paren) :
    m ∈ n.bare.subtrees := by
  fun_induction Node.bare n with
  | case1 span e ih =>
    rw [Node.subtrees_eq, List.mem_cons, Node.descendants, Node.children, List.flatMap_cons,
      List.flatMap_nil, List.append_nil] at h
    rcases h with rfl | h
    · exact absurd rfl hm
    · exact ih h
  | case2 n _ => exact h

theorem paren_or_bare_eq (n : Node) : (∃ span e, n = .mk .paren span [e]) ∨ n.bare = n := by
  rw [Node.bare.eq_def]
  split
  next span e => exact .inl ⟨span, e, rfl⟩
  next => exact .inr rfl

theorem kind_of_bare (h : n.bare.kind ≠ k) (hk : k ≠ .paren) : n.kind ≠ k := by
  fun_induction Node.bare n with
  | case1 span e ih => exact hk.symm
  | case2 n _ => exact h

namespace Matches

theorem functionExpr_of_converts (h : converts p n = true) : n.kind = .functionExpr := by
  obtain ⟨e, he⟩ := Option.isSome_iff_exists.1 h
  obtain ⟨_, _, _, _, _, _, _, _, _, _, rfl, _⟩ := edit?_eq_some he
  rfl

theorem child_of_isBareParam (h : isBareParam q = true) :
    q.kind = .param ∧ ∃ s s', q = .mk .param s [.mk .absent s' [], q.child 1] := by
  rw [isBareParam.eq_def] at h
  split at h
  next => exact ⟨rfl, _, _, rfl⟩
  next => cases h

theorem sublist_params (h : ∀ q ∈ ps, isBareParam q = true) :
    ((ps.map (·.child 1)).flatMap Node.subtrees).Sublist (ps.flatMap Node.subtrees) := by
  induction ps with
  | nil => exact .refl _
  | cons q ps ih =>
    obtain ⟨_, s, s', hq⟩ := child_of_isBareParam (h q List.mem_cons_self)
    have hsub : (q.child 1).subtrees.Sublist q.subtrees := by
      rw [hq, Node.subtrees_eq (.mk .param s _), Node.descendants, Node.children, List.flatMap_cons,
        List.flatMap_cons, List.flatMap_nil, List.append_nil]
      exact (List.sublist_append_right _ _).cons _
    exact hsub.append (ih fun r hr => h r (List.mem_cons_of_mem q hr))

theorem sublist (h : Matches p n n' zs) :
    ((zs.map Prod.fst).flatMap Node.subtrees).Sublist n.descendants := by
  cases h with
  | kept _ hlength =>
    rw [List.map_fst_zip (Nat.le_of_eq hlength)]
    exact .refl _
  | converted _ hps hlength _ =>
    rw [List.map_append, List.map_fst_zip (by simp [hlength])]
    simp only [Node.descendants, Node.children, List.flatMap_append, List.map_cons, List.map_nil,
      List.flatMap_cons, List.flatMap_nil, List.append_nil, Node.subtrees_eq (.mk .absent _ _),
      Node.subtrees_eq (.mk .params _ _), Node.subtrees_eq (.mk (.function _ _) _ _),
      List.cons_append, List.nil_append]
    exact ((sublist_params hps).append (.cons _ (.refl _))).cons _ |>.cons _ |>.cons _ |>.cons _

theorem mem_descendants (h : Matches p n n' zs) (hz : z ∈ zs) : z.1 ∈ n.descendants :=
  h.sublist.subset (List.mem_flatMap.2 ⟨z.1, List.mem_map_of_mem hz, Node.mem_walk_self _ _⟩)

theorem subset_right (h : Matches p n n' zs) (hz : z ∈ zs) (hm : m ∈ z.2.subtrees) :
    m ∈ n'.subtrees := by
  cases h with
  | kept => exact Node.mem_subtrees_of_mem_child (List.of_mem_zip hz).2 hm
  | @converted ps ps' result body result' body' _ _ _ _ _ _ _ _ _ _ _ _ _ hparts =>
    obtain ⟨s, s', s'', hbare⟩ := arrowParts?_eq_some hparts
    have hsecond : z.2 ∈ ps' ∨ z.2 = result' ∨ z.2 = body' := by
      rcases List.mem_append.1 hz with hz | hz
      · exact .inl (List.of_mem_zip hz).2
      · simp only [List.mem_cons, List.not_mem_nil, or_false] at hz
        rcases hz with rfl | rfl
        · exact .inr (.inl rfl)
        · exact .inr (.inr rfl)
    apply mem_subtrees_of_mem_bare
    rw [hbare]
    rcases hsecond with hz | rfl | rfl
    · exact Node.mem_subtrees_of_mem_child (c := .mk .params s' ps') (by simp [Node.children])
        (Node.mem_subtrees_of_mem_child hz hm)
    · exact Node.mem_subtrees_of_mem_child (by simp [Node.children]) hm
    · exact Node.mem_subtrees_of_mem_child (by simp [Node.children]) hm

theorem exists_fst (hlength : cs.length = cs'.length) (hc : c ∈ cs) :
    ∃ z ∈ cs.zip cs', z.1 = c := by
  rw [← List.map_fst_zip (Nat.le_of_eq hlength)] at hc
  exact List.mem_map.1 hc

theorem exists_snd (hlength : cs.length = cs'.length) (hc : c ∈ cs') :
    ∃ z ∈ cs.zip cs', z.2 = c := by
  rw [← List.map_snd_zip (Nat.le_of_eq hlength.symm)] at hc
  exact List.mem_map.1 hc

theorem cases_left (h : Matches p n n' zs) (hm : m ∈ n.subtrees) (hframe : isFrame m.kind = false) :
    m = n ∨ ∃ z ∈ zs, m ∈ z.1.subtrees := by
  rw [Node.subtrees_eq, List.mem_cons] at hm
  rcases hm with rfl | hm
  · exact .inl rfl
  right
  cases h with
  | kept _ hlength =>
    obtain ⟨c, hc, hm⟩ := List.mem_flatMap.1 hm
    obtain ⟨z, hz, rfl⟩ := exists_fst hlength hc
    exact ⟨z, hz, hm⟩
  | @converted ps ps' result body result' body' _ _ _ _ _ _ _ _ _ _ _ hps hlength _ =>
    simp only [Node.descendants, Node.children, List.flatMap_cons, List.flatMap_nil,
      List.append_nil, Node.subtrees_eq (.mk .absent _ _), Node.subtrees_eq (.mk .params _ _),
      Node.subtrees_eq (.mk (.function _ _) _ _), List.cons_append, List.nil_append, List.mem_cons,
      List.mem_append] at hm
    rcases hm with rfl | rfl | rfl | rfl | hm | rfl | hm | hm
    · cases hframe
    · cases hframe
    · cases hframe
    · cases hframe
    · obtain ⟨q, hq, hm⟩ := List.mem_flatMap.1 hm
      obtain ⟨hkind, s, s', hshape⟩ := child_of_isBareParam (hps q hq)
      have hlength' : (ps.map (·.child 1)).length = ps'.length := by rwa [List.length_map]
      obtain ⟨z, hz, hfirst⟩ := exists_fst hlength' (List.mem_map_of_mem hq)
      refine ⟨z, List.mem_append_left _ hz, ?_⟩
      rw [hfirst]
      rw [hshape, Node.subtrees_eq, Node.descendants, Node.children, List.flatMap_cons,
        List.flatMap_cons, Node.subtrees_eq (.mk .absent _ _), List.flatMap_nil,
        List.append_nil] at hm
      rcases List.mem_cons.1 hm with rfl | hm
      · cases hframe
      · rcases List.mem_append.1 hm with hm | hm
        · rw [List.mem_singleton.1 hm] at hframe
          cases hframe
        · exact hm
    · cases hframe
    · exact ⟨(result, result'), by simp, hm⟩
    · exact ⟨(body, body'), by simp, hm⟩

theorem cases_right (h : Matches p n n' zs) (hm : m ∈ n'.subtrees)
    (hkind : m.kind = .functionExpr) : m = n' ∨ ∃ z ∈ zs, m ∈ z.2.subtrees := by
  cases h with
  | kept _ hlength =>
    rw [Node.subtrees_eq, List.mem_cons] at hm
    rcases hm with rfl | hm
    · exact .inl rfl
    · obtain ⟨c, hc, hm⟩ := List.mem_flatMap.1 hm
      obtain ⟨z, hz, rfl⟩ := exists_snd hlength hc
      exact .inr ⟨z, hz, hm⟩
  | @converted ps ps' result body result' body' _ _ _ _ _ _ _ _ _ _ _ hps hlength hparts =>
    right
    obtain ⟨s, s', s'', hbare⟩ := arrowParts?_eq_some hparts
    have hm := mem_bare_of_mem_subtrees hm (by rw [hkind]; exact Kind.noConfusion)
    rw [hbare] at hm
    simp only [Node.descendants, Node.children, List.flatMap_cons, List.flatMap_nil,
      List.append_nil, Node.subtrees_eq (.mk .absent _ _), Node.subtrees_eq (.mk .params _ _),
      Node.subtrees_eq (.mk (.arrow _) _ _), List.cons_append, List.nil_append, List.mem_cons,
      List.mem_append] at hm
    rcases hm with rfl | rfl | hm | rfl | hm | hm
    · cases hkind
    · cases hkind
    · obtain ⟨q, hq, hm⟩ := List.mem_flatMap.1 hm
      have hlength' : (ps.map (·.child 1)).length = ps'.length := by rwa [List.length_map]
      obtain ⟨z, hz, rfl⟩ := exists_snd hlength' hq
      exact ⟨z, List.mem_append_left _ hz, hm⟩
    · cases hkind
    · exact ⟨(result, result'), by simp, hm⟩
    · exact ⟨(body, body'), by simp, hm⟩

end Matches

/-- What holds of a pair if it holds of the pairs it is made of holds of every pair. -/
theorem pairs_rule {P : Node → Node → List (Node × Node) → Prop}
    (step : ∀ n n' zs, Matches p n n' zs → pairs? p n n' = some ((n, n') :: zs.flatMap (below p)) →
      (∀ z ∈ zs, P z.1 z.2 (below p z)) → P n n' ((n, n') :: zs.flatMap (below p)))
    (h : pairs? p n n' = some l) : P n n' l := by
  have hall : ∀ n : Node, ∀ m ∈ n.subtrees, ∀ m' l, pairs? p m m' = some l → P m m' l := by
    intro n
    induction n using Node.induct with
    | mk k span cs ih =>
      intro m hm m' l hl
      rw [Node.subtrees_eq, List.mem_cons] at hm
      have hbelow : ∀ m ∈ (Node.mk k span cs).descendants, ∀ m' l, pairs? p m m' = some l →
          P m m' l := by
        intro m hm
        obtain ⟨c, hc, hm⟩ := List.mem_flatMap.1 hm
        exact ih c hc m hm
      rcases hm with rfl | hm
      · obtain ⟨zs, hmatches, hzs, rfl⟩ := pairs?_eq_some hl
        apply step _ _ _ hmatches hl
        intro z hz
        exact hbelow z.1 (hmatches.mem_descendants hz) z.2 _ (hzs z hz)
      · exact hbelow m hm m' l hl
  exact hall n n (Node.mem_walk_self _ _) n' l h

theorem sublist_of_pairs (h : pairs? p n n' = some l) : (l.map Prod.fst).Sublist n.subtrees := by
  refine pairs_rule (P := fun n _ l => (l.map Prod.fst).Sublist n.subtrees) ?_ h
  intro n n' zs hmatches hpairs ih
  rw [List.map_cons, Node.subtrees_eq]
  apply List.Sublist.cons_cons
  refine List.Sublist.trans ?_ hmatches.sublist
  clear hmatches hpairs
  induction zs with
  | nil => exact .refl _
  | cons z zs ihz =>
    rw [List.flatMap_cons, List.map_append, List.map_cons, List.flatMap_cons]
    exact (ih z List.mem_cons_self).append (ihz fun y hy => ih y (List.mem_cons_of_mem z hy))

theorem mem_left (h : pairs? p n n' = some l) (hm : m ∈ n.subtrees)
    (hframe : isFrame m.kind = false) : ∃ m', (m, m') ∈ l := by
  refine pairs_rule (P := fun n _ l => m ∈ n.subtrees → ∃ m', (m, m') ∈ l) ?_ h hm
  intro n n' zs hmatches _ ih hm
  rcases hmatches.cases_left hm hframe with rfl | ⟨z, hz, hm⟩
  · exact ⟨n', List.mem_cons_self⟩
  · obtain ⟨m', hm'⟩ := ih z hz hm
    exact ⟨m', List.mem_cons_of_mem _ (List.mem_flatMap.2 ⟨z, hz, hm'⟩)⟩

theorem mem_right (h : pairs? p n n' = some l) (hm : m ∈ n'.subtrees)
    (hkind : m.kind = .functionExpr) : ∃ m₀, (m₀, m) ∈ l := by
  refine pairs_rule (P := fun _ n' l => m ∈ n'.subtrees → ∃ m₀, (m₀, m) ∈ l) ?_ h hm
  intro n n' zs hmatches _ ih hm
  rcases hmatches.cases_right hm hkind with rfl | ⟨z, hz, hm⟩
  · exact ⟨n, List.mem_cons_self⟩
  · obtain ⟨m₀, hm₀⟩ := ih z hz hm
    exact ⟨m₀, List.mem_cons_of_mem _ (List.mem_flatMap.2 ⟨z, hz, hm₀⟩)⟩

theorem pairs_of_mem (h : pairs? p n n' = some l) (hx : x ∈ l) :
    x.2 ∈ n'.subtrees ∧ ∃ l', pairs? p x.1 x.2 = some l' ∧ l' ⊆ l := by
  refine pairs_rule (P := fun n n' l =>
    x ∈ l → x.2 ∈ n'.subtrees ∧ ∃ l', pairs? p x.1 x.2 = some l' ∧ l' ⊆ l) ?_ h hx
  intro n n' zs hmatches hpairs ih hx
  rcases List.mem_cons.1 hx with rfl | hx
  · exact ⟨Node.mem_walk_self _ _, _, hpairs, List.Subset.refl _⟩
  · obtain ⟨z, hz, hx⟩ := List.mem_flatMap.1 hx
    obtain ⟨hmem, l', hl', hsub⟩ := ih z hz hx
    refine ⟨hmatches.subset_right hz hmem, l', hl', ?_⟩
    intro y hy
    exact List.mem_cons_of_mem _ (List.mem_flatMap.2 ⟨z, hz, hsub hy⟩)

theorem flatMap_zip {f : Node → List β} (hlength : cs.length = cs'.length)
    (h : ∀ z ∈ cs.zip cs', f z.2 = f z.1) : cs'.flatMap f = cs.flatMap f := by
  calc cs'.flatMap f
    _ = ((cs.zip cs').map Prod.snd).flatMap f := by
      rw [List.map_snd_zip (Nat.le_of_eq hlength.symm)]
    _ = (cs.zip cs').flatMap fun z => f z.2 := List.flatMap_map ..
    _ = (cs.zip cs').flatMap fun z => f z.1 := List.flatMap_congr h
    _ = ((cs.zip cs').map Prod.fst).flatMap f := (List.flatMap_map ..).symm
    _ = cs.flatMap f := by rw [List.map_fst_zip (Nat.le_of_eq hlength)]

theorem isExpression_of_bare (h : n.bare.isExpression = true) : n.isExpression = true := by
  fun_induction Node.bare n with
  | case1 span e ih => rfl
  | case2 n _ => exact h

theorem bound_of_pairs (h : pairs? p n n' = some l) : n'.bound = n.bound := by
  refine pairs_rule (P := fun n n' _ => n'.bound = n.bound) ?_ h
  intro n n' zs hmatches _ ih
  cases hmatches with
  | @kept k span span' cs cs' _ hlength =>
    have hflat : cs'.flatMap Node.bound = cs.flatMap Node.bound := flatMap_zip hlength ih
    have hbinding : (Node.mk k span' cs').binding? = (Node.mk k span cs).binding? := by
      cases k <;> rfl
    rw [Node.bound_mk, Node.bound_mk, hflat, Node.holdsPatterns, Node.holdsPatterns, hbinding]
    rfl
  | converted hconverts _ _ hparts =>
    obtain ⟨s, s', s'', hbare⟩ := arrowParts?_eq_some hparts
    have harrow : n'.isExpression = true := by
      apply isExpression_of_bare
      rw [hbare]
      rfl
    have hfunction := Matches.functionExpr_of_converts hconverts
    cases hfunction
    rw [Node.bound_of_isExpression harrow, Node.bound_of_isExpression rfl]

theorem isAt_of_kind {n n' : Node} (c : Capture) (h : n'.kind = n.kind) : c.isAt n' = c.isAt n := by
  obtain ⟨k, span, cs⟩ := n
  obtain ⟨k', span', cs'⟩ := n'
  cases h
  have hident : (Node.mk k span' cs').identifier? = (Node.mk k span cs).identifier? := by
    cases k <;> rfl
  rw [Capture.isAt.eq_def, Capture.isAt.eq_def, hident]
  rfl

theorem references_mk (k : Kind) (span : Range) (cs : List Node) (c : Capture) :
    (Node.mk k span cs).references c = (c.isAt (.mk k span cs) ||
      (!(Node.mk k span cs).isFunction && cs.any (·.references c))) := by
  rw [Node.references, Node.walk, List.any_cons, Node.walkAll_eq]
  cases (Node.mk k span cs).isFunction with
  | true => rfl
  | false => exact congrArg (_ || ·) (List.any_flatMap ..)

/--
What refers to something that a function owns still does. A function that becomes an arrow function
refers to nothing of the function around it.
-/
theorem references_of_pairs (h : pairs? p n n' = some l) (c : Capture)
    (href : n.references c = true) : n'.references c = true := by
  refine pairs_rule (P := fun n n' _ => n.references c = true → n'.references c = true) ?_ h href
  intro n n' zs hmatches _ ih href
  cases hmatches with
  | @kept k span span' cs cs' _ hlength =>
    rw [references_mk, Bool.or_eq_true, Bool.and_eq_true, List.any_eq_true] at href ⊢
    have hat : c.isAt (.mk k span' cs') = c.isAt (.mk k span cs) := isAt_of_kind c rfl
    rw [hat]
    refine href.imp_right ?_
    rintro ⟨hfunction, d, hd, href⟩
    obtain ⟨z, hz, rfl⟩ := Matches.exists_fst hlength hd
    exact ⟨hfunction, z.2, (List.of_mem_zip hz).2, ih z hz href⟩
  | converted hconverts _ _ _ =>
    have hfunction := Matches.functionExpr_of_converts hconverts
    cases hfunction
    simp only [references_mk] at href
    cases c <;> cases href

theorem isAbsent_of_pairs (h : pairs? p n n' = some l) : n'.isAbsent = n.isAbsent := by
  obtain ⟨zs, hmatches, _⟩ := pairs?_eq_some h
  cases hmatches with
  | kept => rfl
  | converted hconverts _ _ hparts =>
    obtain ⟨s, s', s'', hbare⟩ := arrowParts?_eq_some hparts
    have hfunction := Matches.functionExpr_of_converts hconverts
    have harrow : n'.kind ≠ .absent := by
      apply kind_of_bare
      · rw [hbare]
        exact Kind.noConfusion
      · exact Kind.noConfusion
    cases hfunction
    exact decide_eq_false harrow

theorem names_of_pairs {ps ps' : Node} (h : pairs? p ps ps' = some l) (hkind : ps.kind = .params)
    (hfunctions : ∀ q ∈ ps.children, q.kind ≠ .functionExpr) :
    (ps'.children.flatMap fun q => (q.child 1).bound) = ps.children.flatMap fun q =>
      (q.child 1).bound := by
  obtain ⟨zs, hmatches, hzs, rfl⟩ := pairs?_eq_some h
  cases hmatches with
  | @kept k span span' qs qs' _ hlength =>
    apply flatMap_zip (f := fun q => (q.child 1).bound) hlength
    intro z hz
    obtain ⟨ws, hmatches, hws, _⟩ := pairs?_eq_some (hzs z hz)
    obtain ⟨q, q'⟩ := z
    cases hmatches with
    | @kept _ _ _ cs cs' _ hlength =>
      match cs, cs', hlength with
      | [], [], _ => rfl
      | [_], [_], _ => rfl
      | _ :: c :: _, _ :: c' :: _, _ => exact bound_of_pairs (hws (c, c') (.tail _ (.head _)))
    | converted hconverts _ _ _ =>
      exact absurd (Matches.functionExpr_of_converts hconverts)
        (hfunctions _ (List.of_mem_zip hz).1)
  | converted hconverts _ _ _ => cases (Matches.functionExpr_of_converts hconverts).symm.trans hkind

theorem capture?_of_pairs {ps ps' body body' : Node} (hps : pairs? p ps ps' = some l)
    (hkind : ps.kind = .params) (hbody : pairs? p body body' = some l')
    (h : (Node.mk (.function async generator) s' [ds', ps', generics', result', body']).capture? =
      none) :
    (Node.mk (.function async generator) s [ds, ps, generics, result, body]).capture? = none := by
  rw [Node.capture?, List.find?_eq_none] at h ⊢
  intro c hc href
  apply h c hc
  rw [Bool.or_eq_true, List.any_eq_true] at href ⊢
  rcases href with ⟨q, hq, href⟩ | href
  · left
    obtain ⟨zs, hmatches, hzs, _⟩ := pairs?_eq_some hps
    cases hmatches with
    | kept _ hlength =>
      obtain ⟨z, hz, rfl⟩ := Matches.exists_fst hlength hq
      exact ⟨z.2, (List.of_mem_zip hz).2, references_of_pairs (hzs z hz) c href⟩
    | converted hconverts _ _ _ =>
      cases (Matches.functionExpr_of_converts hconverts).symm.trans hkind
  · right
    exact references_of_pairs hbody c href

theorem converts_of_functionExpr (h : pairs? p n n' = some l) (hkind : n'.kind = .functionExpr) :
    converts p n = false := by
  obtain ⟨zs, hmatches, _⟩ := pairs?_eq_some h
  cases hmatches with
  | kept hconverts _ => exact hconverts
  | converted _ _ _ hparts =>
    obtain ⟨s, s', s'', hbare⟩ := arrowParts?_eq_some hparts
    have hne : n'.kind ≠ .functionExpr := by
      apply kind_of_bare
      · rw [hbare]
        exact Kind.noConfusion
      · exact Kind.noConfusion
    exact absurd hkind hne

theorem functionStart?_of_pairs (h : pairs? p n n' = some l)
    (hstart : functionStart? n = some start) (hmem : start ∈ starts p) :
    ∃ x ∈ l, x.1.kind = .functionExpr ∧ x.1.span.start = start ∧
      functionStart? n' = some x.2.span.start := by
  refine pairs_rule (P := fun n n' l =>
    functionStart? n = some start → ∃ x ∈ l, x.1.kind = .functionExpr ∧
    x.1.span.start = start ∧ functionStart? n' = some x.2.span.start) ?_ h hstart
  intro n n' zs hmatches _ ih hstart
  cases hmatches with
  | @kept k span span' cs cs' _ hlength =>
    rcases paren_or_bare_eq (.mk k span cs) with ⟨_, e, hparen⟩ | hbare
    · cases hparen
      match cs', hlength with
      | [e'], _ =>
        obtain ⟨x, hx, hkind, hxstart, hnew⟩ := ih (e, e') List.mem_cons_self hstart
        have hmem : x ∈ [(e, e')].flatMap (below p) :=
          List.mem_flatMap.2 ⟨_, List.mem_cons_self, hx⟩
        exact ⟨x, List.mem_cons_of_mem _ hmem, hkind, hxstart, hnew⟩
    · rw [functionStart?, hbare] at hstart
      split at hstart
      next heq =>
        cases heq
        cases hstart
        exact ⟨_, List.mem_cons_self, rfl, rfl, rfl⟩
      next => cases hstart
  | converted hconverts _ _ _ =>
    have hfunction := Matches.functionExpr_of_converts hconverts
    cases hfunction
    cases hstart
    rw [converts_eq, Bool.and_eq_true] at hconverts
    exact absurd hmem (start_not_mem_of_isConvertible hconverts.1)

theorem constructed?_of_pairs (h : pairs? p n n' = some l) (hstart : constructed? n = some start)
    (hmem : start ∈ starts p) : ∃ x ∈ l, x.1.kind = .functionExpr ∧ x.1.span.start = start ∧
      constructed? n' = some x.2.span.start := by
  obtain ⟨zs, hmatches, hzs, rfl⟩ := pairs?_eq_some h
  have hpart : ∀ z ∈ zs, functionStart? z.1 = some start → ∃ x ∈ (n, n') :: zs.flatMap (below p),
      x.1.kind = .functionExpr ∧ x.1.span.start = start ∧
        functionStart? z.2 = some x.2.span.start := by
    intro z hz hstart
    obtain ⟨x, hx, hfunction⟩ := functionStart?_of_pairs (hzs z hz) hstart hmem
    exact ⟨x, List.mem_cons_of_mem _ (List.mem_flatMap.2 ⟨z, hz, hx⟩), hfunction⟩
  cases hmatches with
  | @kept k span span' cs cs' _ hlength =>
    rw [constructed?.eq_def] at hstart
    split at hstart
    next callee _ e =>
      cases e
      match cs', hlength with
      | callee' :: _, _ => exact hpart (callee, callee') List.mem_cons_self hstart
    next base _ e =>
      cases e
      match cs', hlength with
      | _ :: _ :: base' :: _, _ =>
        exact hpart (base, base') (.tail _ (.tail _ (.head _))) hstart
    next => cases hstart
  | converted hconverts _ _ _ =>
    have hfunction := Matches.functionExpr_of_converts hconverts
    cases hfunction
    cases hstart

end Pairs

/--
A program in which nothing stands where something is left out, functions cover some text that starts
with a keyword, and neither a parameter nor the return type nor the body of a function starts with a
function.
-/
structure Staggered (p : Program) : Prop where
  empty : ∀ n ∈ p.tree.subtrees, n.isAbsent = true → n.children = []
  worded : ∀ n ∈ p.tree.subtrees, n.kind = .functionExpr → n.isSolid = true ∧ n.heading ≠ []
  later : ∀ n ∈ p.tree.subtrees, ∀ c ∈ n.signature, ∀ m ∈ c.subtrees, m.kind = .functionExpr →
    c.span.start < m.span.start

instance (p : Program) : Decidable (Staggered p) :=
  decidable_of_iff
    ((∀ n ∈ p.tree.subtrees, n.isAbsent = true → n.children = []) ∧
      (∀ n ∈ p.tree.subtrees, n.kind = .functionExpr → n.isSolid = true ∧ n.heading ≠ []) ∧
      ∀ n ∈ p.tree.subtrees, ∀ c ∈ n.signature, ∀ m ∈ c.subtrees, m.kind = .functionExpr →
        c.span.start < m.span.start)
    ⟨fun ⟨he, hw, hl⟩ => ⟨he, hw, hl⟩, fun ⟨he, hw, hl⟩ => ⟨he, hw, hl⟩⟩

theorem eq_or_of_pairwise {R : α → α → Prop} {xs : List α} (h : xs.Pairwise R) (hx : x ∈ xs)
    (hy : y ∈ xs) : x = y ∨ R x y ∨ R y x :=
  List.Pairwise.forall_of_forall_of_flip (R := fun x y => x = y ∨ R x y ∨ R y x)
    (fun _ _ => .inl rfl) (h.imp fun h => .inr (.inl h)) (h.imp fun h => .inr (.inr h)) hx hy

section Run

variable {p p' : Program} {n m : Node} {l : List (Node × Node)} (hp : p.WellFormed)
    (hs : Staggered p)

include hp hs

theorem start_ne : p.tree.subtrees.Pairwise fun a b =>
    a.kind = .functionExpr → b.kind = .functionExpr →
    a.span.start ≠ b.span.start := by
  apply hp.pairwise.imp_of_mem
  intro a b ha hb hab hakind hbkind hstart
  obtain ⟨hasolid, hheading⟩ := hs.worded a ha hakind
  obtain ⟨hbsolid, _⟩ := hs.worded b hb hbkind
  have hapos := Node.start_lt_stop_of_isSolid hasolid
  have hbpos := Node.start_lt_stop_of_isSolid hbsolid
  rcases hab hasolid hbsolid with hdesc | hapart
  · obtain ⟨c, hc, hin⟩ := Node.exists_part (hp.laidOut_of_mem ha) hdesc hbsolid
    have hlt := hp.headed a ha hheading c hc
    have hle := (Range.within_iff.1 hin).1
    omega
  · simp only [Range.Apart] at hapart
    omega

theorem eq_of_start (h : pairs? p p.tree n = some l) (hx : x ∈ l) (hy : y ∈ l)
    (hxkind : x.1.kind = .functionExpr) (hykind : y.1.kind = .functionExpr)
    (hstart : x.1.span.start = y.1.span.start) : x = y := by
  have hdistinct := List.pairwise_map.1 ((start_ne hp hs).sublist (sublist_of_pairs h))
  rcases eq_or_of_pairwise hdistinct hx hy with heq | hne | hne
  · exact heq
  · exact absurd hstart (hne hxkind hykind)
  · exact absurd hstart.symm (hne hykind hxkind)

theorem start_mem_of_pairs (h : pairs? p p.tree p'.tree = some l) (hx : x ∈ l)
    (hkind : x.1.kind = .functionExpr) (hstart : x.1.span.start ∈ starts p) :
    x.2.span.start ∈ starts p' := by
  obtain ⟨y, hy, hyconstructed⟩ := List.mem_filterMap.1 hstart
  have hframe : isFrame y.kind = false := by
    rw [constructed?.eq_def] at hyconstructed
    split at hyconstructed
    · rfl
    · rfl
    · cases hyconstructed
  obtain ⟨y', hyy⟩ := mem_left h hy hframe
  obtain ⟨hy', l', hl', hsub⟩ := pairs_of_mem h hyy
  obtain ⟨z, hz, hzkind, hzstart, hnew⟩ := constructed?_of_pairs hl' hyconstructed hstart
  cases eq_of_start hp hs h hx (hsub hz) hkind hzkind hzstart.symm
  exact List.mem_filterMap.2 ⟨y', hy', hnew⟩

/--
A function that takes the place of one that stays can become an arrow function only if that one
could.
-/
theorem isConvertible_of_pairs (h : pairs? p p.tree p'.tree = some l) (hx : x ∈ l)
    (hconvertible : isConvertible (starts p') x.2 = true) :
    isConvertible (starts p) x.1 = true := by
  have hmem : x.1 ∈ p.tree.subtrees := (sublist_of_pairs h).subset (List.mem_map_of_mem hx)
  obtain ⟨_, l', hl', _⟩ := pairs_of_mem h hx
  obtain ⟨n, n'⟩ := x
  obtain ⟨span', name', async, s', ds', ps', generics', result', body', rfl⟩ :=
    form_of_isConvertible hconvertible
  obtain ⟨hname', hgenerics', hbody', hstart', hthis, hrepeats, hcapture⟩ :=
    isConvertible_mk_iff.1 hconvertible
  obtain ⟨zs, hmatches, hzs, _⟩ := pairs?_eq_some hl'
  cases hmatches with
  | @kept k span _ cs _ _ hlength =>
    match cs, hlength with
    | [name, f], _ =>
      obtain ⟨ws, hmatches, hws, _⟩ := pairs?_eq_some (hzs (f, _) (.tail _ (.head _)))
      cases hmatches with
      | @kept _ s _ cs _ _ hlength =>
        match cs, hlength with
        | [ds, ps, generics, result, body], _ =>
          have hname := hzs (name, name') (.head _)
          have hps := hws (ps, ps') (.tail _ (.head _))
          have hgenerics := hws (generics, generics') (.tail _ (.tail _ (.head _)))
          have hbody := hws (body, body') (.tail _ (.tail _ (.tail _ (.tail _ (.head _)))))
          have hshaped := hp.shaped _ hmem
          simp only [Node.isShaped, Bool.and_eq_true, decide_eq_true_eq] at hshaped
          obtain ⟨⟨⟨⟨_, hkind⟩, _⟩, _⟩, _⟩ := hshaped
          have hfunctions : ∀ q ∈ ps.children, q.kind ≠ .functionExpr := by
            intro q hq hfunction
            have hsignature : q ∈ (Node.mk .functionExpr span [name, .mk (.function async false) s
                [ds, ps, generics, result, body]]).signature := by
              rw [Node.signature, List.mem_filter, Node.isAbsent, hfunction]
              exact ⟨List.mem_append_left _ hq, rfl⟩
            exact Nat.lt_irrefl _
              (hs.later _ hmem q hsignature q (Node.mem_walk_self _ _) hfunction)
          rw [names_of_pairs hps hkind hfunctions] at hthis hrepeats
          refine isConvertible_mk_iff.2 ⟨?_, ?_, ?_, ?_, hthis, hrepeats, ?_⟩
          · rwa [← isAbsent_of_pairs hname]
          · rwa [← isAbsent_of_pairs hgenerics]
          · rwa [← isAbsent_of_pairs hbody]
          · exact fun hstart => hstart' (start_mem_of_pairs hp hs h hx rfl hstart)
          · exact capture?_of_pairs hps hkind hbody hcapture
      | converted _ _ _ hparts => cases hparts
  | converted _ _ _ hparts => cases hparts

omit hs in
theorem mem_descendants_of_inside (hn : p.Has n) (hm : p.Has m) (hin : m.span.Inside n.span) :
    m ∈ n.descendants := by
  have hmpos := Node.start_lt_stop_of_isSolid hm.solid
  have hle := Range.within_iff.1 hin.1
  rcases eq_or_of_pairwise hp.pairwise hn.mem hm.mem with heq | hnested | hnested
  · exact absurd (congrArg Node.span heq.symm) hin.2
  · refine (hnested hn.solid hm.solid).resolve_right ?_
    intro hapart
    simp only [Range.Apart] at hapart
    omega
  · rcases hnested hm.solid hn.solid with hdesc | hapart
    · have hwithin := Program.within_of_mem_descendants hp hm hdesc hn.solid
      exact absurd (Range.within_antisymm hin.1 hwithin) hin.2
    · simp only [Range.Apart] at hapart
      omega

omit hp in
theorem isAbsent_of_mem (hc : c ∈ p.tree.subtrees) (hm : m ∈ c.subtrees)
    (hkind : m.kind = .functionExpr) : c.isAbsent = false := by
  rw [← Bool.not_eq_true]
  intro habsent
  rw [Node.subtrees_eq, Node.descendants, hs.empty c hc habsent, List.flatMap_nil,
    List.mem_singleton] at hm
  rw [← hm, Node.isAbsent, hkind] at habsent
  cases habsent

omit hp in
theorem mem_signature (h : pairs? p p.tree p'.tree = some l) (hn : n ∈ p.tree.subtrees)
    (hconverts : converts p n = true) (hm : m ∈ n.subtrees) (hne : m ≠ n)
    (hkind : m.kind = .functionExpr) : ∃ c ∈ n.signature, m ∈ c.subtrees := by
  have hfunction := Matches.functionExpr_of_converts hconverts
  obtain ⟨n', hnn⟩ := mem_left h hn (by rw [hfunction]; rfl)
  obtain ⟨_, l', hl', _⟩ := pairs_of_mem h hnn
  obtain ⟨zs, hmatches, hzs, _⟩ := pairs?_eq_some hl'
  obtain ⟨z, hz, hzm⟩ := (hmatches.cases_left hm (by rw [hkind]; rfl)).resolve_left hne
  cases hmatches with
  | kept hstays _ => cases hstays.symm.trans hconverts
  | @converted ps ps' result body _ _ _ _ _ _ _ _ _ _ _ _ _ hps _ _ =>
    cases hfunction
    have hinner := Program.mem_of_child hn (.tail _ (.head _))
    have hresult : result ∈ p.tree.subtrees := Program.mem_of_child hinner (by simp [Node.children])
    have hbody : body ∈ p.tree.subtrees := Program.mem_of_child hinner (by simp [Node.children])
    simp only [Node.signature, Node.children, List.mem_filter, Bool.not_eq_true']
    rcases List.mem_append.1 hz with hz | hz
    · obtain ⟨q, hq, hfirst⟩ := List.mem_map.1 (List.of_mem_zip hz).1
      obtain ⟨hparam, s, s', hshape⟩ := Matches.child_of_isBareParam (hps q hq)
      refine ⟨q, ⟨List.mem_append_left _ hq, ?_⟩, ?_⟩
      · rw [Node.isAbsent, hparam]
        rfl
      · rw [hshape]
        rw [← hfirst] at hzm
        exact Node.mem_subtrees_of_mem_child (.tail _ (.head _)) hzm
    · simp only [List.mem_cons, List.not_mem_nil, or_false] at hz
      rcases hz with rfl | rfl
      · exact ⟨result, ⟨by simp, isAbsent_of_mem hs hresult hzm hkind⟩, hzm⟩
      · exact ⟨body, ⟨by simp, isAbsent_of_mem hs hbody hzm hkind⟩, hzm⟩

omit hp hs in
theorem mem_reusedRanges_laid {segments : List Segment} (h : r ∈ segments.filterMap Segment.reused?)
    (hr : r.start < r.stop) : r ∈ (Edit.laid range segments).reusedRanges := by
  obtain ⟨segment, hmem, hreused⟩ := List.mem_filterMap.1 h
  apply List.mem_filterMap.2
  refine ⟨segment, List.mem_filter.2 ⟨hmem, ?_⟩, hreused⟩
  cases segment with
  | fresh t => cases hreused
  | reused s =>
    cases hreused
    rw [Segment.isEmpty, Range.isEmpty, Bool.not_eq_true', decide_eq_false_iff_not]
    omega

omit hp hs in
theorem within_run {cs : List Node}
    (hordered : (cs.map Node.span).Pairwise fun r s => r.stop ≤ s.start)
    (hpos : ∀ c ∈ cs, c.span.start < c.span.stop) (hc : c ∈ cs) :
    ∃ r ∈ Node.run cs, c.span.within r = true := by
  cases cs with
  | nil => cases hc
  | cons first cs =>
    rw [Node.run_cons]
    refine ⟨_, List.mem_singleton_self _, Range.within_iff.2 ⟨?_, ?_⟩⟩
    · have hfirst := (List.pairwise_cons.1 hordered).1
      rcases List.mem_cons.1 hc with rfl | hc
      · exact Nat.le_refl _
      · exact Nat.le_trans (Nat.le_of_lt (hpos first List.mem_cons_self))
          (hfirst _ (List.mem_map_of_mem hc))
    · have hsplit := List.dropLast_append_getLast (List.cons_ne_nil first cs)
      have hlast := hpos _ (List.getLast_mem (List.cons_ne_nil first cs))
      rw [← hsplit, List.map_append, List.pairwise_append] at hordered
      rw [← hsplit, List.mem_append, List.mem_singleton] at hc
      rcases hc with hc | hc
      · have hle :=
          hordered.2.2 _ (List.mem_map_of_mem hc) _ (List.mem_map_of_mem List.mem_cons_self)
        exact Nat.le_trans hle (Nat.le_of_lt hlast)
      · rw [← hc]

omit hs in
theorem exists_reused (hn : n ∈ p.tree.subtrees) (he : edit? p constructed n = some e)
    (hc : c ∈ n.signature) : p.Has c ∧ ∃ r ∈ e.reusedRanges, c.span.within r = true := by
  obtain ⟨span, name, async, s, ds, ps, generics, result, body, wrap, rfl, hbody, _, rfl⟩ :=
    edit?_eq_some he
  obtain ⟨_, hhas, hresult, hbodyhas, _⟩ := Program.has_function hp hn hbody
  have hordered := hp.ordered _ hn
  have hsolid : ∀ q ∈ ps.children, (!q.isAbsent) = true := by
    intro q hq
    rw [Node.isAbsent_of_isSolid (hhas q hq).solid]
    rfl
  rw [Node.signature, List.filter_append, List.filter_eq_self.2 hsolid] at hc hordered
  rw [List.map_append] at hordered
  suffices hreused : p.Has c ∧
    ∃ r ∈ Node.run ps.children ++ (([result].filter fun c => !c.isAbsent).map Node.span ++
      [body.span]), c.span.within r = true by
    obtain ⟨hhasc, r, hr, hwithin⟩ := hreused
    refine ⟨hhasc, r, mem_reusedRanges_laid ?_ ?_, hwithin⟩
    · rw [Edit.reused_wrapped, List.filterMap_cons_none rfl, List.filterMap_append,
        List.filterMap_cons_none rfl, List.filterMap_append, reused_params, reused_return]
      exact hr
    · have hpos := Node.start_lt_stop_of_isSolid hhasc.solid
      have hle := Range.within_iff.1 hwithin
      omega
  rcases List.mem_append.1 hc with hc | hc
  · obtain ⟨r, hr, hwithin⟩ := within_run (List.pairwise_append.1 hordered).1
      (fun q hq => Node.start_lt_stop_of_isSolid (hhas q hq).solid) hc
    exact ⟨hhas c hc, r, List.mem_append_left _ hr, hwithin⟩
  · obtain ⟨hc, habsent⟩ := List.mem_filter.1 hc
    have habsent' : c.isAbsent = false := by simpa using habsent
    simp only [List.mem_cons, List.not_mem_nil, or_false] at hc
    rcases hc with rfl | rfl
    · refine ⟨hresult habsent', c.span, ?_, Range.within_self _⟩
      simp [habsent']
    · exact ⟨hbodyhas, c.span, by simp, Range.within_self _⟩

/-- Every edit inside another one lies in what the other reuses. -/
theorem nests_edits (h : pairs? p p.tree p'.tree = some l) (he : e ∈ edits p) (hf : f ∈ edits p)
    (hin : e.range.Inside f.range) : ∃ r ∈ f.reusedRanges, e.range.Inside r := by
  obtain ⟨m, hm, hmedit⟩ := List.mem_filterMap.1 he
  obtain ⟨n, hn, hnedit⟩ := List.mem_filterMap.1 hf
  have hmreplaces := replaces hp hm hmedit
  have hnreplaces := replaces hp hn hnedit
  rw [hmreplaces.range] at hin ⊢
  rw [hnreplaces.range] at hin
  have hdesc := mem_descendants_of_inside hp hnreplaces.has hmreplaces.has hin
  have hne : m ≠ n := fun heq => hin.2 (congrArg Node.span heq)
  have hsub : m ∈ n.subtrees := by
    rw [Node.subtrees_eq]
    exact List.mem_cons_of_mem n hdesc
  have hconverts : converts p n = true := Option.isSome_iff_exists.2 ⟨f, hnedit⟩
  obtain ⟨c, hc, hmc⟩ := mem_signature hs h hn hconverts hsub hne hmreplaces.kind
  obtain ⟨hhas, r, hr, hwithin⟩ := exists_reused hp hn hnedit hc
  have hlater := hs.later n hn c hc m hmc hmreplaces.kind
  have hmdesc : m ∈ c.descendants := by
    rw [Node.subtrees_eq, List.mem_cons] at hmc
    refine hmc.resolve_left ?_
    rintro rfl
    exact Nat.lt_irrefl _ hlater
  have hmwithin := Program.within_of_mem_descendants hp hhas hmdesc hmreplaces.has.solid
  refine ⟨r, hr, Range.within_trans hmwithin hwithin, ?_⟩
  rintro rfl
  exact absurd (Range.within_iff.1 hwithin).1 (Nat.not_le_of_lt hlater)

end Run

/--
If the edits of a program are applied and the new text is that of the tree in which each function
that was accepted has become an arrow function, then every edit took effect. Another search finds
nothing exactly if each function that stayed only because of what stood before it still stays for
that reason, or for another.
-/
theorem edits_eq_nil_iff_held (dialect : Dialect) (p p' : Program) (pairs : List (Node × Node))
    (hp : p.WellFormed) (hs : Staggered p)
    (hparse : Program.parse dialect ((Document.ofText p.text).apply (edits p)).1.text = .ok p')
    (hpairs : pairs? p p.tree p'.tree = some pairs) :
    (∀ e ∈ edits p, e ∈ (Document.ofText p.text).applied (edits p)) ∧
    (edits p' = [] ↔ ∀ x ∈ pairs, isHeld p x.1 = true → isConvertible (starts p') x.2 = true →
      continuesPrevious ((Document.ofText p.text).apply (edits p)).1.text x.2.span.start =
        true) := by
  have hlaminar : Edit.Laminar (Document.ofText p.text).text.length (edits p) :=
    (Pass.collects .functionToArrow hp).laminar
  have htext := Program.text_of_parse hparse
  refine ⟨?_, ?_⟩
  · intro e he
    rw [Document.mem_applied_iff, Document.mem_emitted_iff_nests hlaminar he]
    intro f hf hin
    exact nests_edits hp hs hpairs he (Document.mem_of_mem_emitted hlaminar hf) hin
  · rw [edits_eq p', List.filterMap_eq_nil_iff, ← htext]
    constructor
    · intro hnone x hx _ hconvertible
      obtain ⟨hmem, _⟩ := pairs_of_mem hpairs hx
      have hedit := isSome_edit? p' (starts p') x.2
      rw [hnone x.2 hmem, hconvertible, Option.isSome_none, Bool.true_and] at hedit
      simpa using hedit
    · intro hheld n' hn'
      rw [← Option.isNone_iff_eq_none, ← Option.not_isSome, isSome_edit?, Bool.not_eq_true',
        Bool.and_eq_false_iff, Bool.not_eq_false', ← Bool.not_eq_true, ← imp_iff_not_or]
      intro hconvertible
      obtain ⟨_, _, _, _, _, _, _, _, _, rfl⟩ := form_of_isConvertible hconvertible
      obtain ⟨n, hx⟩ := mem_right hpairs hn' rfl
      have hbefore := isConvertible_of_pairs hp hs hpairs hx hconvertible
      obtain ⟨_, l, hl, _⟩ := pairs_of_mem hpairs hx
      have hstays := converts_eq p n
      rw [converts_of_functionExpr hl rfl, hbefore, Bool.true_and, eq_comm,
        Bool.not_eq_false'] at hstays
      exact hheld _ hx (Bool.and_eq_true_iff.2 ⟨hbefore, hstays⟩) hconvertible

theorem edits_eq_nil_iff_held_nested :
    ∃ p ∈ (Program.parse .tsx (Text.ofString
        "f(function (a = function () \x7b\x7d) \x7b new function () \x7b g(async function () \x7b\x7d) \x7d \x7d);"
        )).toOption,
      ∃ p' ∈ (Program.parse .tsx ((Document.ofText p.text).apply (edits p)).1.text).toOption,
        p.WellFormed ∧ Staggered p ∧ (edits p).length = 3 ∧
        ∃ pairs, pairs? p p.tree p'.tree = some pairs ∧
          (∀ e ∈ edits p, e ∈ (Document.ofText p.text).applied (edits p)) ∧ edits p' = [] := by
  have hpairs : ∃ p ∈ (Program.parse .tsx (Text.ofString
        "f(function (a = function () \x7b\x7d) \x7b new function () \x7b g(async function () \x7b\x7d) \x7d \x7d);"
        )).toOption,
      ∃ p' ∈ (Program.parse .tsx ((Document.ofText p.text).apply (edits p)).1.text).toOption,
        p.WellFormed ∧ Staggered p ∧ (edits p).length = 3 ∧
          ∃ pairs ∈ pairs? p p.tree p'.tree, ∀ x ∈ pairs, isHeld p x.1 = false := by
    decide +kernel
  obtain ⟨p, hpmem, p', hp'mem, hp, hs, hlength, pairs, hpairs, hheld⟩ := hpairs
  have hparse := Program.parse_eq_of_mem hp'mem
  obtain ⟨happlied, hnil⟩ := edits_eq_nil_iff_held .tsx p p' pairs hp hs hparse hpairs
  refine ⟨p, hpmem, p', hp'mem, hp, hs, hlength, pairs, hpairs, happlied, hnil.2 ?_⟩
  intro x hx hxheld
  cases (hheld x hx).symm.trans hxheld

/-- The end of a comment hides the start of the inner function from the first search. -/
theorem edits_ne_nil_of_comment :
    ∃ p ∈ (Program.parse .tsx (Text.ofString
        "f(function /* x\n// */ () \x7b return [function () \x7b\x7d] \x7d);\n")).toOption,
      ∃ p' ∈ (Program.parse .tsx ((Document.ofText p.text).apply (edits p)).1.text).toOption,
        p.WellFormed ∧ Staggered p ∧ (pairs? p p.tree p'.tree).isSome = true ∧ edits p' ≠ [] := by
  decide +kernel

end Uplift.FunctionToArrow
