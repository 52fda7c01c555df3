import Uplift.Pass.Statement
import Uplift.Proofs.Nesting
import Uplift.Proofs.Scope

namespace Uplift

set_option autoImplicit true

theorem Range.within_self (r : Range) : r.within r = true :=
  Range.within_iff.2 ⟨Nat.le_refl _, Nat.le_refl _⟩

theorem Range.Apart.within {r s r' s' : Range} (h : r.Apart s) (hr : r'.within r = true)
    (hs : s'.within s = true) : r'.Apart s' := by
  rw [Range.within_iff] at hr hs
  simp only [Range.Apart] at *
  omega

theorem Range.Apart.symm {r s : Range} (h : r.Apart s) : s.Apart r := Or.symm h

/--
Kinds of nodes without an extent of their own. Decorators can stand before the declaration of their
class, and before its export.
-/
def Kind.isLoose : Kind → Bool
  | absent | quasi _ | elements | properties | function _ _ | params | decorators | classBody
  | interfaces | members | arguments | classDecl | defaultDecl | moduleItem => true
  | _ => false

def Kind.isPlain : Kind → Bool
  | ident _ | name _ | member | paren | binary _ | exprStmt | forOf _ | varDecl _ _ => true
  | _ => false

namespace Node

def isAnnotated : Node → Bool
  | mk (.binding _) _ cs => !cs.isEmpty
  | mk .arrayPattern _ [_, type] => !type.isAbsent
  | mk .objectPattern _ [_, type] => !type.isAbsent
  | _ => false

def isFirm (n : Node) : Bool := !n.kind.isLoose && !n.isAnnotated

def raw? : Node → Option String
  | mk (.quasi raw) _ _ => some raw
  | _ => none

def isSolid (n : Node) : Bool := n.isFirm && decide (n.span.start < n.span.stop)

mutual

/-- The node itself if it is solid, else the solid nodes it is made of. -/
def pieces : Node → List Node
  | mk k span cs => if (mk k span cs).isSolid then [mk k span cs] else piecesAll cs

def piecesAll : List Node → List Node
  | [] => []
  | c :: cs => pieces c ++ piecesAll cs

end

def parts (n : Node) : List Node := piecesAll n.children

def descendants (n : Node) : List Node := n.children.flatMap subtrees

/-- The parts of a firm node lie inside it and apart. -/
def IsLaidOut (n : Node) : Prop :=
  n.isFirm = true → (∀ c ∈ n.parts, c.span.within n.span = true) ∧
    (n.parts.map span).Pairwise Range.Apart

instance (n : Node) : Decidable n.IsLaidOut := inferInstanceAs (Decidable (_ → _))

variable {m n c : Node}

theorem piecesAll_eq (cs : List Node) : piecesAll cs = cs.flatMap pieces := by
  induction cs with
  | nil => rfl
  | cons c cs ih => rw [piecesAll, ih, List.flatMap_cons]

theorem parts_eq (n : Node) : n.parts = n.children.flatMap pieces := piecesAll_eq n.children

theorem pieces_of_isSolid (h : n.isSolid = true) : n.pieces = [n] := by
  obtain ⟨k, span, cs⟩ := n
  rw [pieces, if_pos h]

theorem pieces_of_not_isSolid (h : n.isSolid = false) : n.pieces = n.parts := by
  obtain ⟨k, span, cs⟩ := n
  rw [pieces, h]
  rfl

theorem flatMap_pieces {cs : List Node} (h : ∀ c ∈ cs, c.isSolid = true) :
    cs.flatMap pieces = cs := by
  induction cs with
  | nil => rfl
  | cons c cs ih =>
    rw [List.flatMap_cons, pieces_of_isSolid (h c List.mem_cons_self),
      ih fun d hd => h d (List.mem_cons_of_mem c hd)]
    rfl

theorem pieces_of_isLoose (h : n.kind.isLoose = true) : n.pieces = n.parts := by
  apply pieces_of_not_isSolid
  rw [isSolid, isFirm, h, Bool.not_true, Bool.false_and, Bool.false_and]

theorem isFirm_of_isSolid (h : n.isSolid = true) : n.isFirm = true := by
  rw [isSolid, Bool.and_eq_true] at h
  exact h.1

theorem isAbsent_of_isSolid (h : n.isSolid = true) : n.isAbsent = false := by
  apply decide_eq_false
  intro hk
  rw [isSolid, isFirm, hk] at h
  cases h

theorem start_lt_stop_of_isSolid (h : n.isSolid = true) : n.span.start < n.span.stop := by
  rw [isSolid, Bool.and_eq_true] at h
  exact of_decide_eq_true h.2

theorem subtrees_eq (n : Node) : n.subtrees = n :: n.descendants := by
  obtain ⟨k, span, cs⟩ := n
  rw [subtrees, walk, if_pos rfl, walkAll_eq]
  rfl

theorem mem_subtrees_trans (h : m ∈ n.subtrees) (hc : c ∈ m.subtrees) : c ∈ n.subtrees := by
  induction n using induct with
  | mk k span cs ih =>
    rw [subtrees_eq, List.mem_cons, descendants, List.mem_flatMap] at h
    rcases h with rfl | ⟨d, hd, hm⟩
    · exact hc
    · exact mem_subtrees_of_mem_child hd (ih d hd hm)

theorem isSolid_of_mem_pieces (h : c ∈ n.pieces) : c.isSolid = true := by
  induction n using induct with
  | mk k span cs ih =>
    cases hs : (mk k span cs).isSolid with
    | true =>
      rw [pieces_of_isSolid hs, List.mem_singleton] at h
      rwa [h]
    | false =>
      rw [pieces_of_not_isSolid hs, parts_eq, List.mem_flatMap] at h
      obtain ⟨d, hd, h⟩ := h
      exact ih d hd h

theorem isSolid_of_mem_parts (h : c ∈ n.parts) : c.isSolid = true := by
  rw [parts_eq, List.mem_flatMap] at h
  obtain ⟨d, _, h⟩ := h
  exact isSolid_of_mem_pieces h

theorem mem_subtrees_of_mem_pieces (h : c ∈ n.pieces) : c ∈ n.subtrees := by
  induction n using induct with
  | mk k span cs ih =>
    cases hs : (mk k span cs).isSolid with
    | true =>
      rw [pieces_of_isSolid hs, List.mem_singleton] at h
      rw [h]
      exact mem_walk_self _ _
    | false =>
      rw [pieces_of_not_isSolid hs, parts_eq, List.mem_flatMap] at h
      obtain ⟨d, hd, h⟩ := h
      exact mem_subtrees_of_mem_child hd (ih d hd h)

theorem mem_descendants_of_mem_parts (h : c ∈ n.parts) : c ∈ n.descendants := by
  rw [parts_eq, List.mem_flatMap] at h
  obtain ⟨d, hd, h⟩ := h
  exact List.mem_flatMap.2 ⟨d, hd, mem_subtrees_of_mem_pieces h⟩

theorem exists_piece (h : ∀ m ∈ n.subtrees, m.IsLaidOut) (hm : m ∈ n.subtrees)
    (hs : m.isSolid = true) : ∃ c ∈ n.pieces, m.span.within c.span = true := by
  induction n using induct with
  | mk k span cs ih =>
    rw [subtrees_eq, List.mem_cons, descendants, List.mem_flatMap] at hm
    have hbelow (hin : ∃ d ∈ cs, m ∈ d.subtrees) :
        ∃ c ∈ (mk k span cs).parts, m.span.within c.span = true := by
      obtain ⟨d, hd, hmd⟩ := hin
      obtain ⟨c, hc, hw⟩ := ih d hd (fun x hx => h x (mem_subtrees_of_mem_child hd hx)) hmd
      rw [parts_eq]
      exact ⟨c, List.mem_flatMap.2 ⟨d, hd, hc⟩, hw⟩
    cases hn : (mk k span cs).isSolid with
    | true =>
      rw [pieces_of_isSolid hn]
      refine ⟨_, List.mem_singleton_self _, ?_⟩
      rcases hm with rfl | hin
      · exact Range.within_self _
      · obtain ⟨c, hc, hw⟩ := hbelow hin
        have hlaid := h (mk k span cs) (mem_walk_self _ _)
        exact Range.within_trans hw ((hlaid (isFirm_of_isSolid hn)).1 c hc)
    | false =>
      rw [pieces_of_not_isSolid hn]
      rcases hm with rfl | hin
      · rw [hn] at hs
        cases hs
      · exact hbelow hin

theorem exists_part (h : ∀ m ∈ n.subtrees, m.IsLaidOut) (hm : m ∈ n.descendants)
    (hs : m.isSolid = true) : ∃ c ∈ n.parts, m.span.within c.span = true := by
  obtain ⟨d, hd, hmd⟩ := List.mem_flatMap.1 hm
  obtain ⟨c, hc, hw⟩ := exists_piece (fun x hx => h x (mem_subtrees_of_mem_child hd hx)) hmd hs
  rw [parts_eq]
  exact ⟨c, List.mem_flatMap.2 ⟨d, hd, hc⟩, hw⟩

/-- Of two solid nodes of a tree, the later one is below the earlier one, or they are apart. -/
theorem pairwise_subtrees (h : ∀ m ∈ n.subtrees, m.IsLaidOut)
    (hp : (n.pieces.map span).Pairwise Range.Apart) :
    n.subtrees.Pairwise fun a b => a.isSolid = true → b.isSolid = true →
      b ∈ a.descendants ∨ a.span.Apart b.span := by
  induction n using induct with
  | mk k span cs ih =>
    have hchild {c x : Node} (hc : c ∈ cs) (hx : x ∈ c.subtrees) : x.IsLaidOut :=
      h x (mem_subtrees_of_mem_child hc hx)
    -- The parts are apart also where the node has no extent, for then they are its pieces.
    have hparts : ((mk k span cs).parts.map Node.span).Pairwise Range.Apart := by
      cases hn : (mk k span cs).isSolid with
      | true => exact (h _ (mem_walk_self _ _) (isFirm_of_isSolid hn)).2
      | false => rwa [pieces_of_not_isSolid hn] at hp
    rw [parts_eq, List.map_flatMap, List.pairwise_flatMap] at hparts
    rw [subtrees_eq, List.pairwise_cons, descendants, List.pairwise_flatMap]
    refine ⟨?_, ?_, ?_⟩
    · intro b hb _ _
      exact .inl hb
    · intro c hc
      exact ih c hc (fun x => hchild hc) (hparts.1 c hc)
    · refine hparts.2.imp_of_mem ?_
      intro c d hc hd hapart a ha b hb hsa hsb
      obtain ⟨x, hx, hax⟩ := exists_piece (fun x => hchild hc) ha hsa
      obtain ⟨y, hy, hby⟩ := exists_piece (fun x => hchild hd) hb hsb
      exact .inr ((hapart _ (List.mem_map_of_mem hx) _ (List.mem_map_of_mem hy)).within hax hby)

def isOptional (n : Node) : Bool := n.isAbsent || n.isSolid

def isShaped (n : Node) : Bool :=
  match n with
  | mk .call _ [callee, _, given] => n.isSolid && callee.isSolid && given.kind = .arguments
  | mk .new _ [callee, _, given] =>
    n.isSolid && callee.isSolid && (given.isAbsent || given.kind = .arguments)
  | mk .arguments _ cs => cs.all isSolid
  | mk .template _ cs => n.isSolid && cs.all fun c => c.isSolid || c.raw?.isSome
  | mk (.arrow _) _ [ps, _, _, body] => n.isSolid && ps.kind = .params && body.isSolid
  | mk .functionExpr _ [_, mk (.function _ _) _ [_, ps, _, result, body]] =>
    n.isSolid && ps.kind = .params && ps.children.all isSolid && result.isOptional &&
      body.isOptional
  | mk .for _ cs => n.isSolid && cs.all isOptional
  | mk .block _ _ => n.isSolid
  | mk (.binding _) _ _ | mk .arrayPattern _ _ | mk .objectPattern _ _ => n.isAnnotated || n.isSolid
  | mk k _ cs => !k.isPlain || n.isSolid && cs.all isSolid

def heading : Node → List String
  | mk .new _ _ => ["new"]
  | mk .functionExpr _ [_, mk (.function async _) _ _] =>
    if async then ["async", "function"] else ["function"]
  | mk .for _ _ | mk (.forOf _) _ _ => ["for"]
  | mk (.varDecl declaring _) _ _ => [declaring.keyword]
  | _ => []

def signature : Node → List Node
  | mk .functionExpr _ [_, mk (.function _ _) _ [_, ps, _, result, body]] =>
    (ps.children ++ [result, body]).filter fun c => !c.isAbsent
  | _ => []

def isVarDecl : Node → Bool
  | mk (.varDecl _ _) _ _ => true
  | _ => false

def statements (n : Node) : List Node :=
  match n with
  | mk .exprStmt _ _ => [n]
  | mk .block _ cs => cs.filter isVarDecl
  | _ => []

end Node

/-- A program whose nodes stand where they should. -/
structure Program.WellFormed (p : Program) : Prop where
  bounded : p.tree.span.stop ≤ p.text.length
  firm : p.tree.isFirm = true
  laidOut : ∀ n ∈ p.tree.subtrees, n.IsLaidOut
  shaped : ∀ n ∈ p.tree.subtrees, n.isShaped = true
  headed : ∀ n ∈ p.tree.subtrees, n.heading ≠ [] → ∀ c ∈ n.parts, n.span.start < c.span.start
  ordered : ∀ n ∈ p.tree.subtrees, (n.signature.map Node.span).Pairwise fun r s => r.stop ≤ s.start
  terminated : ∀ n ∈ p.tree.subtrees, ∀ c ∈ n.statements, p.statementRange c.span = c.span

instance (p : Program) : Decidable p.WellFormed :=
  decidable_of_iff
    (p.tree.span.stop ≤ p.text.length ∧ p.tree.isFirm = true ∧
      (∀ n ∈ p.tree.subtrees, n.IsLaidOut) ∧
      (∀ n ∈ p.tree.subtrees, n.isShaped = true) ∧
      (∀ n ∈ p.tree.subtrees, n.heading ≠ [] → ∀ c ∈ n.parts, n.span.start < c.span.start) ∧
      (∀ n ∈ p.tree.subtrees, (n.signature.map Node.span).Pairwise fun r s => r.stop ≤ s.start) ∧
      ∀ n ∈ p.tree.subtrees, ∀ c ∈ n.statements, p.statementRange c.span = c.span)
    ⟨fun ⟨hb, hf, hl, hs, hh, ho, ht⟩ => ⟨hb, hf, hl, hs, hh, ho, ht⟩,
      fun ⟨hb, hf, hl, hs, hh, ho, ht⟩ => ⟨hb, hf, hl, hs, hh, ho, ht⟩⟩

namespace Program.WellFormed

variable {p : Program} (h : p.WellFormed)

include h

theorem laidOut_of_mem (hn : n ∈ p.tree.subtrees) : ∀ m ∈ n.subtrees, m.IsLaidOut :=
  fun m hm => h.laidOut m (Node.mem_subtrees_trans hn hm)

theorem pairwise : p.tree.subtrees.Pairwise fun a b => a.isSolid = true → b.isSolid = true →
    b ∈ a.descendants ∨ a.span.Apart b.span := by
  apply Node.pairwise_subtrees h.laidOut
  cases hs : p.tree.isSolid with
  | true =>
    rw [Node.pieces_of_isSolid hs]
    exact List.pairwise_singleton _ _
  | false =>
    rw [Node.pieces_of_not_isSolid hs]
    exact (h.laidOut p.tree (Node.mem_walk_self _ _) h.firm).2

theorem stop_le (hn : n ∈ p.tree.subtrees) (hs : n.isSolid = true) :
    n.span.stop ≤ p.text.length := by
  obtain ⟨c, hc, hin⟩ := Node.exists_piece h.laidOut hn hs
  have hroot : c.span.within p.tree.span = true := by
    cases hsolid : p.tree.isSolid with
    | true =>
      rw [Node.pieces_of_isSolid hsolid, List.mem_singleton] at hc
      rw [hc]
      exact Range.within_self p.tree.span
    | false =>
      rw [Node.pieces_of_not_isSolid hsolid] at hc
      exact (h.laidOut p.tree (Node.mem_walk_self _ _) h.firm).1 c hc
  have hle := (Range.within_iff.1 (Range.within_trans hin hroot)).2
  exact Nat.le_trans hle h.bounded

end Program.WellFormed

end Uplift
