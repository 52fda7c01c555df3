import Mathlib.Data.List.Basic
import Uplift.Pass.VarToConst
import Uplift.Proofs.Scope

namespace Uplift.VarToConst

set_option autoImplicit true

open Scope Findings

def parameters : Node → List String
  | .mk (.function _ _) _ [_, params, _, _, _] => params.children.flatMap fun p => (p.child 1).bound
  | .mk (.arrow _) _ (params :: _) => params.bound
  | .mk .constructor _ [_, params, _] => params.bound
  | .mk .setter _ [_, param, _] => param.bound
  | _ => []

def declares : Node → List String
  | .mk (.varDecl .hoisted false) _ ds => ds.flatMap fun d => (d.child 0).bound
  | .mk .functionDecl _ [name, _] => name.name?.toList
  | .mk .classDecl _ [name, _] => name.name?.toList
  | _ => []

def notes : Node → List String
  | .mk .forIn _ [head, _, _] => head.headNames
  | .mk (.forOf _) _ [head, _, _] => head.headNames
  | .mk (.assign op) span cs => (Node.mk (.assign op) span cs).writes
  | .mk (.update op) span cs => (Node.mk (.update op) span cs).writes
  | _ => []

/-- Whether a child is the name of a declaration, in which nothing is looked for. -/
def isName (n : Node) (i : Nat) : Bool :=
  match n.kind, n.children.length, i with
  | .functionDecl, 2, 0 => true
  | .classDecl, 2, 0 => true
  | _, _, _ => false

def placeIn (n : Node) (i : Nat) : Place :=
  match n.kind, n.children.length, i with
  | .forIn, 3, 0 => .head
  | .forOf _, 3, 0 => .head
  | .forIn, 3, 2 => .body
  | .forOf _, 3, 2 => .body
  | .for, 4, 3 => .body
  | .while, 2, 1 => .body
  | .doWhile, 2, 0 => .body
  | .if, 3, 1 => .body
  | .if, 3, 2 => .body
  | .labeled, 2, 1 => .body
  | .with, 2, 1 => .body
  | _, _, _ => .ordinary

def catches (n : Node) : List String :=
  if n.kind = .catch ∧ n.children.length = 2 then (n.child 0).bound else []

def parts (n : Node) : List (Node × Nat) := n.children.zipIdx.filter fun c => !isName n c.2

structure Visit where
  caught : List String
  place : Place
  node : Node

def Visit.find (text : Text) (v : Visit) : Findings := VarToConst.find text v.caught v.place v.node

def gather (text : Text) : List Visit → Findings
  | [] => {}
  | v :: vs => v.find text ++ gather text vs

/-- What a node adds itself to what is found in its parts. -/
def own (text : Text) (caught : List String) (place : Place) : Node → Findings
  | .mk (.varDecl .hoisted false) span ds => declaration text caught place span ds
  | n => { declared := declares n, written := notes n }

def visits (caught : List String) (n : Node) : List Visit :=
  (parts n).map fun c => ⟨catches n ++ caught, placeIn n c.2, c.1⟩

namespace Findings

theorem append_empty (f : Findings) : f ++ ({} : Findings) = f := by
  change append f {} = f
  simp only [append, List.append_nil]

theorem append_assoc (f g h : Findings) : f ++ g ++ h = f ++ (g ++ h) := by
  change append (append f g) h = append f (append g h)
  simp only [append, List.append_assoc]

end Findings

theorem gather_map (text : Text) (caught : List String) (ns : List Node) :
    gather text (ns.map (Visit.mk caught .ordinary)) = findAll text caught ns := by
  induction ns with
  | nil => rw [findAll]; rfl
  | cons n ns ih => rw [findAll, List.map_cons, gather, ih]; rfl

theorem gather_two (u v : Visit) : gather text [u, v] = u.find text ++ v.find text := by
  rw [gather, gather, gather, append_empty]

theorem gather_three (u v w : Visit) :
    gather text [u, v, w] = u.find text ++ v.find text ++ w.find text := by
  rw [gather, gather_two, append_assoc]

theorem isName_eq_false (hfunction : ∀ name f, k = .functionDecl → cs = [name, f] → False)
    (hclass : ∀ name c, k = .classDecl → cs = [name, c] → False) (span : Range) (i : Nat) :
    isName (.mk k span cs) i = false := by
  unfold isName
  split
  next hk hl =>
    obtain ⟨_, _, hcs⟩ := List.length_eq_two.1 hl
    exact (hfunction _ _ hk hcs).elim
  next hk hl =>
    obtain ⟨_, _, hcs⟩ := List.length_eq_two.1 hl
    exact (hclass _ _ hk hcs).elim
  next => rfl

theorem parts_eq_zipIdx (hname : ∀ i, isName n i = false) : parts n = n.children.zipIdx := by
  apply List.filter_eq_self.2
  intro c _
  rw [hname]
  rfl

theorem mem_children_of_mem_parts {c : Node × Nat} (h : c ∈ parts n) : c.1 ∈ n.children :=
  List.fst_mem_of_mem_zipIdx (List.mem_filter.1 h).1

theorem mem_children_of_mem_visits (h : v ∈ visits caught n) : v.node ∈ n.children := by
  obtain ⟨c, hc, rfl⟩ := List.mem_map.1 h
  exact mem_children_of_mem_parts hc

theorem map_node_visits_sublist (caught : List String) (n : Node) :
    ((visits caught n).map Visit.node).Sublist n.children := by
  have hparts : ((parts n).map Prod.fst).Sublist (n.children.zipIdx.map Prod.fst) :=
    List.filter_sublist.map _
  rw [List.zipIdx_map_fst] at hparts
  rw [visits, List.map_map]
  exact hparts

theorem visits_ordinary (hname : ∀ i, isName n i = false) (hcatches : catches n = [])
    (hplace : ∀ i, placeIn n i = .ordinary) (text : Text) (caught : List String) :
    gather text (visits caught n) = findAll text caught n.children := by
  rw [← gather_map, visits, parts_eq_zipIdx hname]
  simp only [hcatches, hplace, List.nil_append]
  conv_rhs => rw [← List.zipIdx_map_fst 0 n.children, List.map_map]
  rfl

theorem find_scope (h : ofNode? n = some s) (text : Text) (caught : List String) (place : Place) :
    s.parts = n.children ∧
      find text caught place n = (findAll text caught n.children).close (parameters n) := by
  obtain ⟨k, span, cs⟩ := n
  rw [ofNode?.eq_def] at h
  split at h
  next e =>
    cases e
    cases h
    refine ⟨rfl, ?_⟩
    simp only [find, findAll, append_empty, append_assoc, parameters, Node.children]
  next e =>
    cases e
    cases h
    refine ⟨rfl, ?_⟩
    simp only [find, findAll, parameters, Node.children]
  next e =>
    cases e
    cases h
    refine ⟨rfl, ?_⟩
    simp only [find, findAll, append_empty, append_assoc, parameters, Node.children]
  next e =>
    cases e
    cases h
    refine ⟨rfl, ?_⟩
    simp only [find, parameters, Node.children]
  next e =>
    cases e
    cases h
    refine ⟨rfl, ?_⟩
    simp only [find, findAll, append_empty, append_assoc, parameters, Node.children]
  next e =>
    cases e
    cases h
    refine ⟨rfl, ?_⟩
    simp only [find, parameters, Node.children]
  next => cases h

/-- A node that neither adds anything itself nor tells its parts apart. -/
structure Plain (n : Node) : Prop where
  isName : ∀ i, isName n i = false
  catches : catches n = []
  placeIn : ∀ i, placeIn n i = .ordinary
  own : ∀ text caught place, own text caught place n = {}

theorem plain_of_scope (h : ofNode? n = some s) : Plain n := by
  obtain ⟨k, span, cs⟩ := n
  rw [ofNode?.eq_def] at h
  split at h
  next e => cases e; exact ⟨fun _ => rfl, rfl, fun _ => rfl, fun _ _ _ => rfl⟩
  next e => cases e; exact ⟨fun _ => rfl, rfl, fun _ => rfl, fun _ _ _ => rfl⟩
  next e => cases e; exact ⟨fun _ => rfl, rfl, fun _ => rfl, fun _ _ _ => rfl⟩
  next e => cases e; exact ⟨fun _ => rfl, rfl, fun _ => rfl, fun _ _ _ => rfl⟩
  next e => cases e; exact ⟨fun _ => rfl, rfl, fun _ => rfl, fun _ _ _ => rfl⟩
  next e => cases e; exact ⟨fun _ => rfl, rfl, fun _ => rfl, fun _ _ _ => rfl⟩
  next => cases h

theorem find_realm (h : ofNode? n = some s) (text : Text) (caught : List String) (place : Place) :
    find text caught place n = (gather text (visits caught n)).close (parameters n) := by
  have hplain := plain_of_scope h
  rw [(find_scope h text caught place).2,
    visits_ordinary hplain.isName hplain.catches hplain.placeIn text caught]

structure Unmarked (k : Kind) (cs : List Node) : Prop where
  notHoisted : k = .varDecl .hoisted false → False
  notAssign : ∀ op, k = .assign op → False
  notUpdate : ∀ op, k = .update op → False
  notFunction : ∀ name f, k = .functionDecl → cs = [name, f] → False
  notClass : ∀ name c, k = .classDecl → cs = [name, c] → False
  notCatch : ∀ param body, k = .catch → cs = [param, body] → False
  notForIn : ∀ head object body, k = .forIn → cs = [head, object, body] → False
  notForOf : ∀ awaits head iterable body, k = .forOf awaits → cs = [head, iterable, body] → False
  notFor : ∀ first test step body, k = .for → cs = [first, test, step, body] → False
  notWhile : ∀ test body, k = .while → cs = [test, body] → False
  notDoWhile : ∀ body test, k = .doWhile → cs = [body, test] → False
  notIf : ∀ test yes no, k = .if → cs = [test, yes, no] → False
  notLabeled : ∀ label body, k = .labeled → cs = [label, body] → False
  notWith : ∀ object body, k = .with → cs = [object, body] → False

namespace Unmarked

variable {k : Kind} {cs : List Node} (h : Unmarked k cs)
include h

theorem catches_eq (span : Range) : catches (.mk k span cs) = [] := by
  apply if_neg
  rintro ⟨hk, hl⟩
  obtain ⟨_, _, hcs⟩ := List.length_eq_two.1 hl
  exact h.notCatch _ _ hk hcs

theorem placeIn_eq (span : Range) (i : Nat) : placeIn (.mk k span cs) i = .ordinary := by
  unfold placeIn
  split
  next hk hl =>
    obtain ⟨_, _, _, hcs⟩ := List.length_eq_three.1 hl
    exact (h.notForIn _ _ _ hk hcs).elim
  next hk hl =>
    obtain ⟨_, _, _, hcs⟩ := List.length_eq_three.1 hl
    exact (h.notForOf _ _ _ _ hk hcs).elim
  next hk hl =>
    obtain ⟨_, _, _, hcs⟩ := List.length_eq_three.1 hl
    exact (h.notForIn _ _ _ hk hcs).elim
  next hk hl =>
    obtain ⟨_, _, _, hcs⟩ := List.length_eq_three.1 hl
    exact (h.notForOf _ _ _ _ hk hcs).elim
  next hk hl =>
    obtain ⟨_, _, _, _, hcs⟩ := List.length_eq_four.1 hl
    exact (h.notFor _ _ _ _ hk hcs).elim
  next hk hl =>
    obtain ⟨_, _, hcs⟩ := List.length_eq_two.1 hl
    exact (h.notWhile _ _ hk hcs).elim
  next hk hl =>
    obtain ⟨_, _, hcs⟩ := List.length_eq_two.1 hl
    exact (h.notDoWhile _ _ hk hcs).elim
  next hk hl =>
    obtain ⟨_, _, _, hcs⟩ := List.length_eq_three.1 hl
    exact (h.notIf _ _ _ hk hcs).elim
  next hk hl =>
    obtain ⟨_, _, _, hcs⟩ := List.length_eq_three.1 hl
    exact (h.notIf _ _ _ hk hcs).elim
  next hk hl =>
    obtain ⟨_, _, hcs⟩ := List.length_eq_two.1 hl
    exact (h.notLabeled _ _ hk hcs).elim
  next hk hl =>
    obtain ⟨_, _, hcs⟩ := List.length_eq_two.1 hl
    exact (h.notWith _ _ hk hcs).elim
  next => rfl

theorem declares_eq (span : Range) : declares (.mk k span cs) = [] := by
  unfold declares
  split
  next e => cases e; exact (h.notHoisted rfl).elim
  next e => cases e; exact (h.notFunction _ _ rfl rfl).elim
  next e => cases e; exact (h.notClass _ _ rfl rfl).elim
  next => rfl

theorem notes_eq (span : Range) : notes (.mk k span cs) = [] := by
  unfold notes
  split
  next e => cases e; exact (h.notForIn _ _ _ rfl rfl).elim
  next e => cases e; exact (h.notForOf _ _ _ _ rfl rfl).elim
  next e => cases e; exact (h.notAssign _ rfl).elim
  next e => cases e; exact (h.notUpdate _ rfl).elim
  next => rfl

theorem plain (span : Range) : Plain (.mk k span cs) where
  isName := isName_eq_false h.notFunction h.notClass span
  catches := h.catches_eq span
  placeIn := h.placeIn_eq span
  own text caught place := by
    rw [own, h.declares_eq, h.notes_eq]
    rintro _ _ ⟨⟩
    exact h.notHoisted rfl

end Unmarked

/-- What is found in a tree that is no scope: what its root adds, and what is found in its parts. -/
theorem find_parts (h : ofNode? n = none) (text : Text) (caught : List String) (place : Place) :
    find text caught place n = own text caught place n ++ gather text (visits caught n) ∨
      find text caught place n = gather text (visits caught n) ++ own text caught place n := by
  obtain ⟨k, span, cs⟩ := n
  rw [find.eq_def]
  -- the cases stand in the order in which the search tells nodes apart; six of them are scopes
  split
  next e =>
    cases e
    right
    rw [visits_ordinary (fun _ => rfl) rfl (fun _ => rfl)]
    rfl
  next e =>
    cases e
    left
    rw [visits_ordinary (fun _ => rfl) rfl (fun _ => rfl)]
    rfl
  next e =>
    cases e
    left
    rw [visits_ordinary (fun _ => rfl) rfl (fun _ => rfl)]
    rfl
  next name f e =>
    cases e
    left
    exact congrArg (declaredName name ++ ·) (append_empty _).symm
  next name c e =>
    cases e
    left
    exact congrArg (declaredName name ++ ·) (append_empty _).symm
  next e => cases e; cases h
  next e => cases e; cases h
  next e => cases e; cases h
  next e => cases e; cases h
  next e => cases e; cases h
  next e => cases e; cases h
  next param body e =>
    cases e
    left
    exact (gather_two ⟨param.bound ++ caught, .ordinary, param⟩
      ⟨param.bound ++ caught, .ordinary, body⟩).symm
  next head object body e =>
    cases e
    left
    rw [append_assoc, append_assoc, ← append_assoc (find _ _ _ head)]
    exact congrArg (_ ++ ·)
      (gather_three ⟨caught, .head, head⟩ ⟨caught, .ordinary, object⟩ ⟨caught, .body, body⟩).symm
  next awaits _ head object body e =>
    cases e
    left
    rw [append_assoc, append_assoc, ← append_assoc (find _ _ _ head)]
    exact congrArg (_ ++ ·)
      (gather_three ⟨caught, .head, head⟩ ⟨caught, .ordinary, object⟩ ⟨caught, .body, body⟩).symm
  next first test step body e =>
    cases e
    left
    rw [append_assoc, append_assoc, ← append_assoc (find _ _ _ test)]
    exact congrArg (_ ++ ·)
      (gather_three ⟨caught, .ordinary, test⟩ ⟨caught, .ordinary, step⟩ ⟨caught, .body, body⟩).symm
  next test body e =>
    cases e
    left
    exact (gather_two ⟨caught, .ordinary, test⟩ ⟨caught, .body, body⟩).symm
  next body test e =>
    cases e
    left
    exact (gather_two ⟨caught, .body, body⟩ ⟨caught, .ordinary, test⟩).symm
  next test yes no e =>
    cases e
    left
    exact (gather_three ⟨caught, .ordinary, test⟩ ⟨caught, .body, yes⟩ ⟨caught, .body, no⟩).symm
  next label body e =>
    cases e
    left
    exact (gather_two ⟨caught, .ordinary, label⟩ ⟨caught, .body, body⟩).symm
  next object body e =>
    cases e
    left
    exact (gather_two ⟨caught, .ordinary, object⟩ ⟨caught, .body, body⟩).symm
  next hvar hassign hupdate hfunction hclass _ _ _ _ _ _ hcatch hin hof hfor hwhile hdo hif
      hlabel hwith e =>
    cases e
    have hplain :=
      Unmarked.plain ⟨hvar, hassign, hupdate, hfunction, hclass, hcatch, hin, hof, hfor,
        hwhile, hdo, hif, hlabel, hwith⟩ span
    left
    rw [hplain.own, visits_ordinary hplain.isName hplain.catches hplain.placeIn]
    rfl

theorem written_own (text : Text) (caught : List String) (place : Place) (n : Node) :
    (own text caught place n).written = notes n := by
  unfold own
  split
  next span ds =>
    rw [declaration]
    split
    next => rfl
    next => rfl
  next => rfl

theorem edits_own (text : Text) (caught : List String) (place : Place) (n : Node) :
    (own text caught place n).edits = [] := by
  unfold own
  split
  next span ds =>
    rw [declaration]
    split
    next => rfl
    next => rfl
  next => rfl

theorem declared_own_subset (text : Text) (caught : List String) (place : Place) (n : Node) :
    (own text caught place n).declared ⊆ declares n := by
  unfold own
  split
  next span ds =>
    rw [declaration]
    split
    next => exact List.nil_subset _
    next => exact List.Subset.refl _
  next => exact List.Subset.refl _

theorem mem_sites_own (h : site ∈ (own text caught place n).sites) :
    n.kind = .varDecl .hoisted false ∧ site.start = n.span.start ∧
      site.names = n.children.flatMap fun d => (d.child 0).bound := by
  unfold own at h
  split at h
  next span ds =>
    rw [declaration] at h
    split at h
    next => cases h
    next =>
      cases List.mem_singleton.1 h
      exact ⟨rfl, rfl, rfl⟩
  next => cases h

/-- One of the lists of which findings are made up. -/
structure Field (φ : Findings → List α) : Prop where
  empty : φ {} = []
  append : ∀ f g, φ (f ++ g) = φ f ++ φ g

theorem field_declared : Field Findings.declared := ⟨rfl, fun _ _ => rfl⟩

theorem field_written : Field Findings.written := ⟨rfl, fun _ _ => rfl⟩

theorem field_sites : Field Findings.sites := ⟨rfl, fun _ _ => rfl⟩

theorem field_edits : Field Findings.edits := ⟨rfl, fun _ _ => rfl⟩

variable {α : Type} {φ : Findings → List α} {text : Text}

theorem Field.gather_eq (hφ : Field φ) (visits : List Visit) :
    φ (gather text visits) = visits.flatMap fun v => φ (v.find text) := by
  induction visits with
  | nil => rw [gather, hφ.empty, List.flatMap_nil]
  | cons v visits ih => rw [gather, hφ.append, ih, List.flatMap_cons]

theorem Field.mem_findAll (hφ : Field φ) (caught : List String) (ns : List Node) :
    x ∈ φ (findAll text caught ns) ↔ ∃ n ∈ ns, x ∈ φ (find text caught .ordinary n) := by
  rw [← gather_map, hφ.gather_eq, List.flatMap_map]
  exact List.mem_flatMap

theorem Field.perm_find (hφ : Field φ) (h : ofNode? n = none) (caught : List String)
    (place : Place) :
    (φ (find text caught place n)).Perm
      (φ (own text caught place n) ++ (visits caught n).flatMap fun v => φ (v.find text)) := by
  rw [← hφ.gather_eq]
  rcases find_parts h text caught place with hfind | hfind
  · rw [hfind, hφ.append]
  · rw [hfind, hφ.append]
    exact List.perm_append_comm

theorem Field.mem_find (hφ : Field φ) (h : ofNode? n = none) :
    x ∈ φ (find text caught place n) ↔
      x ∈ φ (own text caught place n) ∨ ∃ v ∈ visits caught n, x ∈ φ (v.find text) := by
  rw [(hφ.perm_find h caught place).mem_iff, List.mem_append, List.mem_flatMap]

end Uplift.VarToConst
