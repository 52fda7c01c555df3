import Uplift.Proofs.Layout
import Uplift.Proofs.Made

namespace Uplift.VarToConst

set_option autoImplicit true

open Scope Findings

/--
The nodes above a node, the nearest first, each with the place of the child through which the way
leads.
-/
abbrev Path := List (Node × Nat)

structure Occurrence where
  node : Node
  above : Path

mutual

/-- The nodes of a tree, apart from the names of declarations. -/
def occurrences (above : Path) : Node → List Occurrence
  | .mk k span cs => ⟨.mk k span cs, above⟩ :: occurrencesAll (.mk k span cs) above 0 cs

def occurrencesAll (parent : Node) (above : Path) : Nat → List Node → List Occurrence
  | _, [] => []
  | i, c :: cs => (if isName parent i then [] else occurrences ((parent, i) :: above) c)
      ++ occurrencesAll parent above (i + 1) cs

end

def placeAt : Path → Place
  | [] => .ordinary
  | (n, i) :: _ => placeIn n i

def caughtAt (above : Path) : List String := above.flatMap fun (n, _) => catches n

/-- A scope of `var`: the names of its parameters, and the trees whose scope it is. -/
structure Realm where
  parameters : List String
  parts : List Node

def Realm.ofScope (n : Node) : Realm := ⟨VarToConst.parameters n, n.children⟩

def Realm.ofNode? (n : Node) : Option Realm :=
  if (Scope.ofNode? n).isSome then some (ofScope n) else none

def Realm.ofProgram (p : Program) : Realm := ⟨[], [p.tree]⟩

def realms (above : Path) : List Realm := above.filterMap fun (n, _) => Realm.ofNode? n

def members (n : Node) : List Occurrence :=
  (occurrences [] n).filter fun o => (realms o.above).isEmpty

section Rule

variable (counts : Node → Bool)

def isConsidered (n : Node) : Bool := n.kind = .varDecl .hoisted false && counts n

def declaredBy (n : Node) : List String :=
  if n.kind = .varDecl .hoisted false && !counts n then [] else declares n

def Realm.declared (s : Realm) : List String :=
  s.parameters ++ s.parts.flatMap fun c => (members c).flatMap fun o => declaredBy counts o.node

/-- A name is written in a tree where no scope inside declares it. -/
def Escapes (w : String) (n : Node) : Prop :=
  ∃ o ∈ occurrences [] n, w ∈ notes o.node ∧ ∀ r ∈ realms o.above, w ∉ r.declared counts

def Realm.Written (s : Realm) (w : String) : Prop := ∃ c ∈ s.parts, Escapes counts w c

/-- A declaration of a scope stays as it is. -/
def Stays (s : Realm) (o : Occurrence) : Prop :=
  placeAt o.above = .body ∨
  (placeAt o.above = .head ∧ ∃ d ∈ o.node.children, lacksValue d = false) ∨
  (∃ w ∈ declares o.node, w ∈ caughtAt o.above) ∨
  ∃ w ∈ declares o.node, 1 < (s.declared counts).count w

def Constant (s : Realm) (o : Occurrence) : Prop :=
  (placeAt o.above = .head ∨ ∀ d ∈ o.node.children, lacksValue d = false) ∧
  ∀ w ∈ declares o.node, ¬s.Written counts w

instance (w : String) (n : Node) : Decidable (Escapes counts w n) := by
  unfold Escapes
  infer_instance

instance (s : Realm) (w : String) : Decidable (s.Written counts w) := by
  unfold Realm.Written
  infer_instance

instance (s : Realm) (o : Occurrence) : Decidable (Stays counts s o) := by
  unfold Stays
  infer_instance

instance (s : Realm) (o : Occurrence) : Decidable (Constant counts s o) := by
  unfold Constant
  infer_instance

/-- What a node becomes that is a declaration of the scope. -/
def verdict (s : Realm) (o : Occurrence) : Option Declaring :=
  if isConsidered counts o.node ∧ ¬Stays counts s o then
    some (if Constant counts s o then .constant else .scoped)
  else none

/-- The edit of a node of a program, unless the node stays as it is. -/
def Occurrence.edit? (program : Realm) (o : Occurrence) : Option Edit :=
  (verdict counts ((realms o.above).headD program) o).map fun declaring =>
    (Edit.replacing ⟨o.node.span.start, o.node.span.start + 3⟩).string declaring.keyword

end Rule

def Occurrence.under (base : Path) (o : Occurrence) : Occurrence := ⟨o.node, o.above ++ base⟩

theorem occurrencesAll_eq (parent : Node) (above : Path) (i : Nat) (cs : List Node) :
    occurrencesAll parent above i cs = ((cs.zipIdx i).filter fun c => !isName parent c.2).flatMap
      fun c => occurrences ((parent, c.2) :: above) c.1 := by
  induction cs generalizing i with
  | nil => rfl
  | cons c cs ih =>
    rw [occurrencesAll, ih, List.zipIdx_cons]
    cases hname : isName parent i with
    | true => simp [hname]
    | false => simp [hname]

theorem occurrences_eq (above : Path) (n : Node) :
    occurrences above n =
      ⟨n, above⟩ :: (parts n).flatMap fun c => occurrences ((n, c.2) :: above) c.1 := by
  obtain ⟨k, span, cs⟩ := n
  rw [occurrences, occurrencesAll_eq]
  rfl

theorem occurrences_under (base above : Path) (n : Node) :
    occurrences (above ++ base) n = (occurrences above n).map (·.under base) := by
  induction n using Node.induct generalizing above with
  | mk k span cs ih =>
    rw [occurrences_eq, occurrences_eq, List.map_cons, List.map_flatMap]
    congr 1
    apply List.flatMap_congr
    intro c hc
    exact ih c.1 (mem_children_of_mem_parts hc) (_ :: above)

theorem occurrences_child (n : Node) :
    occurrences [] n =
      ⟨n, []⟩ :: (parts n).flatMap fun c => (occurrences [] c.1).map (·.under [(n, c.2)]) := by
  rw [occurrences_eq]
  congr 1
  apply List.flatMap_congr
  intro c _
  exact occurrences_under [(n, c.2)] [] c.1

theorem realms_append (above base : Path) : realms (above ++ base) = realms above ++ realms base :=
  List.filterMap_append

theorem realms_under_of_scope (h : ofNode? n = some s) (i : Nat) (o : Occurrence) :
    realms (o.under [(n, i)]).above = realms o.above ++ [.ofScope n] := by
  simp [Occurrence.under, realms, Realm.ofNode?, h]

theorem realms_under_of_none (h : ofNode? n = none) (i : Nat) (o : Occurrence) :
    realms (o.under [(n, i)]).above = realms o.above := by
  simp [Occurrence.under, realms, Realm.ofNode?, h]

def insiders (n : Node) : List Occurrence :=
  (occurrences [] n).filter fun o => !(realms o.above).isEmpty

theorem members_append_insiders (n : Node) : (members n ++ insiders n).Perm (occurrences [] n) :=
  List.filter_append_perm _ _

theorem members_of_scope (h : ofNode? n = some s) : members n = [⟨n, []⟩] := by
  rw [members, occurrences_child, List.filter_cons_of_pos rfl, List.filter_flatMap]
  congr 1
  apply List.flatMap_eq_nil_iff.2
  intro c _
  simp [List.filter_map, Function.comp_def, realms_under_of_scope h]

theorem insiders_of_scope (h : ofNode? n = some s) :
    insiders n = (parts n).flatMap fun c => (occurrences [] c.1).map (·.under [(n, c.2)]) := by
  rw [insiders, occurrences_child, List.filter_cons_of_neg Bool.false_ne_true, List.filter_flatMap]
  apply List.flatMap_congr
  intro c _
  apply List.filter_eq_self.2
  intro o ho
  obtain ⟨o, _, rfl⟩ := List.mem_map.1 ho
  simp [realms_under_of_scope h]

theorem members_of_none (h : ofNode? n = none) :
    members n = ⟨n, []⟩ :: (parts n).flatMap fun c => (members c.1).map (·.under [(n, c.2)]) := by
  rw [members, occurrences_child, List.filter_cons_of_pos rfl, List.filter_flatMap]
  simp only [List.filter_map, Function.comp_def, realms_under_of_none h, members]

theorem insiders_of_none (h : ofNode? n = none) :
    insiders n = (parts n).flatMap fun c => (insiders c.1).map (·.under [(n, c.2)]) := by
  rw [insiders, occurrences_child, List.filter_cons_of_neg Bool.false_ne_true, List.filter_flatMap]
  simp only [List.filter_map, Function.comp_def, realms_under_of_none h, insiders]

def findAt (text : Text) (above : Path) (n : Node) : Findings :=
  find text (caughtAt above) (placeAt above) n

def ownAt (text : Text) (o : Occurrence) : Findings :=
  own text (caughtAt o.above) (placeAt o.above) o.node

def gatherAt (text : Text) (trees : List (Node × Path)) : Findings :=
  gather text (trees.map fun t => ⟨caughtAt t.2, placeAt t.2, t.1⟩)

def branches (above : Path) (n : Node) : List (Node × Path) :=
  (parts n).map fun c => (c.1, (n, c.2) :: above)

theorem gather_visits (text : Text) (above : Path) (n : Node) :
    gather text (visits (caughtAt above) n) = gatherAt text (branches above n) := by
  rw [gatherAt, branches, List.map_map]
  rfl

theorem map_fst_branches (h : ofNode? n = some s) (above : Path) :
    (branches above n).map Prod.fst = n.children := by
  rw [branches, List.map_map, parts_eq_zipIdx (plain_of_scope h).isName]
  exact List.zipIdx_map_fst 0 n.children

theorem mem_children_of_mem_branches {t : Node × Path} (h : t ∈ branches above n) :
    t.1 ∈ n.children := by
  obtain ⟨c, hc, rfl⟩ := List.mem_map.1 h
  exact mem_children_of_mem_parts hc

variable {α : Type} {φ : Findings → List α} {text : Text}

theorem Field.gatherAt_eq (hφ : Field φ) (trees : List (Node × Path)) :
    φ (gatherAt text trees) = trees.flatMap fun t => φ (findAt text t.2 t.1) := by
  rw [gatherAt, hφ.gather_eq, List.flatMap_map]
  rfl

theorem Field.perm_parts (hφ : Field φ) (h : ofNode? n = none) (above : Path) :
    (φ (findAt text above n)).Perm
      (φ (ownAt text ⟨n, above⟩) ++ φ (gatherAt text (branches above n))) := by
  rw [← gather_visits, hφ.gather_eq]
  exact hφ.perm_find h (caughtAt above) (placeAt above)

theorem Field.perm_members (hφ : Field φ) (hclose : ∀ ps f, φ (close ps f) = []) (above : Path)
    (n : Node) :
    (φ (findAt text above n)).Perm ((members n).flatMap fun o =>
      φ (ownAt text (o.under above))) := by
  induction n using Node.induct generalizing above with
  | mk k span cs ih =>
    cases hs : ofNode? (.mk k span cs) with
    | some s =>
      rw [members_of_scope hs, List.flatMap_singleton, ownAt, Occurrence.under,
        (plain_of_scope hs).own, hφ.empty, findAt, find_realm hs, hclose]
    | none =>
      rw [members_of_none hs, List.flatMap_cons, List.flatMap_assoc]
      apply (hφ.perm_parts hs above).trans
      apply List.Perm.append_left
      rw [hφ.gatherAt_eq, branches, List.flatMap_map]
      apply List.Perm.flatMap_left
      intro c hc
      rw [List.flatMap_map]
      apply (ih c.1 (mem_children_of_mem_parts hc) _).trans
      apply List.Perm.of_eq
      apply List.flatMap_congr
      intro o _
      simp [Occurrence.under]

/-- Whether the text of a declaration starts with its keyword. -/
def reads (text : Text) (n : Node) : Bool := (keyword? text n).isSome

theorem declared_own (text : Text) (caught : List String) (place : Place) (n : Node) :
    (own text caught place n).declared = declaredBy (reads text) n := by
  unfold own
  split
  next span ds =>
    rw [declaration, declaredBy, reads, keyword?]
    by_cases h : (text.drop span.start).take 3 = Text.ofString "var"
    · simp [h, declares]
    · simp [h, Node.kind]
  next hvar =>
    obtain ⟨k, span, cs⟩ := n
    have hkind : k ≠ .varDecl .hoisted false := by
      rintro rfl
      exact hvar _ _ rfl
    simp [declaredBy, Node.kind, hkind]

theorem perm_declared (text : Text) (s : Realm) (trees : List (Node × Path))
    (h : s.parts = trees.map Prod.fst) :
    (s.parameters ++ (gatherAt text trees).declared).Perm (s.declared (reads text)) := by
  rw [Realm.declared, h, field_declared.gatherAt_eq, List.flatMap_map]
  apply List.Perm.append_left
  apply List.Perm.flatMap_left
  intro t _
  apply (field_declared.perm_members (fun _ _ => rfl) t.2 t.1).trans
  apply List.Perm.of_eq
  apply List.flatMap_congr
  intro o _
  exact declared_own text _ _ o.node

theorem exists_mem_occurrences_iff {P : Occurrence → Prop} :
    (∃ o ∈ occurrences [] n, P o) ↔
      P ⟨n, []⟩ ∨ ∃ c ∈ parts n, ∃ o ∈ occurrences [] c.1, P (o.under [(n, c.2)]) := by
  rw [occurrences_child]
  simp only [List.mem_cons, exists_eq_or_imp, List.mem_flatMap, List.mem_map]
  apply or_congr_right
  constructor
  · rintro ⟨_, ⟨c, hc, o, ho, rfl⟩, h⟩
    exact ⟨c, hc, o, ho, h⟩
  · rintro ⟨c, hc, o, ho, h⟩
    exact ⟨_, ⟨c, hc, o, ho, rfl⟩, h⟩

theorem escapes_iff_of_none (h : ofNode? n = none) :
    Escapes counts w n ↔ w ∈ notes n ∨ ∃ c ∈ parts n, Escapes counts w c.1 := by
  rw [Escapes, exists_mem_occurrences_iff]
  simp only [realms_under_of_none h]
  apply or_congr_left
  exact and_iff_left fun r hr => nomatch hr

theorem escapes_iff_of_scope (h : ofNode? n = some s) :
    Escapes counts w n ↔
      w ∉ (Realm.ofScope n).declared counts ∧ ∃ c ∈ parts n, Escapes counts w c.1 := by
  have hnotes : notes n = [] := by
    rw [← written_own [] [] .ordinary, (plain_of_scope h).own]
  rw [Escapes, exists_mem_occurrences_iff]
  simp only [realms_under_of_scope h, hnotes, List.not_mem_nil, false_and, false_or]
  simp only [List.forall_mem_append, List.forall_mem_singleton]
  constructor
  · rintro ⟨c, hc, o, ho, hw, hinner, hn⟩
    exact ⟨hn, c, hc, o, ho, hw, hinner⟩
  · rintro ⟨hn, c, hc, o, ho, hw, hinner⟩
    exact ⟨c, hc, o, ho, hw, hinner, hn⟩

theorem exists_branch_iff (above : Path) {P : Node → Prop} :
    (∃ t ∈ branches above n, P t.1) ↔ ∃ c ∈ parts n, P c.1 := by
  simp only [branches, List.mem_map]
  constructor
  · rintro ⟨_, ⟨c, hc, rfl⟩, h⟩
    exact ⟨c, hc, h⟩
  · rintro ⟨c, hc, h⟩
    exact ⟨_, ⟨c, hc, rfl⟩, h⟩

theorem mem_written_iff (above : Path) (n : Node) :
    w ∈ (findAt text above n).written ↔ Escapes (reads text) w n := by
  induction n using Node.induct generalizing above with
  | mk k span cs ih =>
    have hparts : w ∈ (gatherAt text (branches above (.mk k span cs))).written ↔
        ∃ c ∈ parts (.mk k span cs), Escapes (reads text) w c.1 := by
      rw [field_written.gatherAt_eq, List.mem_flatMap, ← exists_branch_iff above]
      apply exists_congr
      intro t
      apply and_congr_right
      intro ht
      exact ih t.1 (mem_children_of_mem_branches ht) t.2
    cases hs : ofNode? (.mk k span cs) with
    | none =>
      rw [(field_written.perm_parts hs above).mem_iff, List.mem_append, hparts,
        escapes_iff_of_none hs, ownAt, written_own]
    | some s =>
      have hdeclared :=
        perm_declared text (.ofScope (.mk k span cs)) _ (map_fst_branches hs above).symm
      rw [escapes_iff_of_scope hs, ← hparts, ← hdeclared.mem_iff, findAt, find_realm hs,
        gather_visits, close, List.mem_filter, Bool.not_eq_true', ← Bool.not_eq_true,
        List.contains_iff_mem, and_comm]
      exact Iff.rfl

def Occurrence.site (o : Occurrence) : Site where
  start := o.node.span.start
  names := declares o.node
  uninitialized := placeAt o.above ≠ .head && o.node.children.any lacksValue
  blocked := (caughtAt o.above).any (declares o.node).contains || placeAt o.above = .body
    || (placeAt o.above = .head && o.node.children.any fun d => !lacksValue d)

theorem sites_ownAt (text : Text) (o : Occurrence) :
    (ownAt text o).sites = if isConsidered (reads text) o.node then [o.site] else [] := by
  obtain ⟨⟨k, span, cs⟩, above⟩ := o
  by_cases hkind : k = .varDecl .hoisted false
  · subst hkind
    by_cases hreads : (text.drop span.start).take 3 = Text.ofString "var"
    · simp [ownAt, own, declaration, isConsidered, reads, keyword?, hreads, Node.kind,
        Occurrence.site, declares, Node.span, Node.children]
    · simp [ownAt, own, declaration, isConsidered, reads, keyword?, hreads]
  · have hown : own text (caughtAt above) (placeAt above) (.mk k span cs) =
        { declared := declares (.mk k span cs), written := notes (.mk k span cs) } := by
      rw [own]
      rintro _ _ ⟨⟩
      exact hkind rfl
    simp [ownAt, hown, isConsidered, Node.kind, hkind]

theorem stays_iff (counts : Node → Bool) (s : Realm) (o : Occurrence) :
    Stays counts s o ↔
      o.site.blocked = true ∨ ∃ w ∈ o.site.names, 1 < (s.declared counts).count w := by
  have hcaught : (∃ w ∈ caughtAt o.above, w ∈ declares o.node) ↔
      ∃ w ∈ declares o.node, w ∈ caughtAt o.above :=
    exists_congr fun _ => and_comm
  simp only [Occurrence.site, Stays, Bool.or_eq_true, Bool.and_eq_true, List.any_eq_true,
    List.contains_iff_mem, decide_eq_true_eq, Bool.not_eq_true', hcaught]
  grind

/-- What has been found tells as much as the rule about the names of a scope. -/
structure Knows (text : Text) (f : Findings) (s : Realm) : Prop where
  count : ∀ w, f.declared.count w = (s.declared (reads text)).count w
  written : ∀ w, w ∈ f.written ↔ s.Written (reads text) w

theorem Knows.stays_iff (h : Knows text f s) (o : Occurrence) :
    (o.site.blocked || o.site.names.any fun w => 1 < f.declared.count w) = true ↔
    Stays (reads text) s o := by
  simp only [VarToConst.stays_iff, h.count, Bool.or_eq_true, List.any_eq_true, decide_eq_true_eq]

theorem Knows.constant_iff (h : Knows text f s) (o : Occurrence) :
    (o.site.uninitialized || o.site.names.any f.written.contains) = true ↔
    ¬Constant (reads text) s o := by
  have hvalues : (∀ d ∈ o.node.children, lacksValue d = false) ↔
      ¬∃ d ∈ o.node.children, lacksValue d = true := by
    simp
  have hnames : (∀ w ∈ declares o.node, ¬s.Written (reads text) w) ↔
      ¬∃ w ∈ declares o.node, s.Written (reads text) w := by
    simp
  simp only [Occurrence.site, Constant, Bool.or_eq_true, Bool.and_eq_true, List.any_eq_true,
    List.contains_iff_mem, h.written, decide_eq_true_eq, hvalues, hnames]
  rw [not_and_or, not_or, not_not, not_not]

theorem Knows.edit? (h : Knows text f s) (o : Occurrence) :
    (ownAt text o).sites.filterMap f.edit? =
      ((verdict (reads text) s o).map fun declaring =>
        (Edit.replacing ⟨o.node.span.start, o.node.span.start + 3⟩).string
          declaring.keyword).toList := by
  rw [sites_ownAt, verdict]
  by_cases hconsidered : isConsidered (reads text) o.node = true
  · have hsingle : [o.site].filterMap f.edit? = (f.edit? o.site).toList := by
      cases he : f.edit? o.site <;> simp [he]
    rw [if_pos hconsidered, hsingle, Findings.edit?]
    by_cases hstays : Stays (reads text) s o
    · rw [if_pos ((h.stays_iff o).2 hstays), if_neg (fun hboth => hboth.2 hstays)]
      rfl
    · have hboth : isConsidered (reads text) o.node = true ∧ ¬Stays (reads text) s o :=
        ⟨hconsidered, hstays⟩
      rw [if_neg (mt (h.stays_iff o).1 hstays), if_pos hboth]
      by_cases hconstant : Constant (reads text) s o
      · rw [if_pos hconstant, if_neg (fun hdirty => (h.constant_iff o).1 hdirty hconstant)]
        rfl
      · rw [if_neg hconstant, if_pos ((h.constant_iff o).2 hconstant)]
        rfl
  · rw [if_neg hconsidered, if_neg (fun hboth => hconsidered hboth.1)]
    rfl

def withParameters (params : List String) (f : Findings) : Findings :=
  { f with declared := params ++ f.declared }

theorem edits_close (params : List String) (f : Findings) :
    (close params f).edits = f.edits ++ f.sites.filterMap (withParameters params f).edit? := rfl

theorem knows_gatherAt (text : Text) (s : Realm) (trees : List (Node × Path))
    (h : s.parts = trees.map Prod.fst) :
    Knows text (withParameters s.parameters (gatherAt text trees)) s where
  count w := (perm_declared text s trees h).count_eq w
  written w := by
    change w ∈ (gatherAt text trees).written ↔ _
    rw [field_written.gatherAt_eq, List.mem_flatMap, Realm.Written, h]
    simp only [List.mem_map, mem_written_iff]
    constructor
    · rintro ⟨t, ht, hw⟩
      exact ⟨t.1, ⟨t, ht, rfl⟩, hw⟩
    · rintro ⟨_, ⟨t, ht, rfl⟩, hw⟩
      exact ⟨t, ht, hw⟩

theorem nearest_of_members (ho : o ∈ members n) (base : Path) (program : Realm) :
    (realms (o.under base).above).headD program = (realms base).headD program := by
  have hempty : realms o.above = [] := List.isEmpty_iff.1 (List.mem_filter.1 ho).2
  rw [Occurrence.under, realms_append, hempty, List.nil_append]

/-- The edits of a scope: those of its own declarations, and those of the scopes inside. -/
theorem perm_edits_close (s program : Realm) (trees : List (Node × Path))
    (hparts : s.parts = trees.map Prod.fst) (hnearest : ∀ t ∈ trees, (realms t.2).headD program = s)
    (hedits : ∀ t ∈ trees,
      (findAt text t.2 t.1).edits.Perm ((insiders t.1).filterMap fun o =>
        (o.under t.2).edit? (reads text) program)) :
    (close s.parameters (gatherAt text trees)).edits.Perm
      (trees.flatMap fun t => (occurrences [] t.1).filterMap fun o =>
        (o.under t.2).edit? (reads text) program) := by
  have hknows := knows_gatherAt text s trees hparts
  have hown : ∀ t ∈ trees, ((findAt text t.2 t.1).sites.filterMap
      (withParameters s.parameters (gatherAt text trees)).edit?).Perm
      ((members t.1).filterMap fun o => (o.under t.2).edit? (reads text) program) := by
    intro t ht
    apply ((field_sites.perm_members (fun _ _ => rfl) t.2 t.1).filterMap _).trans
    rw [List.filterMap_flatMap, List.filterMap_eq_flatMap_toList]
    apply List.Perm.of_eq
    apply List.flatMap_congr
    intro o ho
    rw [hknows.edit?, Occurrence.edit?, nearest_of_members ho, hnearest t ht]
  rw [edits_close, field_edits.gatherAt_eq, field_sites.gatherAt_eq, List.filterMap_flatMap]
  apply (List.flatMap_append_perm _ _ _).trans
  apply List.Perm.flatMap_left
  intro t ht
  apply ((hedits t ht).append (hown t ht)).trans
  rw [← List.filterMap_append]
  apply List.Perm.filterMap
  exact List.perm_append_comm.trans (members_append_insiders t.1)

theorem perm_edits (program : Realm) (above : Path) (n : Node) :
    (findAt text above n).edits.Perm
      ((insiders n).filterMap fun o => (o.under above).edit? (reads text) program) := by
  induction n using Node.induct generalizing above with
  | mk k span cs ih =>
    cases hs : ofNode? (.mk k span cs) with
    | none =>
      apply (field_edits.perm_parts hs above).trans
      rw [ownAt, edits_own, List.nil_append, field_edits.gatherAt_eq, insiders_of_none hs, branches,
        List.flatMap_map, List.filterMap_flatMap]
      apply List.Perm.flatMap_left
      intro c hc
      apply (ih c.1 (mem_children_of_mem_parts hc) _).trans
      rw [List.filterMap_map]
      apply List.Perm.of_eq
      apply List.filterMap_congr
      intro o _
      simp [Occurrence.under]
    | some s =>
      rw [findAt, find_realm hs, gather_visits, insiders_of_scope hs]
      have hnearest : ∀ t ∈ branches above (.mk k span cs),
          (realms t.2).headD program = .ofScope (.mk k span cs) := by
        intro t ht
        obtain ⟨c, _, rfl⟩ := List.mem_map.1 ht
        simp [realms, Realm.ofNode?, hs]
      have hbranches : ∀ t ∈ branches above (.mk k span cs), (findAt text t.2 t.1).edits.Perm
          ((insiders t.1).filterMap fun o => (o.under t.2).edit? (reads text) program) :=
        fun t ht => ih t.1 (mem_children_of_mem_branches ht) t.2
      apply (perm_edits_close _ program _ (map_fst_branches hs above).symm hnearest hbranches).trans
      rw [branches, List.flatMap_map, List.filterMap_flatMap]
      apply List.Perm.of_eq
      apply List.flatMap_congr
      intro c _
      rw [List.filterMap_map]
      apply List.filterMap_congr
      intro o _
      simp [Occurrence.under]

theorem mem_subtrees_of_occurrence (h : o ∈ occurrences [] n) :
    o.node ∈ n.subtrees ∧ ∀ x ∈ o.above, x.1 ∈ n.subtrees := by
  induction n using Node.induct generalizing o with
  | mk k span cs ih =>
    rw [occurrences_child, List.mem_cons, List.mem_flatMap] at h
    rcases h with rfl | ⟨c, hc, h⟩
    · exact ⟨Node.mem_walk_self _ _, nofun⟩
    · obtain ⟨o, ho, rfl⟩ := List.mem_map.1 h
      have hchild := mem_children_of_mem_parts hc
      obtain ⟨hnode, habove⟩ := ih c.1 hchild ho
      refine ⟨Node.mem_subtrees_of_mem_child hchild hnode, ?_⟩
      intro x hx
      rcases List.mem_append.1 hx with hx | hx
      · exact Node.mem_subtrees_of_mem_child hchild (habove x hx)
      · cases List.mem_singleton.1 hx
        exact Node.mem_walk_self _ _

def Agree (counts counts' : Node → Bool) (n : Node) : Prop :=
  ∀ m ∈ n.subtrees, m.kind = .varDecl .hoisted false → counts m = counts' m

theorem Agree.child (h : Agree counts counts' n) (hm : m ∈ n.subtrees) (hc : c ∈ m.children) :
    Agree counts counts' c :=
  fun x hx => h x (Node.mem_subtrees_trans hm (Node.mem_subtrees_of_mem_child hc hx))

theorem Agree.declaredBy (h : Agree counts counts' n) (hm : m ∈ n.subtrees) :
    declaredBy counts m = declaredBy counts' m := by
  by_cases hkind : m.kind = .varDecl .hoisted false
  · rw [VarToConst.declaredBy, VarToConst.declaredBy, h m hm hkind]
  · simp only [VarToConst.declaredBy, hkind, decide_false, Bool.false_and]

theorem Realm.declared_congr {s : Realm} (h : ∀ c ∈ s.parts, Agree counts counts' c) :
    s.declared counts = s.declared counts' := by
  rw [Realm.declared, Realm.declared]
  apply congrArg
  apply List.flatMap_congr
  intro c hc
  apply List.flatMap_congr
  intro o ho
  exact (h c hc).declaredBy (mem_subtrees_of_occurrence (List.mem_of_mem_filter ho)).1

theorem Agree.realm (h : Agree counts counts' n) (ho : o ∈ occurrences [] n)
    (hr : r ∈ realms o.above) : ∀ c ∈ r.parts, Agree counts counts' c := by
  obtain ⟨⟨m, i⟩, hx, hr⟩ := List.mem_filterMap.1 hr
  have hm := (mem_subtrees_of_occurrence ho).2 _ hx
  change Realm.ofNode? m = some r at hr
  rw [Realm.ofNode?] at hr
  split at hr
  · cases hr
    exact fun c hc => h.child hm hc
  · cases hr

theorem Agree.escapes (h : Agree counts counts' n) : Escapes counts w n ↔ Escapes counts' w n := by
  rw [Escapes, Escapes]
  apply exists_congr
  intro o
  apply and_congr_right
  intro ho
  apply and_congr_right
  intro _
  apply forall₂_congr
  intro r hr
  rw [Realm.declared_congr (h.realm ho hr)]

theorem verdict_congr {s : Realm} (h : ∀ c ∈ s.parts, Agree counts counts' c)
    (ho : o.node.kind = .varDecl .hoisted false → counts o.node = counts' o.node) :
    verdict counts s o = verdict counts' s o := by
  have hconsidered : isConsidered counts o.node = isConsidered counts' o.node := by
    by_cases hkind : o.node.kind = .varDecl .hoisted false
    · rw [isConsidered, isConsidered, ho hkind]
    · simp only [isConsidered, hkind, decide_false, Bool.false_and]
  have hwritten (w : String) : s.Written counts w ↔ s.Written counts' w :=
    exists_congr fun c => and_congr_right fun hc => (h c hc).escapes
  have hstays : Stays counts s o ↔ Stays counts' s o := by
    rw [Stays, Stays, Realm.declared_congr h]
  have hconstant : Constant counts s o ↔ Constant counts' s o := by
    simp only [Constant, hwritten]
  simp only [verdict, hconsidered, hstays, hconstant]

theorem Occurrence.edit?_congr (h : Agree counts counts' p.tree) (ho : o ∈ occurrences [] p.tree) :
    o.edit? counts (.ofProgram p) = o.edit? counts' (.ofProgram p) := by
  have hparts : ∀ c ∈ ((realms o.above).headD (.ofProgram p)).parts, Agree counts counts' c := by
    cases hrealms : realms o.above with
    | nil =>
      intro c hc
      cases List.mem_singleton.1 hc
      exact h
    | cons r rest =>
      have hr : r ∈ realms o.above := by
        rw [hrealms]
        exact List.mem_cons_self
      exact h.realm ho hr
  rw [Occurrence.edit?, Occurrence.edit?,
    verdict_congr hparts (h _ (mem_subtrees_of_occurrence ho).1)]

theorem edits_perm (p : Program) :
    (edits p).Perm ((occurrences [] p.tree).filterMap fun o =>
      o.edit? (reads p.text) (.ofProgram p)) := by
  have htree : find p.text [] .ordinary p.tree = gatherAt p.text [(p.tree, [])] :=
    (append_empty _).symm
  rw [edits, htree]
  apply (perm_edits_close (.ofProgram p) (.ofProgram p) _ rfl ?_ ?_).trans
  · rw [List.flatMap_singleton]
    apply List.Perm.of_eq
    apply List.filterMap_congr
    intro o _
    simp [Occurrence.under]
  · intro t ht
    cases List.mem_singleton.1 ht
    rfl
  · intro t _
    exact perm_edits _ t.2 t.1

theorem cuts_eq_starts (p : Program) : Pass.cuts .varToConst p =
    (p.tree.subtrees.filter fun n => n.kind = .varDecl .hoisted false).map fun n =>
      n.span.start := by
  change p.tree.subtrees.filterMap start? = _
  rw [← List.filterMap_eq_map, List.filterMap_filter]
  apply List.filterMap_congr
  intro n _
  obtain ⟨k, span, cs⟩ := n
  rw [start?.eq_def]
  split
  next heq =>
    cases heq
    rfl
  next hvar =>
    have hkind : k ≠ .varDecl .hoisted false := by
      rintro rfl
      exact hvar _ _ rfl
    simp [Node.kind, hkind]

theorem reads_of_slice (hkind : n.kind = .varDecl .hoisted false)
    (h : Text.slice text ⟨n.span.start, n.span.start + 3⟩ = Text.ofString "var") :
    reads text n = true := by
  obtain ⟨k, span, cs⟩ := n
  cases hkind
  rw [Text.slice, List.drop_take, Nat.add_sub_cancel_left] at h
  have hstarts : (text.drop span.start).take 3 = Text.ofString "var" := h
  rw [reads, keyword?, if_pos hstarts]
  rfl

theorem isBoundary_of_reads (hkind : n.kind = .varDecl .hoisted false) (h : reads text n = true) :
    text.isBoundary n.span.start = true := by
  obtain ⟨k, span, cs⟩ := n
  cases hkind
  rw [reads, keyword?] at h
  split at h
  next hkeyword =>
    have hbyte : text[span.start]? = some (Text.ascii 'v') := by
      have hhead := congrArg List.head? hkeyword
      rwa [List.head?_take, if_neg (by decide), List.head?_drop] at hhead
    have hstarts : (Text.continuation? (Text.ascii 'v')).isNone = true := by decide
    rw [Text.isBoundary, Node.span, hbyte, Option.any_some, hstarts, Bool.or_true]
  next => cases h

/--
The pass cuts a character just if a declaration by `var` seems to begin inside one. Otherwise its
edits are those that the rule makes of the nodes of the program, where the declarations are
considered whose text starts with the keyword. These are all of them if every declaration does so.
-/
theorem edits_perm_verdicts (p : Program) :
    (Pass.edits? .varToConst p = none ↔ ∃ n ∈ p.tree.subtrees,
      n.kind = .varDecl .hoisted false ∧ p.text.isBoundary n.span.start = false) ∧
    (∀ es, Pass.edits? .varToConst p = some es →
      es.Perm ((occurrences [] p.tree).filterMap fun o => o.edit? (reads p.text) (.ofProgram p))) ∧
    ((∀ n ∈ p.tree.subtrees, n.kind = .varDecl .hoisted false →
        Text.slice p.text ⟨n.span.start, n.span.start + 3⟩ = Text.ofString "var") →
      ∃ es, Pass.edits? .varToConst p = some es ∧
        es.Perm ((occurrences [] p.tree).filterMap fun o =>
          o.edit? (fun _ => true) (.ofProgram p))) := by
  have hclean : p.text.cutsCleanly (Pass.cuts .varToConst p) = true ↔
      ∀ n ∈ p.tree.subtrees, n.kind = .varDecl .hoisted false →
        p.text.isBoundary n.span.start = true := by
    rw [Text.cutsCleanly, cuts_eq_starts, List.all_map, List.all_eq_true]
    simp only [List.mem_filter, decide_eq_true_eq, Function.comp_apply, and_imp]
  refine ⟨?_, ?_, ?_⟩
  · rw [Pass.edits?, ite_eq_right_iff]
    simp only [reduceCtorEq, imp_false, hclean]
    simp
  · intro es hes
    rw [Pass.edits?] at hes
    split at hes
    · cases hes
      exact edits_perm p
    · cases hes
  · intro hall
    have hreads : Agree (reads p.text) (fun _ => true) p.tree :=
      fun n hn hkind => reads_of_slice hkind (hall n hn hkind)
    refine ⟨edits p, ?_, ?_⟩
    · rw [Pass.edits?,
        if_pos (hclean.2 fun n hn hkind => isBoundary_of_reads hkind (hreads n hn hkind))]
      rfl
    · rw [List.filterMap_congr fun o ho => (Occurrence.edit?_congr hreads ho).symm]
      exact edits_perm p

/--
Behind a comment of an old page, which counts to the first declaration, the second one is changed,
though both declare one name. Behind a mark, a declaration can seem to begin inside a character.
-/
theorem verdicts_behind_comment :
    (∃ p ∈ (Program.parse .ecmascript (Text.ofString "<!-- c\nvar a = 1;\nvar a = 2;\n")).toOption,
      Pass.edits? .varToConst p = some [(Edit.replacing ⟨18, 21⟩).string "const"] ∧
      ((occurrences [] p.tree).filterMap fun o => o.edit? (fun _ => true) (.ofProgram p)) = []) ∧
    ∃ p ∈ (Program.parse .ecmascript (Text.ofString "\ufeff/*é*/var a = 1;")).toOption,
      Pass.edits? .varToConst p = none := by
  decide +kernel

end Uplift.VarToConst
