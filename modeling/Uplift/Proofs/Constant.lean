import Uplift.Proofs.Search

namespace Uplift.VarToConst

set_option autoImplicit true

open Scope Findings

/--
The names that are taken to be bound everywhere in a scope: those of its parameters and of all its
declarations, also of classes and functions in blocks.
-/
def counted (n : Node) : List String :=
  parameters n ++ (n.children.flatMap surface).flatMap declares

/-- The names in parentheses that a node writes unnoticed. -/
def concealed : Node → List String
  | .mk (.assign _) _ (.mk .paren _ _ :: _) => []
  | .mk (.assign _) _ (target :: _) => parenthesized target
  | .mk .forIn _ [head, _, _] => parenthesized head
  | .mk (.forOf _) _ [head, _, _] => parenthesized head
  | _ => []

def entered : Node → List Node
  | .mk .functionDecl _ [_, f] => [f]
  | .mk .classDecl _ [_, c] => [c]
  | n => n.children

theorem mem_targets_assign {target : Node} (h : w ∈ patternNames target ++ parenthesized target) :
    w ∈ (Node.mk (.assign op) span (target :: rest)).writes ∨
      w ∈ concealed (.mk (.assign op) span (target :: rest)) := by
  rw [List.mem_append] at h
  rw [Node.writes, Node.targetNames.eq_def]
  split
  next e =>
    rcases h with h | h
    · cases h
    · obtain ⟨m, hm, hw⟩ := List.mem_filterMap.1 h
      cases List.mem_singleton.1 hm
      exact .inl (Option.mem_toList.2 hw)
  next hparen =>
    rcases h with h | h
    · exact .inl (patternNames_subset _ h)
    · right
      obtain ⟨k, span', cs'⟩ := target
      by_cases hk : k = .paren
      · subst k
        obtain ⟨m, hm, hw⟩ := List.mem_filterMap.1 h
        cases List.mem_singleton.1 hm
        rw [parenthesized?.eq_def] at hw
        split at hw
        next e =>
          cases e
          exact absurd rfl (hparen _ _)
        next => cases hw
      · rw [concealed]
        · exact h
        · intro _ _ e
          cases e
          exact hk rfl

theorem mem_targets_head {pattern : Node} (h : w ∈ patternNames pattern ++ parenthesized pattern) :
    w ∈ pattern.headNames ∨ w ∈ parenthesized pattern := by
  rw [List.mem_append] at h
  rcases h with h | h
  · left
    obtain ⟨k, span, cs⟩ := pattern
    rw [Node.headNames]
    split
    next hk =>
      cases hk
      cases h
    next => exact patternNames_subset _ h
  · exact .inr h

theorem mem_notes_or_concealed (h : w ∈ targets n) : w ∈ notes n ∨ w ∈ concealed n := by
  rw [targets.eq_def] at h
  split at h
  next => exact mem_targets_assign h
  next => exact .inl h
  next => exact mem_targets_head h
  next => exact mem_targets_head h
  next => cases h

variable {α : Type} {φ : Findings → List α} {text : Text} {hoists : Node → Bool}

theorem map_node_visits (caught : List String) (n : Node) :
    (visits caught n).map Visit.node = entered n := by
  have hfst : (visits caught n).map Visit.node = (parts n).map Prod.fst := List.map_map
  obtain ⟨k, span, cs⟩ := n
  rw [hfst, entered.eq_def]
  split
  next e =>
    cases e
    rfl
  next e =>
    cases e
    rfl
  next hfunction hclass =>
    have hname : ∀ i, isName (.mk k span cs) i = false := by
      apply isName_eq_false
      · rintro _ _ rfl rfl
        exact hfunction _ _ _ rfl
      · rintro _ _ rfl rfl
        exact hclass _ _ _ rfl
    rw [parts_eq_zipIdx hname]
    exact List.zipIdx_map_fst 0 cs

theorem mem_children_of_mem_entered (h : m ∈ entered n) : m ∈ n.children := by
  rw [entered.eq_def] at h
  split at h
  next => exact List.mem_cons_of_mem _ h
  next => exact List.mem_cons_of_mem _ h
  next => exact h

theorem Field.exists_own (hφ : Field φ) (hclose : ∀ ps f, φ (close ps f) = [])
    (hx : x ∈ φ (find text caught place n)) :
    ∃ m ∈ surface n, ∃ caught place, x ∈ φ (own text caught place m) := by
  induction n using Node.induct generalizing caught place with
  | mk k span cs ih =>
    cases hs : ofNode? (.mk k span cs) with
    | some s =>
      rw [(find_scope hs text caught place).2, hclose] at hx
      cases hx
    | none =>
      rcases (hφ.mem_find hs).1 hx with hx | ⟨v, hv, hx⟩
      · exact ⟨_, Node.mem_walk_self _ _, caught, place, hx⟩
      · have hchild := mem_children_of_mem_visits hv
        obtain ⟨m, hm, hm'⟩ := ih _ hchild hx
        refine ⟨m, Node.mem_walk_of_mem_child ?_ hchild hm, hm'⟩
        rw [hs]
        rfl

theorem declared_subset_counted (caught : List String) :
    parameters n ++ (findAll text caught n.children).declared ⊆ counted n := by
  apply List.append_subset.2
  refine ⟨List.subset_append_left _ _, ?_⟩
  intro w hw
  obtain ⟨c, hc, hw⟩ := (field_declared.mem_findAll caught _).1 hw
  obtain ⟨m, hm, caught', place, hw⟩ := field_declared.exists_own (fun _ _ => rfl) hw
  refine List.mem_append_right _ (List.mem_flatMap.2 ⟨m, ?_, declared_own_subset _ _ _ _ hw⟩)
  exact List.mem_flatMap.2 ⟨c, hc, hm⟩

theorem exists_var (hs : site ∈ (findAll text caught ns).sites) :
    ∃ d ∈ ns.flatMap surface, d.kind = .varDecl .hoisted false ∧ site.start = d.span.start ∧
      site.names = d.children.flatMap fun d => (d.child 0).bound := by
  obtain ⟨c, hc, hs⟩ := (field_sites.mem_findAll _ _).1 hs
  obtain ⟨d, hd, caught', place, hs⟩ := field_sites.exists_own (fun _ _ => rfl) hs
  exact ⟨d, List.mem_flatMap.2 ⟨c, hc, hd⟩, mem_sites_own hs⟩

def Noticed (text : Text) (w : String) (n : Node) : Prop :=
  ∀ caught place, w ∈ (find text caught place n).written

theorem Noticed.of_entered (hs : ofNode? n = none) (hc : c ∈ entered n) (h : Noticed text w c) :
    Noticed text w n := by
  intro caught place
  rw [← map_node_visits caught] at hc
  obtain ⟨v, hv, rfl⟩ := List.mem_map.1 hc
  exact (field_written.mem_find hs).2 (.inr ⟨v, hv, h _ _⟩)

/-- `Below m n`: no write in `m` is lost on the way to `n`. -/
def Below (m n : Node) : Prop := ∀ text w, Noticed text w m → Noticed text w n

theorem Below.refl (n : Node) : Below n n := fun _ _ h => h

theorem Below.of_entered (hs : ofNode? n = none) (hc : c ∈ entered n) (h : Below m c) : Below m n :=
  fun _ _ hm => .of_entered hs hc (h _ _ hm)

theorem below_statements (h : m ∈ statements n) : Below m n := by
  rw [statements.eq_def] at h
  split at h
  next => exact .of_entered rfl h (.refl m)
  next =>
    cases List.mem_singleton.1 h
    exact .refl _

theorem below_paramDecorators (h : m ∈ paramDecorators n) : Below m n := by
  rw [paramDecorators.eq_def] at h
  split at h
  next =>
    obtain ⟨p, hp, h⟩ := List.mem_flatMap.1 h
    refine .of_entered rfl hp ?_
    split at h
    next =>
      cases List.mem_singleton.1 h
      exact .of_entered rfl List.mem_cons_self (.refl m)
    next => cases h
  next => cases h

theorem below_paramPatterns (h : m ∈ paramPatterns n) : Below m n := by
  rw [paramPatterns.eq_def] at h
  split at h
  next =>
    obtain ⟨p, hp, h⟩ := List.mem_map.1 h
    refine .of_entered rfl hp ?_
    split at h
    next =>
      subst h
      exact .of_entered rfl (List.mem_cons_of_mem _ List.mem_cons_self) (.refl _)
    next =>
      subst h
      exact .refl _
  next =>
    cases List.mem_singleton.1 h
    exact .refl _

theorem below_classRegions (h : (m, names) ∈ classRegions name n) : Below m n := by
  rw [classRegions.eq_def] at h
  split at h
  next =>
    rcases List.mem_cons.1 h with h | h
    · cases h
      exact .of_entered rfl List.mem_cons_self (.refl m)
    · obtain ⟨c, hc, h⟩ := List.mem_map.1 h
      cases h
      exact .of_entered rfl (List.mem_cons_of_mem _ hc) (.refl m)
  next =>
    cases List.mem_singleton.1 h
    exact .refl _

theorem exists_below_flatMap {ns : List Node} (h : m ∈ ns.flatMap statements) :
    ∃ c ∈ ns, Below m c := by
  obtain ⟨c, hc, h⟩ := List.mem_flatMap.1 h
  exact ⟨c, hc, below_statements h⟩

theorem exists_below_scope (hs : ofNode? n = some s) (h : m ∈ s.outside ∨ m ∈ s.head ∨ m ∈ s.body) :
    ∃ c ∈ n.children, Below m c := by
  obtain ⟨k, span, cs⟩ := n
  change ∃ c ∈ cs, Below m c
  rw [ofNode?.eq_def] at hs
  split at hs
  next decorators params generics result body e =>
    cases e
    cases hs
    rcases h with h | h | h
    · rcases List.mem_cons.1 h with rfl | h
      · exact ⟨_, by simp, .refl _⟩
      · exact ⟨params, by simp, below_paramDecorators h⟩
    · rcases List.mem_append.1 h with h | h
      · exact ⟨params, by simp, below_paramPatterns h⟩
      · have htypes : [generics, result] ⊆ [decorators, params, generics, result, body] := by simp
        exact ⟨m, htypes h, .refl _⟩
    · exact ⟨body, by simp, below_statements h⟩
  next params rest e =>
    cases e
    cases hs
    rcases h with h | h | h
    · cases h
    · exact ⟨params, List.mem_cons_self, below_paramPatterns h⟩
    · obtain ⟨c, hc, h⟩ := exists_below_flatMap h
      exact ⟨c, List.mem_cons_of_mem _ hc, h⟩
  next key params body e =>
    cases e
    cases hs
    rcases h with h | h | h
    · rcases List.mem_cons.1 h with rfl | h
      · exact ⟨_, List.mem_cons_self, .refl _⟩
      · exact ⟨params, by simp, below_paramDecorators h⟩
    · exact ⟨params, by simp, below_paramPatterns h⟩
    · exact ⟨body, by simp, below_statements h⟩
  next e =>
    cases e
    cases hs
    rcases h with h | h | h
    · exact ⟨m, List.mem_of_mem_take h, .refl _⟩
    · cases h
    · obtain ⟨c, hc, h⟩ := exists_below_flatMap h
      exact ⟨c, List.mem_of_mem_drop hc, h⟩
  next key param body e =>
    cases e
    cases hs
    rcases h with h | h | h
    · cases List.mem_singleton.1 h
      exact ⟨_, List.mem_cons_self, .refl _⟩
    · cases List.mem_singleton.1 h
      exact ⟨_, by simp, .refl _⟩
    · exact ⟨body, by simp, below_statements h⟩
  next e =>
    cases e
    cases hs
    rcases h with h | h | h
    · cases h
    · cases h
    · exact exists_below_flatMap h
  next => cases hs

theorem exists_below_block (h : (m, names) ∈ blockRegions n) : ∃ c ∈ entered n, Below m c := by
  have hmap : ∀ (f : Node → List String) (cs : List Node), (m, names) ∈ cs.map (fun m => (m, f m)) →
      ∃ c ∈ cs, Below m c := by
    intro f cs h
    obtain ⟨c, hc, he⟩ := List.mem_map.1 h
    cases he
    exact ⟨_, hc, .refl _⟩
  rw [blockRegions.eq_def] at h
  split at h
  next =>
    cases List.mem_singleton.1 h
    exact ⟨_, List.mem_cons_self, .refl _⟩
  next =>
    cases List.mem_singleton.1 h
    exact ⟨_, List.mem_cons_of_mem _ List.mem_cons_self, .refl _⟩
  next => exact ⟨_, List.mem_cons_self, below_classRegions h⟩
  next => exact ⟨_, List.mem_cons_of_mem _ List.mem_cons_self, below_classRegions h⟩
  next => exact hmap _ _ h
  next =>
    rcases List.mem_cons.1 h with h | h
    · cases h
      exact ⟨_, List.mem_cons_self, .refl _⟩
    · obtain ⟨c, hc, h⟩ := hmap _ _ h
      exact ⟨c, List.mem_cons_of_mem _ hc, h⟩
  next =>
    simp only [List.mem_cons, List.not_mem_nil, or_false] at h
    rcases h with h | h
    · cases h
      exact ⟨_, List.mem_cons_self, .refl _⟩
    · cases h
      exact ⟨_, List.mem_cons_of_mem _ List.mem_cons_self, .refl _⟩
  next => exact hmap _ _ h
  next => exact hmap _ _ h
  next => exact hmap _ _ h
  next hfunction _ hclass _ _ _ _ _ _ _ =>
    rw [entered]
    · exact hmap _ _ h
    · rintro _ _ _ ⟨⟩
      exact hfunction _ _ rfl rfl
    · rintro _ _ _ ⟨⟩
      exact hclass _ _ rfl rfl

theorem exists_below (h : (m, names) ∈ regions hoists n) :
    ∃ c ∈ n.children, Below m c ∧ (ofNode? n = none → c ∈ entered n) := by
  rw [regions] at h
  split at h
  next s hs =>
    have hpart : m ∈ s.outside ∨ m ∈ s.head ∨ m ∈ s.body := by
      simp only [List.mem_append, List.mem_map, Prod.mk.injEq] at h
      rcases h with (⟨_, h, rfl, -⟩ | ⟨_, h, rfl, -⟩) | ⟨_, h, rfl, -⟩
      · exact .inl h
      · exact .inr (.inl h)
      · exact .inr (.inr h)
    obtain ⟨c, hc, hbelow⟩ := exists_below_scope hs hpart
    exact ⟨c, hc, hbelow, fun hnone => (nomatch hs.symm.trans hnone)⟩
  next =>
    obtain ⟨c, hc, hbelow⟩ := exists_below_block h
    exact ⟨c, mem_children_of_mem_entered hc, hbelow, fun _ => hc⟩

/--
`Missed hoists n w`: on its way to the root of `n`, a write of `w` is missed. Either it is a name in
parentheses inside a pattern or at the head of a loop; or a function counts `w` as its own, though
it does not bind it in the part in which the write stands.
-/
inductive Missed (hoists : Node → Bool) : Node → String → Prop where
  | target (h : w ∈ concealed n) : Missed hoists n w
  | scope (hs : ofNode? n = some s) (hc : w ∈ counted n) (h : (m, names) ∈ regions hoists n)
      (hm : Free hoists m w) (hn : w ∉ names) : Missed hoists n w
  | inside (h : (m, names) ∈ regions hoists n) (hm : Missed hoists m w) (hn : w ∉ names) :
      Missed hoists n w

theorem targets_of_scope (hs : ofNode? n = some s) : targets n = [] := by
  obtain ⟨k, span, cs⟩ := n
  rw [ofNode?.eq_def] at hs
  split at hs
  next e => cases e; rfl
  next e => cases e; rfl
  next e => cases e; rfl
  next e => cases e; rfl
  next e => cases e; rfl
  next e => cases e; rfl
  next => cases hs

theorem noticed_of_free (text : Text) (h : Free hoists n w) :
    Noticed text w n ∨ Missed hoists n w := by
  -- the induction follows the write outwards, from part to part
  induction h with
  | @here n w hw =>
    cases hs : ofNode? n with
    | some s =>
      rw [targets_of_scope hs] at hw
      cases hw
    | none =>
      by_cases hc : w ∈ concealed n
      · exact .inr (.target hc)
      · left
        intro caught place
        apply (field_written.mem_find hs).2
        rw [written_own]
        exact .inl ((mem_notes_or_concealed hw).resolve_right hc)
  | @inside n m names w hr hm hn ih =>
    rcases ih with ih | ih
    · obtain ⟨c, hc, hbelow, hentered⟩ := exists_below hr
      have hnoticed := hbelow text w ih
      cases hs : ofNode? n with
      | none => exact .inl (hnoticed.of_entered hs (hentered hs))
      | some s =>
        -- the scope passes the write on unless it takes the name to be its own
        by_cases hcounted : w ∈ counted n
        · exact .inr (.scope hs hcounted hr hm hn)
        · left
          intro caught place
          rw [(find_scope hs text caught place).2]
          refine List.mem_filter.2
            ⟨(field_written.mem_findAll caught _).2 ⟨c, hc, hnoticed _ _⟩, ?_⟩
          rw [Bool.not_eq_true', ← Bool.not_eq_true, List.contains_iff_mem]
          exact fun hdeclared => hcounted (declared_subset_counted caught hdeclared)
    · exact .inr (.inside hr ih hn)

def Makes (text : Text) (parts : List Node) (e : Edit) : Prop :=
  ∃ caught params, ∃ site ∈ (findAll text caught parts).sites,
    edit? { findAll text caught parts with
      declared := params ++ (findAll text caught parts).declared } site = some e

theorem makes_of_close (h : e ∈ (close params (findAll text caught ns)).edits) :
    e ∈ (findAll text caught ns).edits ∨ Makes text ns e := by
  rcases List.mem_append.1 h with h | h
  · exact .inl h
  · obtain ⟨site, hsite, he⟩ := List.mem_filterMap.1 h
    exact .inr ⟨caught, params, site, hsite, he⟩

theorem exists_scope_of_edit (h : e ∈ (find text caught place n).edits) :
    ∃ s ∈ n.subtrees.filterMap ofNode?, Makes text s.parts e := by
  induction n using Node.induct generalizing caught place with
  | mk k span cs ih =>
    have hchild : ∀ c ∈ cs, (∃ s ∈ c.subtrees.filterMap ofNode?, Makes text s.parts e) →
        ∃ s ∈ (Node.mk k span cs).subtrees.filterMap ofNode?, Makes text s.parts e := by
      rintro c hc ⟨s, hs, he⟩
      obtain ⟨m, hm, hs⟩ := List.mem_filterMap.1 hs
      exact ⟨s, List.mem_filterMap.2 ⟨m, Node.mem_subtrees_of_mem_child hc hm, hs⟩, he⟩
    cases hs : ofNode? (.mk k span cs) with
    | some s =>
      obtain ⟨hparts, hfind⟩ := find_scope hs text caught place
      rw [hfind] at h
      rcases makes_of_close h with h | h
      · obtain ⟨c, hc, h⟩ := (field_edits.mem_findAll caught cs).1 h
        exact hchild c hc (ih c hc h)
      · rw [← hparts] at h
        exact ⟨s, List.mem_filterMap.2 ⟨_, Node.mem_walk_self _ _, hs⟩, h⟩
    | none =>
      rw [field_edits.mem_find hs, edits_own] at h
      rcases h with h | ⟨v, hv, h⟩
      · cases h
      · have hc := mem_children_of_mem_visits hv
        exact hchild _ hc (ih _ hc h)

theorem exists_scope_of_program (h : e ∈ edits p) :
    ∃ s ∈ Scope.ofProgram p.tree, Makes p.text s.parts e ∧
      ∀ m ∈ s.body, ∃ c ∈ s.parts, Below m c := by
  have hroot : find p.text [] .ordinary p.tree = findAll p.text [] [p.tree] := by
    rw [findAll, findAll, append_empty]
  rw [edits, hroot] at h
  rcases makes_of_close h with h | h
  · rw [← hroot] at h
    obtain ⟨s, hs, hmakes⟩ := exists_scope_of_edit h
    refine ⟨s, List.mem_cons_of_mem _ hs, hmakes, ?_⟩
    intro m hm
    obtain ⟨n, -, hn⟩ := List.mem_filterMap.1 hs
    rw [(find_scope hn p.text [] .ordinary).1]
    exact exists_below_scope hn (.inr (.inr hm))
  · refine ⟨_, List.mem_cons_self, h, ?_⟩
    intro m hm
    exact ⟨m, hm, .refl m⟩

theorem edit?_constant {f : Findings} {site : Site} {start : Nat}
    (h : f.edit? site = some ((Edit.replacing ⟨start, start + 3⟩).string "const")) :
    site.start = start ∧ ∀ w ∈ site.names, w ∉ f.written := by
  rw [edit?] at h
  split at h
  next => cases h
  next =>
    have he := Option.some.inj h
    split at he
    next =>
      have htext := congrArg Edit.segments he
      change [Segment.fresh (Text.ofString "let")] =
        [Segment.fresh (Text.ofString "const")] at htext
      exact absurd htext (by decide)
    next hclean =>
      have hstart := congrArg (·.range.start) he
      refine ⟨hstart, fun w hw hwritten => hclean ?_⟩
      rw [Bool.or_eq_true, List.any_eq_true]
      exact .inr ⟨w, hw, List.contains_iff_mem.2 hwritten⟩

/--
If a declaration becomes `const` and a write reaches one of its names, then a write of the name is
missed on its way to the scope of the declaration, whichever functions in blocks are hoisted.
-/
theorem missed_of_constant (hoists : Node → Bool) (p : Program) (start : Nat)
    (h : (Edit.replacing ⟨start, start + 3⟩).string "const" ∈ edits p) :
    ∃ s ∈ Scope.ofProgram p.tree, ∃ d ∈ s.vars, d.span.start = start ∧
      ∀ w ∈ declaratorNames d.children, ∀ m ∈ s.body, Free hoists m w → Missed hoists m w := by
  obtain ⟨s, hs, ⟨caught, params, site, hsite, he⟩, hbelow⟩ := exists_scope_of_program h
  obtain ⟨hstart, hclean⟩ := edit?_constant he
  obtain ⟨d, hd, hkind, hd', hnames⟩ := exists_var hsite
  refine ⟨s, hs, d, List.mem_filter.2 ⟨hd, decide_eq_true hkind⟩, hd'.symm.trans hstart, ?_⟩
  intro w hw m hm hfree
  have hbound : w ∈ site.names := by
    obtain ⟨d', hd', hw⟩ := List.mem_flatMap.1 hw
    rw [hnames]
    exact List.mem_flatMap.2 ⟨d', hd', patternNames_subset _ hw⟩
  rcases noticed_of_free p.text hfree with hnoticed | hmissed
  · obtain ⟨c, hc, hbelow⟩ := hbelow m hm
    refine absurd ?_ (hclean w hbound)
    exact (field_written.mem_findAll caught _).2 ⟨c, hc, hbelow _ _ hnoticed _ _⟩
  · exact hmissed

theorem missed_of_constant_shadowed :
    ∃ p ∈ (Program.parse .tsx (Text.ofString "var k = 0; function m(k) \x7b k = 1; \x7d")).toOption,
      (Edit.replacing ⟨0, 3⟩).string "const" ∈ edits p ∧
      ∃ s ∈ Scope.ofProgram p.tree, ∃ d ∈ s.vars, d.span.start = 0 ∧
        ∀ w ∈ declaratorNames d.children, ∀ m ∈ s.body, Free (fun _ => true) m w →
          Missed (fun _ => true) m w := by
  have hedit :
      ∃ p ∈
        (Program.parse .tsx (Text.ofString "var k = 0; function m(k) \x7b k = 1; \x7d")).toOption,
      (Edit.replacing ⟨0, 3⟩).string "const" ∈ edits p := by
    decide +kernel
  obtain ⟨p, hp, he⟩ := hedit
  exact ⟨p, hp, he, missed_of_constant _ p 0 he⟩

/--
The declaration at the start of a source becomes `const`, though one of its names is written: `free
m w` tells that a write of `w` leaves `m`.
-/
def WrittenConstant (free : Node → String → Prop) (source : String) : Prop :=
  ∃ p ∈ (Program.parse .tsx (Text.ofString source)).toOption,
    (Edit.replacing ⟨0, 3⟩).string "const" ∈ edits p ∧
    ∃ s ∈ Scope.ofProgram p.tree, ∃ d ∈ s.vars, d.span.start = 0 ∧
      ∃ w ∈ declaratorNames d.children, ∃ m ∈ s.body, free m w

theorem WrittenConstant.mono (h : WrittenConstant free source)
    (hfree : ∀ m w, free m w → free' m w) : WrittenConstant free' source := by
  obtain ⟨p, hp, he, s, hs, d, hd, hstart, w, hw, m, hm, h⟩ := h
  exact ⟨p, hp, he, s, hs, d, hd, hstart, w, hw, m, hm, hfree m w h⟩

instance [∀ m w, Decidable (free m w)] (source : String) :
    Decidable (WrittenConstant free source) := by
  unfold WrittenConstant
  infer_instance

/--
A class in a block inside a function, a declaration in the body of a function with a write among its
parameters, and a name in parentheses inside a pattern: each time `x` becomes `const` though it is
written.
-/
theorem writtenConstant_of_missed :
    WrittenConstant (Free fun _ => true)
      "var x = 1; function f() \x7b \x7b class x \x7b\x7d \x7d x = 2; \x7d" ∧
    WrittenConstant (Free fun _ => true) "var x = 1; function f(a = (x = 2)) \x7b var x; \x7d" ∧
    WrittenConstant (Free fun _ => true) "var x = 1; [(x)] = [2];" := by
  have hfree : ∀ m w, w ∈ freeNames (fun _ => true) 20 m → Free (fun _ => true) m w :=
    fun _ _ => free_of_mem_freeNames
  refine ⟨?_, ?_, ?_⟩
  · refine WrittenConstant.mono ?_ hfree
    decide +kernel
  · refine WrittenConstant.mono ?_ hfree
    decide +kernel
  · refine WrittenConstant.mono ?_ hfree
    decide +kernel

end Uplift.VarToConst
