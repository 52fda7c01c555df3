import Uplift.Proofs.Transform
import Uplift.Proofs.Verdict

namespace Uplift.VarToConst

set_option autoImplicit true

open Scope Findings

/--
Whether three bytes of a program's text have been carried over to an offset of the revised text.
-/
def carries (p : Program) (start start' : Nat) : Bool :=
  (List.range 3).all fun i =>
    ((Marked.revised p.text [edits p])[start' + i]?).map Prod.snd = some (.carried (start + i))

def recastNode (p : Program) (above : Path) (n n' : Node) : Bool :=
  match verdict (reads p.text) ((realms above).headD (.ofProgram p)) ⟨n, above⟩ with
  | some declaring => n'.kind = .varDecl declaring false
  | none =>
    n'.kind = n.kind && (n.kind ≠ .varDecl .hoisted false || carries p n.span.start n'.span.start)

mutual

/--
Whether a tree is the same as another one but for the kinds of the declarations that are changed,
and for the places of nodes in the text.
-/
def recast (p : Program) (above : Path) : Node → Node → Bool
  | .mk k span cs, .mk k' span' cs' =>
    recastNode p above (.mk k span cs) (.mk k' span' cs') &&
      recastAll p (.mk k span cs) above 0 cs cs'

def recastAll (p : Program) (parent : Node) (above : Path) : Nat → List Node → List Node → Bool
  | _, [], [] => true
  | i, c :: cs, c' :: cs' =>
    recast p ((parent, i) :: above) c c' && recastAll p parent above (i + 1) cs cs'
  | _, _, _ => false

end

theorem recastAll_iff (p : Program) (parent : Node) (above : Path) (i : Nat) (cs cs' : List Node) :
    recastAll p parent above i cs cs' = true ↔
      List.Forall₂ (fun c c' => c'.2 = c.2 ∧ recast p ((parent, c.2) :: above) c.1 c'.1 = true)
        (cs.zipIdx i) (cs'.zipIdx i) := by
  induction cs generalizing i cs' with
  | nil =>
    cases cs' with
    | nil => simp [recastAll]
    | cons c' cs' => simp [recastAll]
  | cons c cs ih =>
    cases cs' with
    | nil => simp [recastAll]
    | cons c' cs' => simp [recastAll, ih]

theorem recast_iff (p : Program) (above : Path) (n n' : Node) :
    recast p above n n' = true ↔ recastNode p above n n' = true ∧
      List.Forall₂ (fun c c' => c'.2 = c.2 ∧ recast p ((n, c.2) :: above) c.1 c'.1 = true)
        n.children.zipIdx n'.children.zipIdx := by
  obtain ⟨k, span, cs⟩ := n
  obtain ⟨k', span', cs'⟩ := n'
  rw [recast, Bool.and_eq_true, recastAll_iff]
  rfl

theorem verdict_eq_some (h : verdict counts s o = some declaring) :
    o.node.kind = .varDecl .hoisted false ∧ ¬Stays counts s o ∧ declaring ≠ .hoisted := by
  rw [verdict] at h
  split at h
  next hboth =>
    refine ⟨of_decide_eq_true (Bool.and_eq_true_iff.1 hboth.1).1, hboth.2, ?_⟩
    rintro rfl
    split at h <;> cases h
  next => cases h

theorem stays_of_verdict_eq_none (h : verdict counts s o = none)
    (hc : isConsidered counts o.node = true) : Stays counts s o := by
  by_contra hstays
  rw [verdict, if_pos ⟨hc, hstays⟩] at h
  cases h

theorem recast_cases (h : recast p above n n' = true) :
    (∃ declaring, verdict (reads p.text) ((realms above).headD (.ofProgram p)) ⟨n, above⟩ =
      some declaring ∧
      n'.kind = .varDecl declaring false) ∨
    (verdict (reads p.text) ((realms above).headD (.ofProgram p)) ⟨n, above⟩ = none ∧
      n'.kind = n.kind ∧
      (n.kind = .varDecl .hoisted false → carries p n.span.start n'.span.start = true)) := by
  have hnode := ((recast_iff p above n n').1 h).1
  rw [recastNode] at hnode
  split at hnode
  next declaring hverdict =>
    left
    exact ⟨declaring, hverdict, of_decide_eq_true hnode⟩
  next hverdict =>
    right
    rw [Bool.and_eq_true_iff, Bool.or_eq_true_iff, decide_eq_true_eq, decide_eq_true_eq] at hnode
    exact ⟨hverdict, hnode.1, hnode.2.resolve_left ∘ not_not_intro⟩

section Alike

variable {p : Program} {n n' : Node}

def Alike (p : Program) (n n' : Node) : Prop := ∃ above, recast p above n n' = true

theorem Alike.kind (h : Alike p n n') :
    n'.kind = n.kind ∨ n.kind = .varDecl .hoisted false ∧
    ∃ declaring, n'.kind = .varDecl declaring false := by
  obtain ⟨above, h⟩ := h
  rcases recast_cases h with ⟨declaring, hverdict, hkind⟩ | ⟨_, hkind, _⟩
  · right
    exact ⟨(verdict_eq_some hverdict).1, declaring, hkind⟩
  · left
    exact hkind

theorem Alike.children (h : Alike p n n') : List.Forall₂ (Alike p) n.children n'.children := by
  obtain ⟨above, h⟩ := h
  have hzip := ((recast_iff p above n n').1 h).2
  have hmap :
      List.Forall₂ (Alike p) (n.children.zipIdx.map Prod.fst)
        (n'.children.zipIdx.map Prod.fst) := by
    rw [List.forall₂_map_left_iff, List.forall₂_map_right_iff]
    exact hzip.imp fun c c' hc => ⟨_, hc.2⟩
  rwa [List.zipIdx_map_fst, List.zipIdx_map_fst] at hmap

theorem flatMap_eq_of_forall₂ {R : α → α → Prop} {f : α → List β} (h : List.Forall₂ R xs ys)
    (hf : ∀ x ∈ xs, ∀ y, R x y → f y = f x) : ys.flatMap f = xs.flatMap f := by
  induction h with
  | nil => rfl
  | cons hr _ ih =>
    rw [List.flatMap_cons, List.flatMap_cons, hf _ List.mem_cons_self _ hr,
      ih fun x hx => hf x (List.mem_cons_of_mem _ hx)]

theorem Alike.binding? (h : Alike p n n') : n'.binding? = n.binding? := by
  obtain ⟨k, span, cs⟩ := n
  obtain ⟨k', span', cs'⟩ := n'
  rcases h.kind with hkind | ⟨hkind, declaring, hkind'⟩
  · cases hkind
    cases k <;> rfl
  · cases hkind
    cases hkind'
    rfl

theorem Alike.name? (h : Alike p n n') : n'.name? = n.name? := by
  obtain ⟨k, span, cs⟩ := n
  obtain ⟨k', span', cs'⟩ := n'
  rcases h.kind with hkind | ⟨hkind, declaring, hkind'⟩
  · cases hkind
    cases k <;> rfl
  · cases hkind
    cases hkind'
    rfl

theorem Alike.isAbsent (h : Alike p n n') : n'.isAbsent = n.isAbsent := by
  rw [Node.isAbsent, Node.isAbsent]
  rcases h.kind with hkind | ⟨hkind, declaring, hkind'⟩
  · rw [hkind]
  · rw [hkind, hkind']
    rfl

theorem Alike.isExpression (h : Alike p n n') : n'.isExpression = n.isExpression := by
  rw [Node.isExpression, Node.isExpression]
  rcases h.kind with hkind | ⟨hkind, declaring, hkind'⟩
  · rw [hkind]
  · rw [hkind, hkind']
    rfl

theorem Alike.bound (h : Alike p n n') : n'.bound = n.bound := by
  induction n using Node.induct generalizing n' with
  | mk k span cs ih =>
    have hbinding := h.binding?
    have hexpression := h.isExpression
    have hchildren := h.children
    obtain ⟨k', span', cs'⟩ := n'
    have hflat : cs'.flatMap Node.bound = cs.flatMap Node.bound :=
      flatMap_eq_of_forall₂ hchildren fun c hc c' hcc => ih c hc hcc
    rw [Node.bound_mk, Node.bound_mk, Node.holdsPatterns, Node.holdsPatterns, hbinding,
      hexpression, hflat]

theorem Alike.child_bound (h : Alike p n n') (i : Nat) :
    (n'.child i).bound = (n.child i).bound := by
  have hget : ∀ {cs cs' : List Node}, List.Forall₂ (Alike p) cs cs' →
      ∀ i : Nat, (cs'[i]?.getD Node.absent).bound = (cs[i]?.getD Node.absent).bound := by
    intro cs cs' hcs
    induction hcs with
    | nil => exact fun _ => rfl
    | cons hc _ ih =>
      intro i
      cases i with
      | zero => exact hc.bound
      | succ i => exact ih i
  exact hget h.children i

theorem Alike.length_children (h : Alike p n n') : n'.children.length = n.children.length :=
  h.children.length_eq.symm

theorem lacksValue_of_kind_ne (h : n.kind ≠ .declarator) : lacksValue n = true := by
  rw [lacksValue.eq_def]
  split
  next => exact absurd rfl h
  next => rfl

theorem Alike.lacksValue (h : Alike p n n') : lacksValue n' = lacksValue n := by
  by_cases hn : n.kind = .declarator
  · have hn' : n'.kind = .declarator := by
      rcases h.kind with hkind | ⟨hkind, _⟩
      · exact hkind.trans hn
      · cases hn.symm.trans hkind
    have hchildren := h.children
    obtain ⟨k, span, cs⟩ := n
    obtain ⟨k', span', cs'⟩ := n'
    cases hn
    cases hn'
    rcases hchildren with _ | ⟨_, _ | ⟨hvalue, _ | _⟩⟩
    · rfl
    · rfl
    · exact hvalue.isAbsent
    · rfl
  · have hn' : n'.kind ≠ .declarator := by
      rcases h.kind with hkind | ⟨_, declaring, hkind⟩
      · rwa [hkind]
      · rw [hkind]
        exact Kind.noConfusion
    rw [lacksValue_of_kind_ne hn, lacksValue_of_kind_ne hn']

theorem Alike.isName (h : Alike p n n') (i : Nat) : isName n' i = isName n i := by
  rw [VarToConst.isName.eq_def, VarToConst.isName.eq_def, h.length_children]
  rcases h.kind with hkind | ⟨hkind, declaring, hkind'⟩
  · rw [hkind]
  · rw [hkind, hkind']

theorem Alike.placeIn (h : Alike p n n') (i : Nat) : placeIn n' i = placeIn n i := by
  rw [VarToConst.placeIn.eq_def, VarToConst.placeIn.eq_def, h.length_children]
  rcases h.kind with hkind | ⟨hkind, declaring, hkind'⟩
  · rw [hkind]
  · rw [hkind, hkind']

theorem Alike.catches (h : Alike p n n') : catches n' = catches n := by
  rw [VarToConst.catches, VarToConst.catches, h.length_children, h.child_bound]
  rcases h.kind with hkind | ⟨hkind, declaring, hkind'⟩
  · rw [hkind]
  · rw [hkind, hkind']
    simp

theorem isSome_ofNode? {R : Node → Node → Prop} (hcs : List.Forall₂ R cs cs')
    (h : (ofNode? (.mk k span cs)).isSome = true) : (ofNode? (.mk k span' cs')).isSome = true := by
  rw [ofNode?.eq_def] at h
  split at h
  next e =>
    cases e
    rcases hcs with _ | ⟨_, _ | ⟨_, _ | ⟨_, _ | ⟨_, _ | ⟨_, _ | _⟩⟩⟩⟩⟩
    rfl
  next e =>
    cases e
    rcases hcs with _ | ⟨_, _⟩
    rfl
  next e =>
    cases e
    rcases hcs with _ | ⟨_, _ | ⟨_, _ | ⟨_, _ | _⟩⟩⟩
    rfl
  next e =>
    cases e
    rfl
  next e =>
    cases e
    rcases hcs with _ | ⟨_, _ | ⟨_, _ | ⟨_, _ | _⟩⟩⟩
    rfl
  next e =>
    cases e
    rfl
  next => cases h

theorem Alike.isSome_ofNode? (h : Alike p n n') : (ofNode? n').isSome = (ofNode? n).isSome := by
  have hchildren := h.children
  obtain ⟨k, span, cs⟩ := n
  obtain ⟨k', span', cs'⟩ := n'
  rcases h.kind with hkind | ⟨hkind, declaring, hkind'⟩
  · cases hkind
    rw [Bool.eq_iff_iff]
    exact ⟨VarToConst.isSome_ofNode? hchildren.flip, VarToConst.isSome_ofNode? hchildren⟩
  · cases hkind
    cases hkind'
    rfl

theorem Alike.parameters (h : Alike p n n') (hs : ofNode? n = some s) :
    parameters n' = parameters n := by
  have hchildren := h.children
  obtain ⟨k, span, cs⟩ := n
  obtain ⟨k', span', cs'⟩ := n'
  rcases h.kind with hkind | ⟨hkind, declaring, hkind'⟩
  · cases hkind
    rw [ofNode?.eq_def] at hs
    split at hs
    next e =>
      cases e
      rcases hchildren with _ | ⟨_, _ | ⟨hparams, _ | ⟨_, _ | ⟨_, _ | ⟨_, _ | _⟩⟩⟩⟩⟩
      exact flatMap_eq_of_forall₂ hparams.children fun _ _ _ hc => hc.child_bound 1
    next e =>
      cases e
      rcases hchildren with _ | ⟨hparams, _⟩
      exact hparams.bound
    next e =>
      cases e
      rcases hchildren with _ | ⟨_, _ | ⟨hparams, _ | ⟨_, _ | _⟩⟩⟩
      exact hparams.bound
    next e =>
      cases e
      rfl
    next e =>
      cases e
      rcases hchildren with _ | ⟨_, _ | ⟨hparams, _ | ⟨_, _ | _⟩⟩⟩
      exact hparams.bound
    next e =>
      cases e
      rfl
    next => cases hs
  · cases hkind
    cases hs

theorem Alike.declares (h : Alike p n n') (hkind : n'.kind = n.kind) :
    declares n' = declares n := by
  have hchildren := h.children
  obtain ⟨k, span, cs⟩ := n
  obtain ⟨k', span', cs'⟩ := n'
  cases hkind
  rw [VarToConst.declares.eq_def (.mk k span cs)]
  split
  next e =>
    cases e
    exact flatMap_eq_of_forall₂ hchildren fun _ _ _ hd => hd.child_bound 0
  next e =>
    cases e
    rcases hchildren with _ | ⟨hname, _ | ⟨_, _ | _⟩⟩
    exact congrArg Option.toList hname.name?
  next e =>
    cases e
    rcases hchildren with _ | ⟨hname, _ | ⟨_, _ | _⟩⟩
    exact congrArg Option.toList hname.name?
  next hvar hfunction hclass =>
    rw [VarToConst.declares.eq_def]
    split
    next e =>
      cases e
      exact absurd rfl (hvar _ _)
    next e =>
      cases e
      rcases hchildren with _ | ⟨_, _ | ⟨_, _ | _⟩⟩
      exact absurd rfl (hfunction _ _ _)
    next e =>
      cases e
      rcases hchildren with _ | ⟨_, _ | ⟨_, _ | _⟩⟩
      exact absurd rfl (hclass _ _ _)
    next => rfl

end Alike

/--
Next to `f`, the findings `f'` of a second search give no reason for an edit, where `names` are
those that the scope declared at first.
-/
structure Idle (names : List String) (f f' : Findings) : Prop where
  edits : f'.edits = []
  count : ∀ w, 1 < names.count w → f'.declared.count w = f.declared.count w
  sites : ∀ site ∈ f'.sites, site.blocked = true ∨ ∃ w ∈ site.names, 1 < names.count w

theorem Idle.append (hf : Idle names f f') (hg : Idle names g g') :
    Idle names (f ++ g) (f' ++ g') where
  edits := by
    change f'.edits ++ g'.edits = []
    rw [hf.edits, hg.edits]
    rfl
  count w hw := by
    change (f'.declared ++ g'.declared).count w = (f.declared ++ g.declared).count w
    rw [List.count_append, List.count_append, hf.count w hw, hg.count w hw]
  sites site hsite := by
    rcases List.mem_append.1 hsite with hsite | hsite
    · exact hf.sites site hsite
    · exact hg.sites site hsite

theorem Idle.of_perm (h : Idle names f f') (hdeclared : g.declared.Perm f.declared)
    (hdeclared' : g'.declared.Perm f'.declared) (hsites' : g'.sites.Perm f'.sites)
    (hedits' : g'.edits.Perm f'.edits) : Idle names g g' where
  edits := by
    rw [h.edits] at hedits'
    exact hedits'.eq_nil
  count w hw := by
    rw [hdeclared.count_eq, hdeclared'.count_eq]
    exact h.count w hw
  sites site hsite := h.sites site (hsites'.mem_iff.1 hsite)

theorem Idle.gather {trees trees' : List (Node × Path)}
    (h : List.Forall₂ (fun t t' => Idle names (findAt text t.2 t.1) (findAt text' t'.2 t'.1))
      trees trees') :
    Idle names (gatherAt text trees) (gatherAt text' trees') := by
  induction h with
  | nil => exact ⟨rfl, fun _ _ => rfl, fun _ hsite => nomatch hsite⟩
  | cons ht _ ih => exact ht.append ih

theorem Idle.edits_close (h : Idle names f f') (hnames : (params ++ f.declared).Perm names) :
    (close params f').edits = [] := by
  rw [VarToConst.edits_close, h.edits, List.nil_append, List.filterMap_eq_nil_iff]
  intro site hsite
  apply if_pos
  rw [Bool.or_eq_true, List.any_eq_true]
  rcases h.sites site hsite with hblocked | ⟨w, hw, hcount⟩
  · left
    exact hblocked
  · right
    have hsame : (params ++ f'.declared).count w = names.count w := by
      rw [← hnames.count_eq, List.count_append, List.count_append, h.count w hcount]
    refine ⟨w, hw, ?_⟩
    rw [withParameters, hsame]
    exact decide_eq_true hcount

section Own

variable {p : Program} {n n' : Node} {above : Path}

/-- A declaration that has been changed declares no name for its scope any longer. -/
theorem idle_of_changed (text' : Text)
    (hverdict : verdict (reads p.text) ((realms above).headD (.ofProgram p)) ⟨n, above⟩ =
      some declaring) (hkind : n'.kind = .varDecl declaring false) :
    Idle (((realms above).headD (.ofProgram p)).declared (reads p.text)) (ownAt p.text ⟨n, above⟩)
      (ownAt text' ⟨n', above⟩) := by
  obtain ⟨_, hstays, hdeclaring⟩ := verdict_eq_some hverdict
  have hne : n'.kind ≠ .varDecl .hoisted false := by
    rw [hkind]
    rintro ⟨⟩
    exact hdeclaring rfl
  have hdeclared : (ownAt text' ⟨n', above⟩).declared = [] := by
    obtain ⟨k', span', cs'⟩ := n'
    cases hkind
    cases declaring
    · exact absurd rfl hdeclaring
    · rfl
    · rfl
    · rfl
  refine ⟨edits_own .., ?_, ?_⟩
  · intro w hw
    rw [hdeclared, ownAt, declared_own, List.count_nil, eq_comm, List.count_eq_zero]
    intro hmem
    have hdeclares : w ∈ declares n := by
      rw [declaredBy] at hmem
      split at hmem
      · cases hmem
      · exact hmem
    exact hstays (.inr (.inr (.inr ⟨w, hdeclares, hw⟩)))
  · intro site hsite
    rw [sites_ownAt, isConsidered, decide_eq_false hne] at hsite
    cases hsite

theorem site_eq_of_alike (h : Alike p n n') (hkind : n'.kind = n.kind) (above : Path) :
    (Occurrence.mk n' above).site.blocked = (Occurrence.mk n above).site.blocked ∧
      (Occurrence.mk n' above).site.names = (Occurrence.mk n above).site.names := by
  have hany : ∀ {ds ds' : List Node}, List.Forall₂ (Alike p) ds ds' →
      ds'.any (fun d => !lacksValue d) = ds.any fun d => !lacksValue d := by
    intro ds ds' hds
    induction hds with
    | nil => rfl
    | cons hd _ ih => rw [List.any_cons, List.any_cons, hd.lacksValue, ih]
  have hvalues := hany h.children
  have hnames := h.declares hkind
  constructor
  · simp only [Occurrence.site, hvalues, hnames]
  · exact hnames

/-- A declaration that stays does so for the reason it had. -/
theorem idle_of_kept (h : Alike p n n')
    (hverdict : verdict (reads p.text) ((realms above).headD (.ofProgram p)) ⟨n, above⟩ = none)
    (hkind : n'.kind = n.kind)
    (hreads : n.kind = .varDecl .hoisted false → reads text' n' = reads p.text n) :
    Idle (((realms above).headD (.ofProgram p)).declared (reads p.text)) (ownAt p.text ⟨n, above⟩)
      (ownAt text' ⟨n', above⟩) := by
  refine ⟨edits_own .., ?_, ?_⟩
  · intro w _
    have hsame : declaredBy (reads text') n' = declaredBy (reads p.text) n := by
      rw [declaredBy, declaredBy, hkind, h.declares hkind]
      by_cases hn : n.kind = .varDecl .hoisted false
      · rw [hreads hn]
      · rw [decide_eq_false hn]
        rfl
    rw [ownAt, ownAt, declared_own, declared_own, hsame]
  · intro site hsite
    rw [sites_ownAt] at hsite
    split at hsite
    next hconsidered =>
      have hboth := Bool.and_eq_true_iff.1 hconsidered
      have hn : n.kind = .varDecl .hoisted false := hkind.symm.trans (of_decide_eq_true hboth.1)
      have hbefore : isConsidered (reads p.text) n = true := by
        rw [isConsidered, decide_eq_true hn, ← hreads hn]
        exact hboth.2
      have hstays := (stays_iff _ _ _).1 (stays_of_verdict_eq_none hverdict hbefore)
      have hsite' := site_eq_of_alike h hkind above
      cases List.mem_singleton.1 hsite
      rw [hsite'.1, hsite'.2]
      exact hstays
    next => cases hsite

end Own

section Second

variable {p p' : Program} (htext : p'.text = ((Document.ofText p.text).apply (edits p)).1.text)
include htext

theorem take_of_carries (h : carries p start start' = true) :
    (p'.text.drop start').take 3 = (p.text.drop start).take 3 := by
  have haccounted := Document.accounted_revised p.text [edits p]
  have hbytes : p'.text = (Marked.revised p.text [edits p]).map Prod.fst :=
    htext.trans haccounted.text
  apply List.ext_getElem?
  intro i
  rw [List.getElem?_take, List.getElem?_take, List.getElem?_drop, List.getElem?_drop]
  split
  next hi =>
    have hsource := List.all_eq_true.1 h i (List.mem_range.2 hi)
    obtain ⟨⟨b, source⟩, hmarked, hcarried⟩ := Option.map_eq_some_iff.1 (of_decide_eq_true hsource)
    cases hcarried
    rw [hbytes, List.getElem?_map, hmarked, haccounted.verbatim b _ (List.mem_of_getElem? hmarked)]
    rfl
  next => rfl

theorem reads_of_stays (hn : n.kind = .varDecl .hoisted false)
    (hn' : n'.kind = .varDecl .hoisted false) (h : carries p n.span.start n'.span.start = true) :
    reads p'.text n' = reads p.text n := by
  obtain ⟨k, span, cs⟩ := n
  obtain ⟨k', span', cs'⟩ := n'
  cases hn
  cases hn'
  have hsame := take_of_carries htext h
  rw [reads, reads, keyword?, keyword?]
  change (if (p'.text.drop span'.start).take 3 = _ then some _ else none).isSome =
    (if (p.text.drop span.start).take 3 = _ then some _ else none).isSome
  rw [show (p'.text.drop span'.start).take 3 = (p.text.drop span.start).take 3 from hsame]
  split <;> rfl

theorem idle_own (h : recast p above n n' = true) :
    Idle (((realms above).headD (.ofProgram p)).declared (reads p.text)) (ownAt p.text ⟨n, above⟩)
      (ownAt p'.text ⟨n', above⟩) := by
  rcases recast_cases h with ⟨declaring, hverdict, hkind⟩ | ⟨hverdict, hkind, hcarries⟩
  · exact idle_of_changed p'.text hverdict hkind
  · apply idle_of_kept ⟨above, h⟩ hverdict hkind
    intro hn
    exact reads_of_stays htext hn (hkind.trans hn) (hcarries hn)

end Second

def recastBranches (above : Path) (n n' : Node) : List (Node × Path) :=
  (parts n').map fun c => (c.1, (n, c.2) :: above)

theorem gatherAt_branches (h : Alike p n n') (text : Text) (above : Path) :
    gatherAt text (branches above n') = gatherAt text (recastBranches above n n') := by
  have hpath : ∀ i, caughtAt ((n', i) :: above) = caughtAt ((n, i) :: above) := by
    intro i
    exact congrArg (· ++ caughtAt above) h.catches
  rw [gatherAt, gatherAt, branches, recastBranches, List.map_map, List.map_map]
  congr 1
  apply List.map_congr_left
  intro c _
  simp only [Function.comp_apply, hpath, placeAt, h.placeIn]

theorem forall₂_branches (h : recast p above n n' = true) :
    List.Forall₂ (fun t t' => t'.2 = t.2 ∧ recast p t.2 t.1 t'.1 = true) (branches above n)
      (recastBranches above n n') := by
  have halike : Alike p n n' := ⟨above, h⟩
  have hzip := ((recast_iff p above n n').1 h).2
  have hname : ∀ c c' : Node × Nat, c'.2 = c.2 ∧ recast p ((n, c.2) :: above) c.1 c'.1 = true →
      ((!isName n c.2) = true ↔ (!isName n' c'.2) = true) := by
    intro c c' hc
    rw [hc.1, halike.isName]
  have hparts : List.Forall₂ _ (parts n) (parts n') := List.rel_filter hname hzip
  rw [branches, recastBranches, List.forall₂_map_left_iff, List.forall₂_map_right_iff]
  apply hparts.imp
  intro c c' hc
  exact ⟨congrArg (fun i => (n, i) :: above) hc.1, hc.2⟩

theorem idle_of_scope (h : Alike p n n') (hs : ofNode? n = some s)
    (hidle : Idle ((Realm.ofScope n).declared (reads p.text)) (gatherAt p.text (branches above n))
      (gatherAt text' (recastBranches above n n'))) (names : List String) :
    Idle names (findAt p.text above n) (findAt text' above n') := by
  obtain ⟨s', hs'⟩ :=
    Option.isSome_iff_exists.1 (h.isSome_ofNode?.trans (Option.isSome_iff_exists.2 ⟨s, hs⟩))
  have hdeclared := perm_declared p.text (.ofScope n) _ (map_fst_branches hs above).symm
  rw [findAt, findAt, find_realm hs, find_realm hs', gather_visits, gather_visits,
    gatherAt_branches h, h.parameters hs]
  refine ⟨hidle.edits_close hdeclared, fun _ _ => rfl, ?_⟩
  intro site hsite
  cases hsite

theorem idle_of_recast {p p' : Program}
    (htext : p'.text = ((Document.ofText p.text).apply (edits p)).1.text)
    (h : recast p above n n' = true) :
    Idle (((realms above).headD (.ofProgram p)).declared (reads p.text)) (findAt p.text above n)
      (findAt p'.text above n') := by
  induction n using Node.induct generalizing above n' with
  | mk k span cs ih =>
    have halike : Alike p (.mk k span cs) n' := ⟨above, h⟩
    have hparts (names : List String)
        (hnames : ∀ i,
          ((realms ((.mk k span cs, i) :: above)).headD (.ofProgram p)).declared (reads p.text) =
            names) :
        Idle names (gatherAt p.text (branches above (.mk k span cs)))
          (gatherAt p'.text (recastBranches above (.mk k span cs) n')) := by
      obtain ⟨hlength, hpairs⟩ := List.forall₂_iff_zip.1 (forall₂_branches h)
      apply Idle.gather
      apply List.forall₂_iff_zip.2
      refine ⟨hlength, ?_⟩
      intro t t' hzip
      obtain ⟨hpath, hrecast⟩ := hpairs hzip
      obtain ⟨c, hc, rfl⟩ := List.mem_map.1 (List.of_mem_zip hzip).1
      rw [hpath, ← hnames c.2]
      exact ih c.1 (mem_children_of_mem_parts hc) hrecast
    cases hs : ofNode? (.mk k span cs) with
    | some s =>
      apply idle_of_scope halike hs
      apply hparts
      intro i
      simp [realms, Realm.ofNode?, hs]
    | none =>
      have hs' : ofNode? n' = none := by
        rw [← Option.isNone_iff_eq_none, ← Option.not_isSome, halike.isSome_ofNode?, hs]
        rfl
      have hown := (idle_own htext h).append (hparts _ fun i => by simp [realms, Realm.ofNode?, hs])
      rw [← gatherAt_branches halike] at hown
      exact hown.of_perm (field_declared.perm_parts hs above) (field_declared.perm_parts hs' above)
        (field_sites.perm_parts hs' above) (field_edits.perm_parts hs' above)

/--
After the edits of a program have been applied, a tree that differs only in the kinds of the changed
declarations gives no further edit.
-/
theorem edits_eq_nil_of_recast (dialect : Dialect) (p p' : Program)
    (hparse : Program.parse dialect ((Document.ofText p.text).apply (edits p)).1.text = .ok p')
    (hrecast : recast p [] p.tree p'.tree = true) : edits p' = [] := by
  have htext := Program.text_of_parse hparse
  have hidle := idle_of_recast htext hrecast
  have hdeclared := perm_declared p.text (.ofProgram p) [(p.tree, [])] rfl
  have hgather : (gatherAt p.text [(p.tree, [])]).declared = (findAt p.text [] p.tree).declared :=
    List.append_nil _
  rw [hgather] at hdeclared
  exact hidle.edits_close hdeclared

theorem edits_eq_nil_of_recast_redeclared :
    ∃ p ∈ (Program.parse .tsx (Text.ofString
        "var a = 1, b = 2; var b = 3; function f(c) \x7b var c = a; var d; var e = () => d; \x7d")).toOption,
      ∃ p' ∈ (Program.parse .tsx ((Document.ofText p.text).apply (edits p)).1.text).toOption,
        (edits p).length = 2 ∧ recast p [] p.tree p'.tree = true ∧ edits p' = [] := by
  have hrecast : ∃ p ∈ (Program.parse .tsx (Text.ofString
        "var a = 1, b = 2; var b = 3; function f(c) \x7b var c = a; var d; var e = () => d; \x7d")).toOption,
      ∃ p' ∈ (Program.parse .tsx ((Document.ofText p.text).apply (edits p)).1.text).toOption,
        (edits p).length = 2 ∧ recast p [] p.tree p'.tree = true := by
    decide +kernel
  obtain ⟨p, hp, p', hp', hlength, hrecast⟩ := hrecast
  have hparse := Program.parse_eq_of_mem hp'
  exact ⟨p, hp, p', hp', hlength, hrecast, edits_eq_nil_of_recast .tsx p p' hparse hrecast⟩

end Uplift.VarToConst
