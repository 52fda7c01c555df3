import Uplift.Proofs.Formed

namespace Uplift.Grammar

set_option autoImplicit true

open Parse Node

variable {go : Level} {e p n value : Node} {es ps : List Node}

theorem identNode_expressed : identNode.Yields Expressed := .skip fun (_, _) => .term rfl rfl nofun

theorem bindingIdent_formed : (bindingIdent lexical).Yields Formed := by
  unfold bindingIdent
  refine .skip fun _ => .optionally fun _ => .skip fun (w, lo) => .skip fun c => ?_
  exact .optionally fun _ => .optionally fun _ => .optionally fun _ => .plain rfl nofun

theorem nameNode_formed : nameNode.Yields Formed := by
  refine .skip fun t => ?_
  split
  · exact .plainLeaf rfl
  · exact .fail

theorem memberName_formed : memberName.Yields Formed := by
  refine .skip fun t => ?_
  split
  · exact .plainLeaf rfl
  · exact nameNode_formed

theorem propertyKey_formed (hgo : go.Formed) :
    (propertyKey go).Yields fun n => n.isKey = true ∧ n.Formed := by
  refine .skip fun lo => .skip fun t => ?_
  split
  · exact .leaf fun _ => ⟨rfl, formed_of_isFree rfl nofun⟩
  · exact .leaf fun _ => ⟨rfl, formed_of_isFree rfl nofun⟩
  · exact .leaf fun _ => ⟨rfl, formed_of_isFree rfl nofun⟩
  · exact .leaf fun _ => ⟨rfl, formed_of_isFree rfl nofun⟩
  · refine .skip fun _ => .bind (.under hgo.assignment) fun e he => .skip fun _ => .node fun _ => ?_
    exact ⟨he.isExpression, formed_of_isFree rfl (by simp [he.formed])⟩
  · exact .fail

theorem memberKey_formed (hgo : go.Formed) : (memberKey go).Yields Formed := by
  refine .skip fun t => ?_
  split
  · exact .optionally_two fun _ => .plainLeaf rfl
  · exact .ite (.plainLeaf rfl) (.plainLeaf rfl)
  · exact (propertyKey_formed hgo).mono fun _ h => h.2

theorem initializer_expressed (hgo : go.Formed) : (initializer go).Yields Expressed :=
  .under hgo.assignment

theorem bindingElement_formed (hgo : go.Formed) : (bindingElement go).Yields Formed := by
  refine .skip fun lo => .bind hgo.bindingPattern fun left hleft => .skip fun _ =>
    .ite ?_ (.pure hleft)
  refine .bind (initializer_expressed hgo) fun right hright => .skip fun c =>
    .optionally fun _ => ?_
  exact .plain rfl (by simp [hleft, hright.formed])

theorem arrayElements_formed (hgo : go.Formed) :
    (arrayElements go).Yields AllFormed := by
  refine .loop (AllFormed ·.1) allFormed_nil fun (done, rested) hdone => ?_
  refine .skip fun _ => .skip fun _ => .ite (.pure (by simpa using hdone)) ?_
  refine .skip fun _ => .ite (.pure (by simpa using hdone)) ?_
  extract_lets -underBinder read
  have hread (u : Unit) : (read u).Yields (Sum.elim (AllFormed ·.1) AllFormed) := by
    refine .skip fun lo => .skip fun rest => ?_
    extract_lets -underBinder added
    have hadded (n : Node) (hn : n.Formed) :
        (added n).Yields (Sum.elim (AllFormed ·.1) AllFormed) := by
      refine .skip fun _ => ?_
      extract_lets -underBinder finish
      have hfinish (u : Unit) :
          (finish u).Yields (Sum.elim (AllFormed ·.1) AllFormed) :=
        .pure (by simpa using ⟨hn, hdone⟩)
      refine .ite (hfinish ()) (.skip fun _ => .skip fun _ => .ite ?_ (hfinish ()))
      exact .skip fun _ => .skip hfinish
    refine .ite ?_ (.bind (bindingElement_formed hgo) hadded)
    exact .bind hgo.bindingPattern fun p hp => .bind (.plain rfl (by simp [hp])) hadded
  cases rested with
  | none => exact hread ()
  | some offset => exact .skip hread

theorem arrayPattern_formed (hgo : go.Formed) : (arrayPattern go).Yields Formed := by
  refine .skip fun lo => .skip fun _ => .bind (arrayElements_formed hgo) fun es hes => ?_
  refine .skip fun _ => .skip fun pattern => .skip fun _ => .pure ?_
  have helements : (Node.mk .elements pattern.span es).Formed := formed_of_isFree rfl hes
  exact formed_of_isFree rfl (by simp [helements])

theorem patternProperty_formed (hgo : go.Formed) : (patternProperty go).Yields Formed := by
  refine .skip fun lo => .skip fun _ => .ite ?_ ?_
  · exact .bind hgo.bindingPattern fun p hp => .plain rfl (by simp [hp])
  · refine .bind (propertyKey_formed hgo) fun key hkey => .skip fun _ => .ite ?_ ?_
    · exact .bind (bindingElement_formed hgo) fun value hvalue =>
        .plain rfl (by simp [hkey.2, hvalue])
    · split
      next w span _ =>
        have hbinding : (Node.mk (.binding w) span []).Formed := formed_of_isFree rfl nofun
        refine .skip fun _ => .ite ?_ ?_
        · refine .bind (initializer_expressed hgo) fun value hvalue => ?_
          exact .plain rfl (by simp [hbinding, hvalue.formed])
        · exact .skip fun c => .optionally fun _ => .plain rfl (by simp [hbinding])
      next => exact .fail

theorem braced_yields (h : item.Yields P) : (braced item).Yields fun r => ∀ n ∈ r.1, P n := by
  have hitems : (Parse.many do
      if ← isPunct "\x7d" then return none
      let i ← item
      if ← isPunct "\x7d" then return some (i, none)
      let comma ← here
      expect ","
      return some (i, if ← isPunct "\x7d" then some comma else none)).Yields fun r =>
      ∀ a ∈ r, P a.1 := by
    refine .many (.skip fun _ => .ite (.pure nofun) ?_)
    refine .bind h fun i hi => .skip fun _ => .ite (.pure (by simpa using hi)) ?_
    exact .skip fun _ => .skip fun _ => .skip fun _ => .pure (by simpa using hi)
  refine .skip fun _ => .bind hitems fun items hall => .skip fun _ => .pure ?_
  simpa using hall

theorem objectPattern_formed (hgo : go.Formed) : (objectPattern go).Yields Formed := by
  refine .skip fun lo => .bind (braced_yields (patternProperty_formed hgo)) fun (ps, comma) hps =>
    ?_
  refine .skip fun _ => .skip fun pattern => .skip fun _ => .pure ?_
  have hproperties : (Node.mk .properties pattern.span ps).Formed := formed_of_isFree rfl hps
  exact formed_of_isFree rfl (by simp [hproperties])

theorem bindingPattern_formed (hgo : go.Formed) : (bindingPattern go lexical).Yields Formed := by
  refine .skip fun _ => .ite (arrayPattern_formed hgo) ?_
  exact .skip fun _ => .ite (objectPattern_formed hgo) bindingIdent_formed

theorem formed_annotated {t : Node} (hp : p.Formed) (ht : t.Formed) : (annotated p t).Formed := by
  unfold annotated
  split
  · exact formed_of_isFree rfl (by simp [ht, hp.of_mem_children rfl List.mem_cons_self])
  · exact formed_of_isFree rfl (by simp [ht, hp.of_mem_children rfl List.mem_cons_self])
  · exact formed_of_isFree rfl (by simp [ht, hp.of_mem_children rfl List.mem_cons_self])
  · exact formed_of_isFree rfl (by simp [ht])
  · exact hp

/-- A formed tree that can be turned into a target. -/
structure Coverable (e : Node) : Prop where
  formed : e.Formed
  covers : e.isExpression = true ∨ e.isTarget = true

theorem Coverable.of_expressed (h : e.Expressed) : Coverable e := ⟨h.formed, .inl h.isExpression⟩

theorem Coverable.aimed (h : Coverable e) (hkind : ∀ w, e.kind ≠ .ident w) : e.Aimed := by
  refine ⟨?_, h.formed⟩
  rcases h.covers with he | he
  · apply isTarget_of_isExpression he
    unfold name?
    split
    next => exact absurd rfl (hkind _)
    next => rfl
  · exact he

theorem aimed_binding (w : String) (span : Range) : (Node.mk (.binding w) span []).Aimed :=
  ⟨rfl, formed_of_isFree rfl nofun⟩

theorem aimed_invalid (span : Range) : (invalidAt span).Aimed := ⟨rfl, expressed_invalid.formed⟩

theorem aimed_rest {span : Range} (h : p.Aimed) :
    (Node.mk .restPattern span [p, .absent]).Aimed := by
  refine ⟨?_, formed_of_isFree rfl (by simp [h.formed])⟩
  exact Bool.and_eq_true_iff.2 ⟨h.isTarget, rfl⟩

theorem isExpression_of_isElement (h : e.isElement = true)
    (hspread : ∀ span cs, e ≠ mk .spread span cs) (habsent : ∀ span cs, e ≠ mk .absent span cs) :
    e.isExpression = true := by
  unfold isElement at h
  split at h
  next => exact absurd rfl (hspread _ _)
  next => exact absurd rfl (habsent _ _)
  next => exact h

theorem coverElements_aimed (hturn : ∀ e, Coverable e → (turn e).Yields Aimed)
    (hes : ∀ e ∈ es, e.isElement = true ∧ e.Formed) :
    (coverElements turn comma es).Yields fun ps => ∀ p ∈ ps, p.Aimed := by
  induction es with
  | nil => exact .pure nofun
  | cons e rest ih =>
    obtain ⟨⟨he, hformed⟩, hrest⟩ := List.forall_mem_cons.1 hes
    have hmore := ih hrest
    rw [coverElements.eq_def]
    split
    next => exact .pure nofun
    next span e heq =>
      cases heq
      have hpart := hturn e ⟨hformed.of_mem_children rfl List.mem_cons_self, .inl he⟩
      extract_lets last noted
      have hlast (u : Unit) : (last u).Yields fun ps => ∀ p ∈ ps, p.Aimed :=
        .bind hpart fun p hp => .pure (by simpa using aimed_rest hp)
      have hnoted (u : Unit) : (noted u).Yields fun ps => ∀ p ∈ ps, p.Aimed := by
        cases comma with
        | none => exact hlast ()
        | some offset => exact .skip hlast
      split
      next => exact .skip hnoted
      next => exact hnoted ()
    next heq =>
      cases heq
      exact .skip fun _ => hmore
    next heq =>
      cases heq
      refine .bind hmore fun ps hps => .pure ?_
      exact List.forall_mem_cons.2 ⟨⟨rfl, formed_of_isFree rfl nofun⟩, hps⟩
    next hspread habsent heq =>
      cases heq
      have hcover : Coverable e := ⟨hformed, .inl (isExpression_of_isElement he hspread habsent)⟩
      refine .bind (hturn e hcover) fun p hp => .bind hmore fun ps hps => ?_
      exact .pure (List.forall_mem_cons.2 ⟨hp, hps⟩)

theorem aimed_shorthand {span s : Range} (h : value.isHole = true ∨ value.isExpression = true)
    (hvalue : value.Formed) :
    (Node.mk .shorthandPattern span [.mk (.binding w) s [], value]).Aimed := by
  refine ⟨?_, formed_of_isFree rfl (by simp [hvalue, (aimed_binding w s).formed])⟩
  exact Bool.and_eq_true_iff.2 ⟨rfl, Bool.or_eq_true_iff.2 h⟩

theorem aimed_keyed {key : Node} {span : Range} (hkey : key.isKey = true) (hformed : key.Formed)
    (hp : p.Aimed) : (Node.mk .keyedPattern span [key, p]).Aimed := by
  refine ⟨?_, formed_of_isFree rfl (by simp [hformed, hp.formed])⟩
  exact Bool.and_eq_true_iff.2 ⟨hkey, hp.isTarget⟩

theorem coverProperties_aimed (hturn : ∀ e, Coverable e → (turn e).Yields Aimed)
    (hes : ∀ e ∈ es, e.isProperty = true ∧ e.Formed) :
    (coverProperties cover turn comma es).Yields fun ps => ∀ p ∈ ps, p.Aimed := by
  induction es with
  | nil => exact .pure nofun
  | cons e rest ih =>
    obtain ⟨⟨he, hformed⟩, hrest⟩ := List.forall_mem_cons.1 hes
    have hmore := ih hrest
    have hcons (p : Node) (hp : p.Aimed) :
        (coverProperties cover turn comma rest >>= fun ps => pure (p :: ps)).Yields fun ps =>
          ∀ p ∈ ps, p.Aimed :=
      .bind hmore fun ps hps => .pure (List.forall_mem_cons.2 ⟨hp, hps⟩)
    rw [coverProperties.eq_def]
    split
    next => exact .pure nofun
    next heq =>
      cases heq
      exact hcons _ (aimed_shorthand (.inl rfl) formed_absent)
    next span key value more heq =>
      cases heq
      obtain ⟨hkey, hvalue⟩ := Bool.and_eq_true_iff.1 he
      have hparts := ((formed_mk rfl).1 hformed).2
      refine .bind (hturn value ⟨hparts value (by simp), .inl hvalue⟩) fun p hp => ?_
      exact hcons _ (aimed_keyed hkey (hparts key (by simp)) hp)
    next value more heq =>
      cases heq
      exact hcons _ (aimed_shorthand (.inr he) (((formed_mk rfl).1 hformed).2 value (by simp)))
    next span e more heq =>
      cases heq
      have hturned := hturn e ⟨hformed.of_mem_children rfl List.mem_cons_self, .inl he⟩
      extract_lets finish covered
      have hfinish (p : Node) (hp : p.Aimed) : (finish p).Yields fun ps => ∀ p ∈ ps, p.Aimed :=
        .optionally fun _ => hcons _ (aimed_rest hp)
      have hcovered (u : Unit) : (covered u).Yields fun ps => ∀ p ∈ ps, p.Aimed := by
        unfold covered
        split
        next => exact .bind (.pure (aimed_binding _ _)) hfinish
        next => exact .skip fun _ => .bind (.pure (aimed_invalid _)) hfinish
        next => exact .bind hturned hfinish
      refine .ite ?_ (.skip hcovered)
      cases comma with
      | none => exact hcovered ()
      | some offset => exact .skip hcovered
    next heq => exact .failAt

theorem aimed_default {span : Range} (hp : p.Aimed) (hvalue : value.Expressed) :
    (Node.mk .assignPattern span [p, value]).Aimed := by
  refine ⟨?_, formed_of_isFree rfl (by simp [hp.formed, hvalue.formed])⟩
  exact Bool.and_eq_true_iff.2 ⟨hp.isTarget, hvalue.isExpression⟩

theorem aimed_array {span : Range} (hps : ∀ p ∈ ps, p.Aimed) :
    (Node.mk .arrayPattern span [.mk .elements span ps, .absent]).Aimed := by
  have helements : (Node.mk .elements span ps).Formed :=
    formed_of_isFree rfl fun p hp => (hps p hp).formed
  refine ⟨?_, formed_of_isFree rfl (by simp [helements])⟩
  exact Bool.and_eq_true_iff.2 ⟨(areTargets_iff ps).2 fun p hp => (hps p hp).isTarget, rfl⟩

theorem aimed_object {span : Range} (hps : ∀ p ∈ ps, p.Aimed) :
    (Node.mk .objectPattern span [.mk .properties span ps, .absent]).Aimed := by
  have hproperties : (Node.mk .properties span ps).Formed :=
    formed_of_isFree rfl fun p hp => (hps p hp).formed
  refine ⟨?_, formed_of_isFree rfl (by simp [hproperties])⟩
  exact Bool.and_eq_true_iff.2 ⟨(areTargets_iff ps).2 fun p hp => (hps p hp).isTarget, rfl⟩

theorem coverForm_aimed (hturn : ∀ e, Coverable e → (turn e).Yields Aimed) (he : Coverable e) :
    (coverForm cover turn e).Yields Aimed := by
  obtain ⟨hformed, hcovers⟩ := he
  have hproper := hformed.isProper
  have hparts (hk : e.kind.isPure = true) (c : Node) (hc : c ∈ e.children) : c.Formed :=
    hformed.of_mem_children hk hc
  unfold coverForm
  split
  next => exact .pure (aimed_binding _ _)
  next span left right =>
    obtain ⟨htarget, hvalue⟩ := Bool.and_eq_true_iff.1 hproper
    have hleft : left.Formed := hparts rfl left List.mem_cons_self
    have hright : right.Expressed :=
      ⟨List.all_eq_true.1 hvalue right List.mem_cons_self,
        hparts rfl right (List.mem_cons_of_mem _ List.mem_cons_self)⟩
    extract_lets -underBinder finish
    have hfinish (p : Node) (hp : p.Aimed) : (finish p).Yields Aimed :=
      .pure (aimed_default hp hright)
    -- A left side that already is a target stays as it is.
    split
    next => exact .bind (.pure ⟨htarget, hleft⟩) hfinish
    next => exact .bind (.pure ⟨htarget, hleft⟩) hfinish
    next => exact .bind (.pure ⟨htarget, hleft⟩) hfinish
    next => exact .bind (hturn left ⟨hleft, .inr htarget⟩) hfinish
  next span es =>
    have hes : ∀ e ∈ es, e.isElement = true ∧ e.Formed := fun e he =>
      ⟨List.all_eq_true.1 hproper e he, hparts rfl e he⟩
    exact .skip fun comma => .bind (coverElements_aimed hturn hes) fun ps hps =>
      .pure (aimed_array hps)
  next span es =>
    have hes : ∀ e ∈ es, e.isProperty = true ∧ e.Formed := fun e he =>
      ⟨List.all_eq_true.1 hproper e he, hparts rfl e he⟩
    exact .skip fun comma => .bind (coverProperties_aimed hturn hes) fun ps hps =>
      .pure (aimed_object hps)
  next => exact .pure ⟨hcovers.resolve_left nofun, hformed⟩
  next => exact .pure ⟨hcovers.resolve_left nofun, hformed⟩
  next => exact .pure ⟨hcovers.resolve_left nofun, hformed⟩
  next => exact .skip fun _ => .pure (aimed_invalid _)

theorem coverFrom_aimed (depth : Nat) (cover : Cover) (he : Coverable e) :
    (coverFrom depth cover e).Yields Aimed := by
  induction depth generalizing cover e with
  | zero => exact .fail
  | succ depth ih =>
    have hform (cover : Cover) : (coverForm cover (coverFrom depth cover.inner) e).Yields Aimed :=
      coverForm_aimed (fun e he => ih cover.inner he) he
    unfold coverFrom
    cases cover with
    | binding => exact hform .binding
    | target =>
      dsimp only
      split
      next => exact hform .target
      next => exact hform .target
      next => exact .skip fun _ => .pure (aimed_binding _ _)
      next hident => exact .skip fun _ => .pure (he.aimed hident)
    | part =>
      dsimp only
      split
      next => exact hform .part
      next => exact hform .part
      next => exact hform .part
      next => exact .skip fun c => .otherwise fun _ => .pure (aimed_binding _ _)
      next hident =>
        refine .ite ?_ (.skip fun _ => hform .part)
        exact .skip fun c => .otherwise fun _ => .pure (he.aimed hident)

theorem toPattern_aimed (cover : Cover) (he : e.Expressed) : (toPattern cover e).Yields Aimed :=
  .skip fun _ => coverFrom_aimed _ cover (.of_expressed he)

end Uplift.Grammar
