import Uplift.Proofs.Formed.Member

namespace Uplift.Grammar

set_option autoImplicit true

open Parse Node

inductive Listed : Node → Prop where
  | expression {e : Node} (h : e.Expressed) : Listed e
  | spread {e : Node} {span : Range} (h : e.Expressed) : Listed (.mk .spread span [e])

variable {go : Level} {inner : Parse Node} {n e base args left : Node} {items : List Item}
    {lo : Nat}

theorem Listed.formed (h : Listed n) : n.Formed := by
  cases h with
  | expression h => exact h.formed
  | spread h => exact formed_of_isFree rfl (by simpa using h.formed)

theorem Listed.isElement (h : Listed n) : n.isElement = true := by
  cases h with
  | expression h =>
    obtain ⟨k, span, cs⟩ := n
    have he := h.isExpression
    cases k with
    | spread => cases he
    | absent => cases he
    | _ => exact he
  | spread h => exact h.isExpression

theorem Listed.of_spread {span : Range} (h : Listed (.mk .spread span [e])) : e.Expressed := by
  cases h with
  | expression h => cases h.isExpression
  | spread h => exact h

theorem Listed.expressed (h : Listed n) (hn : ∀ span e, n ≠ .mk .spread span [e]) :
    n.Expressed := by
  cases h with
  | expression h => exact h
  | spread h => exact absurd rfl (hn _ _)

theorem spreadable_listed (hgo : go.Formed) : (spreadable go).Yields Listed := by
  refine .skip fun lo => .skip fun _ => .ite ?_ (hgo.assignment.mono fun _ => .expression)
  exact .bind hgo.assignment fun e he => .node fun _ => .spread he

theorem argumentsWith_formed (hgo : go.Formed) : (argumentsWith go trailing).Yields Formed := by
  refine .skip fun lo => .skip fun _ => ?_
  refine .bind (.under (.allFormed ?_)) fun given hgiven => .skip fun _ => .plain rfl hgiven
  refine .skip fun _ => .ite .none (.bind (spreadable_listed hgo) fun a ha => .skip fun _ => ?_)
  have hdone : (Pure.pure (some a) : Parse (Option Node)).Yields fun r => ∀ n ∈ r, n.Formed :=
    .pure (by simpa using ha.formed)
  exact .ite hdone (.skip fun _ => .skip fun _ => .optionally fun _ => hdone)

theorem arguments_formed (hgo : go.Formed) : (arguments go).Yields Formed :=
  argumentsWith_formed hgo

theorem chained_expressed {plain : Kind} (hplain : plain.isFree = true)
    (he : plain.isExpression = true) (h : AllFormed cs) :
    (Parse.node (chained base plain) lo cs).Yields Expressed := by
  unfold chained
  split
  next => exact .term rfl rfl h
  next => exact .term hplain he h

theorem tagged_expressed (hgo : go.Formed) (hbase : base.Formed) (hargs : args.Formed) :
    (tagged go base args).Yields Expressed := by
  unfold tagged
  refine .optionally_two fun _ => .bind (template_expressed hgo true) fun t ht => ?_
  exact .term rfl rfl (by simp [hbase, hargs, ht.formed])

theorem typedAccess_expressed (hgo : go.Formed) (hbase : base.Formed) :
    (typedAccess go base calls).Yields fun r => ∀ n ∈ r, n.Expressed := by
  refine .attempt (.bind (typeArguments_formed hgo) fun args hargs => .skip fun _ => .ite ?_ ?_)
  · refine .bind (arguments_formed hgo) fun given hgiven => .some ?_
    exact chained_expressed rfl rfl (by simp [hbase, hargs, hgiven])
  · refine .skip fun _ =>
      .ite (.some (tagged_expressed hgo hbase hargs)) (.skip fun _ => .ite (.some ?_) .none)
    exact .term rfl rfl (by simp [hbase, hargs])

theorem optionalAccess_expressed (hgo : go.Formed) (hbase : base.Formed) :
    (optionalAccess go base calls computed).Yields Expressed := by
  refine .skip fun _ => .ite ?_ (.skip fun _ => .ite ?_ ?_)
  · refine .skip fun _ => .bind (.under hgo.expression) fun e he => .skip fun _ => ?_
    exact .term rfl rfl (by simp [hbase, he.formed])
  · exact .bind (arguments_formed hgo) fun given hgiven => .term rfl rfl (by simp [hbase, hgiven])
  · refine .skip fun _ => .optionally fun _ => .skip fun _ => .ite ?_ ?_
    · refine .bind (typeArguments_formed hgo) fun args hargs => ?_
      refine .bind (arguments_formed hgo) fun given hgiven => ?_
      exact .term rfl rfl (by simp [hbase, hargs, hgiven])
    · exact .bind memberName_formed fun name hname => .term rfl rfl (by simp [hbase, hname])

theorem memberAccess_expressed {plain : Kind} {part : Node} (hplain : plain.isFree = true)
    (he : plain.isExpression = true) (hbase : base.Formed) (hpart : part.Formed) :
    (memberAccess base plain part).Yields Expressed := by
  have hparts : AllFormed [base, part] := by simp [hbase, hpart]
  unfold memberAccess
  refine .ite (.skip fun _ => .skip fun _ => .otherwise fun _ =>
    ?_) (chained_expressed hplain he hparts)
  split
  next => exact .skip fun _ => .term rfl rfl hparts
  next => exact .term rfl rfl hparts

/--
What an access yields, or what its base is if there is none. Calls and computed names are what may
follow the words `super` and `import`, so neither stands alone where both are allowed.
-/
def Accessed (base : Node) (calls computed : Bool) : Option Node → Prop
  | some n => n.Expressed
  | none => (calls && computed) = true → base.kind ≠ .super ∧ base.kind ≠ .importCallee

theorem access_accessed (hgo : go.Formed) (hbase : base.Formed) :
    (access go base calls computed).Yields (Accessed base calls computed) := by
  have hsome {p : Parse Node} (hp : p.Yields Expressed) :
      (p >>= fun n => Pure.pure (some n)).Yields (Accessed base calls computed) :=
    .bind hp fun n hn => .pure hn
  refine .skip fun _ => ?_
  extract_lets -underBinder marked
  -- What is read where neither a type nor a mark of one follows the base.
  have hmarked (u : Unit) : (marked u).Yields (Accessed base calls computed) := by
    refine .skip fun t => ?_
    split
    next => exact .optionally fun _ => .skip fun _ => hsome (optionalAccess_expressed hgo hbase)
    next =>
      cases computed with
      | false => exact .pure fun h => by simp at h
      | true =>
        refine .skip fun _ => .bind (.under hgo.expression) fun e he => .skip fun _ => hsome ?_
        exact memberAccess_expressed rfl rfl hbase he.formed
    next =>
      refine .skip fun _ => .bind memberName_formed fun name hname => hsome ?_
      exact memberAccess_expressed rfl rfl hbase hname
    next =>
      cases calls with
      | false => exact .pure fun h => by simp at h
      | true =>
        refine .skip fun _ => .bind (argumentsWith_formed hgo) fun given hgiven => hsome ?_
        exact chained_expressed rfl rfl (by simp [hbase, hgiven])
    next => exact .optionally fun _ => hsome (tagged_expressed hgo hbase formed_absent)
    next =>
      split
      next => exact .bind (P := fun _ => False) .fail fun _ h => h.elim
      next h => exact .pure fun _ => by simpa using h
  refine .ite (.skip fun _ => .skip fun _ =>
    .ite ?_ (.skip fun _ => .ite ?_ (hmarked ()))) (hmarked ())
  · exact .skip fun _ => .optionally fun _ => hsome (.term rfl rfl (by simpa using hbase))
  · exact .found (typedAccess_expressed hgo hbase) (fun n hn => .pure hn) (hmarked ())

theorem accesses_expressed (hgo : go.Formed) (hbase : base.Expressed) :
    (accesses go base calls computed).Yields Expressed := by
  refine .loop Expressed hbase fun e he => .bind (access_accessed hgo he.formed) fun r hr => ?_
  cases r with
  | none => exact .pure he
  | some n => exact .pure hr

structure Base (n : Node) : Prop where
  formed : n.Formed
  starts : n.isExpression = true ∨ n.kind = .super ∨ n.kind = .importCallee

theorem accesses_formed (hgo : go.Formed) (hbase : base.Formed) :
    (accesses go base calls computed).Yields Formed := by
  refine .loop Formed hbase fun e he => .bind (access_accessed hgo he) fun r hr => ?_
  cases r with
  | none => exact .pure he
  | some n => exact .pure hr.formed

/-- Where all accesses are allowed, a base that is no expression has one. -/
theorem accesses_of_base (hgo : go.Formed) (hbase : Base base) :
    (accesses go base true true).Yields Expressed := by
  refine .loop Base hbase fun e he => .bind (access_accessed hgo he.formed) fun r hr => ?_
  cases r with
  | none =>
    obtain ⟨hsuper, himport⟩ := hr rfl
    refine .pure ⟨?_, he.formed⟩
    exact he.starts.resolve_right fun h => h.elim hsuper himport
  | some n => exact .pure ⟨hr.formed, .inl hr.isExpression⟩

theorem importOperand_base : importOperand.Yields Base := by
  have hcallee (lo : Nat) : (Parse.node .importCallee lo []).Yields Base :=
    .node fun _ => ⟨formed_of_isFree rfl allFormed_nil, .inr (.inr rfl)⟩
  refine .skip fun lo => .skip fun _ => .skip fun _ =>
    .ite (.skip fun _ => .skip fun _ => .ite ?_ ?_) ?_
  · exact .node fun _ => ⟨formed_of_isFree rfl allFormed_nil, .inl rfl⟩
  · exact .skip fun _ => .ite (hcallee lo) .fail
  · exact .skip fun _ => .otherwise fun _ => hcallee lo

theorem newTarget_expressed : (newTarget lo).Yields Expressed :=
  .skip fun _ => .skip fun _ => .otherwise fun _ => .term rfl rfl allFormed_nil

theorem newExpr_expressed (hgo : go.Formed) : (newExpr go).Yields Expressed := by
  refine .skip fun lo => .skip fun _ => .skip fun _ => .ite newTarget_expressed ?_
  refine .bind hgo.newOperand fun callee hcallee => .optionally fun _ => .skip fun _ => ?_
  extract_lets -underBinder given
  have hgiven (args : Node) (hargs : args.Formed) : (given args).Yields Expressed := by
    refine .skip fun _ => .either (arguments_formed hgo) (.pure formed_absent) fun given hgiven =>
      ?_
    exact .term rfl rfl (by simp [hcallee, hargs, hgiven])
  refine .ite (.bind (.attempt (P := Formed) ?_) fun tried htried =>
    ?_) (.bind (.pure formed_absent) hgiven)
  · refine .bind (typeArguments_formed hgo) fun args hargs => .skip fun _ => .ite (.pure ?_) .none
    simpa using hargs
  · exact .bind (.pure (formed_getD htried)) hgiven

theorem leftHandSide_expressed (hgo : go.Formed) (hinner : inner.Yields Expressed) :
    (leftHandSide go inner).Yields Expressed := by
  have hsuper : (Parse.leaf .super).Yields Base :=
    .leaf fun _ => ⟨formed_of_isFree rfl allFormed_nil, .inr (.inl rfl)⟩
  refine .skip fun lo => .skip fun _ => .ite (.bind hsuper fun s hs => accesses_of_base hgo hs) ?_
  refine .skip fun _ => .ite (.bind importOperand_base fun i hi => accesses_of_base hgo hi) ?_
  refine .skip fun _ =>
    .ite (.bind (newExpr_expressed hgo) fun n hn => ?_) (.bind hinner fun e he => ?_)
  · exact .ite (.pure hn) (accesses_expressed hgo hn)
  · exact .ite (.pure he) (accesses_expressed hgo he)

theorem newOperand_formed (hgo : go.Formed) (hinner : inner.Yields Expressed) :
    (newOperand go inner).Yields Formed := by
  refine .skip fun _ => .ite (.bind (.plainLeaf rfl) fun s hs => accesses_formed hgo hs) ?_
  refine .skip fun _ => .ite (.bind importOperand_base fun i hi => accesses_formed hgo hi.formed) ?_
  refine .skip fun _ =>
    .ite (.bind (newExpr_expressed hgo) fun n hn => ?_) (.bind hinner fun e he => ?_)
  · exact .ite (.pure hn.formed) (accesses_formed hgo hn.formed)
  · exact accesses_formed hgo he.formed

theorem expressed_assign {op : String} {target value : Node} {span : Range} (ht : target.Aimed)
    (hv : value.Expressed) : (Node.mk (.assign op) span [target, value]).Expressed := by
  refine ⟨rfl, (formed_mk rfl).2 ⟨?_, by simp [ht.formed, hv.formed]⟩⟩
  simp [isProper, ht.isTarget, hv.isExpression]

theorem assigned_expressed (hgo : go.Formed) (hleft : left.Expressed) :
    (assigned go lo left).Yields Expressed := by
  refine .skip fun t => ?_
  split
  next op =>
    refine .ite ?_ (.pure hleft)
    extract_lets -underBinder finish
    have hfinish (target : Node) (ht : target.Aimed) : (finish target).Yields Expressed := by
      refine .otherwise fun _ => .skip fun _ => .bind hgo.assignment fun right hright =>
        .node fun _ => ?_
      exact expressed_assign ht hright
    refine .ite (.bind (toPattern_aimed .target hleft) hfinish) (.skip fun c =>
      .otherwise fun _ => ?_)
    split
    next w span cs =>
      exact .skip fun _ => .optionally fun _ => .bind (.pure (aimed_binding w span)) hfinish
    next hident =>
      apply Parse.Yields.bind (.pure ((Coverable.of_expressed hleft).aimed fun w hw => ?_)) hfinish
      obtain ⟨k, span, cs⟩ := left
      cases hw
      exact hident _ _ _ rfl
  next => exact .pure hleft

theorem branches_expressed (hgo : go.Formed) (htest : n.Formed) :
    (branches go n).Yields Expressed := by
  refine .skip fun _ => .bind (.under hgo.assignment) fun yes hyes => .skip fun _ => ?_
  refine .bind (.under hgo.assignment) fun no hno => .term rfl rfl ?_
  simp [htest, hyes.formed, hno.formed]

theorem typedItem_listed (hgo : go.Formed) : (typedItem go lo).Yields Listed := by
  refine .skip fun _ => .ite ?_ ?_
  · exact .bind hgo.operation fun e he => .node fun _ => .spread he
  · refine .bind hgo.operation fun e he => .ite (.pure (.expression he)) ?_
    exact (assigned_expressed hgo he).mono fun _ => .expression

theorem itemQuestion_listed (hgo : go.Formed) (hn : Listed n) :
    (itemQuestion go n).Yields fun r => Listed r.1 := by
  refine .skip fun _ =>
    .ite (.skip fun _ => .ite (.skip fun _ => .skip fun _ => ?_) (.ite (.pure hn) ?_)) (.pure hn)
  · extract_lets marked
    have hmarked (u : Unit) : (marked u).Yields fun r => Listed r.1 := .pure hn
    split
    next =>
      refine .skip fun _ => ?_
      split
      next => exact hmarked ()
      next => exact .skip hmarked
    next => exact hmarked ()
    next => exact .skip hmarked
  · exact .bind (branches_expressed hgo hn.formed) fun e he => .pure (.expression he)

theorem kind_annotated (p t : Node) : (annotated p t).kind = p.kind := by
  unfold annotated
  split <;> rfl

/--
A formed tree that is no spread, and so no item of a list that is still to become a parameter.
-/
structure Parameter (n : Node) : Prop where
  formed : n.Formed
  kind_ne : n.kind ≠ .spread

theorem Parameter.annotated {p t : Node} (hp : Parameter p) (ht : t.Formed) :
    Parameter (annotated p t) :=
  ⟨formed_annotated hp.formed ht, kind_annotated p t ▸ hp.kind_ne⟩

theorem Parameter.stretched {p : Node} {stop : Nat} (hp : Parameter p) :
    Parameter (stretched p stop) :=
  ⟨formed_stretched hp.formed, hp.kind_ne⟩

theorem Parameter.of_aimed {p : Node} (hp : p.Aimed) : Parameter p := by
  refine ⟨hp.formed, fun hkind => ?_⟩
  obtain ⟨k, span, cs⟩ := p
  cases hkind
  cases hp.isTarget

theorem typedParam_parameter (hgo : go.Formed) (hn : Listed n) :
    (typedParam go lo n).Yields Parameter := by
  unfold typedParam
  extract_lets -underBinder finish
  have hfinish (bare : Node) (hbare : Parameter bare) : (finish bare).Yields Parameter := by
    refine .bind (ascription?_formed hgo) fun t ht => .skip fun stop => ?_
    extract_lets -underBinder close
    have hclose (p : Node) (hp : Parameter p) : (close p).Yields Parameter := by
      refine .skip fun _ =>
        .ite (.bind hgo.assignment fun right hright => .node fun _ => ⟨?_, nofun⟩) (.pure hp)
      exact formed_of_isFree rfl (by simp [hp.formed, hright.formed])
    refine .ite (.bind (.pure hbare) hclose) ?_
    split
    next => exact .bind (.pure (hbare.annotated ht)) hclose
    next => exact .skip fun _ => .bind (.pure hbare.stretched) hclose
    next => exact .bind (.pure (hbare.annotated ht).stretched) hclose
  split
  next span e =>
    refine .bind (toPattern_aimed .binding hn.of_spread) fun p hp => .bind (.pure ?_) hfinish
    exact .of_aimed (aimed_rest hp)
  next hspread =>
    exact .bind (toPattern_aimed .binding (hn.expressed hspread)) fun p hp =>
      hfinish p (.of_aimed hp)

structure Item.Formed (i : Item) : Prop where
  listed : i.isPattern = false → Listed i.node
  parameter : i.isPattern = true → Parameter i.node

theorem Item.Formed.formed {i : Item} (h : i.Formed) : i.node.Formed := by
  cases hi : i.isPattern with
  | false => exact (h.listed hi).formed
  | true => exact (h.parameter hi).formed

theorem parenItem_formed (hgo : go.Formed) : (parenItem go).Yields Item.Formed := by
  refine .skip fun start => .skip fun modified => .skip fun lo => .skip fun _ => ?_
  refine .either (typedItem_listed hgo) (spreadable_listed hgo) fun e he => ?_
  refine .bind (itemQuestion_listed hgo he) fun (e, marked) he => .skip fun _ => ?_
  extract_lets -underBinder finish
  have hfinish (i : Item) (hi : i.Formed) : (finish i).Yields Item.Formed :=
    .optionally fun _ => .pure hi
  refine .ite (.bind (typedParam_parameter hgo he) fun p hp =>
    .bind (.pure ⟨nofun, fun _ => hp⟩) hfinish) ?_
  exact .bind (.pure ⟨fun _ => he, nofun⟩) hfinish

theorem parenItems_formed (hgo : go.Formed) :
    (parenItems go).Yields fun r => ∀ i ∈ r.1, i.Formed := by
  refine .skip fun _ =>
    .bind (P := fun r => ∀ a ∈ r, a.1.Formed) (.under (.many ?_)) fun items hitems => ?_
  · refine .skip fun _ => .skip fun _ =>
      .ite .none (.bind (parenItem_formed hgo) fun i hi => .skip fun _ => ?_)
    refine .ite (.pure (by simpa using hi)) (.skip fun _ => .skip fun _ => .skip fun _ => .pure ?_)
    simpa using hi
  · exact .skip fun _ => .pure (by simpa using hitems)

theorem allFormed_items (h : ∀ i ∈ items, i.Formed) : AllFormed (items.map (·.node)) := by
  intro n hn
  obtain ⟨i, hi, rfl⟩ := List.mem_map.1 hn
  exact (h i hi).formed

theorem itemPatterns_formed (comma : Option Nat) (h : ∀ i ∈ items, i.Formed) :
    (itemPatterns comma items).Yields AllFormed := by
  induction items with
  | nil => exact .pure allFormed_nil
  | cons i rest ih =>
    obtain ⟨hi, hrest⟩ := List.forall_mem_cons.1 h
    have hmore := ih hrest
    rw [itemPatterns.eq_def]
    split
    next heq => cases heq
    next heq =>
      cases heq
      split
      next span e hnode =>
        have he : e.Expressed := by
          cases hp : i.isPattern with
          | false => exact (hnode ▸ hi.listed hp).of_spread
          | true => exact absurd (hnode ▸ rfl) (hi.parameter hp).kind_ne
        extract_lets last noted
        have hlast (u : Unit) : (last u).Yields AllFormed :=
          .bind (toPattern_aimed .binding he) fun p hp =>
            .pure (by simpa using (aimed_rest hp).formed)
        have hnoted (u : Unit) : (noted u).Yields AllFormed := by
          cases comma with
          | none => exact hlast ()
          | some offset => exact .skip hlast
        split
        next => exact .skip hnoted
        next => exact hnoted ()
      next hspread =>
        cases hp : i.isPattern with
        | false =>
          refine .bind (toPattern_aimed .binding ((hi.listed hp).expressed hspread)) fun p hp =>
            .pure ?_
          simpa using hp.formed
        | true =>
          extract_lets finish
          have hfinish (u : Unit) : (finish u).Yields AllFormed := .pure (by simpa using hi.formed)
          rw [if_pos rfl]
          cases comma with
          | none => exact .ite (hfinish ()) (hfinish ())
          | some offset => exact .optionally hfinish
    next heq =>
      cases heq
      have hcons (p : Node) (hp : p.Formed) :
          (itemPatterns comma rest >>= fun ps => pure (p :: ps)).Yields AllFormed :=
        .bind hmore fun ps hps => .pure (by simp [hp, hps])
      split
      next => exact .skip fun _ => hmore
      next => exact .skip fun _ => hmore
      next hspread _ =>
        cases hp : i.isPattern with
        | false =>
          have he := (hi.listed hp).expressed fun span e heq => hspread (heq ▸ rfl)
          exact .bind (toPattern_aimed .binding he) fun p hp => hcons p hp.formed
        | true => exact .bind (.pure hi.formed) hcons

theorem arrowFrom_expressed {patterns : List Node} {generics result : Node} (hgo : go.Formed)
    (hps : AllFormed patterns) (hgenerics : generics.Formed) (hresult : result.Formed) :
    (arrowFrom go lo async patterns generics result).Yields Expressed := by
  refine .skip fun stop => .bind (arrowBody_orderly hgo) fun body hbody => .node fun _ => ⟨rfl, ?_⟩
  have hparams : (Node.mk .params ⟨lo, stop⟩ patterns).Formed := formed_of_isFree rfl hps
  have hparts : AllFormed [.mk .params ⟨lo, stop⟩ patterns, generics, result] := by
    simp [hparams, hgenerics, hresult]
  exact formed_of_isHost rfl hparts hbody

theorem arrowOf_expressed {result : Node} (hgo : go.Formed) (hitems : ∀ i ∈ items, i.Formed)
    (hresult : result.Formed) : (arrowOf go lo async items comma result).Yields Expressed := by
  refine .skip fun _ => .bind (itemPatterns_formed comma hitems) fun ps hps => .skip fun _ => ?_
  exact arrowFrom_expressed hgo hps formed_absent hresult

theorem parenExpr_expressed (hitems : ∀ i ∈ items, i.Formed) :
    (parenExpr lo items).Yields Expressed := by
  unfold parenExpr
  split
  next => exact .failAt
  next i =>
    exact .optionally fun _ => .term rfl rfl (by simpa using (hitems i List.mem_cons_self).formed)
  next =>
    refine .skip fun _ => .term rfl rfl ?_
    rw [allFormed_cons]
    exact ⟨formed_of_isFree rfl (allFormed_items hitems), allFormed_nil⟩

theorem parenOrArrow_expressed (hgo : go.Formed) :
    (parenOrArrow go arrow async).Yields Expressed := by
  refine .skip fun start => .bind (parenItems_formed hgo) fun (items, comma) hitems => ?_
  refine .skip fun c => .skip fun _ => ?_
  extract_lets -underBinder untyped
  -- What is read if a colon behind the parentheses starts no result type.
  have huntyped (u : Unit) : (untyped u).Yields Expressed := by
    refine .skip fun _ => ?_
    extract_lets -underBinder finish
    have hfinish (result : Node) (hresult : result.Formed) : (finish result).Yields Expressed := by
      refine .skip fun _ => .ite ?_ (.skip fun _ => ?_)
      · exact .skip fun _ => .optionally fun _ => .otherwise fun _ =>
          arrowOf_expressed hgo hitems hresult
      · cases async with
        | none => exact parenExpr_expressed hitems
        | some asyncLo =>
          refine .skip fun stop => .term rfl rfl ?_
          have hgiven : (Node.mk .arguments ⟨start, stop⟩ (items.map (·.node))).Formed :=
            formed_of_isFree rfl (allFormed_items hitems)
          simp [hgiven, (expressed_ident _ _).formed]
    refine .ite (.bind (.attempt (P := Formed) ?_) fun tried htried =>
      ?_) (.bind (.pure formed_absent) hfinish)
    · refine .bind (returnType_formed hgo) fun result hresult => .skip fun _ =>
        .ite (.pure ?_) .none
      simpa using hresult
    · exact .bind (.pure (formed_getD htried)) hfinish
  refine .ite (.found (.attempt (P := Expressed) ?_) (fun n hn => .pure hn) (huntyped ()))
    (huntyped ())
  refine .bind (returnType_formed hgo) fun result hresult => .skip fun _ => .ite ?_ .none
  refine .bind (arrowOf_expressed hgo hitems hresult) fun n hn => .skip fun _ =>
    .ite .none (.pure ?_)
  simpa using hn

theorem genericArrow_expressed (hgo : go.Formed) : (genericArrow go lo async).Yields Expressed := by
  refine .bind (typeParams_formed hgo) fun generics hgenerics => ?_
  refine .skip fun _ => .bind (.under hgo.params) fun ps hps => ?_
  refine .skip fun _ => .bind (returnType?_formed hgo) fun result hresult => .skip fun _ => ?_
  refine arrowFrom_expressed hgo (fun p hp => ?_) hgenerics hresult
  obtain ⟨param, hparam, rfl⟩ := List.mem_map.1 hp
  exact hps.pattern param hparam

theorem identOrArrow_expressed (hgo : go.Formed) : (identOrArrow go arrow).Yields Expressed := by
  refine .skip fun (w, lo) => .bind (.term rfl rfl allFormed_nil) fun id hid => ?_
  refine .skip fun _ => .ite ?_ (.pure hid)
  refine .skip fun _ =>
    .ite (.skip fun c => .skip fun _ => .skip fun _ => ?_) (.skip fun _ => .ite ?_ (.pure hid))
  · refine .ite (.otherwise fun _ => .pure hid) ?_
    refine .bind bindingIdent_formed fun p hp => .skip fun _ => ?_
    extract_lets -underBinder arrowed
    have harrowed (u : Unit) : (arrowed u).Yields Expressed :=
      .skip fun _ => arrowFrom_expressed hgo (by simpa using hp) formed_absent formed_absent
    refine .ite (.skip fun _ => .ite (.bind hgo.type fun t ht => ?_) (harrowed ())) (harrowed ())
    exact .term rfl rfl (by simp [hid.formed, ht])
  · refine .optionally fun _ => arrowFrom_expressed hgo ?_ formed_absent formed_absent
    simpa using (aimed_binding w id.span).formed

theorem asyncOperand?_expressed (hgo : go.Formed) :
    (asyncOperand? go arrow).Yields fun r => ∀ n ∈ r, n.Expressed := by
  refine .skip fun _ => .ite (.skip fun lo => .skip fun t => ?_) .none
  split
  next => exact .skip fun _ => .some (functionExpr_expressed hgo)
  next =>
    exact .skip fun _ => .ite (.attempt (.skip fun _ => .some (genericArrow_expressed hgo))) .none
  next => exact .ite (.skip fun _ => .some (parenOrArrow_expressed hgo)) .none
  next => exact .none

theorem tagName_formed : tagName.Yields Formed := by
  have hname {w : String} {span : Range} : (Node.mk (.name w) span []).Formed :=
    formed_of_isFree rfl allFormed_nil
  refine .skip fun (w, lo) => .bind (.plain rfl allFormed_nil) fun first hfirst => .skip fun _ =>
    .ite ?_ ?_
  · refine .skip fun (v, nameLo) => .bind (.plain rfl allFormed_nil) fun second hsecond =>
      .plain rfl ?_
    simp [hname, hsecond]
  · refine .skip fun _ => .ite (.bind (.allFormed ?_) fun names hnames => ?_) (.pure hfirst)
    · exact .skip fun _ => .ite (.skip fun (v, nameLo) => .some (.plain rfl allFormed_nil)) .none
    · exact .plain rfl (by simp [hfirst, hnames])

theorem container_formed (hgo : go.Formed) : (container go empty).Yields Formed := by
  refine .skip fun lo => .skip fun _ => .skip fun _ =>
    .ite (.otherwise fun _ => .plain rfl allFormed_nil) ?_
  refine .skip fun _ => .bind (.under hgo.expression) fun e he => .skip fun _ =>
    .otherwise fun _ => ?_
  exact .single rfl he.formed

theorem quotedValue?_formed : quotedValue?.Yields fun r => ∀ n ∈ r, n.Formed := by
  refine .skip fun s => ?_
  extract_lets gap
  split
  next =>
    refine .ite ?_ .none
    split
    split
    next => exact .failAt
    next => exact .skip fun _ => .pure (by simpa using formed_of_isFree rfl allFormed_nil)
  next => exact .none

theorem attributeValue_formed (hgo : go.Formed) : (attributeValue go).Yields Formed := by
  refine .found quotedValue?_formed (fun n hn => .pure hn) ?_
  refine .skip fun _ => .skip fun _ => .ite ?_ (.skip fun _ => .ite ?_ .fail)
  · exact .bind (container_formed hgo) fun n hn => .skip fun _ => .pure hn
  · exact .bind hgo.element fun n hn => .skip fun _ => .pure hn.formed

theorem attribute?_formed (hgo : go.Formed) :
    (attribute? go).Yields fun r => ∀ n ∈ r, n.Formed := by
  refine .skip fun lo => .skip fun _ => .ite ?_ (.skip fun t => ?_)
  · refine .skip fun _ => .skip fun _ => .bind (.under hgo.assignment) fun e he =>
      .skip fun _ => .some ?_
    exact .single rfl he.formed
  · split
    next =>
      refine .skip fun _ => .skip fun _ => ?_
      extract_lets -underBinder valued
      have hvalued (u : Unit) : (valued u).Yields fun r => ∀ n ∈ r, n.Formed := by
        refine .skip fun _ =>
          .either (attributeValue_formed hgo) (.pure formed_absent) fun value hvalue => .some ?_
        exact .single rfl hvalue
      exact .ite (.skip fun _ => hvalued ()) (hvalued ())
    next => exact .none

theorem elementChildren_formed (hgo : go.Formed) : (elementChildren go).Yields AllFormed := by
  refine .allFormed (.skip fun _ => .skip fun _ => .ite (.some (container_formed hgo)) ?_)
  exact .skip fun _ => .ite .none (.some hgo.element.formed)

theorem bracketed_expressed {cs : List Node} (h : AllFormed cs) :
    (bracketed lo cs).Yields Expressed :=
  .skip fun _ => .pure (expressed_of_isFree rfl rfl h)

theorem closingTag_formed : (closingTag opening).Yields AllFormed := by
  refine .skip fun _ => .skip fun _ => ?_
  cases opening with
  | none => exact .skip fun _ => .otherwise fun _ => .pure allFormed_nil
  | some n =>
    refine .skip fun lo => .bind tagName_formed fun closing hclosing => .optionally fun _ => ?_
    exact .skip fun _ => .otherwise fun _ => .pure (by simpa using hclosing)

theorem element_expressed (hgo : go.Formed) : (element go).Yields Expressed := by
  refine .skip fun lo => .skip fun _ => .otherwise fun _ => .skip fun _ => .skip fun _ => .ite ?_ ?_
  · refine .bind (elementChildren_formed hgo) fun children hchildren => ?_
    exact .skip fun _ => bracketed_expressed hchildren
  · refine .bind tagName_formed fun name hname => .skip fun _ => ?_
    extract_lets -underBinder finish
    have hfinish (args : Node) (hargs : args.Formed) : (finish args).Yields Expressed := by
      refine .bind (.allFormed (attribute?_formed hgo)) fun attributes hattributes => ?_
      have hhead : AllFormed (name :: args :: attributes) := by simp [hname, hargs, hattributes]
      refine .skip fun _ => .ite (.skip fun _ => .otherwise fun _ => bracketed_expressed hhead) ?_
      refine .skip fun _ => .otherwise fun _ =>
        .bind (elementChildren_formed hgo) fun children hchildren => ?_
      refine .bind closingTag_formed fun closing hclosing => bracketed_expressed ?_
      exact allFormed_append.2 ⟨allFormed_append.2 ⟨hhead, hchildren⟩, hclosing⟩
    refine .ite (.bind (.attempt (P := Formed) ?_) fun tried htried =>
      ?_) (.bind (.pure formed_absent) hfinish)
    · exact .mapSome (typeArguments_formed hgo)
    · exact .bind (.pure (formed_getD htried)) hfinish

theorem regexLiteral_expressed : regexLiteral.Yields Expressed := by
  refine .skip fun s => ?_
  extract_lets r
  split
  next => exact .skip fun _ => .fail
  next => exact .skip fun _ => .skip fun _ => .term rfl rfl allFormed_nil

theorem arrayItems_formed (hgo : go.Formed) :
    (arrayItems go).Yields fun r => ∀ e ∈ r.1, e.isElement = true ∧ e.Formed := by
  refine .bind (.under (.many (P := fun a => a.1.isElement = true ∧ a.1.Formed) ?_)) fun items
    hitems => .pure ?_
  · have hhole : ∀ a ∈ some (absent, (none : Option Nat)), a.1.isElement = true ∧ a.1.Formed := by
      rintro _ ⟨⟩
      exact ⟨rfl, formed_absent⟩
    refine .skip fun _ => .ite .none (.skip fun _ => .ite (.pure hhole) ?_)
    refine .bind (spreadable_listed hgo) fun e he => .skip fun _ => ?_
    have hitem : e.isElement = true ∧ e.Formed := ⟨he.isElement, he.formed⟩
    exact .ite (.pure (by simpa using hitem)) (.skip fun _ => .skip fun _ =>
      .pure (by simpa using hitem))
  · simpa using hitems

theorem array_expressed (hgo : go.Formed) : (array go).Yields Expressed := by
  refine .skip fun lo => .skip fun _ =>
    .bind (arrayItems_formed hgo) fun (items, comma) hitems => ?_
  refine .skip fun _ => .skip fun _ => .node fun _ =>
    ⟨rfl, (formed_mk rfl).2 ⟨?_, fun e he => (hitems e he).2⟩⟩
  exact List.all_eq_true.2 fun e he => (hitems e he).1

theorem wordOperand_expressed (hgo : go.Formed) : (wordOperand go arrow w).Yields Expressed := by
  refine .skip fun lo =>
    .ite (.termLeaf rfl rfl) (.ite (.termLeaf rfl rfl) (.ite (.termLeaf rfl rfl) ?_))
  refine .ite (functionExpr_expressed hgo) (.ite (classExpr_expressed hgo formed_absent) ?_)
  refine .skip fun c => .ite .fail ?_
  exact .found (asyncOperand?_expressed hgo) (fun e he => .pure he) (identOrArrow_expressed hgo)

theorem primary_expressed (hgo : go.Formed) : (primary go arrow).Yields Expressed := by
  refine .skip fun lo => .skip fun t => ?_
  split
  next => exact wordOperand_expressed hgo
  next => exact identOrArrow_expressed hgo
  next => exact .termLeaf rfl rfl
  next => exact .termLeaf rfl rfl
  next => exact .termLeaf rfl rfl
  next => exact .bind (.termLeaf rfl rfl) fun n hn => .skip fun _ => .otherwise fun _ => .pure hn
  next => exact array_expressed hgo
  next => exact object_expressed hgo
  next => exact parenOrArrow_expressed hgo
  next => exact template_expressed hgo false
  next => exact regexLiteral_expressed
  next => exact regexLiteral_expressed
  next =>
    refine .bind (decoratorList_formed hgo) fun ds hds => .skip fun _ => .ite identNode_expressed ?_
    exact classExpr_expressed hgo (formed_decoratorsNode hds)
  next => exact .fail

theorem operand_expressed (hgo : go.Formed) : (operand go arrow).Yields Expressed :=
  leftHandSide_expressed hgo (primary_expressed hgo)

theorem expressed_update {op : String} {span : Range} (h : e.Expressed) :
    (Node.mk (.update op) span [e]).Expressed :=
  ⟨rfl, (formed_mk rfl).2 ⟨h.isExpression, by simpa using h.formed⟩⟩

theorem postfixed_expressed (hgo : go.Formed) : (postfixed go arrow).Yields Expressed := by
  refine .skip fun lo => .bind (operand_expressed hgo) fun e he => ?_
  refine .ite (.pure he) (.skip fun _ => .ite (.pure he) ?_)
  refine .skip fun t => ?_
  split
  next => exact .ite (.skip fun _ => .skip fun _ => .node fun _ => expressed_update he) (.pure he)
  next => exact .pure he

theorem awaitExpr_expressed (hgo : go.Formed) : (awaitExpr go).Yields Expressed := by
  refine .skip fun lo => .skip fun c => .skip fun _ => .skip fun _ => ?_
  extract_lets -underBinder checked
  refine .optionally fun _ => ?_
  unfold checked
  extract_lets -underBinder awaited
  have hawaited (u : Unit) : (awaited u).Yields Expressed := by
    refine .optionally fun _ => .optionally fun _ => .optionally fun _ =>
      .bind hgo.unary fun e he => ?_
    exact .term rfl rfl (by simpa using he.formed)
  exact .ite (.skip fun _ => .ite (.term rfl rfl allFormed_nil) (hawaited ())) (hawaited ())

theorem castExpr_expressed (hgo : go.Formed) : (castExpr go).Yields Expressed := by
  refine .skip fun lo => .skip fun _ => .skip fun _ => .ite (.skip fun _ => .skip fun _ => ?_) ?_
  · exact .bind hgo.unary fun e he => .term rfl rfl (by simpa using he.formed)
  · refine .bind hgo.type fun t ht => .skip fun _ => .bind hgo.unary fun e he => .term rfl rfl ?_
    simp [ht, he.formed]

theorem prefixed_expressed (hgo : go.Formed) : (prefixed go op).Yields Expressed := by
  refine .skip fun lo => .skip fun _ => .skip fun _ => ?_
  refine .bind (.recover hgo.unary expressed_invalid) fun e he => ?_
  refine .skip fun _ => ?_
  extract_lets finish
  have hfinish (u : Unit) : (finish u).Yields Expressed := .term rfl rfl (by simpa using he.formed)
  refine .ite ?_ (hfinish ())
  split
  next => exact .skip hfinish
  next => exact hfinish ()

theorem unary_expressed (hgo : go.Formed) : (unary go arrow).Yields Expressed := by
  refine .skip fun lo => .skip fun t => ?_
  split
  next =>
    refine .skip fun _ => .skip fun _ =>
      .ite (castExpr_expressed hgo) (.skip fun _ => .ite ?_ .fail)
    exact .bind hgo.element fun e he => .skip fun _ => .pure he
  next =>
    refine .ite ?_ (.ite (prefixed_expressed hgo) (postfixed_expressed hgo))
    exact .skip fun _ => .bind hgo.unary fun e he => .skip fun _ => .node fun _ =>
      expressed_update he
  next =>
    exact .ite (prefixed_expressed hgo) (.ite (awaitExpr_expressed hgo) (postfixed_expressed hgo))
  next => exact postfixed_expressed hgo

theorem typeClaim?_expressed (hgo : go.Formed) (hleft : left.Formed) :
    (typeClaim? go left).Yields fun r => ∀ n ∈ r, n.Expressed := by
  refine .skip fun _ => .skip fun _ => ?_
  refine .ite .none (.skip fun _ => .ite (.skip fun _ => .skip fun _ => .ite ?_ ?_) ?_)
  · exact .some (.term rfl rfl (by simpa using hleft))
  · exact .bind hgo.type fun t ht => .some (.term rfl rfl (by simp [hleft, ht]))
  · refine .skip fun _ => .ite ?_ .none
    exact .bind hgo.type fun t ht => .some (.term rfl rfl (by simp [hleft, ht]))

theorem operation?_expressed {level : Nat} (hgo : go.Formed) (hleft : left.Formed) :
    (operation? go left level).Yields fun r => ∀ n ∈ r, n.Expressed := by
  unfold operation?
  extract_lets -underBinder operated
  have hoperated (u : Unit) : (operated u).Yields fun r => ∀ n ∈ r, n.Expressed := by
    refine .skip fun o => ?_
    split
    next => exact .none
    next op binding =>
      refine .ite .none (.skip fun _ => ?_)
      extract_lets -underBinder joined
      have hjoined (u : Unit) : (joined u).Yields fun r => ∀ n ∈ r, n.Expressed := by
        refine .bind hgo.unary fun start hstart =>
          .bind (hgo.operators hstart) fun right hright => ?_
        extract_lets finish noted
        have hfinish (u : Unit) : (finish u).Yields fun r => ∀ n ∈ r, n.Expressed :=
          .some (.term rfl rfl (by simp [hleft, hright.formed]))
        refine .ite (.optionally fun _ =>
          .optionally hfinish) (.ite (.optionally hfinish) (hfinish ()))
      refine .ite ?_ (hjoined ())
      split
      next => exact .skip hjoined
      next => exact .skip hjoined
      next => exact hjoined ()
  refine .ite (.found (typeClaim?_expressed hgo hleft) (fun e he => .pure ?_) (hoperated ()))
    (hoperated ())
  simpa using he

theorem operators_expressed {level : Nat} (hgo : go.Formed) (hleft : left.Expressed) :
    (operators go left level).Yields Expressed := by
  refine .loop Expressed hleft fun e he => ?_
  exact .found (operation?_expressed hgo he.formed) (fun n hn => .pure hn) (.pure he)

theorem operation_expressed (hgo : go.Formed) : (operation go arrow).Yields Expressed := by
  refine .skip fun lo => .bind (.rescue (unary_expressed hgo) fun fault => ?_) fun e he => ?_
  · exact .skip fun _ => .skip fun _ => .pure expressed_invalid
  · exact .ite (.pure he) (operators_expressed hgo he)

theorem yieldExpr_expressed (hgo : go.Formed) : (yieldExpr go).Yields Expressed := by
  refine .skip fun lo => .skip fun c => .skip fun _ => .optionally fun _ => ?_
  refine .skip fun _ => .ite ?_ (.skip fun _ => ?_)
  · exact .term rfl rfl (by simp)
  · exact .bind hgo.assignment fun e he => .term rfl rfl (by simpa using he.formed)

theorem genericArrow?_expressed (hgo : go.Formed) :
    (genericArrow? go).Yields fun r => ∀ n ∈ r, n.Expressed := by
  refine .skip fun _ => .ite (.skip fun _ => .ite (.skip fun lo => .attempt ?_) .none) .none
  refine .bind (typeParams_formed hgo) fun generics hgenerics => .skip fun _ => .ite .none ?_
  refine .bind hgo.assignmentProper fun e he => ?_
  split
  next async span ps _ result body =>
    have hbody : body.Orderly := he.formed.orderly.children body (by simp [children])
    have hps : ps.Formed := he.formed.of_mem_forepart List.mem_cons_self
    have hresult : result.Formed :=
      he.formed.of_mem_forepart (List.mem_cons_of_mem _ (List.mem_cons_of_mem _ List.mem_cons_self))
    have hparts : AllFormed [ps, generics, result] := by simp [hps, hgenerics, hresult]
    exact .pure fun n hn => Option.mem_some_iff.1 hn ▸ ⟨rfl, formed_of_isHost rfl hparts hbody⟩
  next => exact .none

theorem assignmentProper_expressed (hgo : go.Formed) : (assignmentProper go).Yields Expressed := by
  refine .found (genericArrow?_expressed hgo) (fun e he => .pure he) ?_
  refine .skip fun c => .skip fun _ =>
    .ite (yieldExpr_expressed hgo) (.skip fun lo => .skip fun _ => ?_)
  refine .bind (operation_expressed hgo) fun e he => .ite (.pure he) (.skip fun _ => ?_)
  exact .ite (branches_expressed hgo he.formed) (.ite (.pure he) (assigned_expressed hgo he))

theorem assignment_expressed (hgo : go.Formed) : (assignment go).Yields Expressed := by
  have hproper := assignmentProper_expressed hgo
  refine .skip fun _ => .skip fun _ => .skip fun _ => ?_
  exact .ite (.found (.attempt (.mapSome hproper)) (fun e he => .pure he) hproper) hproper

theorem expression_expressed (hgo : go.Formed) : (expression go).Yields Expressed := by
  refine .bind (assignment_expressed hgo) fun first hfirst => .skip fun _ => .ite ?_ (.pure hfirst)
  refine .bind (.allFormed (.skip fun _ => .ite (.some hgo.assignment.formed) .none)) fun more
    hmore => ?_
  exact .term rfl rfl (by simp [hfirst.formed, hmore])

end Uplift.Grammar
