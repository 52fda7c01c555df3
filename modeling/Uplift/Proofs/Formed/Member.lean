import Uplift.Proofs.Formed.Type

namespace Uplift.Grammar

set_option autoImplicit true

open Parse Node

variable {go : Level} {n key decorators : Node} {m : Modifiers} {lo : Nat}

theorem decorator_formed (hgo : go.Formed) : (decorator go).Yields Formed := by
  refine .skip fun lo => .skip fun _ => .skip fun _ => .ite ?_ ?_
  · exact .bind hgo.expression fun e he => .skip fun _ => .single rfl he.formed
  · refine .bind identNode_expressed fun name hname => .bind (hgo.accesses hname) fun e he => ?_
    exact .single rfl he.formed

theorem decoratorList_formed (hgo : go.Formed) : (decoratorList go).Yields AllFormed :=
  .allFormed (.skip fun _ => .ite (.some (decorator_formed hgo)) .none)

theorem formed_decoratorsNode {ds : List Node} (h : AllFormed ds) : (decoratorsNode ds).Formed := by
  unfold decoratorsNode
  split
  next => exact formed_of_isFree rfl h
  next => exact formed_absent

theorem formed_stretched (h : n.Formed) : (stretched n stop).Formed := by
  obtain ⟨k, span, cs⟩ := n
  exact Formed.respan h

theorem paramPattern_formed (hgo : go.Formed) : (paramPattern go).Yields Formed := by
  refine .skip fun lo => .skip fun modified => .bind hgo.bindingPattern fun bare hbare =>
    .skip fun _ => ?_
  extract_lets -underBinder read
  have hread (optional : Bool) : (read optional).Yields Formed := by
    refine .bind (ascription?_formed hgo) fun t ht => ?_
    extract_lets -underBinder defaulted
    have hdefaulted (pattern : Node) (hpattern : pattern.Formed) :
        (defaulted pattern).Yields Formed := by
      refine .skip fun _ => ?_
      extract_lets -underBinder finish
      have hfinish (pattern : Node) (hpattern : pattern.Formed) : (finish pattern).Yields Formed :=
        .optionally fun _ => .pure hpattern
      refine .ite (.optionally fun _ => ?_) (.bind (.pure hpattern) hfinish)
      refine .bind (.under hgo.assignment) fun right hright => .skip fun _ =>
        .optionally fun _ => ?_
      exact .bind (.plain rfl (by simp [hpattern, hright.formed])) hfinish
    refine .ite (.bind (.pure hbare) hdefaulted) (.skip fun stop => .bind (.pure ?_) hdefaulted)
    split
    next => exact formed_annotated hbare ht
    next => exact formed_stretched (formed_annotated hbare ht)
  exact .ite (.skip hread) (.skip hread)

theorem restParam_formed (hgo : go.Formed) : (restParam go lo).Yields Formed := by
  refine .bind hgo.bindingPattern fun bare hbare => .skip fun _ => ?_
  extract_lets -underBinder read
  have hread (arg : Node) (harg : arg.Formed) : (read arg).Yields Formed := by
    refine .bind (ascription?_formed hgo) fun t ht =>
      .bind (.plain rfl (by simp [harg, ht])) fun p hp => ?_
    exact .skip fun _ => .optionally fun _ => .pure hp
  refine .ite (.bind hgo.assignment fun right hright => .skip fun _ =>
    ?_) (.bind (.pure hbare) hread)
  exact .bind (.pure (formed_of_isFree rfl (by simp [hbare, hright.formed]))) hread

structure Received (n : Node) : Prop where
  formed : n.Formed
  pattern : (n.child 1).Formed

theorem paramList_received (hgo : go.Formed) (h : item.Yields Formed) :
    (paramList go item).Yields fun ps => ∀ p ∈ ps, Received p := by
  refine .many (.skip fun _ => .skip fun _ => .ite .none (.skip fun lo => ?_))
  refine .bind (decoratorList_formed hgo) fun ds hds => .skip fun patLo => .skip fun rest => ?_
  refine .either (restParam_formed hgo) h fun p hp => ?_
  have hparam (span : Range) : Received (.mk .param span [decoratorsNode ds, p]) :=
    ⟨formed_of_isFree rfl (by simp [formed_decoratorsNode hds, hp]), hp⟩
  refine .bind (.node hparam) fun n hn => .skip fun _ => ?_
  extract_lets -underBinder finish
  have hfinish (u : Unit) : (finish u).Yields fun r => ∀ n ∈ r, Received n :=
    .pure (by simpa using hn)
  refine .ite (hfinish ()) (.skip fun _ => .ite (.skip fun _ => ?_) (hfinish ()))
  exact .ite (.skip fun _ => .skip hfinish) (.skip fun _ => .skip hfinish)

theorem params_receiving {ps : List Node} (h : ∀ p ∈ ps, Received p) :
    (Parse.node .params lo ps).Yields Receiving :=
  .node fun _ => ⟨formed_of_isFree rfl fun p hp => (h p hp).formed, fun p hp => (h p hp).pattern⟩

theorem formalParams_receiving (hgo : go.Formed) : (formalParams go).Yields Receiving :=
  .skip fun _ => .bind (paramList_received hgo (paramPattern_formed hgo)) fun _ hps =>
    params_receiving hps

theorem statementsUntil_orderly (h : item.Yields Orderly) :
    (statementsUntil item directives closed).Yields AllOrderly := by
  unfold statementsUntil
  extract_lets rest
  have hrest : rest.Yields AllOrderly := .allOrderly (.skip fun _ => .ite .none (.some h))
  refine .ite (.skip fun _ => .ite (.pure allOrderly_nil) (.skip fun marked => ?_)) hrest
  refine .bind h fun first hfirst => .ite ?_ ?_
  · refine .bind (.under (.skip fun _ => hrest)) fun others hothers => .pure ?_
    exact allOrderly_cons.2 ⟨hfirst, hothers⟩
  · exact .bind hrest fun others hothers => .pure (allOrderly_cons.2 ⟨hfirst, hothers⟩)

theorem blockWith_orderly (hgo : go.Formed) : (blockWith go directives).Yields Orderly := by
  refine .skip fun lo => .skip fun _ => ?_
  exact .bind (.under (statementsUntil_orderly hgo.statement)) fun ss hss => .skip fun _ =>
    .stated rfl hss

theorem withOwnLabels_yields {p : Parse α} (hp : p.Yields Q) : (withOwnLabels p).Yields Q :=
  .skip fun _ => .skip fun _ => .bind hp fun _ ha => .skip fun _ => .pure ha

theorem functionBlock_orderly (hgo : go.Formed) :
    (functionBlock go async generator arrow simple).Yields Orderly := by
  refine .skip fun _ => .skip fun _ => .optionally_two fun _ => .under (withOwnLabels_yields ?_)
  exact .skip fun _ => .bind (blockWith_orderly hgo) fun b hb => .skip fun _ => .pure hb

theorem functionBody_orderly (hgo : go.Formed) :
    (functionBody go async generator simple).Yields Orderly := by
  have hblock : (functionBlock go async generator false simple).Yields Orderly :=
    functionBlock_orderly hgo
  exact .skip fun _ => .skip fun _ =>
    .ite (.skip fun _ => .ite (.pure orderly_absent) hblock) hblock

theorem arrowBody_orderly (hgo : go.Formed) : (arrowBody go async simple).Yields Orderly :=
  .skip fun _ =>
    .ite (functionBlock_orderly hgo) (.under (withOwnLabels_yields hgo.assignment.formed.orderly))

structure Functional (f : Node) : Prop where
  formed : f.Formed
  params : (f.child 1).Receiving
  result : (f.child 3).Formed

theorem functionParts_functional (hgo : go.Formed) (hdecorators : decorators.Formed)
    (hparams : params.Yields Receiving) :
    (functionParts go lo decorators async generator params).Yields Functional := by
  refine .bind (typeParams?_formed hgo) fun generics hgenerics => .skip fun _ => ?_
  refine .bind (.under hparams) fun ps hps => .skip fun _ => ?_
  refine .bind (returnType?_formed hgo) fun result hresult => ?_
  refine .bind (functionBody_orderly hgo) fun body hbody => ?_
  have hparts : AllFormed [decorators, ps, generics, result] := by
    simp [hdecorators, hps.formed, hgenerics, hresult]
  have hnode :
      (Parse.node (.function async generator) lo [decorators, ps, generics, result, body]).Yields
        Functional :=
    .node fun _ => ⟨formed_of_isHost rfl hparts hbody, hps, hresult⟩
  exact .ite (.skip fun _ => hnode) hnode

theorem formed_asIdent (h : n.Formed) : (asIdent n).Formed := by
  unfold asIdent
  split
  next => exact formed_of_isFree rfl nofun
  next => exact h

theorem functionExpr_expressed (hgo : go.Formed) : (functionExpr go async).Yields Expressed := by
  refine .skip fun _ => .skip fun _ => .skip fun generator => ?_
  refine .bind (.under (.skip fun _ => .ite ?_ (.pure formed_absent))) fun name hname => ?_
  · exact .bind bindingIdent_formed fun b hb => .pure (formed_asIdent hb)
  · refine .bind
      (.under (functionParts_functional hgo formed_absent (formalParams_receiving hgo))) fun f hf =>
      ?_
    exact .optionally fun _ => .term rfl rfl (by simp [hname, hf.formed])

theorem functionDecl_orderly (hgo : go.Formed) (hdecorators : decorators.Formed) :
    (functionDecl go decorators async named).Yields Orderly := by
  refine .skip fun _ => .skip fun _ => .skip fun generator => .skip fun _ => ?_
  refine .either (.map bindingIdent_formed fun _ =>
    formed_asIdent) (.pure formed_absent) fun name hname => ?_
  refine .bind
    (.under (functionParts_functional hgo hdecorators (formalParams_receiving hgo))) fun f hf => ?_
  exact .stated rfl (by simp [hname.orderly, hf.formed.orderly])

theorem getterParams_receiving (hgo : go.Formed) : (getterParams go lo).Yields Receiving :=
  .bind (formalParams_receiving hgo) fun _ hps => .optionally fun _ => .pure hps

theorem setterParams_receiving (hgo : go.Formed) : (setterParams go lo).Yields Receiving := by
  refine .bind (formalParams_receiving hgo) fun ps hps => .optionally fun _ => ?_
  split
  next => exact .skip fun _ => .pure hps
  next => exact .pure hps

structure Property (n : Node) : Prop where
  isProperty : n.isProperty = true
  formed : n.Formed

theorem objectMethod_property (hgo : go.Formed) (hkey : key.Formed) :
    (objectMethod go lo key async generator).Yields Property := by
  refine .bind
    (.under (functionParts_functional hgo formed_absent (formalParams_receiving hgo))) fun f hf =>
    ?_
  exact .node fun _ => ⟨rfl, formed_of_isFree rfl (by simp [hkey, hf.formed])⟩

theorem objectGetter_property (hgo : go.Formed) : (objectGetter go lo).Yields Property := by
  refine .skip fun keyLo => .bind (propertyKey_formed hgo) fun key hkey => ?_
  refine .bind
    (.under (functionParts_functional hgo formed_absent (getterParams_receiving hgo))) fun f hf =>
    ?_
  have hparts : AllFormed [key, f.child 3] := by simp [hkey.2, hf.result]
  exact .node fun _ => ⟨rfl, formed_of_isHost rfl hparts (hf.formed.orderly.child 4)⟩

theorem objectSetter_property (hgo : go.Formed) : (objectSetter go lo).Yields Property := by
  refine .skip fun keyLo => .bind (propertyKey_formed hgo) fun key hkey => ?_
  refine .bind
    (.under (functionParts_functional hgo formed_absent (setterParams_receiving hgo))) fun f hf =>
    ?_
  extract_lets param
  have hparam : param.Formed := by
    apply formed_getD
    intro n hn
    obtain ⟨p, hhead, rfl⟩ := Option.map_eq_some_iff.1 hn
    exact hf.params.pattern p (List.mem_filter.1 (List.mem_of_mem_head? hhead)).1
  have hparts : AllFormed [key, param] := by simp [hkey.2, hparam]
  exact .node fun _ => ⟨rfl, formed_of_isHost rfl hparts (hf.formed.orderly.child 4)⟩

theorem propertyValue_expressed (hgo : go.Formed) : (propertyValue go).Yields Expressed :=
  .under hgo.assignment

theorem shorthand_property (hgo : go.Formed) {span : Range} :
    (shorthand go lo w span).Yields Property := by
  have hname := (expressed_ident w span).formed
  refine .skip fun _ => .optionally fun _ => .skip fun _ => .ite ?_ (.pure ⟨rfl, hname⟩)
  refine .bind (propertyValue_expressed hgo) fun value hvalue => .node fun _ => ?_
  exact ⟨hvalue.isExpression, formed_of_isFree rfl (by simp [hname, hvalue.formed])⟩

theorem afterKey_property (hgo : go.Formed) (hkey : key.isKey = true) (hformed : key.Formed) :
    (afterKey go lo key).Yields Property := by
  have hproperty (value : Node) (hvalue : value.Expressed) :
      (Parse.node .property lo [key, value]).Yields Property :=
    .node fun _ => ⟨Bool.and_eq_true_iff.2 ⟨hkey, hvalue.isExpression⟩,
      formed_of_isFree rfl (by simp [hformed, hvalue.formed])⟩
  refine .skip fun _ => .ite (.skip fun _ => .skip fun _ => hproperty _ expressed_invalid) ?_
  refine .skip fun _ => .ite (.bind (propertyValue_expressed hgo) hproperty) ?_
  refine .skip fun _ => .skip fun _ => .skip fun _ => .ite (objectMethod_property hgo hformed) ?_
  split
  next w span _ =>
    refine .skip fun _ => .optionally fun _ => .skip fun _ => .ite (shorthand_property hgo) ?_
    refine .ite (objectGetter_property hgo) (.ite (objectSetter_property hgo) (.ite ?_ .fail))
    exact .skip fun _ => .bind (propertyKey_formed hgo) fun key hkey =>
      objectMethod_property hgo hkey.2
  next => exact .fail

theorem objectProperty_property (hgo : go.Formed) : (objectProperty go).Yields Property := by
  refine .skip fun lo => .skip fun _ => .ite ?_ (.skip fun _ => .ite ?_ ?_)
  · refine .bind (propertyValue_expressed hgo) fun e he => .node fun _ => ?_
    exact ⟨he.isExpression, formed_of_isFree rfl (by simpa using he.formed)⟩
  · exact .bind (propertyKey_formed hgo) fun key hkey => objectMethod_property hgo hkey.2
  · exact .skip fun _ => .bind (propertyKey_formed hgo) fun key hkey =>
      afterKey_property hgo hkey.1 hkey.2

theorem object_expressed (hgo : go.Formed) : (object go).Yields Expressed := by
  refine .skip fun lo => .bind (braced_yields (objectProperty_property hgo)) fun (ps, comma) hps =>
    ?_
  refine .skip fun _ => ?_
  refine .node fun span => ⟨rfl, (formed_mk rfl).2 ⟨?_, fun p hp => (hps p hp).formed⟩⟩
  exact List.all_eq_true.2 fun p hp => (hps p hp).isProperty

theorem constructorParam_formed (hgo : go.Formed) : (constructorParam go).Yields Formed := by
  refine .skip fun lo => .skip fun _ => .skip fun _ => .skip fun _ => ?_
  refine .bind (paramPattern_formed hgo) fun p hp => .ite ?_ (.pure hp)
  split
  next => exact .pure hp
  next => exact .pure hp
  next => exact .skip fun _ => .pure hp

theorem constructorParams_receiving (hgo : go.Formed) : (constructorParams go).Yields Receiving :=
  .skip fun _ => .bind (paramList_received hgo (constructorParam_formed hgo)) fun _ hps =>
    params_receiving hps

theorem constructorMember_formed (hgo : go.Formed) (hkey : key.Formed) :
    (constructorMember go lo key m).Yields Formed := by
  unfold constructorMember
  refine .optionally fun _ => .bind (typeParams?_formed hgo) fun generics hgenerics =>
    .otherwise fun _ => ?_
  refine .skip fun _ => .bind (.under (constructorParams_receiving hgo)) fun ps hps =>
    .skip fun _ => ?_
  refine .bind (ascription?_formed hgo) fun result hresult => .otherwise fun _ => ?_
  refine .bind (functionBody_orderly hgo) fun body hbody => ?_
  have hnode : (Parse.node .constructor lo [key, ps, body]).Yields Formed :=
    .hosting [key, ps] rfl (by simp [hkey, hps.formed]) hbody
  extract_lets -underBinder finish
  have hfinish (u : Unit) : (finish u).Yields Formed := by
    refine .ite ?_ hnode
    split
    next => exact .skip fun _ => hnode
    next => exact hnode
  exact .ite (.skip fun _ => hfinish ()) (hfinish ())

theorem classMethod_formed (hgo : go.Formed) (hdecorators : decorators.Formed) (hkey : key.Formed)
    (hparams : params.Yields Receiving) :
    (classMethod go lo decorators key m async generator params).Yields Formed := by
  refine .bind (.under (functionParts_functional hgo hdecorators hparams)) fun f hf => ?_
  have hnode : (Parse.node .method lo [key, f]).Yields Formed :=
    .plain rfl (by simp [hkey, hf.formed])
  split
  next => exact .optionally fun _ => hnode
  next => exact .optionally fun _ => hnode

theorem fieldMember_formed (hgo : go.Formed) (hdecorators : decorators.Formed) (hkey : key.Formed)
    (optional : Bool) : (fieldMember go lo decorators key m optional).Yields Formed := by
  unfold fieldMember
  extract_lets -underBinder checked
  refine .optionally fun _ => ?_
  unfold checked
  extract_lets -underBinder read
  have hread (u : Unit) : (read u).Yields Formed := by
    refine .skip fun _ => ?_
    extract_lets -underBinder typed
    have htyped (u : Unit) : (typed u).Yields Formed := by
      refine .bind (ascription?_formed hgo) fun t ht => .under (.skip fun _ => ?_)
      refine .either hgo.assignment.formed (.pure formed_absent) fun value hvalue =>
        .skip fun _ => ?_
      have hnode : (Parse.node .field lo [decorators, key, t, value]).Yields Formed :=
        .plain rfl (by simp [hdecorators, hkey, ht, hvalue])
      exact .ite hnode (.skip fun _ => .skip fun _ => hnode)
    exact .ite (.skip fun _ => htyped ()) (htyped ())
  split
  next => exact .optionally hread
  next => exact hread ()

theorem staticBlock_formed (hgo : go.Formed) : (staticBlock go lo).Yields Formed :=
  .bind (.under (blockWith_orderly hgo)) fun _ hb => .hosting [] rfl allFormed_nil hb

theorem classAccessor_formed (hgo : go.Formed) (hdecorators : decorators.Formed) :
    (classAccessor go lo decorators m gets wordLo).Yields Formed := by
  refine .bind (memberKey_formed hgo) fun key hkey => .optionally fun _ => .optionally fun _ => ?_
  exact classMethod_formed hgo hdecorators hkey
    (.ite (getterParams_receiving hgo) (setterParams_receiving hgo))

theorem keyedMember_formed (hgo : go.Formed) (hdecorators : decorators.Formed) :
    (keyedMember go lo decorators m).Yields Formed := by
  have hmethod (key : Node) (hkey : key.Formed) (async generator : Bool) :
      (classMethod go lo decorators key m async generator (formalParams go)).Yields Formed :=
    classMethod_formed hgo hdecorators hkey (formalParams_receiving hgo)
  refine .skip fun _ => .ite ?_ ?_
  · refine .bind (memberKey_formed hgo) fun key hkey => .optionally fun _ => ?_
    exact .optionally fun _ => hmethod key hkey _ _
  extract_lets -underBinder read
  have hread (key : Node) (hkey : key.Formed) : (read key).Yields Formed := by
    refine .skip fun _ => ?_
    extract_lets -underBinder member
    have hmember (optional : Bool) : (member optional).Yields Formed := by
      refine .skip fun _ => .ite ?_ ?_
      · extract_lets -underBinder method
        have hcalled (u : Unit) : (method u).Yields Formed :=
          .optionally fun _ => .ite (constructorMember_formed hgo hkey) (hmethod key hkey _ _)
        split
        next => exact .skip hcalled
        next => exact hcalled ()
      · extract_lets -underBinder other
        have hother (accesses : Bool) : (other accesses).Yields Formed := by
          refine .skip fun _ => .ite (fieldMember_formed hgo hdecorators hkey _) ?_
          split
          next =>
            refine .skip fun _ => .optionally fun _ => .skip fun generator => ?_
            refine .bind (memberKey_formed hgo) fun key hkey => .optionally fun _ =>
              .optionally fun _ => ?_
            exact .skip fun _ => .ite (.skip fun _ => hmethod key hkey _ _) (hmethod key hkey _ _)
          next => exact .ite (classAccessor_formed hgo hdecorators) .fail
          next => exact .ite (classAccessor_formed hgo hdecorators) .fail
          next => exact .fail
        split
        next =>
          exact .ite (.skip fun _ => .skip fun _ => .skip fun _ => .skip hother) (.skip hother)
        next => exact .skip hother
    exact .ite (.skip hmember) (.skip hmember)
  split
  next =>
    refine .skip fun _ => .ite (.bind (.pure ?_) hread) (.bind (memberKey_formed hgo) hread)
    exact formed_of_isFree rfl allFormed_nil
  next => exact .bind (memberKey_formed hgo) hread

theorem modifiedMember_formed (hgo : go.Formed) (hdecorators : decorators.Formed)
    (start : Modifiers) : (modifiedMember go lo decorators start derived).Yields Formed := by
  refine .skip fun m => .skip fun _ => .skip fun _ => .skip fun _ => ?_
  extract_lets -underBinder read
  have hread (m : Modifiers) : (read m).Yields Formed := by
    refine .skip fun _ =>
      .ite ?_ (.skip fun _ => .skip fun _ => .ite ?_ (.skip fun _ => .skip fun _ => ?_))
    · cases m.ambient with
      | none => exact .optionally fun _ => staticBlock_formed hgo
      | some offset => exact .skip fun _ => .optionally fun _ => staticBlock_formed hgo
    · cases m.last with
      | none => exact .skip fun _ => staticBlock_formed hgo
      | some offset => exact .skip fun _ => .skip fun _ => staticBlock_formed hgo
    · exact .ite (indexSignature_formed hgo) (keyedMember_formed hgo hdecorators)
  exact .ite (.skip fun _ => .skip hread) (.skip hread)

theorem wordMember_formed (hgo : go.Formed) (hdecorators : decorators.Formed) :
    (wordMember go lo decorators w wordLo m asi).Yields fun r => ∀ n ∈ r, n.Formed := by
  unfold wordMember
  extract_lets key
  have hkey : key.Formed := formed_of_isFree rfl allFormed_nil
  refine .skip fun _ =>
    .ite (.some ?_) (.skip fun _ => .ite (.some ?_) (.skip fun _ => .ite (.some ?_) .none))
  · exact classMethod_formed hgo hdecorators hkey (formalParams_receiving hgo)
  · exact fieldMember_formed hgo hdecorators hkey false
  · exact fieldMember_formed hgo hdecorators hkey true

theorem classMember_formed (hgo : go.Formed) : (classMember go derived).Yields Formed := by
  refine .skip fun lo => .bind (decoratorList_formed hgo) fun ds hds => .skip fun wordLo =>
    .skip fun _ => ?_
  have hdecorators := formed_decoratorsNode hds
  have hmodified (m : Modifiers) :
      (modifiedMember go lo (decoratorsNode ds) m derived).Yields Formed :=
    modifiedMember_formed hgo hdecorators m
  extract_lets -underBinder first
  have hfirst (b : Bool) : (first b).Yields Formed := by
    unfold first
    extract_lets -underBinder access
    have haccess (u : Unit) : (access u).Yields Formed := by
      refine .skip fun _ => .skip fun _ => .skip fun _ => ?_
      extract_lets -underBinder second
      have hsecond (b : Bool) : (second b).Yields Formed := by
        unfold second
        extract_lets -underBinder static
        have hstatic (u : Unit) : (static u).Yields Formed := by
          refine .skip fun _ => .skip fun _ => .ite ?_ (hmodified _)
          exact .found (wordMember_formed hgo hdecorators) (fun n hn => .pure hn) (hmodified _)
        exact .ite (.found (wordMember_formed hgo hdecorators) (fun n hn => .pure hn) (hstatic ()))
          (hstatic ())
      exact .ite (.skip hsecond) (.skip hsecond)
    exact .ite (.found (wordMember_formed hgo hdecorators) (fun n hn => .pure hn) (haccess ()))
      (haccess ())
  exact .ite (.skip hfirst) (.skip hfirst)

theorem classMembers_formed (hgo : go.Formed) : (classMembers go derived).Yields Formed := by
  refine .skip fun lo => .bind (P := AllFormed) ?_ fun ms hms => .plain rfl hms
  refine .loop (fun a : List Node × Bool => AllFormed a.1) allFormed_nil fun (done, seen) hdone =>
    ?_
  refine .skip fun _ => .skip fun _ => ?_
  refine .ite (.pure (by simpa using hdone)) (.skip fun _ => .ite (.pure hdone) ?_)
  refine .bind (.under (classMember_formed hgo)) fun m hm => .skip fun _ =>
    .optionally fun _ => .pure ?_
  exact allFormed_cons.2 ⟨hm, hdone⟩

theorem heritage_formed (hgo : go.Formed) : (heritage go).Yields AllFormed := by
  unfold heritage
  extract_lets item
  have hitem : item.Yields Formed := by
    refine .skip fun lo => .bind entityName_formed fun name hname => ?_
    exact .bind (typeArguments?_formed hgo) fun args hargs => .plain rfl (by simp [hname, hargs])
  refine .bind hitem fun first hfirst => ?_
  refine .bind (.allFormed (.skip fun _ => .ite (.some hitem) .none)) fun more hmore => ?_
  exact .pure (allFormed_cons.2 ⟨hfirst, hmore⟩)

theorem superclass_formed (hgo : go.Formed) :
    (superclass go).Yields fun r => r.1.Formed ∧ r.2.Formed := by
  refine .bind hgo.leftHandSide.formed fun e he => ?_
  split
  next e args =>
    exact .pure ⟨he.child rfl 0, he.child rfl 1⟩
  next =>
    refine .skip fun _ =>
      .either (typeArguments?_formed hgo) (.pure formed_absent) fun args hargs => ?_
    exact .pure ⟨he, hargs⟩

theorem classParts_formed (hgo : go.Formed) (hdecorators : decorators.Formed) :
    (classParts go decorators named).Yields fun r => r.1.Formed ∧ r.2.Formed := by
  refine .under (.skip fun lo => .skip fun _ => .skip fun _ => .skip fun _ => .skip fun _ =>
    .skip fun _ => ?_)
  refine .either (.map bindingIdent_formed fun _ =>
    formed_asIdent) (.pure formed_absent) fun name hname => ?_
  refine .skip fun _ => ?_
  extract_lets -underBinder based
  have hbased (u : Unit) : (based u).Yields fun r => r.1.Formed ∧ r.2.Formed := by
    refine .bind (typeParams?_formed hgo) fun generics hgenerics => .skip fun _ => ?_
    extract_lets -underBinder implementing
    have himplementing (r : Node × Node) (hr : r.1.Formed ∧ r.2.Formed) :
        (implementing r).Yields fun r => r.1.Formed ∧ r.2.Formed := by
      refine .skip fun _ => .optionally fun _ => .skip fun _ => ?_
      refine .either (heritage_formed hgo) (.pure allFormed_nil) fun interfaces hinterfaces =>
        .skip fun _ => ?_
      extract_lets -underBinder finish
      have hfinish (u : Unit) : (finish u).Yields fun r => r.1.Formed ∧ r.2.Formed := by
        refine .skip fun _ => .bind (classMembers_formed hgo) fun members hmembers =>
          .skip fun _ => ?_
        have hinterface (span : Range) : (Node.mk .interfaces span interfaces).Formed :=
          formed_of_isFree rfl hinterfaces
        extract_lets -underBinder close
        have hclose (u : Unit) : (close u).Yields fun r => r.1.Formed ∧ r.2.Formed := by
          refine .bind (.plain rfl ?_) fun body hbody => .pure ⟨hname, hbody⟩
          simp [hdecorators, hgenerics, hr.1, hr.2, hinterface, hmembers]
        exact .ite (.skip fun _ => .skip hclose) (.skip hclose)
      exact .ite (.skip fun _ => .optionally fun _ => .skip fun _ =>
        .optionally hfinish) (hfinish ())
    refine .ite ?_ (.bind (.pure ⟨formed_absent, formed_absent⟩) himplementing)
    refine .bind (superclass_formed hgo) fun r hr => .skip fun _ => ?_
    exact .ite (.skip fun _ => .skip fun _ =>
      .bind (.pure hr) himplementing) (.bind (.pure hr) himplementing)
  refine .ite ?_ (hbased ())
  split
  next => exact .optionally hbased
  next => exact hbased ()

theorem classDecl_orderly (hgo : go.Formed) (hdecorators : decorators.Formed) :
    (classDecl go lo decorators named).Yields Orderly :=
  .bind (classParts_formed hgo hdecorators) fun (_, _) h =>
    .stated rfl (by simp [h.1.orderly, h.2.orderly])

theorem classExpr_expressed (hgo : go.Formed) (hdecorators : decorators.Formed) :
    (classExpr go lo decorators).Yields Expressed :=
  .bind (classParts_formed hgo hdecorators) fun (_, _) h => .term rfl rfl (by simpa using h)

end Uplift.Grammar
