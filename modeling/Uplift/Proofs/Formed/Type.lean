import Uplift.Proofs.Formed.Pattern

namespace Uplift.Grammar

set_option autoImplicit true

open Parse Node

variable {go : Level}

theorem quasi_formed (tagged : Bool) : (quasi tagged).Yields fun r => r.1.Formed := by
  have hquasi (raw : String) (span : Range) : (Node.mk (.quasi raw) span []).Formed :=
    formed_of_isFree rfl nofun
  refine .skip fun s => ?_
  split
  extract_lets -underBinder lo hi n read
  have hread (u : Unit) : (read u).Yields fun r => r.1.Formed := by
    unfold read
    split
    next => exact .failAt
    next => exact .skip fun _ => .pure (hquasi _ _)
    next => exact .skip fun _ => .pure (hquasi _ _)
  refine .ite (hread ()) ?_
  split
  next => exact .skip hread
  next => exact hread ()

theorem templateParts_formed (tagged : Bool) (h : hole.Yields Formed) :
    (templateParts tagged hole).Yields AllFormed := by
  refine .bind (quasi_formed tagged) fun (first, more) hfirst => ?_
  refine .loop (fun a : List Node × Bool =>
    AllFormed a.1) (by simpa using hfirst) fun (done, more) hdone => ?_
  refine .ite ?_ (.pure hdone)
  refine .bind h fun e he => .skip fun _ => .otherwise fun _ => ?_
  exact .bind (quasi_formed tagged) fun (q, more) hq => .pure (by simpa using ⟨hdone, he, hq⟩)

theorem template_expressed (hgo : go.Formed) (tagged : Bool) :
    (template go tagged).Yields Expressed := by
  refine .skip fun lo =>
    .bind (templateParts_formed tagged (.under hgo.expression.formed)) fun parts hparts => ?_
  exact .term rfl rfl hparts

theorem typeIdent_formed : typeIdent.Yields Formed := by
  refine .skip fun t => ?_
  split
  next => exact .plainLeaf rfl
  next => exact .fail

theorem ascription_formed (hgo : go.Formed) : (ascription go).Yields Formed :=
  .skip fun _ => .skip fun _ => .bind hgo.type fun _ ht => .single rfl ht

theorem ascription?_formed (hgo : go.Formed) : (ascription? go).Yields Formed :=
  .skip fun _ => .skip fun _ => .ite (ascription_formed hgo) (.pure formed_absent)

theorem angled_formed (h : item.Yields Formed) : (angled item).Yields AllFormed := by
  refine .bind (.allFormed ?_) fun items hitems => .skip fun _ => .pure hitems
  refine .skip fun _ => .ite .none ?_
  exact .bind h fun i hi => .skip fun _ => .otherwise fun _ => .pure (by simpa using hi)

theorem typeArguments_formed (hgo : go.Formed) : (typeArguments go).Yields Formed := by
  refine .skip fun lo => .skip fun _ => .otherwise fun _ => .skip fun _ => ?_
  exact .bind (angled_formed hgo.type) fun ts hts => .optionally fun _ => .plain rfl hts

theorem typeArguments?_formed (hgo : go.Formed) : (typeArguments? go).Yields Formed :=
  .skip fun _ => .ite (typeArguments_formed hgo) (.pure formed_absent)

theorem typeParam_formed (hgo : go.Formed) : (typeParam go).Yields Formed := by
  refine .skip fun lo => .skip fun _ => .bind typeIdent_formed fun name hname => ?_
  refine .skip fun _ => .either hgo.type (.pure formed_absent) fun constraint hconstraint => ?_
  refine .skip fun _ => .either hgo.type (.pure formed_absent) fun default hdefault => ?_
  exact .plain rfl (by simp [hname, hconstraint, hdefault])

theorem typeParams_formed (hgo : go.Formed) : (typeParams go).Yields Formed := by
  refine .skip fun lo => .skip fun _ => .otherwise fun _ => .skip fun _ => ?_
  exact .bind (angled_formed (typeParam_formed hgo)) fun ps hps => .optionally fun _ =>
    .plain rfl hps

theorem typeParams?_formed (hgo : go.Formed) : (typeParams? go).Yields Formed :=
  .skip fun _ => .skip fun _ => .ite (typeParams_formed hgo) (.pure formed_absent)

theorem entityName_formed : entityName.Yields AllFormed := by
  refine .bind typeIdent_formed fun first hfirst => .bind (.allFormed ?_) fun more hmore => .pure ?_
  · exact .skip fun _ => .ite (.some nameNode_formed) .none
  · exact allFormed_cons.2 ⟨hfirst, hmore⟩

theorem typeOrPredicate_formed (hgo : go.Formed) : (typeOrPredicate go lo).Yields Formed := by
  refine .skip fun c => .skip fun _ => ?_
  extract_lets -underBinder read
  have hread (asserted : Bool) : (read asserted).Yields Formed := by
    refine .optionally fun _ => .skip fun _ => .skip fun _ => ?_
    extract_lets -underBinder finish
    have hfinish (claims : Bool) : (finish claims).Yields Formed := by
      refine .ite (.skip fun _ => .either (.plainLeaf rfl) typeIdent_formed fun name hname =>
        .ite ?_ ?_) ?_
      · exact .skip fun _ => .bind hgo.type fun t ht => .plain rfl (by simp [hname, ht])
      · exact .bind (.pure formed_absent) fun t ht => .plain rfl (by simp [hname, ht])
      · exact .bind hgo.type fun t ht => .single rfl ht
    refine .ite (.skip fun _ => ?_) (.skip hfinish)
    split
    next => exact .skip hfinish
    next => exact .skip hfinish
  refine .ite (.skip fun _ => ?_) (.skip hread)
  split
  next => exact .skip hread
  next => exact .skip hread

theorem returnType_formed (hgo : go.Formed) : (returnType go mark).Yields Formed :=
  .skip fun _ => .skip fun _ => typeOrPredicate_formed hgo

theorem returnType?_formed (hgo : go.Formed) : (returnType? go).Yields Formed :=
  .skip fun _ => .skip fun _ => .ite (returnType_formed hgo) (.pure formed_absent)

theorem signatureParams_formed (hgo : go.Formed) : (signatureParams go).Yields Formed :=
  .skip fun _ => .bind hgo.params fun _ hps => .skip fun _ => .pure hps.formed

theorem functionType_formed (hgo : go.Formed) : (functionType go lo).Yields Formed := by
  refine .bind (typeParams?_formed hgo) fun generics hgenerics => ?_
  refine .bind (signatureParams_formed hgo) fun ps hps =>
    .bind (returnType_formed hgo) fun result hresult => ?_
  exact .plain rfl (by simp [hgenerics, hps, hresult])

theorem typeKey_formed (hgo : go.Formed) : (typeKey go).Yields Formed := by
  refine .skip fun t => ?_
  split
  next => exact .plainLeaf rfl
  next => exact (propertyKey_formed hgo).mono fun _ h => h.2

theorem indexSignature_formed (hgo : go.Formed) : (indexSignature go lo).Yields Formed := by
  refine .skip fun _ => .skip fun nameLo => .skip fun t => ?_
  extract_lets -underBinder read
  have hread (name : String) : (read name).Yields Formed := by
    refine .bind (ascription_formed hgo) fun t ht => ?_
    refine .bind (.single rfl ht) fun param hparam => ?_
    refine .skip fun _ => .bind (ascription?_formed hgo) fun result hresult => .skip fun _ => ?_
    exact .plain rfl (by simp [hparam, hresult])
  split
  next => exact .skip fun _ => .skip hread
  next => exact .skip hread

theorem signature_pure (hgo : go.Formed) :
    (signature go lo).Yields fun n => n.kind.isPure = true ∧ n.Formed := by
  refine .bind (typeParams?_formed hgo) fun generics hgenerics =>
    .bind (signatureParams_formed hgo) fun ps hps => ?_
  refine .bind (returnType?_formed hgo) fun result hresult => .skip fun _ =>
    .node fun _ => ⟨rfl, ?_⟩
  exact formed_of_isFree rfl (by simp [hgenerics, hps, hresult])

theorem signature_formed (hgo : go.Formed) : (signature go lo).Yields Formed :=
  (signature_pure hgo).mono fun _ h => h.2

theorem typeAccessor_formed (hgo : go.Formed) : (typeAccessor go lo).Yields Formed := by
  refine .skip fun gets => .otherwise fun _ => .bind (typeKey_formed hgo) fun key hkey => .ite ?_ ?_
  · refine .skip fun _ => .skip fun _ => .bind (ascription?_formed hgo) fun t ht =>
      .skip fun _ => ?_
    exact .plain rfl (by simp [hkey, ht])
  · refine .bind (signatureParams_formed hgo) fun ps hps => .optionally fun _ => .skip fun _ => ?_
    exact .plain rfl (by simp [hkey, hps])

theorem typeMember_formed (hgo : go.Formed) : (typeMember go).Yields Formed := by
  refine .skip fun lo => .skip fun _ => .ite (signature_formed hgo) ?_
  refine .skip fun _ => .skip fun _ =>
    .ite (.skip fun _ => signature_formed hgo) (.skip fun _ => ?_)
  extract_lets -underBinder read
  have hread (fixed : Bool) : (read fixed).Yields Formed := by
    refine .optionally fun _ => .skip fun _ => .ite (indexSignature_formed hgo) ?_
    extract_lets -underBinder keyed
    have hkeyed (u : Unit) : (keyed u).Yields Formed := by
      refine .bind (typeKey_formed hgo) fun key hkey => .skip fun _ => .skip fun _ => .ite ?_ ?_
      · refine .optionally fun _ => .bind (signature_pure hgo) fun n hn => .pure ?_
        exact formed_of_isFree rfl (allFormed_cons.2 ⟨hkey, hn.2.children hn.1⟩)
      · refine .bind (ascription?_formed hgo) fun t ht => .skip fun _ => ?_
        exact .plain rfl (by simp [hkey, ht])
    refine .ite (hkeyed ()) (.bind (.attempt (.some (typeAccessor_formed hgo))) fun r hr => ?_)
    split
    next accessor => exact .pure (hr accessor rfl)
    next => exact hkeyed ()
  refine .ite (.skip fun _ => ?_) (.skip hread)
  split
  all_goals exact .skip hread

theorem typeMembers_formed (hgo : go.Formed) : (typeMembers go).Yields AllFormed := by
  refine .skip fun _ => .bind (.allFormed ?_) fun ms hms => .skip fun _ => .pure hms
  exact .skip fun _ => .ite .none (.some (typeMember_formed hgo))

theorem mappedType_formed (hgo : go.Formed) : (mappedType go lo).Yields Formed := by
  refine .skip fun _ => .skip fun _ => ?_
  extract_lets -underBinder read
  have hread (u : Unit) : (read u).Yields Formed := by
    refine .skip fun _ => .bind typeIdent_formed fun name hname => .skip fun _ => ?_
    refine .bind hgo.type fun constraint hconstraint => .skip fun _ => ?_
    refine .either hgo.type (.pure formed_absent) fun renamed hrenamed => .skip fun _ =>
      .skip fun _ => ?_
    extract_lets -underBinder finish
    have hfinish (u : Unit) : (finish u).Yields Formed := by
      refine .skip fun _ => .either hgo.type (.pure formed_absent) fun t ht => .skip fun _ =>
        .skip fun _ => ?_
      exact .plain rfl (by simp [hname, hconstraint, hrenamed, ht])
    exact .ite (.skip hfinish) (.skip fun _ => hfinish ())
  exact .ite (.skip hread) (.skip fun _ => hread ())

theorem tupleLabel_formed : tupleLabel.Yields fun r => ∀ n ∈ r, n.Formed := by
  refine .attempt (.skip fun _ => .skip fun lo => .skip fun t => ?_)
  split
  next => 
    refine .skip fun _ => .bind (.plain rfl nofun) fun label hlabel => .skip fun _ =>
      .skip fun _ => ?_
    exact .pure (by simpa using hlabel)
  next => exact .none

theorem tupleElement_formed (hgo : go.Formed) : (tupleElement go).Yields fun r => r.1.Formed := by
  refine .skip fun lo => .skip fun dots => .bind tupleLabel_formed fun label hlabel => ?_
  have hnode (t : Node) (ht : t.Formed) :
      (Parse.node .type lo [label.getD .absent, t]).Yields Formed :=
    .plain rfl (by simp [formed_getD hlabel, ht])
  have hrest : (do
      let t ← go .type
      return (← Parse.node .type lo [label.getD .absent, t], Presence.rest)).Yields fun r =>
      r.1.Formed :=
    .bind hgo.type fun t ht => .bind (hnode t ht) fun n hn => .pure hn
  extract_lets read
  have hread (u : Unit) : (read u).Yields fun r => r.1.Formed := by
    refine .skip fun _ => .ite hrest (.bind hgo.type fun t ht => .skip fun _ => ?_)
    exact .bind (hnode t ht) fun n hn => .pure hn
  exact .ite (.ite hrest (hread ())) (hread ())

theorem tupleType_formed (hgo : go.Formed) : (tupleType go lo).Yields Formed := by
  refine .skip fun _ => .bind (.many (P := fun a => a.1.Formed) ?_) fun es hes => .skip fun _ => ?_
  · refine .skip fun _ => .ite .none (.bind (tupleElement_formed hgo) fun e he => .skip fun _ => ?_)
    exact .otherwise fun _ => .pure (by simpa using he)
  · exact .optionally fun _ => .plain rfl (by simpa [AllFormed] using hes)

theorem importType_formed (hgo : go.Formed) : (importType go lo).Yields Formed := by
  refine .skip fun _ => .skip fun _ => .skip fun t => ?_
  extract_lets -underBinder attributes
  have hattributes (u : Unit) : (attributes u).Yields Formed := by
    refine .skip fun _ => ?_
    extract_lets -underBinder qualified
    have hqualified (u : Unit) : (qualified u).Yields Formed := by
      refine .skip fun _ => .skip fun _ =>
        .either entityName_formed (.pure allFormed_nil) fun name hname => ?_
      exact .bind (typeArguments?_formed hgo) fun args hargs => .plain rfl (by simp [hname, hargs])
    refine .ite (.skip fun _ => .ite (hqualified ()) ?_) (hqualified ())
    exact .skip fun _ => .skip fun _ => hqualified ()
  split
  next => exact .skip hattributes
  next => exact .skip hattributes

theorem typeReference_formed (hgo : go.Formed) : (typeReference go lo).Yields Formed := by
  refine .bind entityName_formed fun name hname =>
    .bind (typeArguments?_formed hgo) fun args hargs => ?_
  exact .plain rfl (by simp [hname, hargs])

theorem typeQuery_formed (hgo : go.Formed) : (typeQuery go lo).Yields Formed :=
  .skip fun _ => .skip fun _ => .ite (importType_formed hgo) (typeReference_formed hgo)

theorem wordType_formed (hgo : go.Formed) : (wordType go w lo).Yields Formed := by
  refine .ite (.skip fun _ => .skip fun _ => .skip fun _ => .ite ?_ (.plain rfl nofun)) ?_
  · exact .skip fun _ => .bind hgo.type fun t ht => .single rfl ht
  refine .ite (typeQuery_formed hgo) (.ite (importType_formed hgo) (.ite (.plainLeaf rfl) ?_))
  exact .skip fun _ => .ite (.plainLeaf rfl) (.ite .fail (typeReference_formed hgo))

theorem primaryType_formed (hgo : go.Formed) : (primaryType go).Yields Formed := by
  refine .skip fun lo => .skip fun t => ?_
  split
  next => exact wordType_formed hgo
  next => exact .plainLeaf rfl
  next => exact .plainLeaf rfl
  next => exact .plainLeaf rfl
  next =>
    refine .skip fun _ => .skip fun t => ?_
    split
    all_goals exact .skip fun _ => .plain rfl allFormed_nil
  next =>
    refine .bind (templateParts_formed false hgo.type) fun parts hparts => .plain rfl fun n hn => ?_
    exact hparts n (List.mem_filter.1 hn).1
  next =>
    refine .skip fun _ => .ite (mappedType_formed hgo) ?_
    exact .bind (typeMembers_formed hgo) fun ms hms => .plain rfl hms
  next => exact tupleType_formed hgo
  next => exact .skip fun _ => .bind hgo.type fun t ht => .skip fun _ => .single rfl ht
  next => exact .fail

theorem arrayType_formed (hgo : go.Formed) : (arrayType go).Yields Formed := by
  refine .skip fun lo => .bind (primaryType_formed hgo) fun base hbase => ?_
  refine .loop Formed hbase fun t ht => .skip fun _ => .ite (.skip fun _ => .ite ?_ ?_) (.pure ht)
  · exact .bind (.plain rfl (by simpa using ht)) fun n hn => .pure hn
  · refine .bind hgo.type fun index hindex => .skip fun _ => ?_
    exact .bind (.plain rfl (by simp [ht, hindex])) fun n hn => .pure hn

theorem inferType_formed (hgo : go.Formed) : (inferType go lo).Yields Formed := by
  refine .skip fun _ => .bind typeIdent_formed fun name hname => ?_
  refine .bind (.attempt (P := Formed) (.skip fun _ => .ite ?_ .none)) fun bound hbound => ?_
  · refine .bind (.under hgo.plainType) fun t ht => .skip fun _ => .skip fun _ => .ite .none ?_
    exact .pure (by simpa using ht)
  · exact .plain rfl (by simp [hname, formed_getD hbound])

theorem typeOperator_formed (hgo : go.Formed) : (typeOperator go).Yields Formed := by
  refine .skip fun lo => .skip fun _ => ?_
  extract_lets -underBinder read
  have hread (u : Unit) : (read u).Yields Formed :=
    .skip fun _ => .skip fun _ => .ite (inferType_formed hgo) (arrayType_formed hgo)
  refine .ite (.skip fun t => ?_) (hread ())
  extract_lets -underBinder applied
  have happlied (operand : Bool) : (applied operand).Yields Formed := by
    refine .ite ?_ (hread ())
    exact .skip fun _ => .bind hgo.typeOperator fun t ht => .single rfl ht
  split
  all_goals exact .skip happlied

theorem joinedTypes_formed (h : item.Yields Formed) : (joinedTypes mark item).Yields Formed := by
  refine .skip fun lo => .skip fun _ => .bind h fun first hfirst =>
    .bind (.allFormed ?_) fun more hmore => ?_
  · exact .skip fun _ => .ite (.some h) .none
  · exact .ite (.pure hfirst) (.plain rfl (allFormed_cons.2 ⟨hfirst, hmore⟩))

theorem plainType_formed (hgo : go.Formed) : (plainType go).Yields Formed := by
  refine .skip fun lo => .skip fun _ => .skip fun _ => .skip fun _ =>
    .ite (functionType_formed hgo) ?_
  refine .skip fun _ => .ite (.skip fun _ => functionType_formed hgo) ?_
  refine .skip fun _ => .skip fun _ =>
    .ite (.skip fun _ => .skip fun _ => functionType_formed hgo) ?_
  exact joinedTypes_formed (joinedTypes_formed (typeOperator_formed hgo))

theorem type_formed (hgo : go.Formed) : (type go).Yields Formed := by
  refine .under (.skip fun lo => .bind (plainType_formed hgo) fun t ht => .skip fun _ =>
    .skip fun _ => ?_)
  refine .ite (.pure ht) (.skip fun _ =>
    .bind (.under (plainType_formed hgo)) fun bound hbound => ?_)
  refine .skip fun _ => .bind hgo.type fun yes hyes => .skip fun _ =>
    .bind hgo.type fun no hno => ?_
  exact .plain rfl (by simp [ht, hbound, hyes, hno])

end Uplift.Grammar
