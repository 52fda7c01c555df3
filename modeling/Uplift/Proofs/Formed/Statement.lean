import Uplift.Proofs.Formed.Expression

namespace Uplift.Grammar

set_option autoImplicit true

open Parse Node

variable {go : Level} {n e decl decorators label name : Node} {lo : Nat}

theorem variableValue_formed (hgo : go.Formed) :
    (variableValue go lo n declaring inHead).Yields Formed := by
  refine .skip fun _ => .ite (.pure formed_absent) (.skip fun _ => .ite ?_ ?_)
  · exact .bind hgo.assignment fun e he => .skip fun _ => .pure he.formed
  · refine .skip fun c => .ite (.pure formed_absent) (.ite (.skip fun _ => .pure formed_absent) ?_)
    split
    next => exact .pure formed_absent
    next => exact .failAt

theorem declarator_formed (hgo : go.Formed) : (declarator go declaring inHead).Yields Formed := by
  refine .skip fun lo => .bind hgo.bindingPattern fun bare hbare => .skip fun _ => ?_
  extract_lets -underBinder finish
  have hfinish (u : Unit) : (finish u).Yields Formed := by
    refine .bind (ascription?_formed hgo) fun t ht =>
      .bind (variableValue_formed hgo) fun value hvalue => ?_
    exact .plain rfl (by simp [formed_ite hbare (formed_annotated hbare ht), hvalue])
  refine .ite ?_ (hfinish ())
  split
  next => exact .skip fun _ => hfinish ()
  next => exact hfinish ()

theorem declarators_formed (hgo : go.Formed) :
    (declarators go declaring inHead stop).Yields AllFormed := by
  refine .loop AllFormed allFormed_nil fun ds hds => .skip fun _ => .ite ?_ ?_
  · exact .skip fun _ => .skip fun _ => .pure hds
  · refine .bind (.under (declarator_formed hgo)) fun d hd => .skip fun _ => ?_
    have hmore : AllFormed (ds ++ [d]) := by simp [hds, hd]
    exact .ite (.pure hmore) (.pure hmore)

structure Declares (n : Node) : Prop where
  orderly : n.Orderly
  isDeclaration : n.isDeclaration = true

theorem varDecl_declares {ds : List Node} (h : AllFormed ds) :
    (Parse.node (.varDecl declaring ambient) lo ds).Yields Declares :=
  .node fun _ => ⟨orderly_of_isOpen rfl h.orderly, rfl⟩

theorem varDeclaration_declares (hgo : go.Formed) :
    (varDeclaration go declaring inHead).Yields Declares := by
  refine .skip fun lo => .skip fun _ => .skip fun stop => ?_
  extract_lets -underBinder listed
  have hlisted (u : Unit) : (listed u).Yields Declares := by
    refine .bind (declarators_formed hgo) fun ds hds => ?_
    have hdecl : (Parse.node (.varDecl declaring false) lo ds).Yields Declares :=
      varDecl_declares hds
    refine .ite hdecl (.skip fun _ => .ite hdecl ?_)
    exact .skip fun _ => .skip fun _ => .skip fun _ => hdecl
  refine .ite (.skip fun _ => .ite (.skip fun _ => varDecl_declares allFormed_nil) (hlisted ()))
    (hlisted ())

theorem varDeclaration_orderly (hgo : go.Formed) :
    (varDeclaration go declaring inHead).Yields Orderly :=
  (varDeclaration_declares hgo).mono fun _ h => h.orderly

theorem disposables_orderly (hgo : go.Formed) : (disposables go lo).Yields Orderly := by
  refine .skip fun _ =>
    .bind (.loop AllFormed (Q := AllFormed) allFormed_nil fun ds hds => ?_) fun ds hds => ?_
  · refine .bind (declarator_formed hgo) fun d hd => .skip fun _ => ?_
    have hmore : AllFormed (ds ++ [d]) := by simp [hds, hd]
    exact .ite (.pure hmore) (.pure hmore)
  · exact .skip fun _ => .otherwise fun _ => .skip fun _ => .skip fun _ => .stated rfl hds.orderly

theorem disposable_declares : (disposable lo).Yields Declares := by
  refine .skip fun _ => .bind bindingIdent_formed fun p hp => ?_
  refine .bind (.plain rfl (by simpa using hp)) fun d hd => ?_
  exact varDecl_declares (by simpa using hd)

theorem enumMember_orderly (hgo : go.Formed) : (enumMember go).Yields Orderly := by
  refine .skip fun lo => .skip fun t => ?_
  extract_lets -underBinder keyed
  have hkeyed (key : Node) (hkey : key.Formed) : (keyed key).Yields Orderly := by
    refine .skip fun _ => .either hgo.assignment.formed (.pure formed_absent) fun value hvalue => ?_
    exact .stated rfl (by simp [hkey.orderly, hvalue.orderly])
  split
  next => exact .bind (.plainLeaf rfl) hkeyed
  next => exact .bind (.plainLeaf rfl) hkeyed
  next => exact .skip fun _ => .bind (.plainLeaf rfl) hkeyed
  next =>
    refine .skip fun _ => .bind hgo.assignment fun e he => .otherwise fun _ => .skip fun _ => ?_
    exact .bind (.single rfl he.formed) hkeyed
  next => exact .bind .fail hkeyed

theorem enumDecl_orderly (hgo : go.Formed) : (enumDecl go lo).Yields Orderly := by
  refine .bind typeIdent_formed fun name hname => ?_
  refine .bind (braced_yields (enumMember_orderly hgo)) fun (ms, _) hms => ?_
  exact .stated rfl (allOrderly_cons.2 ⟨hname.orderly, hms⟩)

theorem interfaceDecl_orderly (hgo : go.Formed) : (interfaceDecl go lo).Yields Orderly := by
  refine .bind typeIdent_formed fun name hname => ?_
  extract_lets -underBinder finish
  have hfinish (u : Unit) : (finish u).Yields Orderly := by
    refine .bind (typeParams?_formed hgo) fun generics hgenerics => .skip fun _ => ?_
    refine .either (heritage_formed hgo) (.pure allFormed_nil) fun bases hbases => .skip fun _ => ?_
    refine .optionally_two fun _ => .bind (typeMembers_formed hgo) fun members hmembers =>
      .stated rfl ?_
    simp [hname.orderly, hgenerics.orderly, hbases.orderly, hmembers.orderly]
  split
  next => exact .optionally hfinish
  next => exact hfinish ()

theorem typeAlias_orderly (hgo : go.Formed) : (typeAlias go lo).Yields Orderly := by
  refine .bind typeIdent_formed fun name hname =>
    .bind (typeParams?_formed hgo) fun generics hgenerics => ?_
  refine .skip fun _ => .bind hgo.type fun t ht => .skip fun _ => .stated rfl ?_
  simp [hname.orderly, hgenerics.orderly, ht.orderly]

theorem namespaceDecl_orderly (hgo : go.Formed) : (namespaceDecl go lo).Yields Orderly := by
  refine .bind typeIdent_formed fun first hfirst => .bind (.allFormed ?_) fun more hmore => ?_
  · exact .skip fun _ => .ite (.some typeIdent_formed) .none
  · refine .bind hgo.namespaceBody fun body hbody => .stated rfl ?_
    simp [hfirst.orderly, hmore.orderly, hbody]

theorem externalModule_orderly (hgo : go.Formed) : (externalModule go lo).Yields Orderly := by
  refine .skip fun t => ?_
  extract_lets -underBinder named
  have hnamed (name : Node) (hname : name.Formed) : (named name).Yields Orderly := by
    refine .skip fun _ => .ite (.bind hgo.namespaceBody fun body hbody => ?_) ?_
    · exact .stated rfl (by simp [hname.orderly, hbody])
    · exact .skip fun _ => .statedSingle rfl hname.orderly
  split
  next => exact .bind (.plainLeaf rfl) hnamed
  next => exact .bind (.plainLeaf rfl) hnamed
  next => exact .bind .fail hnamed

theorem typedDecl?_orderly (hgo : go.Formed) (hdecorators : decorators.Formed) :
    (typedDecl? go lo decorators w waits).Yields fun r => ∀ n ∈ r, n.Orderly := by
  refine .ite ?_ (.ite ?_ (.ite ?_ (.ite ?_ (.ite ?_ (.ite ?_ .none)))))
  · exact .skip fun _ => .skip fun _ =>
      .ite (.skip fun _ => .some (classDecl_orderly hgo hdecorators)) .none
  · exact .skip fun _ => .ite (.skip fun _ => .some (enumDecl_orderly hgo)) .none
  · exact .skip fun _ => .ite (.skip fun _ => .some (interfaceDecl_orderly hgo)) .none
  · refine .skip fun _ => .ite .none (.skip fun _ => .skip fun t => ?_)
    split
    next => exact .some (externalModule_orderly hgo)
    next => exact .skip fun _ => .ite (.some (namespaceDecl_orderly hgo)) .none
  · exact .skip fun _ => .ite (.skip fun _ => .some (namespaceDecl_orderly hgo)) .none
  · exact .skip fun _ => .skip fun _ => .ite (.skip fun _ => .some (typeAlias_orderly hgo)) .none

theorem orderly_asAmbient (h : n.Orderly) : (asAmbient lo n).Orderly := by
  unfold asAmbient
  split
  next => exact orderly_of_isOpen rfl h.children
  next => exact h.respan

theorem ambientDecl?_orderly (hgo : go.Formed) (hdecorators : decorators.Formed) :
    (ambientDecl? go lo decorators).Yields fun r => ∀ n ∈ r, n.Orderly := by
  have hambient {p : Parse Node} (hp : p.Yields Orderly) :
      (p >>= fun d => Pure.pure (some (asAmbient lo d))).Yields fun r => ∀ n ∈ r, n.Orderly :=
    .bind hp fun d hd => .pure (by simpa using orderly_asAmbient hd)
  refine .skip fun _ => .skip fun _ => .optionally fun _ => ?_
  refine .under (.skip fun _ => .ite ?_ (.skip fun _ => .ite ?_ ?_))
  · exact hambient (functionDecl_orderly hgo hdecorators)
  · exact .some (classDecl_orderly hgo hdecorators)
  · refine .skip fun _ => .skip fun _ =>
      .ite (.skip fun _ => .skip fun _ => .some (enumDecl_orderly hgo)) ?_
    refine .skip fun d => ?_
    cases d with
    | some d => exact hambient (varDeclaration_orderly hgo)
    | none =>
      refine .skip fun _ => .ite (.some (externalModule_orderly hgo)) (.skip fun t => ?_)
      split
      next => exact typedDecl?_orderly hgo hdecorators
      next => exact .none

theorem wordDecl?_orderly (hgo : go.Formed) (hdecorators : decorators.Formed) :
    (wordDecl? go lo decorators w).Yields fun r => ∀ n ∈ r, n.Orderly := by
  refine .ite (ambientDecl?_orderly hgo hdecorators) (.ite ?_ (typedDecl?_orderly hgo hdecorators))
  refine .skip fun _ => .ite (.bind hgo.namespaceBody fun body hbody => .some ?_) .none
  exact .stated rfl (by simp [hbody, (expressed_ident _ _).formed.orderly])

theorem fullExpression_expressed (hgo : go.Formed) : (fullExpression go).Yields Expressed :=
  .under hgo.expression

theorem condition_formed (hgo : go.Formed) : (condition go).Yields Formed :=
  .skip fun _ => .bind (fullExpression_expressed hgo) fun _ he => .skip fun _ => .pure he.formed

theorem governed_orderly (hgo : go.Formed) : (governed go).Yields Orderly := .under hgo.statement

theorem loopBody_orderly (hgo : go.Formed) : (loopBody go).Yields Orderly := .under hgo.statement

theorem jumpLabel_formed : jumpLabel.Yields fun r => ((r.map Prod.snd).getD absent).Formed :=
  .skip fun _ =>
    .ite (.pure formed_absent) (.skip fun (_, _) => .bind (.plain rfl allFormed_nil) fun _ hn =>
    .skip fun _ => .pure hn)

theorem breakStatement_orderly : breakStatement.Yields Orderly := by
  refine .skip fun lo => .skip fun _ => .bind jumpLabel_formed fun label hlabel => ?_
  cases label with
  | some l => exact .skip fun _ => .otherwise fun _ => .statedSingle rfl hlabel.orderly
  | none => exact .skip fun _ => .otherwise fun _ => .statedSingle rfl hlabel.orderly

theorem continueStatement_orderly : continueStatement.Yields Orderly := by
  refine .skip fun lo => .skip fun _ => .bind jumpLabel_formed fun label hlabel => .skip fun _ => ?_
  have hnode : (Parse.node .continue lo [(label.map (·.2)).getD .absent]).Yields Orderly :=
    .statedSingle rfl hlabel.orderly
  refine .ite ?_ (.skip fun _ => hnode)
  cases label with
  | some l => exact .skip fun _ => .otherwise fun _ => hnode
  | none => exact hnode

theorem returnStatement_orderly (hgo : go.Formed) : (returnStatement go).Yields Orderly := by
  refine .skip fun lo => .skip fun _ => .skip fun _ =>
    .either (.pure formed_absent) ?_ fun e he => ?_
  · exact (fullExpression_expressed hgo).formed
  · exact .skip fun _ => .skip fun _ => .otherwise fun _ => .statedSingle rfl he.orderly

theorem throwStatement_orderly (hgo : go.Formed) : (throwStatement go).Yields Orderly := by
  refine .skip fun lo => .skip fun _ => .skip fun _ => .optionally fun _ => ?_
  exact .bind (fullExpression_expressed hgo) fun e he => .skip fun _ =>
    .statedSingle rfl he.formed.orderly

structure Branch.Orderly (b : Branch) : Prop where
  test : b.test.Orderly
  body : b.body.Orderly

theorem orderly_closeBranches {bs : List Branch} {stop : Nat} (hn : n.Orderly)
    (hbs : ∀ b ∈ bs, b.Orderly) : (closeBranches stop n bs).Orderly := by
  induction bs generalizing n with
  | nil => exact hn
  | cons b rest ih =>
    obtain ⟨hb, hrest⟩ := List.forall_mem_cons.1 hbs
    exact ih (orderly_of_isOpen rfl (by simp [hn, hb.test, hb.body])) hrest

theorem ifStatement_orderly (hgo : go.Formed) : (ifStatement go).Yields Orderly := by
  refine .loop (fun bs => ∀ b ∈ bs, b.Orderly) nofun fun bs hbs => .skip fun lo => .skip fun _ => ?_
  refine .bind (condition_formed hgo) fun test htest =>
    .bind (governed_orderly hgo) fun body hbody => ?_
  have hall : ∀ b ∈ Branch.mk lo test body :: bs, b.Orderly :=
    List.forall_mem_cons.2 ⟨⟨htest.orderly, hbody⟩, hbs⟩
  refine .skip fun _ => .ite (.skip fun _ => .ite (.pure hall) ?_) ?_
  · refine .bind (governed_orderly hgo) fun final hfinal => ?_
    exact .skip fun _ => .pure (orderly_closeBranches hfinal hall)
  · exact .skip fun _ => .pure (orderly_closeBranches orderly_absent hall)

theorem switchCase_orderly (hgo : go.Formed) :
    (switchCase go seen).Yields fun r => ∀ p ∈ r, p.1.Orderly := by
  refine .skip fun _ => .ite (.skip fun lo => .skip fun _ => ?_) (.pure nofun)
  extract_lets -underBinder tested
  have htested (test : Option Node) (htest : ∀ n ∈ test, n.Formed) :
      (tested test).Yields fun r => ∀ p ∈ r, p.1.Orderly := by
    refine .skip fun _ => .bind (.under (.allOrderly ?_)) fun body hbody => ?_
    · exact .skip fun _ => .skip fun _ => .skip fun _ => .ite .none (.some hgo.statement)
    · refine .bind (.stated rfl (allOrderly_cons.2 ⟨(formed_getD htest).orderly, hbody⟩)) fun n
        hn => .pure ?_
      simpa using hn
  refine .ite (.bind (.mapSome (fullExpression_expressed hgo).formed) htested) ?_
  exact .skip fun _ => .optionally fun _ => .bind .none htested

theorem switchStatement_orderly (hgo : go.Formed) : (switchStatement go).Yields Orderly := by
  refine .skip fun lo => .skip fun _ => .bind (condition_formed hgo) fun e he => .skip fun _ => ?_
  refine .bind (.under (.loop (fun a => AllOrderly a.1) (Q := AllOrderly) allOrderly_nil ?_)) fun cs
    hcs => ?_
  · rintro ⟨cs, seen⟩ hcs
    refine .found (switchCase_orderly hgo) (fun found hfound => .pure ?_) (.pure hcs)
    simpa using ⟨hcs, hfound⟩
  · exact .skip fun _ => .stated rfl (allOrderly_cons.2 ⟨he.orderly, hcs⟩)

theorem catchClause_orderly (hgo : go.Formed) : (catchClause go).Yields Orderly := by
  refine .skip fun lo => .skip fun _ => .ite (.skip fun _ => ?_) (.pure orderly_absent)
  extract_lets -underBinder handled
  have hhandled (p : Node) (hp : p.Formed) : (handled p).Yields Orderly :=
    .bind (blockWith_orderly hgo) fun b hb => .stated rfl (by simp [hp.orderly, hb])
  refine .ite ?_ (.bind (.pure formed_absent) hhandled)
  refine .bind hgo.bindingPattern fun bare hbare => .bind (ascription?_formed hgo) fun t ht =>
    .skip fun _ => ?_
  exact .bind (.pure (formed_ite hbare (formed_annotated hbare ht))) hhandled

theorem finallyBlock_orderly (hgo : go.Formed) : (finallyBlock go).Yields Orderly :=
  .skip fun _ => .ite (blockWith_orderly hgo) (.pure orderly_absent)

theorem tryStatement_orderly (hgo : go.Formed) : (tryStatement go).Yields Orderly := by
  refine .skip fun lo => .skip fun _ => .bind (blockWith_orderly hgo) fun b hb => .skip fun _ => ?_
  refine .bind (catchClause_orderly hgo) fun h hh => ?_
  refine .bind (finallyBlock_orderly hgo) fun f hf => .optionally fun _ => ?_
  exact .stated rfl (by simp [hb, hh, hf])

theorem strayHandler_orderly : (strayHandler go).Yields Orderly :=
  .skip fun _ => .skip fun _ => .skip fun _ => .skip fun _ =>
    .statedSingle rfl expressed_invalid.formed.orderly

theorem whileStatement_orderly (hgo : go.Formed) : (whileStatement go).Yields Orderly := by
  refine .skip fun lo => .skip fun _ => .bind (condition_formed hgo) fun test htest => ?_
  exact .bind (loopBody_orderly hgo) fun body hbody => .stated rfl (by simp [htest.orderly, hbody])

theorem doStatement_orderly (hgo : go.Formed) : (doStatement go).Yields Orderly := by
  refine .skip fun lo => .skip fun _ => .bind (loopBody_orderly hgo) fun body hbody =>
    .skip fun _ => ?_
  exact .bind (condition_formed hgo) fun test htest => .skip fun _ =>
    .stated rfl (by simp [htest.orderly, hbody])

/-- What a loop over keys or items assigns to: variables that it declares, or a target. -/
structure Heading (n : Node) : Prop where
  orderly : n.Orderly
  heads : (n.isDeclaration || n.isTarget) = true

theorem Declares.heading (h : Declares n) : Heading n :=
  ⟨h.orderly, Bool.or_eq_true_iff.2 (.inl h.isDeclaration)⟩

theorem Heading.of_aimed (h : n.Aimed) : Heading n :=
  ⟨h.formed.orderly, Bool.or_eq_true_iff.2 (.inr h.isTarget)⟩

def Head.Orderly : Head → Prop
  | .steps first test step => AllOrderly [first, test, step]
  | .keys left object => Heading left ∧ object.Orderly
  | .items left iterable => Heading left ∧ iterable.Orderly

theorem headOver_orderly (hgo : go.Formed) (hn : Heading n) :
    (headOver go n).Yields Head.Orderly := by
  refine .skip fun _ =>
    .ite (.bind (.under hgo.assignment) fun e he => .pure ⟨hn, he.formed.orderly⟩) ?_
  refine .optionally fun _ => .skip fun _ => ?_
  refine .bind (fullExpression_expressed hgo) fun e he => .pure ⟨hn, he.formed.orderly⟩

theorem headSteps_orderly (hgo : go.Formed) (hn : n.Orderly) :
    (headSteps go n).Yields Head.Orderly := by
  have hfull := (fullExpression_expressed hgo).formed
  refine .skip fun _ => ?_
  extract_lets -underBinder tested
  have htested (test : Node) (htest : test.Formed) : (tested test).Yields Head.Orderly := by
    refine .skip fun _ => .either (.pure formed_absent) hfull fun step hstep => .pure ?_
    simp [Head.Orderly, hn, htest.orderly, hstep.orderly]
  exact .ite (.bind (.pure formed_absent) htested) (.bind hfull fun e he => .skip fun _ =>
    .bind (.pure he) htested)

theorem forHead_orderly (hgo : go.Formed) : (forHead go).Yields Head.Orderly := by
  refine .skip fun d => ?_
  cases d with
  | some d =>
    refine .bind (.under (varDeclaration_declares hgo)) fun decl hdecl => ?_
    refine .skip fun _ => .ite (.skip fun _ => ?_) ?_
    · exact headOver_orderly hgo hdecl.heading
    · exact .skip fun _ => headSteps_orderly hgo hdecl.orderly
  | none =>
    refine .skip fun _ => .ite (headSteps_orderly hgo orderly_absent) (.skip fun lo => ?_)
    refine .bind (.under hgo.expression) fun e he => .skip fun _ =>
      .ite ?_ (.skip fun _ => .ite ?_ ?_)
    · exact .bind disposable_declares fun decl hdecl => headOver_orderly hgo hdecl.heading
    · refine .skip fun _ => .bind (toPattern_aimed .target he) fun left hleft => .skip fun _ => ?_
      have hover := headOver_orderly hgo (.of_aimed hleft)
      refine .ite ?_ hover
      split
      next => exact .skip fun _ => hover
      next => exact .skip fun _ => hover
      next => exact hover
    · exact .skip fun _ => .skip fun _ => headSteps_orderly hgo he.formed.orderly

theorem forStatement_orderly (hgo : go.Formed) : (forStatement go).Yields Orderly := by
  refine .skip fun lo => .skip fun _ => .skip fun _ => .skip fun awaited => .skip fun _ => ?_
  refine .bind (.under (forHead_orderly hgo)) fun head hhead => .skip fun _ => ?_
  refine .bind (loopBody_orderly hgo) fun body hbody => ?_
  cases head with
  | steps first test step =>
    refine .optionally fun _ => .stated rfl ?_
    exact allOrderly_append.2 ⟨hhead, by simpa using hbody⟩
  | keys left object =>
    obtain ⟨hleft, hobject⟩ := hhead
    refine .optionally fun _ => .node fun _ => orderly_mk.2 ⟨hleft.heads, rfl, ?_⟩
    simp [hleft.orderly, hobject, hbody]
  | items left iterable =>
    obtain ⟨hleft, hiterable⟩ := hhead
    refine .node fun _ => orderly_mk.2 ⟨hleft.heads, rfl, ?_⟩
    simp [hleft.orderly, hiterable, hbody]

theorem withStatement_orderly (hgo : go.Formed) : (withStatement go).Yields Orderly := by
  refine .skip fun lo => .skip fun _ => .optionally fun _ => .skip fun _ => .skip fun _ => ?_
  refine .bind (condition_formed hgo) fun e he => .bind (.under hgo.statement) fun body hbody => ?_
  exact .stated rfl (by simp [he.orderly, hbody])

theorem labeledStatement_orderly (hgo : go.Formed) (hlabel : label.Formed) :
    (labeledStatement go w label).Yields Orderly := by
  refine .skip fun s => .skip fun _ => ?_
  refine .bind (P := Orderly) (.under ?_) fun body hbody => .optionally fun _ => .skip fun _ => ?_
  · refine .skip fun _ =>
      .ite (.bind (functionDecl_orderly hgo formed_absent) fun f hf => ?_) (governed_orderly hgo)
    refine .skip fun _ => .optionally fun _ => ?_
    extract_lets finish
    have hfinish (u : Unit) : (finish u).Yields Orderly := .pure hf
    split
    next => exact .skip hfinish
    next => exact hfinish ()
  · exact .stated rfl (by simp [hlabel.orderly, hbody])

theorem endExpression_orderly (hgo : go.Formed) (he : e.Expressed) :
    (endExpression go lo e).Yields Orderly := by
  refine .skip fun _ => .ite (.statedSingle rfl he.formed.orderly) (.skip fun _ => .ite ?_ .fail)
  refine .skip fun _ => .skip fun _ => .bind (operators_expressed hgo he) fun e he => ?_
  exact .statedSingle rfl he.formed.orderly

theorem importStatement_orderly (hgo : go.Formed) : (importStatement go lo).Yields Orderly :=
  .bind (fullExpression_expressed hgo) fun _ he => .skip fun _ =>
    .statedSingle rfl he.formed.orderly

theorem expressionStatement_orderly (hgo : go.Formed) (hdecorators : decorators.Formed) :
    (expressionStatement go lo decorators).Yields Orderly := by
  refine .skip fun _ => .ite (importStatement_orderly hgo) (.skip fun start => ?_)
  refine .bind (fullExpression_expressed hgo) fun e he => ?_
  have hend : (endExpression go lo e).Yields Orderly := endExpression_orderly hgo he
  split
  next w span cs =>
    refine .skip fun _ =>
      .ite (labeledStatement_orderly hgo he.formed) (.skip fun _ => .ite ?_ (.skip fun _ => ?_))
    · exact .skip fun _ => .skip fun _ => .statedSingle rfl he.formed.orderly
    · refine .ite (.found (wordDecl?_orderly hgo hdecorators) (fun d hd => .pure hd) ?_) hend
      exact .ite (.skip fun _ => .ite (.skip fun _ => interfaceDecl_orderly hgo) hend) hend
  next => exact .skip fun _ => hend

theorem wordStatement?_orderly (hgo : go.Formed) (hdecorators : decorators.Formed) :
    (wordStatement? go declarations decorators lo w).Yields fun r => ∀ n ∈ r, n.Orderly := by
  unfold wordStatement?
  split
  next => exact .mapSome breakStatement_orderly
  next => exact .mapSome continueStatement_orderly
  next => exact .skip fun _ => .skip fun _ => .some (.stated rfl allOrderly_nil)
  next => exact .mapSome (doStatement_orderly hgo)
  next => exact .mapSome (forStatement_orderly hgo)
  next => exact .mapSome (ifStatement_orderly hgo)
  next => exact .mapSome (returnStatement_orderly hgo)
  next => exact .mapSome (switchStatement_orderly hgo)
  next => exact .mapSome (throwStatement_orderly hgo)
  next => exact .mapSome (tryStatement_orderly hgo)
  next => exact .mapSome strayHandler_orderly
  next => exact .mapSome strayHandler_orderly
  next => exact .mapSome (withStatement_orderly hgo)
  next => exact .mapSome (whileStatement_orderly hgo)
  next => exact .otherwise fun _ => .mapSome (functionDecl_orderly hgo hdecorators)
  next => exact .otherwise fun _ => .mapSome (classDecl_orderly hgo hdecorators)
  next => exact .mapSome (varDeclaration_orderly hgo)
  next =>
    refine .skip fun _ => .ite (.skip fun _ => .skip fun _ => .some (enumDecl_orderly hgo)) ?_
    exact .ite (.mapSome (varDeclaration_orderly hgo)) .none
  next =>
    refine .ite (.skip fun d => ?_) .none
    cases d with
    | some d => exact .mapSome (varDeclaration_orderly hgo)
    | none => exact .none
  next => exact .skip fun _ => .ite (.mapSome (disposables_orderly hgo)) .none
  next =>
    refine .skip fun _ => .optionally fun _ => .skip fun _ =>
      .ite (.skip fun _ => .ite ?_ .none) .none
    exact .skip fun _ => .some (disposables_orderly hgo)
  next => exact .skip fun _ => .ite (.skip fun _ => .some (interfaceDecl_orderly hgo)) .none
  next => exact .skip fun _ => .ite (.skip fun _ => .some (typeAlias_orderly hgo)) .none
  next => exact .skip fun _ => .ite (.skip fun _ => .some (enumDecl_orderly hgo)) .none
  next =>
    refine .skip fun t => ?_
    split
    next => exact .skip fun _ => .mapSome (functionDecl_orderly hgo hdecorators)
    next => exact .none
  next => exact .none

theorem statementFrom_orderly (hgo : go.Formed) (hdecorators : decorators.Formed) :
    (statementFrom go declarations lo decorators).Yields Orderly := by
  refine .skip fun t => ?_
  split
  next => exact blockWith_orderly hgo
  next => exact .statedLeaf rfl
  next =>
    refine .found (wordStatement?_orderly hgo hdecorators) (fun n hn => .pure hn) ?_
    exact expressionStatement_orderly hgo hdecorators
  next => exact expressionStatement_orderly hgo hdecorators

theorem statement_orderly (hgo : go.Formed) : (statement go declarations).Yields Orderly := by
  refine .skip fun lo => .bind (decoratorList_formed hgo) fun ds hds => .skip fun _ =>
    .optionally fun _ => ?_
  exact statementFrom_orderly hgo (formed_decoratorsNode hds)

theorem stringNode_formed : stringNode.Yields Formed := by
  refine .skip fun t => ?_
  split
  next => exact .plainLeaf rfl
  next => exact .fail

theorem exportName_formed : exportName.Yields Formed := by
  refine .skip fun t => ?_
  split
  next => exact .plainLeaf rfl
  next => exact .plainLeaf rfl
  next => exact .fail

theorem importedName_formed : importedName.Yields Formed :=
  .map bindingIdent_formed fun _ h => formed_asIdent h

theorem renamed_formed {bound : Parse Node} (h : bound.Yields Formed) :
    (renamed bound).Yields fun r => AllFormed r.toList :=
  .skip fun _ => .ite (.map h fun n hn => by simpa using hn) (.pure allFormed_nil)

theorem specifier_formed {bound : Parse Node} (h : bound.Yields Formed) :
    (specifier bound).Yields AllFormed := by
  have has {span : Range} : (Node.mk (.ident "as") span []).Formed := (expressed_ident _ _).formed
  have hnode {lo : Nat} : (Parse.node (.ident "as") lo []).Yields Formed := .plain rfl allFormed_nil
  refine .bind exportName_formed fun first hfirst => .skip fun _ => ?_
  refine .skip fun _ => .ite (.skip fun _ => .ite ?_ ?_) ?_
  · refine .skip fun asLo => .skip fun _ => .skip fun _ => .ite ?_ (.skip fun _ => .ite ?_ ?_)
    · exact .bind hnode fun n hn => .pure (by simpa using hn)
    · refine .skip fun _ => .skip fun _ => .skip fun _ => .ite ?_ ?_
      · exact .bind hnode fun n hn => .pure (by simp [hfirst, hn])
      · exact .bind h fun n hn => .pure (by simp [has, hn])
    · exact .bind h fun n hn => .pure (by simp [hfirst, hn])
  · refine .bind exportName_formed fun name hname =>
      .bind (renamed_formed h) fun more hmore => .pure ?_
    exact allFormed_cons.2 ⟨hname, hmore⟩
  · exact .bind (renamed_formed h) fun more hmore => .pure (allFormed_cons.2 ⟨hfirst, hmore⟩)

theorem importSpecifier_orderly : importSpecifier.Yields Orderly := by
  refine .skip fun lo => .bind (specifier_formed importedName_formed) fun names hnames => ?_
  have hnode : (Parse.node .moduleItem lo names).Yields Orderly := .stated rfl hnames.orderly
  extract_lets finish
  have hfinish (u : Unit) : (finish u).Yields Orderly := hnode
  split
  next => exact .skip fun _ => .optionally hfinish
  next => exact .skip hfinish
  next => exact hfinish ()

theorem exportSpecifier_orderly : exportSpecifier.Yields Orderly :=
  .skip fun _ => .bind (specifier_formed exportName_formed) fun _ hnames =>
    .stated rfl hnames.orderly

theorem importAlias_orderly (hname : name.Formed) : (importAlias lo name).Yields Orderly := by
  refine .skip fun _ => .skip fun _ => .skip fun _ => .ite (.skip fun _ => .skip fun _ => ?_) ?_
  · refine .bind stringNode_formed fun s hs => .skip fun _ => .skip fun _ => .stated rfl ?_
    simp [hname.orderly, hs.orderly]
  · refine .bind entityName_formed fun target htarget => .skip fun _ => ?_
    exact .stated rfl (allOrderly_cons.2 ⟨hname.orderly, htarget.orderly⟩)

theorem importedNames_orderly : importedNames.Yields AllOrderly := by
  refine .skip fun _ =>
    .ite (.skip fun _ => .bind importedName_formed fun n hn => .pure (by simpa using hn.orderly)) ?_
  refine .skip fun _ =>
    .ite (.bind (braced_yields importSpecifier_orderly) fun r hr => .pure hr) (.pure allOrderly_nil)

theorem importDecl_orderly : (importDecl go).Yields Orderly := by
  refine .skip fun lo => .skip fun _ => .skip fun t => ?_
  split
  next =>
    exact .bind stringNode_formed fun s hs => .skip fun _ => .skip fun _ =>
      .statedSingle rfl hs.orderly
  next =>
    refine .skip fun _ => ?_
    extract_lets -underBinder named
    have hnamed (first : List Node) (hfirst : AllOrderly first) : (named first).Yields Orderly := by
      refine .bind importedNames_orderly fun names hnames => .skip fun _ => .stated rfl ?_
      exact allOrderly_append.2 ⟨hfirst, hnames⟩
    refine .ite ?_ (.bind (.pure allOrderly_nil) hnamed)
    refine .bind importedName_formed fun first hfirst => .skip fun _ => .skip fun _ => ?_
    refine .ite (.bind (.pure allOrderly_nil) hnamed) (.skip fun _ => ?_)
    refine .either importedName_formed (.pure hfirst) fun name hname => .skip fun _ => ?_
    refine .ite (importAlias_orderly hname) (.skip fun _ => .otherwise fun _ =>
      .bind (.pure ?_) hnamed)
    simpa using hname.orderly

theorem orderly_asDefault (h : n.Orderly) : (asDefault n).Orderly := by
  obtain ⟨k, span, cs⟩ := n
  exact orderly_of_isOpen rfl h.children

theorem exportDefault_orderly (hgo : go.Formed) (hdecorators : decorators.Formed) :
    (exportDefault go lo decorators).Yields Orderly := by
  refine .skip fun _ => .bind (decoratorList_formed hgo) fun more hmore => ?_
  have hall : (if more.isEmpty then decorators else decoratorsNode more).Formed :=
    formed_ite hdecorators (formed_decoratorsNode hmore)
  have hdefault {p : Parse Node} (hp : p.Yields Orderly) :
      (asDefault <$> p >>= fun d => Parse.node .moduleItem lo [d]).Yields Orderly :=
    .bind (.map hp fun _ => orderly_asDefault) fun d hd => .statedSingle rfl hd
  extract_lets -underBinder checked
  refine .optionally fun _ => ?_
  unfold checked
  extract_lets -underBinder decorators
  refine .skip fun start => .skip fun _ => ?_
  extract_lets -underBinder plain
  have hplain (u : Unit) : (plain u).Yields Orderly := by
    refine .skip fun _ =>
      .ite (hdefault (classDecl_orderly hgo hall)) (.skip fun _ => .ite ?_ (.skip fun _ => ?_))
    · exact hdefault (functionDecl_orderly hgo hall)
    · extract_lets -underBinder valued
      have hvalued (u : Unit) : (valued u).Yields Orderly :=
        .bind (.under hgo.assignment) fun e he => .skip fun _ => .statedSingle rfl he.formed.orderly
      refine .ite (.skip fun t => ?_) (hvalued ())
      split
      next => exact .skip fun _ => hdefault (functionDecl_orderly hgo hall)
      next => exact hvalued ()
  refine .ite (.skip fun _ => .skip fun _ =>
    .ite ?_ (.skip fun _ => .ite ?_ (hplain ()))) (hplain ())
  · exact .skip fun _ => hdefault (classDecl_orderly hgo hall)
  · exact .skip fun _ => .bind (interfaceDecl_orderly hgo) fun d hd => .statedSingle rfl hd

theorem typedExport?_orderly (hgo : go.Formed) (hdecorators : decorators.Formed) :
    (typedExport? go lo decorators).Yields fun r => ∀ n ∈ r, n.Orderly := by
  refine .skip fun start => .skip fun _ => ?_
  extract_lets -underBinder undeclared
  have hundeclared (u : Unit) : (undeclared u).Yields fun r => ∀ n ∈ r, n.Orderly := by
    refine .skip fun t => ?_
    extract_lets -underBinder other
    have hother (u : Unit) : (other u).Yields fun r => ∀ n ∈ r, n.Orderly := by
      refine .skip fun _ =>
        .ite (.skip fun _ => .skip fun _ => .optionally fun _ => ?_) (.skip fun _ => .ite ?_ ?_)
      · exact .bind typeIdent_formed fun name hname => .some (importAlias_orderly hname)
      · exact .bind hgo.expression fun e he => .skip fun _ =>
          .some (.statedSingle rfl he.formed.orderly)
      · refine .skip fun _ =>
          .ite (.skip fun _ => .bind identNode_expressed fun name hname => ?_) .none
        exact .skip fun _ => .some (.statedSingle rfl hname.formed.orderly)
    split
    next =>
      refine .ite
        (.found (.attempt (typedDecl?_orderly hgo hdecorators)) (fun d hd => ?_) (hother ()))
          (hother ())
      exact .some (.statedSingle rfl hd)
    next => exact hother ()
  refine .ite (.found (ambientDecl?_orderly hgo hdecorators) (fun d hd => ?_) (hundeclared ()))
    (hundeclared ())
  exact .some (.statedSingle rfl hd)

theorem namedExport_orderly : (namedExport go lo).Yields Orderly := by
  refine .skip fun _ =>
    .ite (.skip fun _ => ?_) (.bind (braced_yields exportSpecifier_orderly) fun (ns, _) hns => ?_)
  · have hname : (List.singleton <$> exportName).Yields AllOrderly :=
      .map exportName_formed fun n hn => allOrderly_cons.2 ⟨hn.orderly, allOrderly_nil⟩
    exact .either hname (.pure allOrderly_nil) fun names hnames => .skip fun _ => .stated rfl hnames
  · exact .skip fun _ =>
      .ite (.skip fun _ => .stated rfl hns) (.skip fun _ => .skip fun _ => .stated rfl hns)

theorem exportDecl_orderly (hgo : go.Formed) (hdecorators : decorators.Formed) :
    (exportDecl go decorators).Yields Orderly := by
  refine .skip fun lo => .skip fun _ => .skip fun _ => ?_
  have hitem {p : Parse Node} (hp : p.Yields Orderly) :
      (p >>= fun d => Parse.node .moduleItem lo [d]).Yields Orderly :=
    .bind hp fun d hd => .statedSingle rfl hd
  extract_lets -underBinder untyped
  have huntyped (u : Unit) : (untyped u).Yields Orderly := by
    refine .skip fun _ =>
      .ite namedExport_orderly (.skip fun _ => .ite (exportDefault_orderly hgo hdecorators) ?_)
    refine .skip fun _ => .bind (decoratorList_formed hgo) fun more hmore => ?_
    have hall : (if more.isEmpty then decorators else decoratorsNode more).Formed :=
      formed_ite hdecorators (formed_decoratorsNode hmore)
    extract_lets -underBinder checked
    refine .optionally fun _ => ?_
    unfold checked
    extract_lets -underBinder decorators
    refine .skip fun start => .skip fun _ => ?_
    refine .ite (hitem (classDecl_orderly hgo hall)) (.skip fun _ => .ite ?_ ?_)
    · exact hitem (functionDecl_orderly hgo hall)
    · refine .skip fun _ => ?_
      extract_lets -underBinder valued
      have hvalued (u : Unit) : (valued u).Yields Orderly := by
        refine .skip fun _ => .skip fun _ => .skip fun _ => ?_
        refine .ite (.skip fun _ => .skip fun _ => ?_) (.skip fun d => ?_)
        · exact hitem (enumDecl_orderly hgo)
        · cases d with
          | some d => exact hitem (varDeclaration_orderly hgo)
          | none => exact namedExport_orderly
      refine .ite (.skip fun t => ?_) (hvalued ())
      split
      next => exact .skip fun _ => hitem (functionDecl_orderly hgo hall)
      next => exact hvalued ()
  exact .ite (.found (typedExport?_orderly hgo hdecorators) (fun n hn => .pure hn) (huntyped ()))
    (huntyped ())

theorem moduleItem_orderly (hgo : go.Formed) : (moduleItem go).Yields Orderly := by
  refine .skip fun lo => .bind (decoratorList_formed hgo) fun ds hds => .skip fun _ => ?_
  have hdecorators := formed_decoratorsNode hds
  refine .ite (.skip fun _ => .optionally fun _ => ?_) (statementFrom_orderly hgo hdecorators)
  refine .skip fun _ => .ite importDecl_orderly (.skip fun _ => .optionally fun _ => ?_)
  exact exportDecl_orderly hgo hdecorators

theorem namespaceBody_orderly (hgo : go.Formed) : (namespaceBody go).Yields Orderly := by
  refine .skip fun lo => .skip fun _ => .bind (.under (.allOrderly ?_)) fun items hitems => ?_
  · exact .skip fun _ => .ite .none (.some (moduleItem_orderly hgo))
  · exact .skip fun _ => .stated rfl hitems

theorem Level.Formed.produce (hgo : go.Formed) : Level.Formed (produce go) where
  expression := expression_expressed hgo
  assignment := assignment_expressed hgo
  assignmentProper := assignmentProper_expressed hgo
  operation := operation_expressed hgo
  unary := unary_expressed hgo
  operators := operators_expressed hgo
  leftHandSide := operand_expressed hgo
  newOperand := newOperand_formed hgo (primary_expressed hgo)
  accesses := accesses_expressed hgo
  bindingPattern := bindingPattern_formed hgo
  type := type_formed hgo
  plainType := plainType_formed hgo
  typeOperator := typeOperator_formed hgo
  params := formalParams_receiving hgo
  element := element_expressed hgo
  statement := statement_orderly hgo
  namespaceBody := namespaceBody_orderly hgo

/-- Every level of the grammar is formed, by induction on the levels below. -/
theorem level_formed (depth : Nat) : (level depth).Formed := by
  induction depth with
  | zero => constructor <;> intros <;> exact .fail
  | succ depth ih => exact ih.produce

theorem program_orderly (hgo : go.Formed) : (program go).Yields Orderly :=
  .bind (statementsUntil_orderly (moduleItem_orderly hgo)) fun _ hitems => .skip fun _ =>
    .pure (orderly_of_isOpen rfl hitems)

theorem orderly_of_parse {dialect : Dialect} {cs : List Char} (h : parse dialect cs = .ok n) :
    n.Orderly := by
  unfold parse at h
  extract_lets c at h
  split at h
  next => cases h
  next hdone =>
    split at h
    next => cases h
    next =>
      cases h
      exact (program_orderly (level_formed _)).of_done hdone

end Uplift.Grammar

namespace Uplift.Program

variable {dialect : Dialect} {text : Text} {p : Program}

/-- The tree of every text that can be read is orderly. -/
theorem orderly_of_parse (h : parse dialect text = .ok p) : p.tree.Orderly := by
  unfold parse at h
  cases htree : Grammar.parse dialect (withoutMark text.chars) with
  | error fault =>
    rw [htree] at h
    cases h
  | ok tree =>
    rw [htree] at h
    cases h
    exact Grammar.orderly_of_parse htree

theorem formed_of_parse (h : parse dialect text = .ok p) :
    ∀ m ∈ p.tree.subtrees, m.isProper = true := fun m hm =>
  (orderly_of_parse h m hm).1

end Uplift.Program
