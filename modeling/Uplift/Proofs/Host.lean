import Uplift.Proofs.Scope

namespace Uplift

set_option autoImplicit true

namespace Kind

def isStatement : Kind → Bool
  | .exprStmt | .block | .empty | .debugger | .with | .return | .labeled | .break | .continue
      | .if | .switch
  | .case | .throw | .try | .catch | .while | .doWhile | .for | .forIn | .forOf _ | .varDecl _ _
    | .functionDecl
  | .classDecl | .defaultDecl | .typeDecl | .moduleItem | .program _ => true
  | _ => false

def isCallable : Kind → Bool
  | .function _ _ | .arrow _ | .constructor | .getter | .setter => true
  | _ => false

/-- Whether nodes of this kind have statements of their own. Their last part is the body. -/
def isHost (k : Kind) : Bool := k.isCallable || k = .staticBlock

theorem isStatement_of_isHost {k : Kind} (h : k.isHost = true) : k.isStatement = false := by
  cases k <;> first | rfl | cases h

end Kind

namespace Node

mutual

/--
The nodes of a tree, each with what the statements there belong to; `none` is what is around the
tree.
-/
def hosted (host : Option Node) : Node → List (Node × Option Node)
  | mk k span cs =>
    (mk k span cs, host) :: hostedAll host (if k.isHost then some (mk k span cs) else host) cs

def hostedAll (host inner : Option Node) : List Node → List (Node × Option Node)
  | [] => []
  | [c] => hosted inner c
  | c :: d :: cs => hosted host c ++ hostedAll host inner (d :: cs)

end

def forepart (n : Node) : List Node := if n.kind.isHost then n.children.dropLast else n.children

/-- Whether the statements among the parts of a node stand where statements can. -/
def isSeated (n : Node) : Bool := n.kind.isStatement || n.forepart.all fun c => !c.kind.isStatement

variable {m n c g : Node} {host inner o : Option Node} {cs : List Node}

theorem mem_hostedAll {x : Node × Option Node} :
    x ∈ hostedAll host inner cs ↔
      (∃ c ∈ cs.dropLast, x ∈ c.hosted host) ∨ ∃ c ∈ cs.getLast?, x ∈ c.hosted inner := by
  induction cs with
  | nil => simp [hostedAll]
  | cons c cs ih =>
    cases cs with
    | nil => simp [hostedAll]
    | cons d cs =>
      rw [hostedAll, List.mem_append, ih, List.dropLast_cons_of_ne_nil (List.cons_ne_nil d cs),
        List.getLast?_cons_cons]
      simp only [List.mem_cons, exists_eq_or_imp, or_assoc]

theorem mem_hosted {x : Node × Option Node} :
    x ∈ n.hosted host ↔ x = (n, host) ∨ (∃ c ∈ n.children.dropLast, x ∈ c.hosted host) ∨
      ∃ c ∈ n.children.getLast?, x ∈ c.hosted (if n.kind.isHost then some n else host) := by
  obtain ⟨k, span, cs⟩ := n
  rw [hosted, List.mem_cons, mem_hostedAll]
  rfl

theorem map_fst_hosted (host : Option Node) (n : Node) :
    (n.hosted host).map Prod.fst = n.subtrees := by
  induction n using induct generalizing host with
  | mk k span cs ih =>
    have hall (inner : Option Node) :
        (hostedAll host inner cs).map Prod.fst = cs.flatMap subtrees := by
      induction cs with
      | nil => rfl
      | cons c cs ihcs =>
        have hc := ih c List.mem_cons_self
        have hrest := ihcs fun d hd => ih d (List.mem_cons_of_mem c hd)
        cases cs with
        | nil => rw [hostedAll, hc, List.flatMap_singleton]
        | cons d cs =>
          rw [hostedAll, List.map_append, hc, hrest]
          rfl
    rw [hosted, List.map_cons, hall, subtrees, walk, if_pos rfl, walkAll_eq]
    rfl

theorem mem_subtrees_of_mem_hosted (h : (m, o) ∈ n.hosted host) : m ∈ n.subtrees := by
  rw [← map_fst_hosted host]
  exact List.mem_map_of_mem h

/-- `m` stands in the body of the host `g`. -/
structure Hosts (g m : Node) : Prop where
  isHost : g.kind.isHost = true
  inBody : ∃ body ∈ g.children.getLast?, m ∈ body.subtrees

theorem hosts_of_mem_hosted (h : (m, o) ∈ n.hosted host) :
    o = host ∨ ∃ g ∈ n.subtrees, o = some g ∧ g.Hosts m := by
  induction n using induct generalizing host with
  | mk k span cs ih =>
    rcases mem_hosted.1 h with he | ⟨c, hc, hm⟩ | ⟨c, hc, hm⟩
    · left
      exact (Prod.mk.inj he).2
    · have hchild := (List.dropLast_sublist _).subset hc
      rcases ih c hchild hm with ho | ⟨g, hg, hhosts⟩
      · exact .inl ho
      · exact .inr ⟨g, mem_subtrees_of_mem_child hchild hg, hhosts⟩
    · have hchild := List.mem_of_getLast? hc
      rcases ih c hchild hm with ho | ⟨g, hg, hhosts⟩
      · split at ho
        next hk => exact .inr ⟨_, mem_walk_self _ _, ho, hk, c, hc, mem_subtrees_of_mem_hosted hm⟩
        next => exact .inl ho
      · exact .inr ⟨g, mem_subtrees_of_mem_child hchild hg, hhosts⟩

theorem mem_walk_of_imp {enter enter' : Node → Bool} (h : ∀ p, enter p = true → enter' p = true)
    (hm : m ∈ n.walk enter) : m ∈ n.walk enter' := by
  induction n using induct with
  | mk k span cs ih =>
    rw [walk] at hm
    split at hm
    next he =>
      rw [walkAll_eq, List.mem_cons, List.mem_flatMap] at hm
      rcases hm with rfl | ⟨c, hc, hm⟩
      · exact mem_walk_self _ _
      · exact mem_walk_of_mem_child (h _ he) hc (ih c hc hm)
    next =>
      rw [List.mem_singleton.1 hm]
      exact mem_walk_self _ _

/--
Where statements stand in their places, one that belongs to what is around the tree is reached by
way of statements.
-/
theorem mem_walk_of_mem_hosted (hn : ∀ p ∈ n.subtrees, p.isSeated = true)
    (hm : m.kind.isStatement = true) (h : (m, none) ∈ n.hosted none) :
    m ∈ n.walk fun p => p.kind.isStatement := by
  induction n using induct with
  | mk k span cs ih =>
    have hseated := hn _ (mem_walk_self _ _)
    -- A part that is no statement is not left by a walk by way of statements.
    have hpart (c : Node) (hc : c ∈ cs) (hmc : (m, none) ∈ c.hosted none) :
        m ∈ c.walk (fun p => p.kind.isStatement) ∧ c.kind.isStatement = true := by
      have hwalk := ih c hc (fun p hp => hn p (mem_subtrees_of_mem_child hc hp)) hmc
      refine ⟨hwalk, ?_⟩
      cases hk : c.kind.isStatement with
      | true => rfl
      | false =>
        obtain ⟨k', span', cs'⟩ := c
        rw [walk, if_neg (ne_true_of_eq_false hk), List.mem_singleton] at hwalk
        rw [hwalk] at hm
        exact hk.symm.trans hm
    have hstep (c : Node) (hc : c ∈ cs) (hfore : c ∈ (mk k span cs).forepart)
        (hmc : (m, none) ∈ c.hosted none) : m ∈ (mk k span cs).walk fun p =>
          p.kind.isStatement := by
      obtain ⟨hwalk, hstatement⟩ := hpart c hc hmc
      rw [isSeated, Bool.or_eq_true, List.all_eq_true] at hseated
      rcases hseated with hk | hall
      · exact mem_walk_of_mem_child hk hc hwalk
      · have hno := hall c hfore
        rw [hstatement] at hno
        cases hno
    rcases mem_hosted.1 h with he | ⟨c, hc, hmc⟩ | ⟨c, hc, hmc⟩
    · rw [(Prod.mk.inj he).1]
      exact mem_walk_self _ _
    · have hchild := (List.dropLast_sublist _).subset hc
      apply hstep c hchild _ hmc
      rw [forepart]
      split
      next => exact hc
      next => exact hchild
    · have hchild := List.mem_of_getLast? hc
      cases hk : (mk k span cs).kind.isHost with
      | true =>
        rw [hk] at hmc
        rcases hosts_of_mem_hosted hmc with ho | ⟨_, _, ho, _⟩
        · cases ho
        · cases ho
      | false =>
        rw [hk] at hmc
        apply hstep c hchild _ hmc
        rw [forepart, hk]
        exact hchild

end Node

end Uplift
