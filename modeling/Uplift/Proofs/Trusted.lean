import Mathlib.Data.List.Induction
import Uplift.Program
import Uplift.Proofs.Scope
import Uplift.TrustedRoot

namespace Uplift.TrustedRoot

set_option autoImplicit true

/-- Whether the root of a name allows a step. -/
def permits (root : String) (hop : Hop) : Bool := (find? root).any (·.allows hop)

/-- The last step of an expression and what it is taken from, parentheses aside. -/
def step? (n : Node) : Option (Hop × Node) :=
  match n.bare.methodCall? with
  | some (d, w, _) => some (⟨w, true⟩, d)
  | none => n.bare.member?.map fun m => (⟨m.2, false⟩, m.1)

def isDocument (n : Node) : Bool :=
  n.bare.name? = some "document" ||
    (step? n).any fun s => s.1 = ⟨"document", false⟩ && s.2.bare.name? = some "window"

def isCollection (n : Node) : Bool :=
  (step? n).any fun s => permits "document" s.1 && isDocument s.2

/-- A property of the document that is a collection, or such a property taken from another one. -/
inductive IsListing : Node → Prop
  | ofDocument : step? n = some (⟨w, false⟩, d) → permits "document" ⟨w, false⟩ = true →
      isDocument d = true →
      IsListing n
  | ofListing : step? n = some (⟨w, false⟩, d) → permits "document" ⟨w, false⟩ = true →
      IsListing d → IsListing n

theorem bare_ne_paren (n : Node) (span : Range) (e : Node) : n.bare ≠ .mk .paren span [e] := by
  induction n using Node.induct with
  | mk k s cs ih =>
    rw [Node.bare.eq_def]
    split
    next e' heq =>
      cases heq
      exact ih e' List.mem_cons_self
    next hother =>
      intro heq
      exact hother span e heq

theorem chain?_bare (called : Bool) (n : Node) : chain? called n.bare = chain? called n := by
  induction n using Node.induct with
  | mk k span cs ih =>
    rw [Node.bare.eq_def]
    split
    next e heq =>
      cases heq
      rw [ih e List.mem_cons_self, chain?]
    next => rfl

theorem chain?_of_name (h : n.bare.name? = some w) : chain? false n = some (w, []) := by
  rw [← chain?_bare]
  rw [Node.name?.eq_def] at h
  split at h
  next heq =>
    cases h
    rw [heq, chain?]
    rfl
  next => cases h

theorem chain?_callee (n : Node) :
    chain? true n = n.bare.member?.bind fun m =>
      (chain? false m.1).map fun c => (c.1, c.2 ++ [⟨m.2, true⟩]) := by
  rw [← chain?_bare]
  have hbare := bare_ne_paren n
  generalize n.bare = m at hbare ⊢
  rw [chain?.eq_def]
  split
  next e => exact absurd rfl (hbare _ e)
  next => rfl
  next object w _ _ =>
    rw [Node.member?, Option.bind_some]
    cases chain? false object <;> rfl
  next => rfl
  next hmember _ =>
    rw [Node.member?.eq_def]
    split
    next => exact absurd rfl (hmember _ _ _ _ _)
    next => rfl

theorem methodCall?_eq_some_iff {n : Node} :
    n.methodCall? = some (d, w, given) ↔
      ∃ callee, n.call? = some (callee, given) ∧ callee.bare.member? = some (d, w) := by
  simp only [Node.methodCall?, Option.bind_eq_bind, Option.bind_eq_some_iff, Option.pure_def]
  constructor
  · rintro ⟨⟨callee, given⟩, hcall, ⟨receiver, name⟩, hmember, heq⟩
    cases heq
    exact ⟨callee, hcall, hmember⟩
  · rintro ⟨callee, hcall, hmember⟩
    exact ⟨(callee, given), hcall, (d, w), hmember, rfl⟩

theorem chain?_of_step (h : step? n = some (hop, d)) :
    chain? false n = (chain? false d).map fun c => (c.1, c.2 ++ [hop]) := by
  rw [← chain?_bare]
  rw [step?] at h
  split at h
  next receiver w given hmethod =>
    cases h
    obtain ⟨callee, hcall, hmember⟩ := methodCall?_eq_some_iff.1 hmethod
    rw [Node.call?.eq_def] at hcall
    split at hcall
    next hn =>
      cases hcall
      rw [hn, chain?, if_neg Bool.false_ne_true, chain?_callee, hmember]
      rfl
    next => cases hcall
  next =>
    obtain ⟨⟨object, w⟩, hmember, heq⟩ := Option.map_eq_some_iff.1 h
    cases heq
    rw [Node.member?.eq_def] at hmember
    split at hmember
    next hn =>
      cases hmember
      rw [hn, chain?]
      cases chain? false _ <;> rfl
    next => cases hmember

theorem chain?_cases (h : chain? false n = some (w, hops)) :
    (n.bare.name? = some w ∧ hops = []) ∨
      ∃ front hop d, step? n = some (hop, d) ∧ chain? false d = some (w, front) ∧
        hops = front ++ [hop] := by
  rw [← chain?_bare, chain?.eq_def] at h
  split at h
  next e heq => exact absurd heq (bare_ne_paren n _ e)
  next heq =>
    cases h
    left
    rw [heq]
    exact ⟨rfl, rfl⟩
  next object v _ _ heq =>
    simp only [Option.bind_eq_bind, Option.bind_eq_some_iff, Option.pure_def] at h
    obtain ⟨⟨root, front⟩, hd, hsame⟩ := h
    cases hsame
    right
    have hstep : step? n = some (⟨v, false⟩, object) := by
      rw [step?, heq]
      rfl
    exact ⟨front, ⟨v, false⟩, object, hstep, hd, rfl⟩
  next callee args given heq =>
    rw [if_neg Bool.false_ne_true, chain?_callee] at h
    simp only [Option.bind_eq_some_iff, Option.map_eq_some_iff] at h
    obtain ⟨⟨d, v⟩, hmember, ⟨root, front⟩, hd, hsame⟩ := h
    cases hsame
    right
    have hmethod : n.bare.methodCall? = some (d, v, given) := by
      rw [heq]
      exact methodCall?_eq_some_iff.2 ⟨callee, rfl, hmember⟩
    have hstep : step? n = some (⟨v, true⟩, d) := by
      rw [step?, hmethod]
    exact ⟨front, ⟨v, true⟩, d, hstep, hd, rfl⟩
  next => cases h

def arrival (root : TrustedRoot) (hops : List Hop) : TrustedRoot :=
  hops.foldl (fun root hop => (find? hop.name).getD root) root

theorem arrival_snoc (root : TrustedRoot) (hops : List Hop) (hop : Hop) :
    arrival root (hops ++ [hop]) = (find? hop.name).getD (arrival root hops) := by
  rw [arrival, List.foldl_append]
  rfl

/-- Only the last step can be a call, and the root reached before it allows it. -/
theorem follows_snoc (root : TrustedRoot) (hops : List Hop) (hop : Hop) :
    root.follows (hops ++ [hop]) = true ↔
      root.follows hops = true ∧ (∀ h ∈ hops, h.call = false) ∧
      (arrival root hops).allows hop = true := by
  induction hops generalizing root with
  | nil => simp [follows, arrival]
  | cons h hops ih =>
    rw [List.cons_append, follows, follows]
    cases hcall : h.call with
    | true => simp [hcall]
    | false =>
      simp only [Bool.and_eq_true, Bool.false_eq_true, if_false, ih, List.forall_mem_cons,
        hcall, true_and]
      exact and_assoc.symm

/--
`Reaches n root`: the walk along the chain `n` calls nothing, takes allowed steps only and ends at
`root`.
-/
inductive Reaches : Node → TrustedRoot → Prop
  | name : n.bare.name? = some w → find? w = some root → Reaches n root
  | step : Reaches d root → step? n = some (⟨w, false⟩, d) → root.allows ⟨w, false⟩ = true →
      Reaches n ((find? w).getD root)

theorem Reaches.walk (h : Reaches n root) :
    ∃ w hops first, chain? false n = some (w, hops) ∧ find? w = some first ∧
      first.follows hops = true ∧ (∀ h ∈ hops, h.call = false) ∧ arrival first hops = root := by
  induction h with
  | name hname hroot => exact ⟨_, [], _, chain?_of_name hname, hroot, rfl, nofun, rfl⟩
  | @step d root n w _ hstep hallows ih =>
    obtain ⟨v, hops, first, hchain, hfirst, hfollows, hplain, rfl⟩ := ih
    have hlonger : chain? false n = some (v, hops ++ [⟨w, false⟩]) := by
      rw [chain?_of_step hstep, hchain]
      rfl
    have hcalm : ∀ h ∈ hops ++ [⟨w, false⟩], h.call = false :=
      List.forall_mem_append.2 ⟨hplain, List.forall_mem_singleton.2 rfl⟩
    exact ⟨v, _, first, hlonger, hfirst, (follows_snoc ..).2 ⟨hfollows, hplain, hallows⟩, hcalm,
      arrival_snoc ..⟩

theorem reaches_of_walk (hchain : chain? false n = some (w, hops)) (hfirst : find? w = some first)
    (hfollows : first.follows hops = true) (hplain : ∀ h ∈ hops, h.call = false) :
    Reaches n (arrival first hops) := by
  -- A walk grows at its end, so the induction takes the last step away.
  induction hops using List.reverseRecOn generalizing n with
  | nil =>
    rcases chain?_cases hchain with ⟨hname, _⟩ | ⟨front, hop, d, _, _, hhops⟩
    · exact .name hname hfirst
    · exact absurd hhops (by simp)
  | append_singleton hops hop ih =>
    rcases chain?_cases hchain with ⟨_, hhops⟩ | ⟨front, hop', d, hstep, hd, hhops⟩
    · exact absurd hhops (by simp)
    · obtain ⟨rfl, rfl⟩ := List.append_singleton_inj.1 hhops
      obtain ⟨hfront, hquiet, hallows⟩ := (follows_snoc ..).1 hfollows
      have hcall := hplain hop (List.mem_append_right _ (List.mem_singleton_self _))
      obtain ⟨v, call⟩ := hop
      cases hcall
      rw [arrival_snoc]
      exact .step (ih hd hfront hquiet) hstep hallows

theorem trusts_iff_reaches (n : Node) :
    trusts n = true ↔ ∃ hop d root, step? n = some (hop, d) ∧ Reaches d root ∧
      root.allows hop = true ∧ (hop.call = true ∨ find? hop.name = none) := by
  rw [trusts.eq_def]
  constructor
  · intro h
    split at h
    next w hops hchain =>
      rw [Option.any_eq_true] at h
      obtain ⟨first, hfirst, hboth⟩ := h
      rw [Bool.and_eq_true, endsAtCollection] at hboth
      rcases chain?_cases hchain with ⟨_, rfl⟩ | ⟨front, hop, d, hstep, hd, rfl⟩
      · exact absurd hboth.2 (by simp)
      · obtain ⟨hfront, hquiet, hallows⟩ := (follows_snoc ..).1 hboth.1
        have hend : hop.call = true ∨ find? hop.name = none := by
          simpa using hboth.2
        exact ⟨hop, d, _, hstep, reaches_of_walk hd hfirst hfront hquiet, hallows, hend⟩
    next => cases h
  · rintro ⟨hop, d, root, hstep, hreaches, hallows, hend⟩
    obtain ⟨w, hops, first, hchain, hfirst, hfollows, hplain, rfl⟩ := hreaches.walk
    have hlonger : chain? false n = some (w, hops ++ [hop]) := by
      rw [chain?_of_step hstep, hchain]
      rfl
    have hwhole : first.follows (hops ++ [hop]) = true :=
      (follows_snoc ..).2 ⟨hfollows, hplain, hallows⟩
    have hlast : endsAtCollection (hops ++ [hop]) = true := by
      simpa [endsAtCollection] using hend
    rw [hlonger]
    simp [hfirst, hwhole, hlast]

theorem find?_cases (h : find? w = some root) : w = "document" ∨ w = "window" := by
  have hmem := List.mem_of_find?_eq_some h
  have hname := List.find?_some h
  simp only [all, List.mem_cons, List.not_mem_nil, or_false] at hmem
  rcases hmem with rfl | rfl
  · left
    exact (eq_of_beq hname).symm
  · right
    exact (eq_of_beq hname).symm

theorem permits_eq_allows (hroot : find? w = some root) (hop : Hop) :
    permits w hop = root.allows hop := by
  rw [permits, hroot]
  rfl

theorem permits_window (h : permits "window" hop = true) : hop = ⟨"document", false⟩ := by
  obtain ⟨w, call⟩ := hop
  cases call with
  | true => cases h
  | false =>
    have hmem : w ∈ ["document"] := List.contains_iff_mem.1 h
    rw [List.mem_singleton.1 hmem]

theorem find?_of_permits_document (h : permits "document" ⟨w, false⟩ = true) : find? w = none := by
  have hmem : w ∈ ["childNodes", "fonts"] := List.contains_iff_mem.1 h
  rw [List.mem_cons, List.mem_singleton] at hmem
  rcases hmem with rfl | rfl
  · decide
  · decide

theorem isDocument_iff (n : Node) :
    isDocument n = true ↔ n.bare.name? = some "document" ∨
      ∃ d, step? n = some (⟨"document", false⟩, d) ∧ d.bare.name? = some "window" := by
  rw [isDocument, Bool.or_eq_true, decide_eq_true_eq, Option.any_eq_true]
  apply or_congr_right
  constructor
  · rintro ⟨⟨hop, d⟩, hstep, hboth⟩
    rw [Bool.and_eq_true, decide_eq_true_eq, decide_eq_true_eq] at hboth
    obtain ⟨rfl, hname⟩ := hboth
    exact ⟨d, hstep, hname⟩
  · rintro ⟨d, hstep, hname⟩
    refine ⟨_, hstep, ?_⟩
    rw [Bool.and_eq_true, decide_eq_true_eq, decide_eq_true_eq]
    exact ⟨rfl, hname⟩

/--
A walk that calls nothing ends at the window itself, at the document, or at the document still
although it has gone on to a collection.
-/
theorem Reaches.cases (h : Reaches n root) :
    find? "window" = some root ∧ n.bare.name? = some "window" ∨
      find? "document" = some root ∧ (isDocument n = true ∨ IsListing n) := by
  induction h with
  | name hname hroot =>
    rcases find?_cases hroot with rfl | rfl
    · right
      exact ⟨hroot, .inl ((isDocument_iff _).2 (.inl hname))⟩
    · left
      exact ⟨hroot, hname⟩
  | @step d root n w _ hstep hallows ih =>
    right
    rcases ih with ⟨hroot, hname⟩ | ⟨hroot, hd⟩
    · rw [← permits_eq_allows hroot] at hallows
      cases permits_window hallows
      exact ⟨rfl, .inl ((isDocument_iff n).2 (.inr ⟨d, hstep, hname⟩))⟩
    · rw [← permits_eq_allows hroot] at hallows
      rw [find?_of_permits_document hallows]
      refine ⟨hroot, .inr ?_⟩
      rcases hd with hd | hd
      · exact .ofDocument hstep hallows hd
      · exact .ofListing hstep hallows hd

theorem reaches_of_isDocument (h : isDocument n = true) (hroot : find? "document" = some root) :
    Reaches n root := by
  rcases (isDocument_iff n).1 h with hname | ⟨d, hstep, hname⟩
  · exact .name hname hroot
  · have hreaches := Reaches.step (.name hname rfl) hstep rfl
    rwa [hroot] at hreaches

theorem Reaches.list (h : Reaches d root) (hroot : find? "document" = some root)
    (hstep : step? n = some (⟨w, false⟩, d)) (hpermits : permits "document" ⟨w, false⟩ = true) :
    Reaches n root := by
  have hreaches := h.step hstep (permits_eq_allows hroot _ ▸ hpermits)
  rwa [find?_of_permits_document hpermits] at hreaches

theorem IsListing.reaches (h : IsListing n) (hroot : find? "document" = some root) :
    Reaches n root := by
  induction h with
  | ofDocument hstep hpermits hd => exact (reaches_of_isDocument hd hroot).list hroot hstep hpermits
  | ofListing hstep hpermits _ ih => exact ih.list hroot hstep hpermits

theorem trusts_iff_step (n : Node) :
    trusts n = true ↔ ∃ hop d, step? n = some (hop, d) ∧ permits "document" hop = true ∧
      (isDocument d = true ∨ IsListing d) := by
  rw [trusts_iff_reaches]
  constructor
  · rintro ⟨hop, d, root, hstep, hreaches, hallows, hend⟩
    rcases hreaches.cases with ⟨hroot, _⟩ | ⟨hroot, hd⟩
    · rw [← permits_eq_allows hroot] at hallows
      cases permits_window hallows
      rcases hend with hcall | hnone
      · cases hcall
      · cases hnone
    · rw [← permits_eq_allows hroot] at hallows
      exact ⟨hop, d, hstep, hallows, hd⟩
  · rintro ⟨⟨w, call⟩, d, hstep, hpermits, hd⟩
    obtain ⟨root, hroot⟩ : ∃ root, find? "document" = some root := ⟨_, rfl⟩
    have hend : call = true ∨ find? w = none := by
      cases call with
      | true => exact .inl rfl
      | false => exact .inr (find?_of_permits_document hpermits)
    have hreaches : Reaches d root := by
      rcases hd with hd | hd
      · exact reaches_of_isDocument hd hroot
      · exact hd.reaches hroot
    exact ⟨_, d, root, hstep, hreaches, permits_eq_allows hroot _ ▸ hpermits, hend⟩

/--
An expression is trusted if and only if it is one allowed step from the document, or such a step
from a collection that is reached from the document by properties.
-/
theorem trusts_iff (n : Node) :
    trusts n = true ↔ isCollection n = true ∨
      ∃ hop d, step? n = some (hop, d) ∧ permits "document" hop = true ∧ IsListing d := by
  rw [trusts_iff_step, isCollection, Option.any_eq_true]
  constructor
  · rintro ⟨hop, d, hstep, hpermits, hd | hd⟩
    · left
      exact ⟨(hop, d), hstep, Bool.and_eq_true_iff.2 ⟨hpermits, hd⟩⟩
    · right
      exact ⟨hop, d, hstep, hpermits, hd⟩
  · rintro (⟨⟨hop, d⟩, hstep, hboth⟩ | ⟨hop, d, hstep, hpermits, hd⟩)
    · obtain ⟨hpermits, hd⟩ := Bool.and_eq_true_iff.1 hboth
      exact ⟨hop, d, hstep, hpermits, .inl hd⟩
    · exact ⟨hop, d, hstep, hpermits, .inr hd⟩

/-- In `document.childNodes.fonts` a member of a collection is trusted. -/
theorem trusts_member_of_collection :
    ∃ p ∈ (Program.parse .tsx (Text.ofString "document.childNodes.fonts;")).toOption,
      ∃ n ∈ p.expressions, trusts n = true ∧ isCollection n = false := by
  decide +kernel

end Uplift.TrustedRoot
