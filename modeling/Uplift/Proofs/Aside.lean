import Mathlib.Data.List.Basic
import Uplift.Proofs.Scope

namespace Uplift

set_option autoImplicit true

def Kind.isComposite : Kind → Bool
  | arrayPattern | objectPattern | elements | properties | keyedPattern | shorthandPattern
      | restPattern
  | assignPattern => true
  | _ => false

namespace Node

mutual

/-- The parts of a pattern that bind nothing: default values, keys and annotations. -/
def asides : Node → List Node
  | mk (.binding _) _ cs => cs
  | mk k span cs => if k.isComposite then asidesAll cs else [mk k span cs]

def asidesAll : List Node → List Node
  | [] => []
  | c :: cs => asides c ++ asidesAll cs

end

theorem asidesAll_eq (cs : List Node) : asidesAll cs = cs.flatMap asides := by
  induction cs with
  | nil => rfl
  | cons c cs ih => rw [asidesAll, ih, List.flatMap_cons]

theorem assigned_mk (k : Kind) (span : Range) (cs : List Node) :
    (mk k span cs).assigned = (mk k span cs).writes ++ cs.flatMap assigned := by
  rw [assigned, subtrees, walk, if_pos rfl, walkAll_eq, List.flatMap_cons, List.flatMap_assoc]
  rfl

theorem mentions_mk (k : Kind) (span : Range) (cs : List Node) (w : String) :
    (mk k span cs).mentions w = true ↔
      (mk k span cs).identifier? = some w ∨ ∃ c ∈ cs, c.mentions w = true := by
  simp only [mentions, subtrees, walk, if_true, walkAll_eq, List.any_cons, List.any_flatMap,
    Bool.or_eq_true, decide_eq_true_eq, List.any_eq_true]

theorem identifier?_of_binding? {n : Node} (h : n.binding? = some w) : n.identifier? = some w := by
  unfold binding? at h
  split at h
  next => exact h
  next => cases h

theorem mentions_of_mem_bound {n : Node} (h : w ∈ n.bound) : n.mentions w = true := by
  induction n using induct with
  | mk k span cs ih =>
    rw [mentions_mk]
    rw [bound_mk, List.mem_append] at h
    rcases h with h | h
    · left
      exact identifier?_of_binding? (Option.mem_toList.1 h)
    · right
      split at h
      next =>
        obtain ⟨c, hc, h⟩ := List.mem_flatMap.1 h
        exact ⟨c, hc, ih c hc h⟩
      next => cases h

theorem of_isComposite {k : Kind} (h : k.isComposite = true) (span : Range) (cs : List Node) :
    (mk k span cs).asides = cs.flatMap asides ∧ (mk k span cs).writes = [] ∧
      (mk k span cs).identifier? = none ∧ (mk k span cs).bound = cs.flatMap bound := by
  rw [bound_mk, ← asidesAll_eq]
  cases k <;> first | exact ⟨rfl, rfl, rfl, rfl⟩ | cases h

/-- What a pattern writes is written by what stands in it beside the names it binds. -/
theorem assigned_eq_asides (n : Node) : n.assigned = n.asides.flatMap assigned := by
  induction n using induct with
  | mk k span cs ih =>
    rw [asides.eq_def]
    split
    next w _ _ e =>
      cases e
      exact assigned_mk (.binding w) span cs
    next e =>
      cases e
      split
      next hk =>
        obtain ⟨_, hwrites, _, _⟩ := of_isComposite hk span cs
        rw [assigned_mk, hwrites, asidesAll_eq, List.flatMap_assoc, List.nil_append]
        exact List.flatMap_congr ih
      next => exact (List.flatMap_singleton assigned _).symm

theorem mentions_iff_asides (n : Node) (w : String) :
    n.mentions w = true ↔ w ∈ n.bound ∨ ∃ e ∈ n.asides, e.mentions w = true := by
  induction n using induct with
  | mk k span cs ih =>
    rw [asides.eq_def]
    split
    next v _ _ e =>
      cases e
      have hbound : (mk (.binding v) span cs).bound = [v] := by
        rw [bound_mk]
        rfl
      rw [mentions_mk, hbound, List.mem_singleton]
      exact or_congr_left ⟨fun h => (Option.some.inj h).symm, fun h => congrArg some h.symm⟩
    next e =>
      cases e
      split
      next hk =>
        obtain ⟨_, _, hidentifier, hbound⟩ := of_isComposite hk span cs
        rw [mentions_mk, hidentifier, hbound, asidesAll_eq]
        simp only [List.mem_flatMap]
        constructor
        · rintro (h | ⟨c, hc, h⟩)
          · cases h
          · rcases (ih c hc).1 h with h | ⟨e, he, h⟩
            · exact .inl ⟨c, hc, h⟩
            · exact .inr ⟨e, ⟨c, hc, he⟩, h⟩
        · rintro (⟨c, hc, h⟩ | ⟨e, ⟨c, hc, he⟩, h⟩)
          · exact .inr ⟨c, hc, (ih c hc).2 (.inl h)⟩
          · exact .inr ⟨c, hc, (ih c hc).2 (.inr ⟨e, he, h⟩)⟩
      next =>
        constructor
        · intro h
          exact .inr ⟨_, List.mem_singleton_self _, h⟩
        · rintro (h | ⟨e, he, h⟩)
          · exact mentions_of_mem_bound h
          · rwa [List.mem_singleton.1 he] at h

end Node

end Uplift
