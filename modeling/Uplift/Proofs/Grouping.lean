import Mathlib.Data.List.Basic
import Uplift.Report

namespace Uplift

set_option autoImplicit true

theorem Pass.find?_name (p : Pass) :
    (Baseline.passes .newlyAvailable).find? (·.name == p.name) = some p := by
  cases p <;> decide

@[simp] theorem Pass.name_inj {p q : Pass} : p.name = q.name ↔ p = q := by
  constructor
  · intro h
    have hp := p.find?_name
    rw [h, q.find?_name] at hp
    exact (Option.some.inj hp).symm
  · exact congrArg Pass.name

namespace LineTable

theorem linesOf_mk_cons (name key : String) (lines : List Nat)
    (entries : List (String × List Nat)) :
    linesOf ⟨(key, lines) :: entries⟩ name = if name = key then lines
      else linesOf ⟨entries⟩ name := by
  by_cases h : name = key
  · simp [linesOf, h]
  · simp [linesOf, List.lookup_cons, beq_false_of_ne h, h]

theorem linesOf_erase (t : LineTable) (name key : String) :
    (t.erase key).linesOf name = if name = key then [] else t.linesOf name := by
  obtain ⟨entries⟩ := t
  induction entries with
  | nil => exact (ite_self _).symm
  | cons e entries ih =>
    obtain ⟨k, lines⟩ := e
    by_cases hk : k = key
    · have he : erase ⟨(k, lines) :: entries⟩ key = erase ⟨entries⟩ key := by
        simp [erase, hk]
      rw [he, ih, linesOf_mk_cons, hk]
      split <;> rfl
    · have he :
          erase ⟨(k, lines) :: entries⟩ key = ⟨(k, lines) :: (erase ⟨entries⟩ key).entries⟩ := by
        simp [erase, hk]
      rw [he, linesOf_mk_cons, linesOf_mk_cons, ih]
      by_cases hn : name = k
      · rw [if_pos hn, if_pos hn, if_neg (hn ▸ hk)]
      · rw [if_neg hn, if_neg hn]

theorem linesOf_push (t : LineTable) (name key : String) (line : Nat) :
    (t.push key line).linesOf name =
      if name = key then t.linesOf name ++ [line] else t.linesOf name := by
  rw [push, linesOf_mk_cons, linesOf_erase]
  by_cases h : name = key
  · rw [if_pos h, if_pos h, h]
  · simp only [if_neg h]

theorem drain_eq_map (t : LineTable) {order : List Pass} (h : order.Nodup) :
    t.drain order = order.map fun p => (p, t.linesOf p.name) := by
  induction order generalizing t with
  | nil => rfl
  | cons p rest ih =>
    obtain ⟨hp, hrest⟩ := List.nodup_cons.1 h
    rw [drain, ih _ hrest, List.map_cons]
    congr 1
    apply List.map_congr_left
    intro q hq
    have hne : q ≠ p := fun he => hp (he ▸ hq)
    rw [linesOf_erase, if_neg (hne ∘ Pass.name_inj.1)]

end LineTable

namespace Change

def linesOf (p : Pass) (changes : List Change) : List Nat := (changes.filter (·.pass = p)).map line

/-- The place of the first change that a pass made. -/
def first (changes : List Change) (p : Pass) : Nat := changes.findIdx (·.pass = p)

theorem linesOf_concat (p : Pass) (changes : List Change) (c : Change) :
    linesOf p (changes ++ [c]) = if p = c.pass then linesOf p changes ++ [c.line]
      else linesOf p changes := by
  rw [linesOf, List.filter_append, List.map_append]
  by_cases h : p = c.pass
  · simp [linesOf, h]
  · simp [linesOf, h, Ne.symm h]

theorem linesOf_eq_nil_iff : linesOf p changes = [] ↔ ¬ ∃ c ∈ changes, c.pass = p := by
  simp [linesOf]

theorem first_lt_length (h : ∃ c ∈ changes, c.pass = p) : first changes p < changes.length := by
  apply List.findIdx_lt_length_of_exists
  simpa only [decide_eq_true_eq] using h

theorem first_append (changes more : List Change) (p : Pass) :
    first (changes ++ more) p =
      if first changes p < changes.length then first changes p else first more p + changes.length :=
  List.findIdx_append

theorem first_append_of_mem (h : ∃ c ∈ changes, c.pass = p) (more : List Change) :
    first (changes ++ more) p = first changes p := by
  rw [first_append, if_pos (first_lt_length h)]

theorem length_le_first_append (h : ¬ ∃ c ∈ changes, c.pass = p) (more : List Change) :
    changes.length ≤ first (changes ++ more) p := by
  have hlen : first changes p = changes.length := by
    rw [first, List.findIdx_eq_length]
    intro c hc
    exact decide_eq_false fun he => h ⟨c, hc, he⟩
  rw [first_append, hlen, if_neg (Nat.lt_irrefl _)]
  exact Nat.le_add_left _ _

end Change

namespace Grouping

/-- `g.Reflects changes`: the order and the table of `g` are those of `changes`. -/
structure Reflects (g : Grouping) (changes : List Change) : Prop where
  mem_order : ∀ p, p ∈ g.order ↔ ∃ c ∈ changes, c.pass = p
  pairwise : g.order.Pairwise fun p q => Change.first changes p < Change.first changes q
  linesOf : ∀ p : Pass, g.table.linesOf p.name = Change.linesOf p changes

theorem Reflects.empty : Reflects {} [] where
  mem_order p := by simp
  pairwise := .nil
  linesOf p := rfl

theorem Reflects.nodup {g : Grouping} (h : g.Reflects changes) : g.order.Nodup := by
  apply h.pairwise.imp
  rintro p q hlt rfl
  exact Nat.lt_irrefl _ hlt

/--
A pass joins the order when it first appears: until then, and only then, its name has no lines.
-/
theorem Reflects.order_add {g : Grouping} (h : g.Reflects changes) (c : Change) :
    (g.add c).order = if c.pass ∈ g.order then g.order else g.order ++ [c.pass] := by
  have hempty : (g.table.linesOf c.pass.name).isEmpty ↔ c.pass ∉ g.order := by
    rw [List.isEmpty_iff, h.linesOf, Change.linesOf_eq_nil_iff, h.mem_order]
  simp only [Grouping.add, hempty, ite_not]

theorem Reflects.linesOf_add {g : Grouping} (h : g.Reflects changes) (c : Change) (p : Pass) :
    (g.add c).table.linesOf p.name = Change.linesOf p (changes ++ [c]) := by
  rw [Grouping.add, LineTable.linesOf_push, Change.linesOf_concat, h.linesOf]
  simp only [Pass.name_inj]

theorem Reflects.pairwise_append {g : Grouping} (h : g.Reflects changes) (more : List Change) :
    g.order.Pairwise fun p q =>
      Change.first (changes ++ more) p < Change.first (changes ++ more) q := by
  apply h.pairwise.imp_of_mem
  intro p q hp hq hlt
  rwa [Change.first_append_of_mem ((h.mem_order p).1 hp),
    Change.first_append_of_mem ((h.mem_order q).1 hq)]

theorem Reflects.add {g : Grouping} (h : g.Reflects changes) (c : Change) :
    (g.add c).Reflects (changes ++ [c]) := by
  have hold (p : Pass) : (∃ d ∈ changes ++ [c], d.pass = p) ↔ p ∈ g.order ∨ c.pass = p := by
    simp only [h.mem_order, List.mem_append, List.mem_singleton, or_and_right, exists_or,
      exists_eq_left]
  by_cases hseen : c.pass ∈ g.order
  · have horder : (g.add c).order = g.order := (h.order_add c).trans (if_pos hseen)
    constructor
    · intro p
      rw [horder, hold]
      exact ⟨.inl, fun hp => hp.elim id fun he => he ▸ hseen⟩
    · rw [horder]
      exact h.pairwise_append [c]
    · exact h.linesOf_add c
  · have horder : (g.add c).order = g.order ++ [c.pass] := (h.order_add c).trans (if_neg hseen)
    constructor
    · intro p
      rw [horder, hold, List.mem_append, List.mem_singleton, eq_comm (a := p)]
    · rw [horder, List.pairwise_append]
      refine ⟨h.pairwise_append [c], List.pairwise_singleton _ _, ?_⟩
      intro p hp q hq
      obtain rfl := List.mem_singleton.1 hq
      -- The first change of the new pass is the last of all, behind those of the other passes.
      have hlt := Change.first_lt_length ((h.mem_order p).1 hp)
      rw [Change.first_append_of_mem ((h.mem_order p).1 hp)]
      exact Nat.lt_of_lt_of_le hlt
        (Change.length_le_first_append (fun he => hseen ((h.mem_order c.pass).2 he)) [c])
    · exact h.linesOf_add c

theorem Reflects.foldl {g : Grouping} (h : g.Reflects changes) (more : List Change) :
    (more.foldl Grouping.add g).Reflects (changes ++ more) := by
  induction more generalizing g changes with
  | nil => rwa [List.append_nil]
  | cons c more ih =>
    rw [List.append_cons]
    exact ih (h.add c)

end Grouping

namespace Change

theorem perm_flatMap_filter {order : List Pass} {changes : List Change} (hnodup : order.Nodup)
    (hmem : ∀ c ∈ changes, c.pass ∈ order) :
    (order.flatMap fun p => changes.filter (·.pass = p)).Perm changes := by
  induction order generalizing changes with
  | nil =>
    have hnil : changes = [] :=
      List.eq_nil_iff_forall_not_mem.2 fun c hc => List.not_mem_nil (hmem c hc)
    rw [hnil]
    exact .refl _
  | cons p rest ih =>
    obtain ⟨hp, hrest⟩ := List.nodup_cons.1 hnodup
    have hothers : (rest.flatMap fun q => changes.filter (·.pass = q)) =
        rest.flatMap fun q =>
          (changes.filter fun c => !decide (c.pass = p)).filter (·.pass = q) := by
      apply List.flatMap_congr
      intro q hq
      rw [List.filter_filter]
      apply List.filter_congr
      intro c hc
      by_cases h : c.pass = q
      · have hne : q ≠ p := fun he => hp (he ▸ hq)
        simp [h, hne]
      · simp [h]
    rw [List.flatMap_cons, hothers]
    refine ((ih hrest ?_).append_left _).trans (List.filter_append_perm _ _)
    intro c hc
    obtain ⟨hc, hne⟩ := List.mem_filter.1 hc
    rcases List.mem_cons.1 (hmem c hc) with he | he
    · simp [he] at hne
    · exact he

theorem map_linesOf (p : Pass) (changes : List Change) :
    (linesOf p changes).map (Change.mk p) = changes.filter (·.pass = p) := by
  rw [linesOf, List.map_map]
  refine (List.map_congr_left ?_).trans (List.map_id _)
  intro c hc
  have hpass : c.pass = p := of_decide_eq_true (List.mem_filter.1 hc).2
  rw [← hpass]
  rfl

theorem exists_grouped_eq (changes : List Change) :
    ∃ g : Grouping, g.Reflects changes ∧
      grouped changes = g.order.map fun p => (p, linesOf p changes) := by
  have h : (changes.foldl Grouping.add {}).Reflects changes := Grouping.Reflects.empty.foldl changes
  refine ⟨_, h, ?_⟩
  rw [grouped, LineTable.drain_eq_map _ h.nodup]
  simp only [h.linesOf]

/--
Each pass that made a change has one group, the groups stand in the order of the passes' first
changes, and the lines of a group are those of all changes by its pass, in their order. So the
groups hold every change once.
-/
theorem grouped_by_first (changes : List Change) :
    ((grouped changes).map Prod.fst).Nodup ∧
    ((grouped changes).map Prod.fst).Pairwise (fun p q => first changes p < first changes q) ∧
    (∀ p lines, (p, lines) ∈ grouped changes ↔ (∃ c ∈ changes, c.pass = p) ∧
      lines = linesOf p changes) ∧
    ((grouped changes).flatMap fun group => group.2.map (Change.mk group.1)).Perm changes := by
  obtain ⟨g, h, hgrouped⟩ := exists_grouped_eq changes
  have hfst : (grouped changes).map Prod.fst = g.order := by
    rw [hgrouped, List.map_map]
    exact List.map_id g.order
  refine ⟨hfst ▸ h.nodup, hfst ▸ h.pairwise, ?_, ?_⟩
  · intro p lines
    rw [hgrouped, List.mem_map, ← h.mem_order]
    constructor
    · rintro ⟨q, hq, he⟩
      cases he
      exact ⟨hq, rfl⟩
    · rintro ⟨hp, rfl⟩
      exact ⟨p, hp, rfl⟩
  · rw [hgrouped, List.flatMap_map]
    simp only [map_linesOf]
    exact perm_flatMap_filter h.nodup fun c hc => (h.mem_order c.pass).2 ⟨c, hc, rfl⟩

example : grouped [⟨.varToConst, 3⟩, ⟨.mathPowToExponent, 1⟩, ⟨.varToConst, 7⟩] =
    [(.varToConst, [3, 7]), (.mathPowToExponent, [1])] := by
  decide

end Change

end Uplift
