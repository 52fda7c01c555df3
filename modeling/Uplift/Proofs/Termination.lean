import Uplift.Proofs.Laminar

namespace Uplift.Rendering

set_option autoImplicit true

/--
`Renders edits top range cursor index rest copies out`: rendering a range from a cursor on, with the
edits that remain, ends with `out` after copying `copies`, empty ones included. Edits that reuse
ranges have these rendered with all edits.
-/
inductive Renders (edits : List Edit) : Bool → Range → Nat → Nat → List Edit → List Range →
    Rendering → Prop
  | done (top : Bool) (range : Range) (cursor index : Nat) :
      Renders edits top range cursor index [] [⟨cursor, range.stop⟩] (keep ⟨cursor, range.stop⟩)
  | pass (h : passes top range cursor e = true)
      (hrest : Renders edits top range cursor (index + 1) rest copies out) :
      Renders edits top range cursor index (e :: rest) copies out
  | take (h : passes top range cursor e = false) (copied : Range → List Range)
      (render : Range → Rendering)
      (hreused : ∀ s ∈ e.reusedRanges, Renders edits false s s.start 0 edits (copied s) (render s))
      (hrest : Renders edits top range e.range.stop (index + 1) rest copies out) :
      Renders edits top range cursor index (e :: rest)
        (⟨cursor, e.range.start⟩ :: (e.reusedRanges.flatMap copied ++ copies))
        (append (keep ⟨cursor, e.range.start⟩) (append (emission render index e) out))

theorem Renders.unique (h : Renders edits top range cursor index rest copies out)
    (h' : Renders edits top range cursor index rest copies' out') :
    copies' = copies ∧ out' = out := by
  induction h generalizing copies' out' with
  | done =>
    cases h'
    exact ⟨rfl, rfl⟩
  | pass hpass _ ih =>
    cases h' with
    | pass _ hrest => exact ih hrest
    | take htake => cases hpass.symm.trans htake
  | @take _ _ _ e index _ _ _ htake copied render _ _ ihreused ih =>
    cases h' with
    | pass hpass => cases htake.symm.trans hpass
    | take _ copied' render' hreused' hrest' =>
      obtain ⟨rfl, rfl⟩ := ih hrest'
      have hcopied : e.reusedRanges.flatMap copied' = e.reusedRanges.flatMap copied :=
        List.flatMap_congr fun s hs => (ihreused s hs (hreused' s hs)).1
      have hrender : segments render' index e.segments = segments render index e.segments :=
        segments_congr fun s hs => (ihreused s hs (hreused' s hs)).2
      rw [hcopied, emission, emission, hrender]
      exact ⟨rfl, rfl⟩

theorem exists_renders {render : Range → Rendering}
    (h : ∀ e ∈ picked top range cursor rest, ∀ s ∈ e.reusedRanges,
      ∃ copies, Renders edits false s s.start 0 edits copies (render s)) (index : Nat) :
    ∃ copies,
      Renders edits top range cursor index rest copies
        (sweep render top range cursor index rest) := by
  induction rest generalizing cursor index with
  | nil => exact ⟨_, .done top range cursor index⟩
  | cons e rest ih =>
    cases hpass : passes top range cursor e with
    | true =>
      rw [picked_passed hpass] at h
      rw [sweep_passed hpass]
      obtain ⟨copies, hrest⟩ := ih h (index + 1)
      exact ⟨copies, .pass hpass hrest⟩
    | false =>
      rw [picked_picked hpass] at h
      rw [sweep_emission hpass]
      obtain ⟨copies, hrest⟩ := ih (fun f hf => h f (List.mem_cons_of_mem e hf)) (index + 1)
      have hall (s : Range) :
          ∃ copies, s ∈ e.reusedRanges →
            Renders edits false s s.start 0 edits copies (render s) := by
        by_cases hs : s ∈ e.reusedRanges
        · obtain ⟨copies, hreused⟩ := h e List.mem_cons_self s hs
          exact ⟨copies, fun _ => hreused⟩
        · exact ⟨[], fun hmem => absurd hmem hs⟩
      obtain ⟨copied, hcopied⟩ := Classical.skolem.1 hall
      exact ⟨_, .take hpass copied render hcopied hrest⟩

section Ordered

variable {edits : List Edit} (hsorted : edits.Pairwise Edit.Before)

include hsorted

/--
In order, no edit starts before one that was taken up, even if that one ends before it starts.
-/
theorem bounds_of_mem_picked_of_sorted (h : f ∈ picked top range cursor edits) :
    cursor ≤ f.range.start ∧ f.range.stop ≤ range.stop ∧ (top = false → f.range ≠ range) := by
  induction edits generalizing cursor with
  | nil => cases h
  | cons e rest ih =>
    obtain ⟨hbefore, hrest⟩ := List.pairwise_cons.1 hsorted
    cases hpass : passes top range cursor e with
    | true =>
      rw [picked_passed hpass] at h
      exact ih hrest h
    | false =>
      rw [picked_picked hpass] at h
      obtain ⟨hstart, hstop, hne⟩ := passes_eq_false_iff.1 hpass
      rcases List.mem_cons.1 h with rfl | h
      · exact ⟨hstart, hstop, hne⟩
      · obtain ⟨-, hbounds⟩ := ih hrest h
        have hlater := hbefore f ((picked_sublist _ _ _ _).subset h)
        rw [Edit.Before, Edit.precedes_iff] at hlater
        exact ⟨by omega, hbounds⟩

variable (hreuse : ∀ e ∈ edits, ∀ s ∈ e.reusedRanges, s.within e.range = true)

include hreuse

/-- Inside a reused range fewer edits are left for the ranges that are reused in it. -/
theorem renders_reused (hdepth : inner edits r < depth) :
    ∃ copies, Renders edits false r r.start 0 edits copies (reused edits depth r) := by
  induction depth generalizing r with
  | zero => cases hdepth
  | succ depth ih =>
    rw [reused]
    apply exists_renders
    intro e he s hs
    obtain ⟨hstart, hstop, hne⟩ := bounds_of_mem_picked_of_sorted hsorted he
    have hmem := (picked_sublist _ _ _ _).subset he
    have hlt := inner_lt hmem (hreuse e hmem s hs) ⟨Range.within_iff.2 ⟨hstart, hstop⟩, hne rfl⟩
    exact ih (by omega)

theorem renders_whole (length : Nat) :
    ∃ copies, Renders edits true ⟨0, length⟩ 0 0 edits copies (whole edits length) := by
  rw [whole]
  apply exists_renders
  intro e he s hs
  have hmem := (picked_sublist _ _ _ _).subset he
  apply renders_reused hsorted hreuse
  -- the edit itself does not lie inside what it reuses
  apply Nat.lt_of_le_of_ne (inner_le_length edits s)
  intro hall
  have hin : e.range.Inside s := of_decide_eq_true (List.countP_eq_length.1 hall e hmem)
  exact hin.not_within (hreuse e hmem s hs)

end Ordered

theorem kept_keep_eq (r : Range) : (keep r).kept = [r].filter fun s => !s.isEmpty := by
  rw [keep, List.filter_singleton]
  cases r.isEmpty <;> rfl

theorem Renders.kept_eq (h : Renders edits top range cursor index rest copies out) :
    out.kept = copies.filter fun s => !s.isEmpty := by
  induction h with
  | done => exact kept_keep_eq _
  | pass _ _ ih => exact ih
  | take _ copied render _ _ ihreused ih =>
    rw [kept_append, kept_append, kept_keep_eq, kept_emission, ih, List.flatMap_congr ihreused,
      ← List.filter_flatMap, ← List.filter_append, ← List.filter_append]
    rfl

theorem Renders.bounds (h : Renders edits top range cursor index rest copies out)
    (hreuse : ∀ e ∈ edits, ∀ s ∈ e.reusedRanges, s.within e.range = true)
    (hforward : ∀ e ∈ edits, e.range.start ≤ e.range.stop ∧ ∀ s ∈ e.reusedRanges, s.start ≤ s.stop)
    (hrest : rest ⊆ edits) (hcursor : cursor ≤ range.stop) (hstop : range.stop ≤ length) :
    ∀ r ∈ copies, r.start ≤ r.stop ∧ r.stop ≤ length := by
  induction h with
  | done => exact List.forall_mem_singleton.2 ⟨hcursor, hstop⟩
  | pass _ _ ih => exact ih (List.subset_of_cons_subset hrest) hcursor hstop
  | @take top range cursor e index rest _ _ hpass copied render _ _ ihreused ih =>
    obtain ⟨hstart, hend, -⟩ := passes_eq_false_iff.1 hpass
    have he : e ∈ edits := hrest List.mem_cons_self
    obtain ⟨hforth, hsegments⟩ := hforward e he
    rw [List.forall_mem_cons, List.forall_mem_append]
    refine ⟨⟨hstart, hforth.trans (hend.trans hstop)⟩, ?_, ?_⟩
    · intro r hr
      obtain ⟨s, hs, hr⟩ := List.mem_flatMap.1 hr
      have hin := (Range.within_iff.1 (hreuse e he s hs)).2
      exact ihreused s hs (List.Subset.refl _) (hsegments s hs) (hin.trans (hend.trans hstop)) r hr
    · exact ih (List.subset_of_cons_subset hrest) hend hstop

/--
For edits whose reused ranges lie inside their own, which may be equal, cross, be empty or be given
twice, rendering a text ends in one way, with the rendering that is computed to the depth of the
number of edits. Every range that is copied on the way runs forwards and lies in the text, if those
of the edits and of their segments run forwards.
-/
theorem renders_sorted_iff (edits : List Edit) (length : Nat)
    (hreuse : ∀ e ∈ edits, ∀ s ∈ e.reusedRanges, s.within e.range = true) :
    ∃ copies,
      (∀ copies' out,
        Renders (Edit.sorted edits) true ⟨0, length⟩ 0 0 (Edit.sorted edits) copies' out ↔
        copies' = copies ∧ out = whole (Edit.sorted edits) length) ∧
      (whole (Edit.sorted edits) length).kept = copies.filter (fun r => !r.isEmpty) ∧
      ((∀ e ∈ edits, e.range.start ≤ e.range.stop ∧ ∀ s ∈ e.reusedRanges, s.start ≤ s.stop) →
        ∀ r ∈ copies, r.start ≤ r.stop ∧ r.stop ≤ length) := by
  have hmem (e : Edit) (he : e ∈ Edit.sorted edits) : e ∈ edits :=
    (Edit.sorted_perm edits).subset he
  have hreuse' : ∀ e ∈ Edit.sorted edits, ∀ s ∈ e.reusedRanges, s.within e.range = true :=
    fun e he => hreuse e (hmem e he)
  obtain ⟨copies, hrenders⟩ := renders_whole (Edit.sorted_before edits) hreuse' length
  refine ⟨copies, ?_, hrenders.kept_eq, ?_⟩
  · intro copies' out
    constructor
    · exact hrenders.unique
    · rintro ⟨rfl, rfl⟩
      exact hrenders
  · intro hforward
    apply hrenders.bounds hreuse' _ (List.Subset.refl _) (Nat.zero_le _) (Nat.le_refl _)
    intro e he
    exact hforward e (hmem e he)

def tangle : List Edit :=
  [⟨⟨0, 6⟩, [.reused ⟨0, 6⟩, .fresh [44], .reused ⟨0, 6⟩]⟩, ⟨⟨0, 6⟩, []⟩,
    ⟨⟨1, 4⟩, [.reused ⟨1, 4⟩, .reused ⟨2, 3⟩]⟩, ⟨⟨3, 5⟩, [.reused ⟨4, 5⟩]⟩, ⟨⟨2, 2⟩, [.fresh [43]]⟩]

theorem renders_sorted_iff_tangle :
    (∀ e ∈ tangle, ∀ s ∈ e.reusedRanges, s.within e.range = true) ∧
    ∃ copies,
      Renders (Edit.sorted tangle) true ⟨0, 6⟩ 0 0 (Edit.sorted tangle) copies
        (whole (Edit.sorted tangle) 6) ∧
      (whole (Edit.sorted tangle) 6).applied = [0, 2, 3, 3, 2, 3, 3] ∧
      ∀ r ∈ copies, r.start ≤ r.stop ∧ r.stop ≤ 6 := by
  have hreuse : ∀ e ∈ tangle, ∀ s ∈ e.reusedRanges, s.within e.range = true := by decide
  obtain ⟨copies, hrenders, -, hbounds⟩ := renders_sorted_iff tangle 6 hreuse
  exact ⟨hreuse, copies, (hrenders _ _).2 ⟨rfl, rfl⟩, by decide, hbounds (by decide)⟩

end Uplift.Rendering
