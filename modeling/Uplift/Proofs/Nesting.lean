import Uplift.Proofs.Document

namespace Uplift

set_option autoImplicit true

def Range.Apart (r s : Range) : Prop := r.stop ≤ s.start ∨ s.stop ≤ r.start

instance (r s : Range) : Decidable (r.Apart s) := inferInstanceAs (Decidable (_ ∨ _))

theorem Range.ends_of_ne {r s : Range} (h : r ≠ s) : r.start ≠ s.start ∨ r.stop ≠ s.stop := by
  refine Decidable.not_and_iff_not_or_not.1 ?_
  intro he
  exact h (within_antisymm (within_iff.2 (by omega)) (within_iff.2 (by omega)))

theorem Range.Inside.length_lt {r s : Range} (h : r.Inside s) (hr : r.start ≤ r.stop) :
    r.length < s.length := by
  have hw := within_iff.1 h.1
  have hends := ends_of_ne h.2
  simp only [Range.length]
  omega

namespace Edit

theorem precedes_iff {e f : Edit} : e.precedes f = true ↔
    e.range.start < f.range.start ∨ e.range.start = f.range.start ∧
    f.range.stop < e.range.stop := by
  simp only [precedes, Bool.or_eq_true, Bool.and_eq_true, decide_eq_true_eq]

theorem insert_perm (e : Edit) (edits : List Edit) : (insert e edits).Perm (e :: edits) := by
  induction edits with
  | nil => exact .refl _
  | cons f rest ih =>
    rw [insert]
    split
    · exact (ih.cons f).trans (.swap e f rest)
    · exact .refl _

theorem sorted_perm (edits : List Edit) : (sorted edits).Perm edits := by
  induction edits with
  | nil => exact .refl _
  | cons e rest ih => exact (insert_perm e _).trans (ih.cons e)

/-- `e` may stand before `f`. -/
def Before (e f : Edit) : Prop := ¬f.precedes e = true

theorem Before.trans {e f g : Edit} (h : e.Before f) (h' : f.Before g) : e.Before g := by
  simp only [Before, precedes_iff] at *
  omega

theorem Before.of_precedes {e f : Edit} (h : e.precedes f = true) : e.Before f := by
  simp only [Before, precedes_iff] at *
  omega

theorem Before.precedes {e f : Edit} (h : e.Before f) (hne : e.range ≠ f.range) :
    e.precedes f = true := by
  have hends := Range.ends_of_ne hne
  simp only [Before, precedes_iff] at *
  omega

theorem insert_before (e : Edit) (h : edits.Pairwise Before) :
    (insert e edits).Pairwise Before := by
  induction edits with
  | nil => exact List.pairwise_singleton _ _
  | cons f rest ih =>
    obtain ⟨hf, hrest⟩ := List.pairwise_cons.1 h
    rw [insert]
    split
    next hfe =>
      refine .cons ?_ (ih hrest)
      intro g hg
      rcases List.mem_cons.1 ((insert_perm e rest).mem_iff.1 hg) with rfl | hg
      · exact .of_precedes hfe
      · exact hf g hg
    next hfe =>
      refine .cons ?_ h
      intro g hg
      rcases List.mem_cons.1 hg with rfl | hg
      · exact hfe
      · exact Before.trans hfe (hf g hg)

theorem sorted_before (edits : List Edit) : (sorted edits).Pairwise Before := by
  induction edits with
  | nil => exact .nil
  | cons e rest ih => exact insert_before e ih

/--
Edits of a text of `length` bytes whose ranges are nested or apart, and so are the ranges they
reuse.
-/
structure Laminar (length : Nat) (edits : List Edit) : Prop where
  bounded : ∀ e ∈ edits, e.range.start < e.range.stop ∧ e.range.stop ≤ length
  distinct : edits.Pairwise fun e f => e.range ≠ f.range
  nested : ∀ e ∈ edits, ∀ f ∈ edits,
    e.range.within f.range = true ∨ f.range.within e.range = true ∨ e.range.Apart f.range
  reuses : ∀ e ∈ edits, ∀ s ∈ e.reusedRanges, s.start < s.stop ∧ s.within e.range = true
  separate : ∀ e ∈ edits, e.reusedRanges.Pairwise Range.Apart

instance (length : Nat) (edits : List Edit) : Decidable (Laminar length edits) :=
  decidable_of_iff
    ((∀ e ∈ edits, e.range.start < e.range.stop ∧ e.range.stop ≤ length) ∧
      (edits.Pairwise fun e f => e.range ≠ f.range) ∧
      (∀ e ∈ edits, ∀ f ∈ edits,
        e.range.within f.range = true ∨ f.range.within e.range = true ∨ e.range.Apart f.range) ∧
      (∀ e ∈ edits, ∀ s ∈ e.reusedRanges, s.start < s.stop ∧ s.within e.range = true) ∧
      ∀ e ∈ edits, e.reusedRanges.Pairwise Range.Apart)
    ⟨fun ⟨hb, hd, hn, hr, hs⟩ => ⟨hb, hd, hn, hr, hs⟩, fun ⟨hb, hd, hn, hr, hs⟩ =>
      ⟨hb, hd, hn, hr, hs⟩⟩

namespace Laminar

theorem proper (h : Laminar length edits) : ∀ e ∈ edits, e.Proper :=
  fun e he => ⟨Nat.le_of_lt (h.bounded e he).1, fun s hs => (h.reuses e he s hs).2⟩

theorem perm (h : Laminar length edits) (hp : edits'.Perm edits) : Laminar length edits' where
  bounded e he := h.bounded e (hp.mem_iff.1 he)
  distinct := (hp.pairwise_iff fun hne => hne.symm).2 h.distinct
  nested e he f hf := h.nested e (hp.mem_iff.1 he) f (hp.mem_iff.1 hf)
  reuses e he := h.reuses e (hp.mem_iff.1 he)
  separate e he := h.separate e (hp.mem_iff.1 he)

theorem sorted (h : Laminar length edits) : Laminar length (Edit.sorted edits) :=
  h.perm (sorted_perm edits)

theorem sorted_precedes (h : Laminar length edits) :
    (Edit.sorted edits).Pairwise fun e f => e.precedes f = true :=
  (sorted_before edits).imp₂ (fun _ _ hb hne => hb.precedes hne) h.sorted.distinct

theorem nodup (h : Laminar length edits) : edits.Nodup :=
  h.distinct.imp fun hne he => hne (congrArg Edit.range he)

theorem comparable (h : Laminar length edits) (he : e ∈ edits) (hf : f ∈ edits) (hg : g ∈ edits)
    (hge : g.range.within e.range = true) (hgf : g.range.within f.range = true) :
    e.range.within f.range = true ∨ f.range.within e.range = true := by
  rcases h.nested e he f hf with hn | hn | hn
  · exact .inl hn
  · exact .inr hn
  · have hpos := (h.bounded g hg).1
    rw [Range.within_iff] at hge hgf
    simp only [Range.Apart] at hn
    omega

theorem eq_of_range (h : Laminar length edits) (he : e ∈ edits) (hf : f ∈ edits)
    (hr : e.range = f.range) : e = f := by
  have hd : edits.Pairwise fun e f => e.range = f.range → e = f :=
    h.distinct.imp fun hne hr => absurd hr hne
  have hflip : edits.Pairwise (flip fun e f : Edit => e.range = f.range → e = f) :=
    hd.imp fun hef hr => (hef hr.symm).symm
  exact List.Pairwise.forall_of_forall_of_flip (fun _ _ _ => rfl) hd hflip he hf hr

theorem reused_eq (h : Laminar length edits) (hf : f ∈ edits) (hs : s ∈ f.reusedRanges)
    (ht : t ∈ f.reusedRanges) (hg : g ∈ edits) (hgs : g.range.within s = true)
    (hgt : g.range.within t = true) : s = t := by
  have hpos := (h.bounded g hg).1
  have hd : f.reusedRanges.Pairwise fun s t =>
      g.range.within s = true → g.range.within t = true → s = t := by
    refine (h.separate f hf).imp ?_
    intro s t ha hgs hgt
    rw [Range.within_iff] at hgs hgt
    simp only [Range.Apart] at ha
    omega
  have hflip : f.reusedRanges.Pairwise (flip fun s t : Range =>
      g.range.within s = true → g.range.within t = true → s = t) :=
    hd.imp fun hst hgt hgs => (hst hgs hgt).symm
  exact List.Pairwise.forall_of_forall_of_flip (fun _ _ _ _ => rfl) hd hflip hs ht hgs hgt

end Laminar

def Fits (top : Bool) (r : Range) (e : Edit) : Prop :=
  e.range.within r = true ∧ (top = false → e.range ≠ r)

theorem not_inside_of_precedes {e f : Edit} (h : e.precedes f = true) :
    ¬e.range.Inside f.range := by
  intro hin
  have hw := Range.within_iff.1 hin.1
  rw [precedes_iff] at h
  omega

theorem Laminar.inside_of_precedes (h : Laminar length edits) (he : e ∈ edits) (hf : f ∈ edits)
    (hp : e.precedes f = true) (hlt : f.range.start < e.range.stop) : f.range.Inside e.range := by
  have hpos := (h.bounded f hf).1
  have hends := precedes_iff.1 hp
  refine ⟨?_, ?_⟩
  · rcases h.nested e he f hf with hn | hn | hn
    · rw [Range.within_iff] at hn ⊢
      omega
    · exact hn
    · simp only [Range.Apart] at hn
      omega
  · intro hr
    rw [hr] at hends
    omega

end Edit

namespace Rendering

open Edit

theorem passes_iff_of_fits (h : Fits top r e) :
    passes top r cursor e = true ↔ e.range.start < cursor := by
  obtain ⟨hin, hne⟩ := h
  have hstop := (Range.within_iff.1 hin).2
  rw [← Bool.not_eq_false, passes_eq_false_iff]
  constructor
  · intro h
    exact Nat.lt_of_not_ge fun hle => h ⟨hle, hstop, hne⟩
  · intro hlt h
    exact Nat.not_le_of_gt hlt h.1

theorem fits_of_picked (hc : r.start ≤ cursor) (h : passes top r cursor e = false) :
    Fits top r e := by
  obtain ⟨hstart, hstop, hne⟩ := passes_eq_false_iff.1 h
  exact ⟨Range.within_iff.2 ⟨Nat.le_trans hc hstart, hstop⟩, hne⟩

/-- The cursor of a sweep has passed the start of an edit exactly if an edit before it holds it. -/
def Swept (top : Bool) (r : Range) (before : List Edit) (cursor : Nat) (rest : List Edit) : Prop :=
  r.start ≤ cursor ∧ ∀ e ∈ rest, Fits top r e →
    (e.range.start < cursor ↔ ∃ f ∈ before, Fits top r f ∧ e.range.Inside f.range)

theorem Swept.start (top : Bool) (r : Range) (edits : List Edit) :
    Swept top r [] r.start edits := by
  refine ⟨Nat.le_refl _, ?_⟩
  intro e _ he
  constructor
  · intro hlt
    exact absurd (Range.within_iff.1 he.1).1 (Nat.not_le_of_gt hlt)
  · rintro ⟨f, hf, _⟩
    cases hf

theorem Swept.exists_inside (h : Swept top r before cursor (e :: rest))
    (hpass : passes top r cursor e = true) (hfit : Fits top r e) :
    ∃ f ∈ before, Fits top r f ∧ e.range.Inside f.range :=
  (h.2 e (.head _) hfit).1 ((passes_iff_of_fits hfit).1 hpass)

theorem Swept.not_inside (h : Swept top r before cursor (e :: rest))
    (hafter : ∀ f ∈ rest, e.precedes f = true) (hpass : passes top r cursor e = false)
    (hf : f ∈ before ++ e :: rest) (hffits : Fits top r f) : ¬e.range.Inside f.range := by
  intro hin
  rcases List.mem_append.1 hf with hf | hf
  · have hlt := (h.2 e (.head _) (fits_of_picked h.1 hpass)).2 ⟨f, hf, hffits, hin⟩
    exact absurd (passes_eq_false_iff.1 hpass).1 (Nat.not_le_of_gt hlt)
  · rcases List.mem_cons.1 hf with rfl | hf
    · exact hin.2 rfl
    · exact not_inside_of_precedes (hafter f hf) hin

theorem not_mem_of_precedes {e : Edit} {rest : List Edit}
    (hafter : ∀ f ∈ rest, e.precedes f = true) : e ∉ rest := by
  intro he
  have hp := precedes_iff.1 (hafter e he)
  omega

theorem Swept.passed (h : Swept top r before cursor (g :: rest))
    (hpass : passes top r cursor g = true) : Swept top r (before ++ [g]) cursor rest := by
  refine ⟨h.1, ?_⟩
  intro e he hfit
  rw [h.2 e (.tail _ he) hfit]
  constructor
  · rintro ⟨f, hf, hin⟩
    exact ⟨f, List.mem_append_left _ hf, hin⟩
  · rintro ⟨f, hf, hfits, hin⟩
    rcases List.mem_append.1 hf with hf | hf
    · exact ⟨f, hf, hfits, hin⟩
    · -- What holds the edit that is passed over holds all that lies inside it.
      cases List.mem_singleton.1 hf
      obtain ⟨k, hk, hkfits, hgk⟩ := h.exists_inside hpass hfits
      exact ⟨k, hk, hkfits, .of_within hin.1 hgk⟩

theorem Swept.picked (h : Swept top r before cursor (g :: rest))
    (hl : Laminar length (before ++ g :: rest))
    (hs : (before ++ g :: rest).Pairwise fun e f => e.precedes f = true)
    (hpass : passes top r cursor g = false) : Swept top r (before ++ [g]) g.range.stop rest := by
  have hg : g ∈ before ++ g :: rest := List.mem_append_right _ (.head _)
  have hfits := fits_of_picked h.1 hpass
  have hcursor := (passes_eq_false_iff.1 hpass).1
  have hpos := (hl.bounded g hg).1
  refine ⟨by have hc := h.1; omega, ?_⟩
  intro e he hfit
  have hmem : e ∈ before ++ g :: rest := List.mem_append_right _ (.tail _ he)
  constructor
  · intro hlt
    have hp := (List.pairwise_cons.1 (List.pairwise_append.1 hs).2.1).1 e he
    exact ⟨g, List.mem_append_right _ (.head _), hfits, hl.inside_of_precedes hg hmem hp hlt⟩
  · rintro ⟨f, hf, hffits, hin⟩
    rcases List.mem_append.1 hf with hf | hf
    · have hlt := (h.2 e (.tail _ he) hfit).2 ⟨f, hf, hffits, hin⟩
      omega
    · cases List.mem_singleton.1 hf
      have hepos := (hl.bounded e hmem).1
      have hstop := (Range.within_iff.1 hin.1).2
      omega

theorem Swept.mem_picked (h : Swept top r before cursor rest) (hl : Laminar length (before ++ rest))
    (hs : (before ++ rest).Pairwise fun e f => e.precedes f = true) (he : e ∈ rest) :
    e ∈ Rendering.picked top r cursor rest ↔
      Fits top r e ∧ ∀ f ∈ before ++ rest, Fits top r f → ¬e.range.Inside f.range := by
  induction rest generalizing before cursor with
  | nil => cases he
  | cons g rest ih =>
    have hsplit : before ++ g :: rest = before ++ [g] ++ rest := by
      rw [List.append_assoc, List.singleton_append]
    have hafter := (List.pairwise_cons.1 (List.pairwise_append.1 hs).2.1).1
    cases hpass : passes top r cursor g with
    | true =>
      rw [picked_passed hpass]
      rcases List.mem_cons.1 he with rfl | he
      · refine iff_of_false ?_ ?_
        · intro hmem
          exact not_mem_of_precedes hafter ((picked_sublist _ _ _ _).subset hmem)
        · rintro ⟨hfit, hout⟩
          obtain ⟨f, hf, hffits, hin⟩ := h.exists_inside hpass hfit
          exact hout f (List.mem_append_left _ hf) hffits hin
      · rw [hsplit] at hl hs ⊢
        exact ih (h.passed hpass) hl hs he
    | false =>
      rw [picked_picked hpass, List.mem_cons]
      rcases List.mem_cons.1 he with rfl | hrest
      · refine iff_of_true (.inl rfl) ⟨fits_of_picked h.1 hpass, ?_⟩
        intro f hf hffits
        exact h.not_inside hafter hpass hf hffits
      · have hne : e ≠ g := by
          rintro rfl
          exact not_mem_of_precedes hafter hrest
        have hswept := h.picked hl hs hpass
        rw [hsplit] at hl hs ⊢
        rw [or_iff_right hne]
        exact ih hswept hl hs hrest

variable {edits : List Edit} (h : Laminar length edits)
  (hs : edits.Pairwise fun e f => e.precedes f = true)

include h hs

/-- A sweep takes up the outermost of the edits that fit its range. -/
theorem mem_picked_iff (he : e ∈ edits) : e ∈ picked top r r.start edits ↔
    Fits top r e ∧ ∀ f ∈ edits, Fits top r f → ¬e.range.Inside f.range :=
  (Swept.start top r edits).mem_picked h hs he

theorem picked_eq (hf : f ∈ picked top r r.start edits) (hg : g ∈ picked top r r.start edits)
    (he : e ∈ edits) (hef : e.range.within f.range = true) (heg : e.range.within g.range = true) :
    f = g := by
  have hfm := (picked_sublist _ _ _ _).subset hf
  have hgm := (picked_sublist _ _ _ _).subset hg
  obtain ⟨hffits, hfout⟩ := (mem_picked_iff h hs hfm).1 hf
  obtain ⟨hgfits, hgout⟩ := (mem_picked_iff h hs hgm).1 hg
  apply h.eq_of_range hfm hgm
  apply Decidable.byContradiction
  intro hne
  rcases h.comparable hfm hgm he hef heg with hfg | hgf
  · exact hfout g hgm hgfits ⟨hfg, hne⟩
  · exact hgout f hfm hffits ⟨hgf, fun heq => hne heq.symm⟩

theorem exists_picked (he : e ∈ edits) (hfit : Fits top r e) :
    ∃ f ∈ picked top r r.start edits, e.range.within f.range = true := by
  -- The edits that fit around `e` grow towards `r`, so one of them is outermost.
  induction hn : r.length - e.range.length using Nat.strongRecOn generalizing e with
  | ind n ih =>
    by_cases hout : ∀ f ∈ edits, Fits top r f → ¬e.range.Inside f.range
    · refine ⟨e, (mem_picked_iff h hs he).2 ⟨hfit, hout⟩, ?_⟩
      exact Range.within_iff.2 ⟨Nat.le_refl _, Nat.le_refl _⟩
    · simp only [Classical.not_forall, Decidable.not_not] at hout
      obtain ⟨f, hf, hffits, hin⟩ := hout
      have hlt := hin.length_lt (Nat.le_of_lt (h.bounded e he).1)
      have hle : f.range.length ≤ r.length := by
        have hw := Range.within_iff.1 hffits.1
        simp only [Range.length]
        omega
      obtain ⟨g, hg, hfg⟩ := ih _ (by omega) hf hffits rfl
      exact ⟨g, hg, Range.within_trans hin.1 hfg⟩

omit hs in
theorem fits_of_mem_written (hw : e ∈ written edits top r) : e ∈ edits ∧ Fits top r e := by
  induction top, r using reuse_induction h.proper with
  | step top r ih =>
    obtain ⟨f, hf, he⟩ := (mem_written h.proper).1 hw
    have hfm := (picked_sublist _ _ _ _).subset hf
    have hfit := within_of_mem_picked h.proper hf
    rcases he with rfl | ⟨s, hsf, he⟩
    · exact ⟨hfm, hfit⟩
    · obtain ⟨hem, hin, hne⟩ := ih f hf s hsf he
      have hsr := Range.within_trans (h.reuses f hfm s hsf).2 hfit.1
      have hinside := Range.Inside.trans_within ⟨hin, hne rfl⟩ hsr
      exact ⟨hem, hinside.1, fun _ => hinside.2⟩

omit hs in
theorem inside_of_mem_written (hw : e ∈ written edits false s) : e.range.Inside s := by
  obtain ⟨_, hin, hne⟩ := fits_of_mem_written h hw
  exact ⟨hin, hne rfl⟩

/--
Of two edits that take effect one inside the other, the inner lies strictly inside a range that the
outer reuses.
-/
theorem written_nests (he : e ∈ written edits top r) (hf : f ∈ written edits top r)
    (hin : e.range.Inside f.range) : ∃ s ∈ f.reusedRanges, e.range.Inside s := by
  induction top, r using reuse_induction h.proper with
  | step top r ih =>
    have hem := (fits_of_mem_written h he).1
    obtain ⟨hfm, hffits⟩ := fits_of_mem_written h hf
    obtain ⟨g, hg, heg⟩ := (mem_written h.proper).1 he
    obtain ⟨k, hk, hfk⟩ := (mem_written h.proper).1 hf
    have hgm := (picked_sublist _ _ _ _).subset hg
    have hkm := (picked_sublist _ _ _ _).subset hk
    rcases heg with rfl | ⟨s, hsg, hes⟩
    · exact absurd hin (((mem_picked_iff h hs hgm).1 hg).2 f hfm hffits)
    · have hinside := inside_of_mem_written h hes
      have hege := Range.within_trans hinside.1 (h.reuses g hgm s hsg).2
      rcases hfk with rfl | ⟨t, htk, hft⟩
      · cases picked_eq h hs hg hk hem hege hin.1
        exact ⟨s, hsg, hinside⟩
      · have het := Range.within_trans hin.1 (inside_of_mem_written h hft).1
        have hek := Range.within_trans het (h.reuses k hkm t htk).2
        cases picked_eq h hs hg hk hem hege hek
        cases h.reused_eq hgm hsg htk hem hinside.1 het
        exact ih g hg s hsg hes hft

/--
An edit that fits and lies strictly inside a reused range of every edit around it that takes effect
takes effect.
-/
theorem mem_written_of_nests (he : e ∈ edits) (hfit : Fits top r e)
    (hn : ∀ f ∈ written edits top r, e.range.Inside f.range →
      ∃ s ∈ f.reusedRanges, e.range.Inside s) :
    e ∈ written edits top r := by
  induction top, r using reuse_induction h.proper with
  | step top r ih =>
    obtain ⟨f, hf, hef⟩ := exists_picked h hs he hfit
    have hfm := (picked_sublist _ _ _ _).subset hf
    rw [mem_written h.proper]
    refine ⟨f, hf, ?_⟩
    by_cases heq : e.range = f.range
    · exact .inl (h.eq_of_range he hfm heq)
    · have hfw : f ∈ written edits top r := (mem_written h.proper).2 ⟨f, hf, .inl rfl⟩
      obtain ⟨s, hsf, hes⟩ := hn f hfw ⟨hef, heq⟩
      refine .inr ⟨s, hsf, ih f hf s hsf ⟨hes.1, fun _ => hes.2⟩ ?_⟩
      intro k hk
      exact hn k ((mem_written h.proper).2 ⟨f, hf, .inr ⟨s, hsf, hk⟩⟩)

omit hs in
theorem ne_of_apart (hx : x ∈ edits) (hxr : x.range.within r = true) (hys : y.range.within s = true)
    (ha : r.Apart s) : x ≠ y := by
  rintro rfl
  have hpos := (h.bounded x hx).1
  rw [Range.within_iff] at hxr hys
  simp only [Range.Apart] at ha
  omega

omit hs in
theorem written_nodup (top : Bool) (r : Range) : (written edits top r).Nodup := by
  induction top, r using reuse_induction h.proper with
  | step top r ih =>
    have hwithin {e x : Edit} (he : e ∈ edits)
        (hx : x ∈ e :: e.reusedRanges.flatMap (written edits false)) :
        x ∈ edits ∧ x.range.within e.range = true := by
      rcases List.mem_cons.1 hx with rfl | hx
      · exact ⟨he, Range.within_iff.2 ⟨Nat.le_refl _, Nat.le_refl _⟩⟩
      · obtain ⟨s, hsx, hx⟩ := List.mem_flatMap.1 hx
        obtain ⟨hxm, hin, _⟩ := fits_of_mem_written h hx
        exact ⟨hxm, Range.within_trans hin (h.reuses e he s hsx).2⟩
    rw [written_eq h.proper, List.Nodup, List.pairwise_flatMap]
    refine ⟨?_, ?_⟩
    · intro e he
      have hem := (picked_sublist _ _ _ _).subset he
      refine .cons ?_ (List.pairwise_flatMap.2 ⟨fun s hse => ih e he s hse, ?_⟩)
      · rintro x hx rfl
        obtain ⟨s, hsx, hx⟩ := List.mem_flatMap.1 hx
        exact (inside_of_mem_written h hx).not_within (h.reuses e hem s hsx).2
      · refine (h.separate e hem).imp ?_
        intro s t ha x hx y hy
        obtain ⟨hxm, hxs, _⟩ := fits_of_mem_written h hx
        exact ne_of_apart h hxm hxs (fits_of_mem_written h hy).2.1 ha
    · refine (picked_pairwise h.proper top r r.start).imp_of_mem ?_
      intro e f he hf hle x hx y hy
      obtain ⟨hxm, hxe⟩ := hwithin ((picked_sublist _ _ _ _).subset he) hx
      exact ne_of_apart h hxm hxe (hwithin ((picked_sublist _ _ _ _).subset hf) hy).2 (.inl hle)

end Rendering

namespace Document

open Edit Rendering

theorem mem_cuts {d : Document} (h : i ∈ d.cuts edits) :
    i = 0 ∨ i = d.text.length ∨ ∃ e ∈ edits, i ∈ e.ends := by
  rw [cuts] at h
  split at h
  · cases h
  · rcases mem_cuts_whole h with hi | hi | ⟨e, he, hi⟩
    · exact .inl hi
    · exact .inr (.inl hi)
    · exact .inr (.inr ⟨e, (sorted_perm edits).mem_iff.1 he, hi⟩)

/-- Edits cut no character if neither they nor the ranges they reuse end inside one. -/
theorem cutsCleanly_of_ends {d : Document} (h : ∀ e ∈ edits, d.text.cutsCleanly e.ends = true) :
    d.text.cutsCleanly (d.cuts edits) = true := by
  refine List.all_eq_true.2 fun i hi => ?_
  rcases mem_cuts hi with rfl | rfl | ⟨e, he, hi⟩
  · rfl
  · simp only [Text.isBoundary, decide_true, Bool.or_true, Bool.true_or]
  · exact List.all_eq_true.1 (h e he) i hi

theorem emitted_eq_written {d : Document} (h : Laminar d.text.length edits) :
    d.emitted edits = written (sorted edits) true ⟨0, d.text.length⟩ := by
  rw [emitted, whole_eq_sweep h.sorted.proper, written]

theorem emitted_nodup {d : Document} (h : Laminar d.text.length edits) :
    (d.emitted edits).Nodup := by
  rw [emitted_eq_written h]
  exact written_nodup h.sorted true _

theorem mem_of_mem_emitted {d : Document} (h : Laminar d.text.length edits)
    (he : e ∈ d.emitted edits) : e ∈ edits := by
  rw [emitted_eq_written h] at he
  exact (sorted_perm edits).mem_iff.1 (fits_of_mem_written h.sorted he).1

theorem mem_emitted_iff_nests {d : Document} (h : Laminar d.text.length edits) (he : e ∈ edits) :
    e ∈ d.emitted edits ↔ ∀ f ∈ d.emitted edits, e.range.Inside f.range →
      ∃ s ∈ f.reusedRanges, e.range.Inside s := by
  rw [emitted_eq_written h]
  constructor
  · intro hew f hf hin
    exact written_nests h.sorted h.sorted_precedes hew hf hin
  · intro hn
    have hfits : Fits true ⟨0, d.text.length⟩ e :=
      ⟨Range.within_iff.2 ⟨Nat.zero_le _, (h.bounded e he).2⟩, fun htop => nomatch htop⟩
    exact mem_written_of_nests h.sorted h.sorted_precedes
      ((sorted_perm edits).mem_iff.2 he) hfits hn

end Document

end Uplift
