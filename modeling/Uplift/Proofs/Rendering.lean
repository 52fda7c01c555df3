import Uplift.Document

namespace Uplift

set_option autoImplicit true

/-- The ends of `r` lie between those of `s`, and the two differ. -/
def Range.Inside (r s : Range) : Prop := r.within s = true ∧ r ≠ s

instance (r s : Range) : Decidable (r.Inside s) := inferInstanceAs (Decidable (_ ∧ _))

theorem Range.within_iff {r s : Range} :
    r.within s = true ↔ s.start ≤ r.start ∧ r.stop ≤ s.stop := by
  simp only [within, Bool.and_eq_true, decide_eq_true_eq]

theorem Range.within_trans {r s t : Range} (h : r.within s = true) (h' : s.within t = true) :
    r.within t = true := by
  rw [within_iff] at *
  omega

theorem Range.within_antisymm {r s : Range} (h : r.within s = true) (h' : s.within r = true) :
    r = s := by
  cases r
  cases s
  rw [within_iff] at h h'
  simp only [Range.mk.injEq] at *
  omega

theorem Range.Inside.trans_within {r s t : Range} (h : r.Inside s) (h' : s.within t = true) :
    r.Inside t := by
  refine ⟨within_trans h.1 h', ?_⟩
  rintro rfl
  exact h.2 (within_antisymm h.1 h')

theorem Range.Inside.of_within {r s t : Range} (h : r.within s = true) (h' : s.Inside t) :
    r.Inside t := by
  refine ⟨within_trans h h'.1, ?_⟩
  rintro rfl
  exact h'.2 (within_antisymm h'.1 h)

theorem Range.Inside.not_within {r s : Range} (h : r.Inside s) : ¬s.within r = true :=
  fun h' => h.2 (within_antisymm h.1 h')

def Segment.reused? : Segment → Option Range
  | .fresh _ => none
  | .reused r => some r

namespace Edit

def reusedRanges (e : Edit) : List Range := e.segments.filterMap Segment.reused?

theorem mem_reusedRanges {e : Edit} {s : Range} :
    s ∈ e.reusedRanges ↔ Segment.reused s ∈ e.segments := by
  rw [reusedRanges, List.mem_filterMap]
  constructor
  · rintro ⟨segment, hmem, he⟩
    cases segment with
    | fresh t => cases he
    | reused r =>
      cases he
      exact hmem
  · intro hmem
    exact ⟨_, hmem, rfl⟩

/-- The ends of the range of an edit and of the ranges that it reuses. -/
def ends (e : Edit) : List Nat :=
  e.range.start :: e.range.stop :: e.reusedRanges.flatMap fun s => [s.start, s.stop]

theorem start_mem_ends {e : Edit} {s : Range} (h : s ∈ e.reusedRanges) : s.start ∈ e.ends :=
  .tail _ (.tail _ (List.mem_flatMap.2 ⟨s, h, .head _⟩))

theorem stop_mem_ends {e : Edit} {s : Range} (h : s ∈ e.reusedRanges) : s.stop ∈ e.ends :=
  .tail _ (.tail _ (List.mem_flatMap.2 ⟨s, h, .tail _ (.head _)⟩))

/-- An edit whose range runs forwards and whose reused ranges lie in it. -/
structure Proper (e : Edit) : Prop where
  forward : e.range.start ≤ e.range.stop
  reuses : ∀ s ∈ e.reusedRanges, s.within e.range = true

instance (e : Edit) : Decidable e.Proper :=
  decidable_of_iff (e.range.start ≤ e.range.stop ∧ ∀ s ∈ e.reusedRanges, s.within e.range = true)
    ⟨fun ⟨hf, hr⟩ => ⟨hf, hr⟩, fun ⟨hf, hr⟩ => ⟨hf, hr⟩⟩

end Edit

namespace Rendering

def passes (top : Bool) (range : Range) (cursor : Nat) (e : Edit) : Bool :=
  e.range.start < cursor || range.stop < e.range.stop || (!top && e.range = range)

theorem passes_eq_false_iff : passes top range cursor e = false ↔
    cursor ≤ e.range.start ∧ e.range.stop ≤ range.stop ∧ (top = false → e.range ≠ range) := by
  cases top <;> simp [passes, and_assoc]

/-- The edits that a sweep takes up itself, not inside a reused range. -/
def picked (top : Bool) (range : Range) (cursor : Nat) : List Edit → List Edit
  | [] => []
  | e :: rest =>
    if passes top range cursor e then picked top range cursor rest
    else e :: picked top range e.range.stop rest

theorem sweep_passed (h : passes top range cursor e = true) :
    sweep render top range cursor index (e :: rest) =
      sweep render top range cursor (index + 1) rest :=
  if_pos h

theorem sweep_picked (h : passes top range cursor e = false) :
    sweep render top range cursor index (e :: rest) =
      append (keep ⟨cursor, e.range.start⟩) (append ⟨[], [index]⟩
        (append (segments render index e.segments)
          (sweep render top range e.range.stop (index + 1) rest))) :=
  if_neg (ne_true_of_eq_false h)

theorem picked_passed (h : passes top range cursor e = true) :
    picked top range cursor (e :: rest) = picked top range cursor rest :=
  if_pos h

theorem picked_picked (h : passes top range cursor e = false) :
    picked top range cursor (e :: rest) = e :: picked top range e.range.stop rest :=
  if_neg (ne_true_of_eq_false h)

theorem picked_sublist (top : Bool) (range : Range) (cursor : Nat) (edits : List Edit) :
    (picked top range cursor edits).Sublist edits := by
  induction edits generalizing cursor with
  | nil => exact .slnil
  | cons e rest ih =>
    cases h : passes top range cursor e with
    | true =>
      rw [picked_passed h]
      exact (ih cursor).cons e
    | false =>
      rw [picked_picked h]
      exact (ih _).cons_cons e

theorem bounds_of_mem_picked (hp : ∀ e ∈ edits, e.Proper)
    (h : f ∈ picked top range cursor edits) :
    cursor ≤ f.range.start ∧ f.range.stop ≤ range.stop ∧ (top = false → f.range ≠ range) := by
  induction edits generalizing cursor with
  | nil => cases h
  | cons e rest ih =>
    have hrest : ∀ e ∈ rest, e.Proper := fun g hg => hp g (.tail _ hg)
    cases hs : passes top range cursor e with
    | true =>
      rw [picked_passed hs] at h
      exact ih hrest h
    | false =>
      rw [picked_picked hs] at h
      have hbounds := passes_eq_false_iff.1 hs
      rcases List.mem_cons.1 h with rfl | h
      · exact hbounds
      · obtain ⟨hstart, hstop, hne⟩ := ih hrest h
        have hforward := (hp e (.head _)).forward
        exact ⟨by omega, hstop, hne⟩

theorem within_of_mem_picked (hp : ∀ e ∈ edits, e.Proper)
    (h : f ∈ picked top range range.start edits) :
    f.range.within range = true ∧ (top = false → f.range ≠ range) := by
  obtain ⟨hstart, hstop, hne⟩ := bounds_of_mem_picked hp h
  exact ⟨Range.within_iff.2 ⟨hstart, hstop⟩, hne⟩

theorem picked_pairwise (hp : ∀ e ∈ edits, e.Proper) (top : Bool) (range : Range) (cursor : Nat) :
    (picked top range cursor edits).Pairwise fun e f => e.range.stop ≤ f.range.start := by
  induction edits generalizing cursor with
  | nil => exact .nil
  | cons e rest ih =>
    have hrest : ∀ e ∈ rest, e.Proper := fun g hg => hp g (.tail _ hg)
    cases hs : passes top range cursor e with
    | true =>
      rw [picked_passed hs]
      exact ih hrest cursor
    | false =>
      rw [picked_picked hs]
      exact .cons (fun f hf => (bounds_of_mem_picked hrest hf).1) (ih hrest _)

theorem segments_congr (h : ∀ s ∈ segs.filterMap Segment.reused?, render s = render' s) :
    segments render index segs = segments render' index segs := by
  induction segs with
  | nil => rfl
  | cons segment segs ih =>
    cases segment with
    | fresh t =>
      rw [segments, segments, ih h]
    | reused r =>
      rw [segments, segments, h r (.head _), ih fun s hs => h s (.tail _ hs)]

/-- A sweep depends on how ranges are rendered only at those that the edits it takes up reuse. -/
theorem sweep_congr
    (h : ∀ e ∈ picked top range cursor edits, ∀ s ∈ e.reusedRanges, render s = render' s) :
    sweep render top range cursor index edits = sweep render' top range cursor index edits := by
  induction edits generalizing cursor index with
  | nil => rfl
  | cons e rest ih =>
    cases hs : passes top range cursor e with
    | true =>
      rw [picked_passed hs] at h
      rw [sweep_passed hs, sweep_passed hs, ih h]
    | false =>
      rw [picked_picked hs] at h
      rw [sweep_picked hs, sweep_picked hs, segments_congr (h e (.head _)),
        ih fun f hf => h f (.tail _ hf)]

def inner (edits : List Edit) (r : Range) : Nat := edits.countP fun e => e.range.Inside r

theorem inner_le_length (edits : List Edit) (r : Range) : inner edits r ≤ edits.length :=
  List.countP_le_length

theorem inner_mono (h : r.within s = true) : inner edits r ≤ inner edits s := by
  apply List.countP_mono_left
  intro e he hr
  exact decide_eq_true ((of_decide_eq_true hr).trans_within h)

theorem inner_lt (he : e ∈ edits) (hr : r.within e.range = true) (hs : e.range.Inside s) :
    inner edits r < inner edits s := by
  obtain ⟨before, after, rfl⟩ := List.append_of_mem he
  have hnot : ¬e.range.Inside r := fun h => h.not_within hr
  have hmono (l : List Edit) : inner l r ≤ inner l s := inner_mono (Range.within_trans hr hs.1)
  simp only [inner, List.countP_append, List.countP_cons, hs, hnot, decide_true, decide_false,
    Bool.false_eq_true, ↓reduceIte] at hmono ⊢
  have hbefore := hmono before
  have hafter := hmono after
  omega

/-- A range is rendered the same to every depth beyond the number of edits inside it. -/
theorem reused_stable (hp : ∀ e ∈ edits, e.Proper) (hd : inner edits r < depth)
    (hd' : inner edits r < depth') : reused edits depth r = reused edits depth' r := by
  induction depth generalizing depth' r with
  | zero => exact absurd hd (Nat.not_lt_zero _)
  | succ depth ih =>
    cases depth' with
    | zero => exact absurd hd' (Nat.not_lt_zero _)
    | succ depth' =>
      rw [reused, reused]
      apply sweep_congr
      intro e he s hs
      obtain ⟨hin, hne⟩ := within_of_mem_picked hp he
      have hmem := (picked_sublist _ _ _ _).subset he
      have hlt := inner_lt hmem ((hp e hmem).reuses s hs) ⟨hin, hne rfl⟩
      exact ih (by omega) (by omega)

def full (edits : List Edit) (r : Range) : Rendering := reused edits (edits.length + 1) r

theorem full_eq_sweep (hp : ∀ e ∈ edits, e.Proper) (r : Range) :
    full edits r = sweep (full edits) false r r.start 0 edits := by
  have hlt : inner edits r < edits.length + 2 := by
    have hle := inner_le_length edits r
    omega
  calc full edits r
      = reused edits (edits.length + 2) r :=
        reused_stable hp (Nat.lt_succ_of_le (inner_le_length edits r)) hlt
    _ = sweep (full edits) false r r.start 0 edits := rfl

theorem inner_lt_length (hp : ∀ e ∈ edits, e.Proper) (he : e ∈ edits) (hs : s ∈ e.reusedRanges) :
    inner edits s < edits.length := by
  refine Nat.lt_of_le_of_ne (inner_le_length edits s) ?_
  intro hall
  have hin : e.range.Inside s := of_decide_eq_true (List.countP_eq_length.1 hall e he)
  exact hin.not_within ((hp e he).reuses s hs)

theorem reused_eq_full (hp : ∀ e ∈ edits, e.Proper) (he : e ∈ edits) (hs : s ∈ e.reusedRanges) :
    reused edits edits.length s = full edits s := by
  have hlt := inner_lt_length hp he hs
  exact reused_stable hp hlt (Nat.lt_succ_of_lt hlt)

theorem whole_eq_sweep (hp : ∀ e ∈ edits, e.Proper) (length : Nat) :
    whole edits length = sweep (full edits) true ⟨0, length⟩ 0 0 edits := by
  apply sweep_congr
  intro e he s hs
  exact reused_eq_full hp ((picked_sublist _ _ _ _).subset he) hs

/--
The edits that take effect in a rendering, in the order in which their replacements are written.
-/
def emitted (edits : List Edit) (r : Rendering) : List Edit := r.applied.filterMap (edits[·]?)

theorem emitted_append (edits : List Edit) (a b : Rendering) :
    emitted edits (append a b) = emitted edits a ++ emitted edits b :=
  List.filterMap_append

theorem emitted_keep (edits : List Edit) (r : Range) : emitted edits (keep r) = [] := rfl

theorem applied_segments (render : Range → Rendering) (index : Nat) (segs : List Segment) :
    (segments render index segs).applied =
      (segs.filterMap Segment.reused?).flatMap fun s => (render s).applied := by
  induction segs with
  | nil => rfl
  | cons segment segs ih =>
    cases segment with
    | fresh t => exact ih
    | reused r => exact congrArg ((render r).applied ++ ·) ih

theorem emitted_segments (edits : List Edit) (render : Range → Rendering) (index : Nat)
    (segs : List Segment) : emitted edits (segments render index segs) =
      (segs.filterMap Segment.reused?).flatMap fun s => emitted edits (render s) := by
  simp only [emitted, applied_segments, List.filterMap_flatMap]

theorem place_of_drop {edits : List Edit} (hd : edits.drop index = e :: rest) :
    edits[index]? = some e ∧ edits.drop (index + 1) = rest := by
  constructor
  · rw [← Nat.add_zero index, ← List.getElem?_drop, hd, List.getElem?_cons_zero]
  · rw [← List.tail_drop, hd, List.tail_cons]

theorem emitted_sweep (hd : edits.drop index = rest) :
    emitted edits (sweep render top range cursor index rest) =
      (picked top range cursor rest).flatMap fun e =>
        e :: e.reusedRanges.flatMap fun s => emitted edits (render s) := by
  induction rest generalizing cursor index with
  | nil => rfl
  | cons e rest ih =>
    obtain ⟨hget, hnext⟩ := place_of_drop hd
    cases hs : passes top range cursor e with
    | true => rw [sweep_passed hs, picked_passed hs, ih hnext]
    | false =>
      have hplace : emitted edits ⟨[], [index]⟩ = [e] := by
        rw [emitted, List.filterMap_cons_some hget, List.filterMap_nil]
      rw [sweep_picked hs, picked_picked hs, emitted_append, emitted_append, emitted_append,
        emitted_keep, hplace, emitted_segments, ih hnext, List.flatMap_cons]
      rfl

def written (edits : List Edit) (top : Bool) (r : Range) : List Edit :=
  emitted edits (sweep (full edits) top r r.start 0 edits)

theorem written_eq (hp : ∀ e ∈ edits, e.Proper) (top : Bool) (r : Range) :
    written edits top r = (picked top r r.start edits).flatMap fun e =>
      e :: e.reusedRanges.flatMap (written edits false) := by
  have hfull : (fun s => emitted edits (full edits s)) = written edits false := by
    funext s
    rw [full_eq_sweep hp, written]
  rw [written, emitted_sweep List.drop_zero, hfull]

theorem mem_written (hp : ∀ e ∈ edits, e.Proper) : e ∈ written edits top r ↔
    ∃ f ∈ picked top r r.start edits, e = f ∨ ∃ s ∈ f.reusedRanges, e ∈ written edits false s := by
  rw [written_eq hp, List.mem_flatMap]
  simp only [List.mem_cons, List.mem_flatMap]

/-- What holds of a range as soon as it holds of the ranges reused in it holds of every range. -/
theorem reuse_induction (hp : ∀ e ∈ edits, e.Proper) {P : Bool → Range → Prop}
    (step : ∀ top r, (∀ e ∈ picked top r r.start edits, ∀ s ∈ e.reusedRanges, P false s) → P top r)
    (top : Bool) (r : Range) : P top r := by
  have hinner : ∀ n r, inner edits r < n → P false r := by
    intro n
    induction n with
    | zero => exact fun r hr => absurd hr (Nat.not_lt_zero _)
    | succ n ih =>
      intro r hr
      apply step
      intro e he s hs
      obtain ⟨hin, hne⟩ := within_of_mem_picked hp he
      have hmem := (picked_sublist _ _ _ _).subset he
      have hlt := inner_lt hmem ((hp e hmem).reuses s hs) ⟨hin, hne rfl⟩
      exact ih s (by omega)
  apply step
  intro e he s hs
  exact hinner _ s (Nat.lt_succ_self _)

theorem append_assoc (a b c : Rendering) : append (append a b) c = append a (append b c) := by
  simp only [append, List.append_assoc]

def emission (render : Range → Rendering) (index : Nat) (e : Edit) : Rendering :=
  append ⟨[], [index]⟩ (segments render index e.segments)

theorem sweep_emission (h : passes top range cursor e = false) :
    sweep render top range cursor index (e :: rest) =
      append (keep ⟨cursor, e.range.start⟩) (append (emission render index e)
        (sweep render top range e.range.stop (index + 1) rest)) := by
  rw [sweep_picked h, emission, append_assoc]

theorem mem_cuts_append : i ∈ (append a b).cuts ↔ i ∈ a.cuts ∨ i ∈ b.cuts := by
  rw [cuts, append, List.flatMap_append, List.mem_append]
  rfl

theorem mem_cuts_keep (h : i ∈ (keep r).cuts) : i = r.start ∨ i = r.stop := by
  rw [keep] at h
  split at h
  · cases h
  · simpa only [cuts, List.flatMap_singleton, List.mem_cons, List.not_mem_nil, or_false] using h

theorem mem_cuts_segments (h : i ∈ (segments render index segs).cuts) :
    ∃ s ∈ segs.filterMap Segment.reused?, i ∈ (render s).cuts := by
  induction segs with
  | nil => cases h
  | cons segment segs ih =>
    cases segment with
    | fresh t => exact ih h
    | reused r =>
      rcases mem_cuts_append.1 h with h | h
      · exact ⟨r, .head _, h⟩
      · obtain ⟨s, hs, hi⟩ := ih h
        exact ⟨s, .tail _ hs, hi⟩

theorem mem_cuts_sweep (h : i ∈ (sweep render top range cursor index edits).cuts) :
    i = cursor ∨ i = range.stop ∨ ∃ e ∈ edits, i ∈ e.ends ∨
      ∃ s ∈ e.reusedRanges, i ∈ (render s).cuts := by
  induction edits generalizing cursor index with
  | nil => exact (mem_cuts_keep h).imp_right .inl
  | cons e rest ih =>
    cases hs : passes top range cursor e with
    | true =>
      rw [sweep_passed hs] at h
      rcases ih h with hi | hi | ⟨f, hf, hi⟩
      · exact .inl hi
      · exact .inr (.inl hi)
      · exact .inr (.inr ⟨f, .tail _ hf, hi⟩)
    | false =>
      rw [sweep_picked hs] at h
      rcases mem_cuts_append.1 h with h | h
      · rcases mem_cuts_keep h with rfl | rfl
        · exact .inl rfl
        · exact .inr (.inr ⟨e, .head _, .inl (.head _)⟩)
      rcases mem_cuts_append.1 h with h | h
      · cases h
      rcases mem_cuts_append.1 h with h | h
      · exact .inr (.inr ⟨e, .head _, .inr (mem_cuts_segments h)⟩)
      · rcases ih h with rfl | hi | ⟨f, hf, hi⟩
        · exact .inr (.inr ⟨e, .head _, .inl (.tail _ (.head _))⟩)
        · exact .inr (.inl hi)
        · exact .inr (.inr ⟨f, .tail _ hf, hi⟩)

theorem mem_cuts_reused (h : i ∈ (reused edits depth r).cuts) :
    i = r.start ∨ i = r.stop ∨ ∃ e ∈ edits, i ∈ e.ends := by
  induction depth generalizing r with
  | zero => cases h
  | succ depth ih =>
    rcases mem_cuts_sweep h with hi | hi | ⟨e, he, hi | ⟨s, hs, hi⟩⟩
    · exact .inl hi
    · exact .inr (.inl hi)
    · exact .inr (.inr ⟨e, he, hi⟩)
    · rcases ih hi with rfl | rfl | hi
      · exact .inr (.inr ⟨e, he, Edit.start_mem_ends hs⟩)
      · exact .inr (.inr ⟨e, he, Edit.stop_mem_ends hs⟩)
      · exact .inr (.inr hi)

/-- A text is cut only at its own ends and at those of the edits and of the ranges they reuse. -/
theorem mem_cuts_whole (h : i ∈ (whole edits length).cuts) :
    i = 0 ∨ i = length ∨ ∃ e ∈ edits, i ∈ e.ends := by
  rcases mem_cuts_sweep h with hi | hi | ⟨e, he, hi | ⟨s, hs, hi⟩⟩
  · exact .inl hi
  · exact .inr (.inl hi)
  · exact .inr (.inr ⟨e, he, hi⟩)
  · rcases mem_cuts_reused hi with rfl | rfl | hi
    · exact .inr (.inr ⟨e, he, Edit.start_mem_ends hs⟩)
    · exact .inr (.inr ⟨e, he, Edit.stop_mem_ends hs⟩)
    · exact .inr (.inr hi)

end Rendering

end Uplift
