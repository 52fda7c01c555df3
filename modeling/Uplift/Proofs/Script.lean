import Mathlib.Data.List.Nodup
import Uplift.Proofs.Frame

namespace Uplift

set_option autoImplicit true

open Edit Rendering

/--
A step in writing a revised text: a range of the old text is copied, fresh text is written, or the
replacement of an edit begins.
-/
inductive Mark where
  | kept (range : Range)
  | fresh (text : Text)
  | opens (edit : Edit)
deriving DecidableEq, Repr

namespace Mark

def text (old : Text) : Mark → Text
  | .kept r => old.slice r
  | .fresh t => t
  | .opens _ => []

def opened? : Mark → Option Edit
  | .opens e => some e
  | _ => none

/-- What is between two offsets is copied, but for some ranges, which have marks of their own. -/
def threaded (cursor stop : Nat) : List (Range × List Mark) → List Mark
  | [] => [.kept ⟨cursor, stop⟩]
  | (r, marks) :: rest => .kept ⟨cursor, r.start⟩ :: (marks ++ threaded r.stop stop rest)

theorem text_threaded (old : Text) (cursor stop : Nat) (parts : List (Range × List Mark)) :
    (threaded cursor stop parts).flatMap (text old) =
      spliced old cursor stop (parts.map fun x => (x.1, x.2.flatMap (text old))) := by
  induction parts generalizing cursor with
  | nil => exact List.append_nil _
  | cons x rest ih =>
    rw [threaded, List.flatMap_cons, List.flatMap_append, ih]
    rfl

theorem opened?_threaded (cursor stop : Nat) (parts : List (Range × List Mark)) :
    (threaded cursor stop parts).filterMap opened? =
      parts.flatMap fun x => x.2.filterMap opened? := by
  induction parts generalizing cursor with
  | nil => rfl
  | cons x rest ih =>
    rw [threaded, List.filterMap_cons_none rfl, List.filterMap_append, ih, List.flatMap_cons]

theorem infix_threaded {parts : List (Range × List Mark)} (h : (r, marks) ∈ parts) :
    marks <:+: threaded cursor stop parts := by
  induction parts generalizing cursor with
  | nil => cases h
  | cons x rest ih =>
    obtain ⟨s, first⟩ := x
    rw [threaded]
    rcases List.mem_cons.1 h with he | h
    · cases he
      exact ⟨[.kept ⟨cursor, r.start⟩], threaded r.stop stop rest, List.append_assoc _ _ _⟩
    · exact (ih h).trans (List.suffix_append _ _).isInfix |>.trans (List.suffix_cons _ _).isInfix

theorem mem_opened? {marks : List Mark} : e ∈ marks.filterMap opened? ↔ opens e ∈ marks := by
  rw [List.mem_filterMap]
  constructor
  · rintro ⟨mark, hmem, he⟩
    cases mark with
    | opens f =>
      cases he
      exact hmem
    | _ => cases he
  · intro hmem
    exact ⟨_, hmem, rfl⟩

theorem count_opens (marks : List Mark) (e : Edit) :
    marks.count (opens e) = (marks.filterMap opened?).count e := by
  induction marks with
  | nil => rfl
  | cons mark marks ih =>
    cases mark with
    | opens f =>
      have hopened : opened? (opens f) = some f := rfl
      rw [List.filterMap_cons_some hopened, List.count_cons, List.count_cons, ih]
      simp only [beq_iff_eq, opens.injEq]
    | _ => exact (List.count_cons_of_ne Mark.noConfusion).trans ih

def expanded (render : Range → List Mark) : Segment → List Mark
  | .fresh t => [.fresh t]
  | .reused s => render s

theorem opened?_expanded (render : Range → List Mark) (segs : List Segment) :
    (segs.flatMap (expanded render)).filterMap opened? =
      (segs.filterMap Segment.reused?).flatMap fun s => (render s).filterMap opened? := by
  induction segs with
  | nil => rfl
  | cons segment segs ih =>
    rw [List.flatMap_cons, List.filterMap_append, ih]
    cases segment with
    | fresh t => rfl
    | reused s => rfl

end Mark

namespace Edit

open Mark

instance (top : Bool) (r : Range) (e : Edit) : Decidable (Fits top r e) :=
  inferInstanceAs (Decidable (_ ∧ _))

/-- The edits that fit a range and lie inside no other that fits it, in order. -/
def outer (edits : List Edit) (top : Bool) (r : Range) : List Edit :=
  (sorted edits).filter fun e =>
    Fits top r e ∧ ∀ f ∈ edits, Fits top r f → ¬e.range.Inside f.range

def scriptTo (edits : List Edit) : Nat → Bool → Range → List Mark
  | 0, _, _ => []
  | depth + 1, top, r => threaded r.start r.stop ((outer edits top r).map fun e =>
      (e.range, .opens e :: e.segments.flatMap (expanded (scriptTo edits depth false))))

/--
How a range is written: what no edit touches is copied, and each outermost edit writes its segments,
where a reused range is written in the same way.
-/
def script (edits : List Edit) (top : Bool) (r : Range) : List Mark :=
  scriptTo edits (edits.length + 1) top r

def replacement (edits : List Edit) (e : Edit) : List Mark :=
  e.segments.flatMap (expanded (script edits false))

theorem mem_outer : e ∈ outer edits top r ↔
    e ∈ edits ∧ Fits top r e ∧ ∀ f ∈ edits, Fits top r f → ¬e.range.Inside f.range := by
  rw [outer, List.mem_filter, (sorted_perm edits).mem_iff, decide_eq_true_eq]

theorem expanded_congr {e : Edit} {render render' : Range → List Mark}
    (h : ∀ s ∈ e.reusedRanges, render s = render' s) :
    e.segments.flatMap (expanded render) = e.segments.flatMap (expanded render') := by
  apply List.flatMap_congr
  intro segment hsegment
  cases segment with
  | fresh t => rfl
  | reused s => exact h s (mem_reusedRanges.2 hsegment)

theorem scriptTo_stable (hp : ∀ e ∈ edits, e.Proper) (hd : inner edits r < depth)
    (hd' : inner edits r < depth') :
    scriptTo edits depth false r = scriptTo edits depth' false r := by
  induction depth generalizing depth' r with
  | zero => exact absurd hd (Nat.not_lt_zero _)
  | succ depth ih =>
    cases depth' with
    | zero => exact absurd hd' (Nat.not_lt_zero _)
    | succ depth' =>
      rw [scriptTo, scriptTo]
      apply congrArg
      apply List.map_congr_left
      intro e he
      obtain ⟨hmem, ⟨hin, hne⟩, _⟩ := mem_outer.1 he
      rw [expanded_congr]
      intro s hs
      have hlt := inner_lt hmem ((hp e hmem).reuses s hs) ⟨hin, hne rfl⟩
      exact ih (by omega) (by omega)

theorem script_eq (hp : ∀ e ∈ edits, e.Proper) (top : Bool) (r : Range) :
    script edits top r = threaded r.start r.stop ((outer edits top r).map fun e =>
      (e.range, .opens e :: replacement edits e)) := by
  rw [script, scriptTo]
  apply congrArg
  apply List.map_congr_left
  intro e he
  have hmem := (mem_outer.1 he).1
  rw [replacement, expanded_congr]
  intro s hs
  have hlt := inner_lt_length hp hmem hs
  exact scriptTo_stable hp hlt (Nat.lt_succ_of_lt hlt)

section Laminar

variable {edits : List Edit} (h : Laminar length edits)

include h

theorem picked_sorted (top : Bool) (r : Range) :
    picked top r r.start (sorted edits) = outer edits top r := by
  have hsub := picked_sublist top r r.start (sorted edits)
  have hmem (e : Edit) : e ∈ picked top r r.start (sorted edits) ↔ e ∈ outer edits top r := by
    rw [mem_outer, ← (sorted_perm edits).mem_iff]
    constructor
    · intro he
      have hem := hsub.subset he
      obtain ⟨hfits, hout⟩ := (mem_picked_iff h.sorted h.sorted_precedes hem).1 he
      exact ⟨hem, hfits, fun f hf => hout f ((sorted_perm edits).mem_iff.2 hf)⟩
    · rintro ⟨hem, hfits, hout⟩
      refine (mem_picked_iff h.sorted h.sorted_precedes hem).2 ⟨hfits, fun f hf => ?_⟩
      exact hout f ((sorted_perm edits).mem_iff.1 hf)
  have hperm : (picked top r r.start (sorted edits)).Perm (outer edits top r) :=
    (List.perm_ext_iff_of_nodup (h.sorted.nodup.sublist hsub)
      (h.sorted.nodup.sublist List.filter_sublist)).2 hmem
  have hfilter : (picked top r r.start (sorted edits)).filter (fun e =>
      Fits top r e ∧ ∀ f ∈ edits, Fits top r f → ¬e.range.Inside f.range) =
        picked top r r.start (sorted edits) :=
    List.filter_eq_self.2 fun e he => decide_eq_true (mem_outer.1 ((hmem e).1 he)).2
  have hsub' := hsub.filter fun e =>
    Fits top r e ∧ ∀ f ∈ edits, Fits top r f → ¬e.range.Inside f.range
  rw [hfilter] at hsub'
  exact hsub'.eq_of_length hperm.length_eq

theorem opened?_script (top : Bool) (r : Range) :
    (script edits top r).filterMap opened? = written (sorted edits) top r := by
  induction top, r using reuse_induction h.sorted.proper with
  | step top r ih =>
    rw [script_eq h.proper, opened?_threaded, written_eq h.sorted.proper, picked_sorted h]
    rw [picked_sorted h] at ih
    rw [List.flatMap_map]
    apply List.flatMap_congr
    intro e he
    change e :: (replacement edits e).filterMap opened? = _
    rw [replacement, opened?_expanded, ← reusedRanges, List.flatMap_congr (ih e he)]

theorem count_script (he : .opens e ∈ script edits top r) :
    (script edits top r).count (.opens e) = 1 := by
  have hnodup := written_nodup h.sorted top r
  rw [← opened?_script h] at hnodup
  rw [count_opens]
  exact List.count_eq_one_of_mem hnodup (mem_opened?.2 he)

theorem infix_script (he : .opens e ∈ script edits top r) :
    .opens e :: replacement edits e <:+: script edits top r := by
  induction top, r using reuse_induction h.sorted.proper with
  | step top r ih =>
    rw [picked_sorted h] at ih
    rw [← mem_opened?, opened?_script h, mem_written h.sorted.proper, picked_sorted h] at he
    obtain ⟨f, hf, hef⟩ := he
    have hpart : .opens f :: replacement edits f <:+: script edits top r := by
      rw [script_eq h.proper]
      exact infix_threaded (List.mem_map.2 ⟨f, hf, rfl⟩)
    rcases hef with rfl | ⟨s, hs, he⟩
    · exact hpart
    · rw [← opened?_script h, mem_opened?] at he
      refine (ih f hf s hs he).trans (.trans ?_ hpart)
      have hsegment : script edits false s <:+: replacement edits f :=
        List.infix_of_mem_flatten (List.mem_map.2 ⟨_, mem_reusedRanges.1 hs, rfl⟩)
      exact hsegment.trans (List.suffix_cons _ _).isInfix

end Laminar

end Edit

namespace Document

open Mark

variable {d : Document} {edits : List Edit}

def script (d : Document) (edits : List Edit) : List Mark :=
  Edit.script edits true ⟨0, d.text.length⟩

theorem text_sweep_script (h : Laminar d.text.length edits) (top : Bool) (r : Range) :
    (sweep (full (sorted edits)) top r r.start 0 (sorted edits)).pieces.flatMap d.bytes =
      (Edit.script edits top r).flatMap (Mark.text d.text) := by
  induction top, r using reuse_induction h.sorted.proper with
  | step top r ih =>
    rw [text_sweep_eq, script_eq h.proper, text_threaded, List.map_map, picked_sorted h]
    rw [picked_sorted h] at ih
    apply congrArg
    apply List.map_congr_left
    intro e he
    refine Prod.ext rfl ?_
    change _ = (replacement edits e).flatMap (Mark.text d.text)
    rw [replacement, List.flatMap_assoc]
    apply List.flatMap_congr
    intro segment hsegment
    cases segment with
    | fresh t => exact (List.append_nil t).symm
    | reused s =>
      have hs := mem_reusedRanges.2 hsegment
      rw [segmentText, full_eq_sweep h.sorted.proper, ih e he s hs, expanded]

theorem text_apply_script (h : Laminar d.text.length edits) :
    (d.apply edits).1.text = (d.script edits).flatMap (Mark.text d.text) := by
  rw [text_apply, pieces, whole_eq_sweep h.sorted.proper]
  exact text_sweep_script h true _

theorem opens_mem_script (h : Laminar d.text.length edits) :
    .opens e ∈ d.script edits ↔ e ∈ d.emitted edits := by
  rw [← mem_opened?, script, opened?_script h, emitted_eq_written h]

/--
Of edits that are nested or apart, those take effect that lie strictly inside a reused range of
every edit around them that takes effect. The text is written out by a script in which each of them
begins once and writes its replacement there. The origin of each is answered once, in the order of
the edits.
-/
theorem apply_laminar (d : Document) (edits : List Edit) (h : Laminar d.text.length edits) :
    (d.apply edits).1.text = (d.script edits).flatMap (Mark.text d.text) ∧
    (∀ top r, Edit.script edits top r = threaded r.start r.stop ((outer edits top r).map fun e =>
        (e.range, .opens e :: replacement edits e)) ∧
      (outer edits top r).Pairwise fun e f => e.range.stop ≤ f.range.start) ∧
    (∀ e, .opens e ∈ d.script edits → e ∈ edits ∧ (d.script edits).count (.opens e) = 1 ∧
      .opens e :: replacement edits e <:+: d.script edits) ∧
    (∀ e ∈ edits, .opens e ∈ d.script edits ↔ ∀ f, .opens f ∈ d.script edits →
      e.range.Inside f.range → ∃ s, Segment.reused s ∈ f.segments ∧ e.range.Inside s) ∧
    (∃ applied : List Edit, applied.Nodup ∧ (∀ e, e ∈ applied ↔ .opens e ∈ d.script edits) ∧
      (applied.Pairwise fun e f => e.precedes f = true) ∧
      (d.apply edits).2 = applied.map fun e => d.originAt e.range.start) ∧
    ((∀ e ∈ edits, d.text.cutsCleanly e.ends = true) →
      d.applyCleanly edits = some (d.apply edits)) := by
  have hsub : (d.applied edits).Sublist (sorted edits) := selected_sublist _ _ _
  refine ⟨text_apply_script h, ?_, ?_, ?_, ⟨d.applied edits, ?_, ?_, ?_, lines_apply d edits⟩, ?_⟩
  · intro top r
    refine ⟨script_eq h.proper top r, ?_⟩
    rw [← picked_sorted h]
    exact picked_pairwise h.sorted.proper top r r.start
  · intro e he
    exact ⟨mem_of_mem_emitted h ((opens_mem_script h).1 he), count_script h he, infix_script h he⟩
  · intro e he
    simp only [opens_mem_script h, ← mem_reusedRanges]
    exact mem_emitted_iff_nests h he
  · exact h.sorted.nodup.sublist hsub
  · intro e
    rw [opens_mem_script h]
    exact mem_applied_iff
  · exact h.sorted_precedes.sublist hsub
  · intro hends
    exact if_pos (cutsCleanly_of_ends hends)

def nestedCalls : List Edit :=
  [⟨⟨4, 11⟩, [.reused ⟨6, 7⟩, .fresh [42, 42], .reused ⟨9, 10⟩]⟩, ⟨⟨2, 12⟩, [.reused ⟨4, 11⟩]⟩,
    ⟨⟨0, 16⟩, [.reused ⟨2, 12⟩, .fresh [42, 42], .reused ⟨14, 15⟩]⟩]

/-- The call of `h` is left out, and that of `f` takes effect inside it. -/
theorem apply_laminar_nestedCalls :
    Laminar (ofText (Text.ofString "g(h(f(a, b)), c)")).text.length nestedCalls ∧
    ((ofText (Text.ofString "g(h(f(a, b)), c)")).script nestedCalls).filterMap opened? =
      [⟨⟨0, 16⟩, [.reused ⟨2, 12⟩, .fresh [42, 42], .reused ⟨14, 15⟩]⟩,
        ⟨⟨4, 11⟩, [.reused ⟨6, 7⟩, .fresh [42, 42], .reused ⟨9, 10⟩]⟩] ∧
    ((ofText (Text.ofString "g(h(f(a, b)), c)")).apply nestedCalls).1.text =
      Text.ofString "h(a**b)**c" ∧
    ∀ e ∈ nestedCalls, .opens e ∈ (ofText (Text.ofString "g(h(f(a, b)), c)")).script nestedCalls ↔
      ∀ f, .opens f ∈ (ofText (Text.ofString "g(h(f(a, b)), c)")).script nestedCalls →
        e.range.Inside f.range → ∃ s, Segment.reused s ∈ f.segments ∧ e.range.Inside s := by
  have hlaminar : Laminar (ofText (Text.ofString "g(h(f(a, b)), c)")).text.length nestedCalls := by
    decide
  obtain ⟨htext, _, _, hrule, _⟩ := apply_laminar _ _ hlaminar
  exact ⟨hlaminar, by decide, htext.trans (by decide), hrule⟩

end Document

end Uplift
