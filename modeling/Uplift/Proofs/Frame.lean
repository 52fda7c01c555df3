import Mathlib.Data.List.Basic
import Uplift.Proofs.Nesting

namespace Uplift

set_option autoImplicit true

/-- The items from `cursor` to `stop`, with others in the place of the given ranges. -/
def spliced (l : List α) (cursor stop : Nat) : List (Range × List α) → List α
  | [] => Range.cut ⟨cursor, stop⟩ l
  | (r, new) :: rest => Range.cut ⟨cursor, r.start⟩ l ++ (new ++ spliced l r.stop stop rest)

theorem Range.cut_append (l : List α) (h : a ≤ b) (h' : b ≤ c) :
    cut ⟨a, b⟩ l ++ cut ⟨b, c⟩ l = cut ⟨a, c⟩ l := by
  have htake : l.take b = (l.take c).take b := by
    rw [List.take_take, Nat.min_eq_left h']
  simp only [cut]
  rw [htake]
  generalize l.take c = m
  have hdrop : m.drop b = (m.drop a).drop (b - a) := by
    rw [List.drop_drop, Nat.add_sub_cancel' h]
  rw [List.drop_take, hdrop, List.take_append_drop]

theorem Range.head?_cut {r : Range} (l : List α) (h : r.start < r.stop) :
    (r.cut l).head? = l[r.start]? := by
  rw [cut, List.head?_drop, List.getElem?_take_of_lt h]

theorem head?_spliced {l : List α} (h : cursor < stop) (hl : cursor < l.length)
    (hrest : ∀ x ∈ rest.head?, cursor < x.1.start) :
    (spliced l cursor stop rest).head? = l[cursor]? := by
  cases rest with
  | nil => exact Range.head?_cut l h
  | cons x rest =>
    have hlt : cursor < x.1.start := hrest x rfl
    rw [spliced, List.head?_append, Range.head?_cut l hlt, List.getElem?_eq_getElem hl,
      Option.some_or]

theorem infix_spliced {l : List α} (h : (r, new) ∈ rest) : new <:+: spliced l cursor stop rest := by
  induction rest generalizing cursor with
  | nil => cases h
  | cons x rest ih =>
    obtain ⟨s, old⟩ := x
    rw [spliced]
    rcases List.mem_cons.1 h with he | h
    · cases he
      exact ⟨_, _, List.append_assoc _ _ _⟩
    · obtain ⟨before, after, he⟩ := @ih s.stop h
      rw [← he]
      refine ⟨Range.cut ⟨cursor, s.start⟩ l ++ old ++ before, after, ?_⟩
      simp only [List.append_assoc]

namespace Rendering

def substitutes (render : Range → Rendering) (read : Piece → List α) (top : Bool) (range : Range)
    (cursor index : Nat) : List Edit → List (Range × List α)
  | [] => []
  | e :: rest =>
    if passes top range cursor e then substitutes render read top range cursor (index + 1) rest
    else (e.range, (segments render index e.segments).pieces.flatMap read) ::
      substitutes render read top range e.range.stop (index + 1) rest

theorem substitutes_passed {read : Piece → List α} (h : passes top range cursor e = true) :
    substitutes render read top range cursor index (e :: rest) =
      substitutes render read top range cursor (index + 1) rest :=
  if_pos h

theorem substitutes_picked {read : Piece → List α} (h : passes top range cursor e = false) :
    substitutes render read top range cursor index (e :: rest) =
      (e.range, (segments render index e.segments).pieces.flatMap read) ::
        substitutes render read top range e.range.stop (index + 1) rest :=
  if_neg (ne_true_of_eq_false h)

theorem flatMap_sweep {read : Piece → List α} (hread : ∀ r, read (.kept r) = r.cut l) :
    (sweep render top range cursor index edits).pieces.flatMap read =
      spliced l cursor range.stop (substitutes render read top range cursor index edits) := by
  induction edits generalizing cursor index with
  | nil => exact flatMap_keep hread _
  | cons e rest ih =>
    cases hs : passes top range cursor e with
    | true => rw [sweep_passed hs, substitutes_passed hs, ih]
    | false =>
      rw [sweep_picked hs, substitutes_picked hs, spliced]
      simp only [append, List.flatMap_append, List.nil_append, flatMap_keep hread, ih]

/--
An edit that a sweep of the whole text passes over starts before the cursor, or inside an edit
before it.
-/
theorem mem_picked_or_inside (hb : ∀ e ∈ edits, e.range.stop ≤ range.stop)
    (hs : edits.Pairwise Edit.Before) (he : e ∈ edits) :
    e ∈ picked true range cursor edits ∨ e.range.start < cursor ∨
      ∃ f ∈ picked true range cursor edits, f.Before e ∧ e.range.start < f.range.stop := by
  induction edits generalizing cursor with
  | nil => cases he
  | cons g rest ih =>
    obtain ⟨hbefore, hrest⟩ := List.pairwise_cons.1 hs
    have hb' : ∀ e ∈ rest, e.range.stop ≤ range.stop := fun f hf => hb f (.tail _ hf)
    cases hpass : passes true range cursor g with
    | true =>
      rw [picked_passed hpass]
      rcases List.mem_cons.1 he with rfl | he
      · refine .inr (.inl (Nat.lt_of_not_le fun hle => ?_))
        have hfalse : passes true range cursor e = false :=
          passes_eq_false_iff.2 ⟨hle, hb e (.head _), nofun⟩
        exact absurd hpass (ne_true_of_eq_false hfalse)
      · exact ih hb' hrest he
    | false =>
      rw [picked_picked hpass]
      rcases List.mem_cons.1 he with rfl | he
      · exact .inl (.head _)
      · rcases @ih g.range.stop hb' hrest he with hin | hlt | ⟨f, hf, hfe⟩
        · exact .inl (.tail _ hin)
        · exact .inr (.inr ⟨g, .head _, hbefore e he, hlt⟩)
        · exact .inr (.inr ⟨f, .tail _ hf, hfe⟩)

end Rendering

namespace Document

open Rendering

def segmentText (d : Document) (render : Range → Rendering) : Segment → Text
  | .fresh t => t
  | .reused r => (render r).pieces.flatMap d.bytes

def replacementText (d : Document) (edits : List Edit) (depth : Nat) (e : Edit) : Text :=
  e.segments.flatMap (d.segmentText (reused edits depth))

theorem text_segments (d : Document) (render : Range → Rendering) (index : Nat)
    (segs : List Segment) :
    (segments render index segs).pieces.flatMap d.bytes = segs.flatMap (d.segmentText render) := by
  induction segs with
  | nil => rfl
  | cons segment segs ih =>
    cases segment with
    | fresh t => exact congrArg (t ++ ·) ih
    | reused r =>
      rw [segments, append, List.flatMap_append, ih, List.flatMap_cons, segmentText]

theorem substitutes_bytes (d : Document) (render : Range → Rendering) (top : Bool) (range : Range)
    (cursor index : Nat) (edits : List Edit) :
    substitutes render d.bytes top range cursor index edits =
      (picked top range cursor edits).map fun e =>
        (e.range, e.segments.flatMap (d.segmentText render)) := by
  induction edits generalizing cursor index with
  | nil => rfl
  | cons e rest ih =>
    cases hs : passes top range cursor e with
    | true => rw [substitutes_passed hs, picked_passed hs, ih]
    | false => rw [substitutes_picked hs, picked_picked hs, List.map_cons, ih, text_segments]

theorem text_sweep_eq (d : Document) (render : Range → Rendering) (top : Bool) (range : Range)
    (cursor index : Nat) (edits : List Edit) :
    (sweep render top range cursor index edits).pieces.flatMap d.bytes =
      spliced d.text cursor range.stop ((picked top range cursor edits).map fun e =>
        (e.range, e.segments.flatMap (d.segmentText render))) := by
  rw [flatMap_sweep fun _ => rfl, substitutes_bytes]

/-- The edits that are taken up when a range is rendered, but not those inside them. -/
def taken (edits : List Edit) (top : Bool) (r : Range) : List Edit :=
  picked top r r.start (Edit.sorted edits)

/-- The edits that are applied outermost. -/
def outermost (d : Document) (edits : List Edit) : List Edit := taken edits true ⟨0, d.text.length⟩

/-- The text that an edit writes when it takes effect. -/
def rendition (d : Document) (edits : List Edit) (e : Edit) : Text :=
  d.replacementText (Edit.sorted edits) (Edit.sorted edits).length e

def replacements (d : Document) (edits es : List Edit) : List (Range × Text) :=
  es.map fun e => (e.range, d.rendition edits e)

/-- The text of a segment: that of a reused range is kept but for the edits inside it. -/
def rendered (d : Document) (edits : List Edit) : Segment → Text
  | .fresh t => t
  | .reused s => spliced d.text s.start s.stop (d.replacements edits (taken edits false s))

theorem text_apply_eq_spliced (d : Document) (edits : List Edit) :
    (d.apply edits).1.text =
      spliced d.text 0 d.text.length (d.replacements edits (d.outermost edits)) := by
  rw [text_apply, pieces, whole, text_sweep_eq]
  rfl

variable {d : Document} {edits : List Edit}

theorem proper_sorted (hp : ∀ e ∈ edits, e.Proper) : ∀ e ∈ Edit.sorted edits, e.Proper :=
  fun e he => hp e ((Edit.sorted_perm edits).mem_iff.1 he)

theorem rendition_eq_full (hp : ∀ e ∈ edits, e.Proper) (he : e ∈ edits) :
    d.rendition edits e = e.segments.flatMap (d.segmentText (full (Edit.sorted edits))) := by
  have hmem := (Edit.sorted_perm edits).mem_iff.2 he
  apply List.flatMap_congr
  intro segment hsegment
  cases segment with
  | fresh t => rfl
  | reused s =>
    rw [segmentText, segmentText,
      reused_eq_full (proper_sorted hp) hmem (Edit.mem_reusedRanges.2 hsegment)]

/-- A reused range is rendered as the whole text is, with the edits inside it. -/
theorem text_full (hp : ∀ e ∈ edits, e.Proper) (s : Range) :
    (full (Edit.sorted edits) s).pieces.flatMap d.bytes =
      spliced d.text s.start s.stop (d.replacements edits (taken edits false s)) := by
  rw [full_eq_sweep (proper_sorted hp), text_sweep_eq]
  apply congrArg
  apply List.map_congr_left
  intro f hf
  have hmem := (Edit.sorted_perm edits).mem_iff.1 ((picked_sublist _ _ _ _).subset hf)
  rw [rendition_eq_full hp hmem]

theorem rendition_eq (hp : ∀ e ∈ edits, e.Proper) (he : e ∈ edits) :
    d.rendition edits e = e.segments.flatMap (d.rendered edits) := by
  rw [rendition_eq_full hp he]
  apply List.flatMap_congr
  intro segment _
  cases segment with
  | fresh t => rfl
  | reused s => rw [segmentText, rendered, text_full hp]

theorem taken_sublist (edits : List Edit) (top : Bool) (r : Range) :
    (taken edits top r).Sublist (Edit.sorted edits) := picked_sublist _ _ _ _

theorem mem_outermost_or_inside (hb : ∀ e ∈ edits, e.range.stop ≤ d.text.length) (he : e ∈ edits) :
    e ∈ d.outermost edits ∨ ∃ f ∈ d.outermost edits, f.Before e ∧ e.range.start < f.range.stop := by
  have hperm := Edit.sorted_perm edits
  have hb' : ∀ f ∈ Edit.sorted edits, f.range.stop ≤ (⟨0, d.text.length⟩ : Range).stop :=
    fun f hf => hb f (hperm.mem_iff.1 hf)
  rcases mem_picked_or_inside hb' (Edit.sorted_before edits) (hperm.mem_iff.2
    he) with hin | hlt | hin
  · exact .inl hin
  · exact absurd hlt (Nat.not_lt_zero _)
  · exact .inr hin

theorem lines_apply_eq_nil_iff (hb : ∀ e ∈ edits, e.range.stop ≤ d.text.length) :
    (d.apply edits).2 = [] ↔ edits = [] := by
  constructor
  · intro hnone
    rw [lines_apply, List.map_eq_nil_iff] at hnone
    have hout : d.outermost edits = [] := by
      rw [List.eq_nil_iff_forall_not_mem]
      intro e he
      have hemitted : e ∈ d.emitted edits := by
        rw [emitted, whole, emitted_sweep List.drop_zero]
        exact List.mem_flatMap.2 ⟨e, he, .head _⟩
      rw [← mem_applied_iff, hnone] at hemitted
      cases hemitted
    rw [List.eq_nil_iff_forall_not_mem]
    intro e he
    rcases mem_outermost_or_inside hb he with hin | ⟨f, hf, _⟩
    · rw [hout] at hin
      cases hin
    · rw [hout] at hf
      cases hf
  · rintro rfl
    rfl

/-- Edits of a text whose ranges run forwards in it, and whose reused ranges lie in their own. -/
def Admits (d : Document) (edits : List Edit) : Prop :=
  ∀ e ∈ edits, e.Proper ∧ e.range.stop ≤ d.text.length

instance (d : Document) (edits : List Edit) : Decidable (d.Admits edits) :=
  inferInstanceAs (Decidable (∀ e ∈ _, _))

/--
A revision keeps the text between the outermost edits, in order and once, and puts what each of them
writes in the place of its range. The same holds inside the ranges that an edit reuses. The edits
taken up are edits of the list, none twice, and follow one another; one that is passed over starts
inside an earlier one. A revision answers no line just if there are no edits, and changes nothing
then.
-/
theorem apply_eq_spliced (d : Document) (edits : List Edit) (h : d.Admits edits) :
    (d.apply edits).1.text =
      spliced d.text 0 d.text.length (d.replacements edits (d.outermost edits)) ∧
    (∀ e ∈ edits, d.rendition edits e = e.segments.flatMap (d.rendered edits)) ∧
    (Edit.sorted edits).Perm edits ∧
    (∀ top r, (taken edits top r).Sublist (Edit.sorted edits) ∧
      ((taken edits top r).Pairwise fun e f => e.range.stop ≤ f.range.start) ∧
      ∀ e ∈ taken edits top r, e.range.within r = true ∧ (top = false → e.range ≠ r)) ∧
    (∀ e ∈ edits, e ∈ d.outermost edits ∨
      ∃ f ∈ d.outermost edits, f.Before e ∧ e.range.start < f.range.stop) ∧
    ((d.apply edits).2 = [] ↔ edits = []) ∧ (edits = [] → (d.apply edits).1 = d) := by
  have hp : ∀ e ∈ edits, e.Proper := fun e he => (h e he).1
  have hb : ∀ e ∈ edits, e.range.stop ≤ d.text.length := fun e he => (h e he).2
  refine ⟨text_apply_eq_spliced d edits, fun e he => rendition_eq hp he, Edit.sorted_perm edits, ?_,
    fun e he => mem_outermost_or_inside hb he, lines_apply_eq_nil_iff hb, ?_⟩
  · intro top r
    refine ⟨taken_sublist edits top r, picked_pairwise (proper_sorted hp) top r r.start, ?_⟩
    intro e he
    exact within_of_mem_picked (proper_sorted hp) he
  · rintro rfl
    rfl

def crossingEdits : List Edit :=
  [⟨⟨5, 9⟩, [.fresh [88]]⟩, ⟨⟨2, 6⟩, [.reused ⟨3, 5⟩, .fresh [89]]⟩, ⟨⟨3, 4⟩, [.fresh [90]]⟩,
    ⟨⟨2, 6⟩, []⟩, ⟨⟨9, 9⟩, [.fresh [33]]⟩, ⟨⟨9, 9⟩, [.fresh [63]]⟩]

theorem apply_eq_spliced_crossing :
    (ofText (Text.ofString "abcdefghij")).Admits crossingEdits ∧
    ((ofText (Text.ofString "abcdefghij")).outermost crossingEdits).map Edit.range =
      [⟨2, 6⟩, ⟨9, 9⟩, ⟨9, 9⟩] ∧
    ((ofText (Text.ofString "abcdefghij")).apply crossingEdits).1.text =
      spliced (Text.ofString "abcdefghij") 0 10
        [(⟨2, 6⟩, Text.ofString "ZeY"), (⟨9, 9⟩, [33]), (⟨9, 9⟩, [63])] ∧
    ((ofText (Text.ofString "abcdefghij")).apply crossingEdits).2 ≠ [] := by
  have hadmits : (ofText (Text.ofString "abcdefghij")).Admits crossingEdits := by decide
  obtain ⟨htext, _, _, _, _, hlines, _⟩ := apply_eq_spliced _ _ hadmits
  refine ⟨hadmits, by decide, htext.trans (by decide), fun hnone => ?_⟩
  exact absurd (hlines.1 hnone) (by decide)

end Document

end Uplift
