import Uplift.Proofs.Rendering

namespace Uplift

set_option autoImplicit true

def Range.cut (r : Range) (l : List α) : List α := (l.take r.stop).drop r.start

theorem Range.cut_of_isEmpty {r : Range} (l : List α) (h : r.isEmpty = true) : r.cut l = [] := by
  have hle : r.stop ≤ r.start := of_decide_eq_true h
  apply List.drop_eq_nil_of_le
  exact Nat.le_trans (List.length_take_le _ _) hle

theorem Text.slice_whole (t : Text) : t.slice ⟨0, t.length⟩ = t := by
  rw [slice, List.take_length, List.drop_zero]

namespace Rendering

def selected (places : List Nat) (index : Nat) : List Edit → List Edit
  | [] => []
  | e :: rest =>
    if places.contains index then e :: selected places (index + 1) rest
    else selected places (index + 1) rest

theorem selected_sublist (places : List Nat) (index : Nat) (edits : List Edit) :
    (selected places index edits).Sublist edits := by
  induction edits generalizing index with
  | nil => exact .slnil
  | cons e rest ih =>
    rw [selected]
    split
    · exact (ih _).cons_cons e
    · exact (ih _).cons e

theorem mem_selected : e ∈ selected places index edits ↔
    ∃ i, index + i ∈ places ∧ edits[i]? = some e := by
  induction edits generalizing index with
  | nil =>
    constructor
    · intro h
      cases h
    · rintro ⟨i, _, hi⟩
      cases hi
  | cons f rest ih =>
    have hsplit : e ∈ selected places index (f :: rest) ↔
        (index ∈ places ∧ f = e) ∨ e ∈ selected places (index + 1) rest := by
      rw [selected]
      split
      next hin => simp only [List.mem_cons, List.contains_iff_mem.1 hin, true_and, eq_comm]
      next hout =>
        have hnot : index ∉ places := fun hin => hout (List.contains_iff_mem.2 hin)
        simp only [hnot, false_and, false_or]
    rw [hsplit, ih]
    constructor
    · rintro (⟨hin, rfl⟩ | ⟨i, hin, hi⟩)
      · exact ⟨0, hin, rfl⟩
      · refine ⟨i + 1, ?_, hi⟩
        rwa [Nat.add_comm i, ← Nat.add_assoc]
    · rintro ⟨i, hin, hi⟩
      cases i with
      | zero => exact .inl ⟨hin, Option.some.inj hi⟩
      | succ i =>
        refine .inr ⟨i, ?_, hi⟩
        rwa [Nat.add_assoc, Nat.add_comm 1]

theorem mem_selected_iff_mem_emitted {r : Rendering} :
    e ∈ selected r.applied 0 edits ↔ e ∈ r.emitted edits := by
  simp only [mem_selected, emitted, List.mem_filterMap, Nat.zero_add]

theorem sweep_eq_keep (h : picked top range cursor edits = []) :
    sweep render top range cursor index edits = keep ⟨cursor, range.stop⟩ := by
  induction edits generalizing index with
  | nil => rfl
  | cons e rest ih =>
    cases hs : passes top range cursor e with
    | true =>
      rw [picked_passed hs] at h
      rw [sweep_passed hs, ih h]
    | false =>
      rw [picked_picked hs] at h
      cases h

theorem whole_eq_keep (h : (whole edits length).emitted edits = []) :
    whole edits length = keep ⟨0, length⟩ := by
  rw [whole, emitted_sweep List.drop_zero, List.flatMap_eq_nil_iff] at h
  apply sweep_eq_keep
  rw [List.eq_nil_iff_forall_not_mem]
  intro e he
  cases h e he

theorem flatMap_keep {read : Piece → List α} (hread : ∀ r, read (.kept r) = r.cut l) (r : Range) :
    (keep r).pieces.flatMap read = r.cut l := by
  rw [keep]
  split
  next hempty => rw [Range.cut_of_isEmpty _ hempty, List.flatMap_nil]
  next => rw [List.flatMap_cons, List.flatMap_nil, List.append_nil, hread]

end Rendering

namespace Document

open Rendering

theorem bytes_keep (d : Document) (r : Range) : (keep r).pieces.flatMap d.bytes = d.text.slice r :=
  flatMap_keep (fun _ => rfl) r

def pieces (d : Document) (edits : List Edit) : List Piece :=
  (whole (Edit.sorted edits) d.text.length).pieces

theorem text_apply (d : Document) (edits : List Edit) :
    (d.apply edits).1.text = (d.pieces edits).flatMap d.bytes := by
  cases edits with
  | nil => exact ((bytes_keep d _).trans (Text.slice_whole d.text)).symm
  | cons e rest => rfl

/-- The edits that take effect, in the order in which their replacements are written. -/
def emitted (d : Document) (edits : List Edit) : List Edit :=
  (whole (Edit.sorted edits) d.text.length).emitted (Edit.sorted edits)

/-- The edits that take effect, in order. -/
def applied (d : Document) (edits : List Edit) : List Edit :=
  selected (whole (Edit.sorted edits) d.text.length).applied 0 (Edit.sorted edits)

theorem appliedLines_eq (d : Document) (places : List Nat) (index : Nat) (edits : List Edit) :
    d.appliedLines places index edits =
      (selected places index edits).map fun e => d.originAt e.range.start := by
  induction edits generalizing index with
  | nil => rfl
  | cons e rest ih =>
    rw [appliedLines, selected, ih]
    split <;> rfl

/-- One line is answered for each edit that takes effect. -/
theorem lines_apply (d : Document) (edits : List Edit) :
    (d.apply edits).2 = (d.applied edits).map fun e => d.originAt e.range.start := by
  cases edits with
  | nil => rfl
  | cons e rest => exact appliedLines_eq d _ 0 _

theorem mem_applied_iff {d : Document} : e ∈ d.applied edits ↔ e ∈ d.emitted edits :=
  mem_selected_iff_mem_emitted

/-- A revision that answers no line leaves the text as it is. -/
theorem text_apply_of_no_lines (d : Document) (edits : List Edit) (h : (d.apply edits).2 = []) :
    (d.apply edits).1.text = d.text := by
  have hnone : d.emitted edits = [] := by
    rw [List.eq_nil_iff_forall_not_mem]
    intro e he
    rw [lines_apply, List.map_eq_nil_iff] at h
    have happ := mem_applied_iff.2 he
    rw [h] at happ
    cases happ
  rw [text_apply, pieces, whole_eq_keep hnone, bytes_keep, Text.slice_whole]

theorem pieces_congr {d d' : Document} (h : d.text = d'.text) (edits : List Edit) :
    d.pieces edits = d'.pieces edits := by
  rw [pieces, pieces, h]

theorem applied_congr {d d' : Document} (h : d.text = d'.text) (edits : List Edit) :
    d.applied edits = d'.applied edits := by
  rw [applied, applied, h]

theorem text_apply_congr {d d' : Document} (h : d.text = d'.text) (edits : List Edit) :
    (d.apply edits).1.text = (d'.apply edits).1.text := by
  have hbytes : d.bytes = d'.bytes := by
    funext piece
    cases piece with
    | kept r => rw [bytes, bytes, h]
    | fresh i t => rfl
  rw [text_apply, text_apply, pieces_congr h, hbytes]

theorem length_lines_congr {d d' : Document} (h : d.text = d'.text) (edits : List Edit) :
    (d.apply edits).2.length = (d'.apply edits).2.length := by
  rw [lines_apply, lines_apply, List.length_map, List.length_map, applied_congr h]

end Document

end Uplift
