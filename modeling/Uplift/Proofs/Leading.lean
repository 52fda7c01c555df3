import Uplift.Proofs.Frame
import Uplift.Proofs.Made

namespace Uplift

set_option autoImplicit true

open Rendering Slot

/-- Whether a text begins with an opening bracket or a backquote. -/
def Text.opens (t : Text) : Bool := t.head?.any [40, 91, 96].contains

namespace Document

theorem text_sweep (d : Document) (render : Range → Rendering) (index : Nat)
    (h : (picked top r cursor edits).head? = some e) :
    ∃ after, (sweep render top r cursor index edits).pieces.flatMap d.bytes =
      d.text.slice ⟨cursor, e.range.start⟩ ++
        (e.segments.flatMap (d.segmentText render) ++ after) := by
  obtain ⟨rest, hpicked⟩ := List.head?_eq_some_iff.1 h
  rw [text_sweep_eq, hpicked, List.map_cons, spliced]
  exact ⟨_, rfl⟩

theorem infix_sweep (d : Document) (h : e ∈ picked top r cursor edits) :
    (e.segments.flatMap (d.segmentText render)).IsInfix
      ((sweep render top r cursor index edits).pieces.flatMap d.bytes) := by
  rw [text_sweep_eq]
  exact infix_spliced (List.mem_map.2 ⟨e, h, rfl⟩)

end Document

def Edit.Fresh (e : Edit) : Prop := ∃ b t rest, e.segments = .fresh (b :: t) :: rest

theorem Edit.fresh_laid (h : t ≠ []) (range : Range) (segs : List Segment) :
    (laid range (.fresh t :: segs)).Fresh := by
  obtain ⟨b, t, rfl⟩ := List.exists_cons_of_ne_nil h
  exact ⟨b, t, _, rfl⟩

theorem Edit.fresh_wrapped (wrap : Bool) (h : t ≠ []) (range : Range) (segs : List Segment) :
    (laid range (wrapped wrap (.fresh t :: segs))).Fresh := by
  cases wrap with
  | false => exact fresh_laid h range segs
  | true => exact ⟨40, [], _, rfl⟩

theorem safe_laid (h : t.head? = some b) (hb : [40, 91, 96].contains b = false) (text : Text)
    (range : Range) (segs : List Segment) :
    startsSafely text (Edit.laid range (.fresh t :: segs)) = true ∧
      (Edit.laid range (.fresh t :: segs)).Fresh := by
  cases t with
  | nil => cases h
  | cons c t =>
    cases h
    refine ⟨?_, b, t, _, rfl⟩
    rw [startsSafely]
    change (!([40, 91, 96].contains b && _)) = true
    rw [hb]
    rfl

theorem safe_loop (loop : Callback.Inlined) (text : Text) (range iterable : Range) :
    startsSafely text (Edit.laid range (loop.segments iterable)) = true ∧
      (Edit.laid range (loop.segments iterable)).Fresh := by
  have hhead (declaring : Declaring) :
      (Text.ofString ("for (" ++ declaring.keyword ++ " ")).head? = some 102 := by
    cases declaring <;> decide
  exact safe_laid (hhead loop.declaring) (by decide) text range _

theorem MathPow.leads (h : edit? p n = some e) :
    e.Fresh ∨ ∃ s rest, s.isEmpty = false ∧ e.segments = .reused s :: .string " ** " :: rest := by
  obtain ⟨arguments, base, exponent, wrap, _, _, _, rfl⟩ := edit?_eq_some h
  cases wrap with
  | true => exact .inl ⟨40, [], _, rfl⟩
  | false =>
    rw [operandSegments]
    split
    next =>
      simp only [Edit.wrapped, Bool.false_eq_true, ↓reduceIte, List.cons_append, List.nil_append]
      cases hempty : (Segment.reused base.span).isEmpty with
      | true =>
        rw [Edit.laid_cons_of_isEmpty hempty]
        exact .inl (Edit.fresh_laid (by decide) _ _)
      | false =>
        rw [Edit.segments_laid_cons hempty]
        exact .inr ⟨base.span, _, hempty, rfl⟩
    next => exact .inl (Edit.fresh_laid (by decide) _ _)

theorem leads_of_mem_edits {pass : Pass} {p : Program} (h : e ∈ pass.edits p) :
    startsSafely p.text e = true ∧ (e.Fresh ∨ pass = .mathPowToExponent ∧
      ∃ s rest, s.isEmpty = false ∧ e.segments = .reused s :: .string " ** " :: rest) := by
  cases pass with
  | varToConst =>
    obtain ⟨start, declaring, hdeclaring, rfl⟩ := VarToConst.edit_eq_laid h
    rcases hdeclaring with rfl | rfl
    · exact (safe_laid (b := 108) (by decide) (by decide) _ _ _).imp_right .inl
    · exact (safe_laid (b := 99) (by decide) (by decide) _ _ _).imp_right .inl
  | objectAssignToSpread =>
    obtain ⟨n, _, h⟩ := List.mem_filterMap.1 h
    obtain ⟨_, _, sources, wrap, _, _, hsafe, rfl⟩ := ObjectAssign.edit?_eq_some h
    refine ⟨hsafe, .inl ?_⟩
    split
    · exact Edit.fresh_wrapped wrap (by decide) _ _
    · exact Edit.fresh_wrapped wrap (by decide) _ _
  | arrayFromForEachToForOf =>
    obtain ⟨n, _, h⟩ := List.mem_filterMap.1 h
    obtain ⟨_, _, _, _, _, _, _, loop, _, _, _, _, _, _, rfl⟩ := ArrayFromForEach.edit?_eq_some h
    exact (safe_loop loop _ _ _).imp_right .inl
  | arrayFromToSpread =>
    obtain ⟨n, _, h⟩ := List.mem_filterMap.1 h
    obtain ⟨_, _, _, _, hsafe, rfl⟩ := ArrayFromSpread.edit?_eq_some h
    exact ⟨hsafe, .inl (Edit.fresh_laid (by decide) _ _)⟩
  | arrayConcatToSpread =>
    obtain ⟨n, _, h⟩ := List.mem_filterMap.1 h
    obtain ⟨_, _, _, _, hsafe, rfl⟩ := ArrayConcat.edit?_eq_some h
    exact ⟨hsafe, .inl (Edit.fresh_laid (by decide) _ _)⟩
  | mathPowToExponent =>
    obtain ⟨n, _, h⟩ := List.mem_filterMap.1 h
    obtain ⟨_, _, _, _, _, _, hsafe, _⟩ := MathPow.edit?_eq_some h
    exact ⟨hsafe, (MathPow.leads h).imp_right fun hreused => ⟨rfl, hreused⟩⟩
  | indexedForToForOf =>
    obtain ⟨n, _, h⟩ := List.mem_filterMap.1 h
    obtain ⟨_, _, _, _, _, _, _, _, _, declaring, _, _, _, _, _, rfl⟩ := IndexedFor.edit?_eq_some h
    refine (safe_laid (b := 102) ?_ (by decide) _ _ _).imp_right .inl
    cases declaring <;> decide
  | domForEachToForOf =>
    obtain ⟨n, _, h⟩ := List.mem_filterMap.1 h
    obtain ⟨_, _, _, _, _, loop, _, _, _, _, rfl⟩ := DomForEach.edit?_eq_some h
    exact (safe_loop loop _ _ _).imp_right .inl
  | objectKeysForOfToForIn =>
    obtain ⟨n, _, h⟩ := List.mem_filterMap.1 h
    obtain ⟨_, _, _, _, _, _, _, _, _, rfl⟩ := ObjectKeys.edit?_eq_some h
    exact (safe_laid (b := 102) (by decide) (by decide) _ _ _).imp_right .inl
  | stringConcatToTemplate =>
    obtain ⟨n, _, h⟩ := List.mem_filterMap.1 ((StringConcat.edits_sublist p).subset h)
    obtain ⟨_, _, _, _, h⟩ := StringConcat.sum?_eq_some h
    obtain ⟨t, _, hsafe, rfl⟩ := StringConcat.edit?_eq_some h
    refine ⟨hsafe, .inl (Edit.fresh_laid ?_ _ _)⟩
    rw [Text.ofChars, List.flatMap_cons]
    exact List.append_ne_nil_of_left_ne_nil (by decide) _
  | functionToArrow =>
    obtain ⟨n, _, h⟩ := List.mem_filterMap.1 h
    obtain ⟨_, _, async, _, _, _, _, _, _, wrap, _, _, hsafe, rfl⟩ :=
      FunctionToArrow.edit?_eq_some h
    refine ⟨hsafe, .inl (Edit.fresh_wrapped wrap ?_ _ _)⟩
    cases async <;> decide
  | promiseConstructorToTry =>
    obtain ⟨n, _, h⟩ := List.mem_filterMap.1 h
    obtain ⟨_, _, _, _, _, _, _, _, _, _, _, _, _, _, rfl⟩ := PromiseTry.edit?_eq_some h
    exact (safe_laid (b := 80) (by decide) (by decide) _ _ _).imp_right .inl

theorem Text.head?_slice (h : Text.slice t ⟨start, stop⟩ ≠ []) :
    (t.slice ⟨start, stop⟩).head? = t[start]? := by
  have hlt : start < stop := by
    apply Nat.lt_of_not_le
    intro hle
    exact h (Range.cut_of_isEmpty t (decide_eq_true hle))
  exact Range.head?_cut t hlt

theorem Text.opens_append_of_ne_nil {a : Text} (h : a ≠ []) (b : Text) :
    (a ++ b).opens = a.opens := by
  obtain ⟨x, a, rfl⟩ := List.exists_cons_of_ne_nil h
  rfl

theorem not_continues (hsafe : startsSafely t e = true) (hlead : leadingByte? t e.segments = some b)
    (hb : [40, 91, 96].contains b = true) : continuesPrevious t e.range.start = false := by
  rw [startsSafely, hlead] at hsafe
  simp only [hb, Bool.true_and, Bool.not_eq_true'] at hsafe
  exact hsafe

namespace Document

variable {d : Document} {p : Program} {pass : Pass} {e f : Edit} {edits : List Edit}

/-- The replacement of `e` begins with that of `f`, which is nested in it. -/
def Led (d : Document) (edits : List Edit) (e f : Edit) : Prop :=
  ∃ s rest, e.segments = .reused s :: rest ∧ (picked false s s.start edits).head? = some f ∧
    d.text.slice ⟨s.start, f.range.start⟩ = []

theorem replacementText_fresh (h : e.segments = .fresh (b :: t) :: rest) (edits : List Edit)
    (depth : Nat) : ∃ after, d.replacementText edits depth e = b :: after := by
  rw [replacementText, h]
  exact ⟨_, rfl⟩

theorem replacementText_ne_nil (h : e ∈ pass.edits p) (edits : List Edit) (depth : Nat) :
    d.replacementText edits depth e ≠ [] := by
  rcases (leads_of_mem_edits h).2 with ⟨b, t, rest, hs⟩ | ⟨_, s, rest, _, hs⟩
  · obtain ⟨after, he⟩ := replacementText_fresh (d := d) hs edits depth
    rw [he]
    exact List.cons_ne_nil _ _
  · rw [replacementText, hs, List.flatMap_cons, List.flatMap_cons]
    apply List.append_ne_nil_of_right_ne_nil
    have hpower : d.segmentText (reused edits depth) (.string " ** ") = [32, 42, 42, 32] := rfl
    rw [hpower]
    exact List.cons_ne_nil _ _

theorem Led.opens_eq (h : d.Led edits e f) (hf : f ∈ pass.edits p) (depth : Nat) :
    (d.replacementText edits (depth + 1) e).opens = (d.replacementText edits depth f).opens := by
  obtain ⟨s, rest, hs, hhead, hslice⟩ := h
  obtain ⟨after, htext⟩ := text_sweep d (reused edits depth) 0 hhead
  have hne := replacementText_ne_nil (d := d) hf edits depth
  rw [hslice, List.nil_append] at htext
  rw [replacementText, hs, List.flatMap_cons, segmentText, reused, htext, List.append_assoc]
  exact Text.opens_append_of_ne_nil hne _

/--
Where a bracket at the start of a replacement goes on with what is before it, the bracket is that of
a nested edit.
-/
theorem led_of_opens (h : e ∈ pass.edits p) (hd : d.text = p.text) (depth : Nat)
    (hopens : (d.replacementText edits (depth + 1) e).opens = true)
    (hcontinues : continuesPrevious p.text e.range.start = true) :
    pass = .mathPowToExponent ∧ ∃ f, d.Led edits e f := by
  obtain ⟨hsafe, hlead⟩ := leads_of_mem_edits h
  have hnot (b : UInt8) (hb : leadingByte? p.text e.segments = some b) :
      (d.replacementText edits (depth + 1) e).head? ≠ some b := by
    intro hhead
    rw [Text.opens, hhead] at hopens
    have hfalse := not_continues hsafe hb hopens
    rw [hcontinues] at hfalse
    cases hfalse
  rcases hlead with ⟨b, t, rest, hs⟩ | ⟨hpass, s, rest, _, hs⟩
  · obtain ⟨after, he⟩ := replacementText_fresh (d := d) hs edits (depth + 1)
    refine absurd ?_ (hnot b (by rw [hs]; rfl))
    rw [he]
    rfl
  · refine ⟨hpass, ?_⟩
    -- what is kept before the first nested edit begins with the byte that was checked
    have hkept (stop : Nat) (hstop : d.text.slice ⟨s.start, stop⟩ ≠ []) (after : Text)
        (he : (reused edits (depth + 1) s).pieces.flatMap d.bytes =
          d.text.slice ⟨s.start, stop⟩ ++ after) :
        False := by
      obtain ⟨b, hb⟩ := Option.ne_none_iff_exists'.1 (mt List.head?_eq_none_iff.1 hstop)
      have hbyte : p.text[s.start]? = some b := by
        rw [← hd, ← Text.head?_slice hstop, hb]
      refine hnot b ?_ ?_
      · rw [hs, leadingByte?, List.findSome?_cons]
        simp only [hbyte]
      · rw [replacementText, hs, List.flatMap_cons, segmentText, he, List.append_assoc,
          List.head?_append, hb]
        rfl
    cases hpicked : (picked false s s.start edits).head? with
    | none =>
      have hnone : sweep (reused edits depth) false s s.start 0 edits = keep ⟨s.start, s.stop⟩ :=
        sweep_eq_keep (List.head?_eq_none_iff.1 hpicked)
      have htext :
          (reused edits (depth + 1) s).pieces.flatMap d.bytes = d.text.slice ⟨s.start, s.stop⟩ := by
        rw [reused, hnone, bytes_keep]
      by_cases hslice : d.text.slice ⟨s.start, s.stop⟩ = []
      · rw [replacementText, hs, List.flatMap_cons, segmentText, htext, hslice] at hopens
        cases hopens
      · refine (hkept s.stop hslice [] ?_).elim
        rw [htext, List.append_nil]
    | some f =>
      by_cases hslice : d.text.slice ⟨s.start, f.range.start⟩ = []
      · exact ⟨f, s, _, hs, hpicked, hslice⟩
      · obtain ⟨after, htext⟩ := text_sweep d (reused edits depth) 0 hpicked
        exact (hkept f.range.start hslice _ htext).elim

/--
The replacement of an edit that is applied at the top is written in one piece. It begins with a
bracket that goes on with the expression before it if and only if it is a power that begins with the
replacement of a nested power, and that one begins with a bracket.
-/
theorem opens_and_continues_iff (d : Document) (p : Program) (pass : Pass) (e : Edit)
    (hd : d.text = p.text)
    (he : e ∈ picked true ⟨0, d.text.length⟩ 0 (Edit.sorted (pass.edits p))) :
    (d.replacementText (Edit.sorted (pass.edits p)) (Edit.sorted (pass.edits p)).length e).IsInfix
      (d.apply (pass.edits p)).1.text ∧
    ((d.replacementText (Edit.sorted (pass.edits p)) (Edit.sorted (pass.edits p)).length e).opens =
      true ∧
        continuesPrevious p.text e.range.start = true ↔
      pass = .mathPowToExponent ∧ continuesPrevious p.text e.range.start = true ∧
        ∃ f, d.Led (Edit.sorted (pass.edits p)) e f ∧
          (d.replacementText (Edit.sorted (pass.edits p))
            ((Edit.sorted (pass.edits p)).length - 1) f).opens = true) := by
  have hmem {f : Edit} (hf : f ∈ Edit.sorted (pass.edits p)) : f ∈ pass.edits p :=
    (Edit.sorted_perm _).mem_iff.1 hf
  have hsorted := (picked_sublist _ _ _ _).subset he
  obtain ⟨depth, hdepth⟩ : ∃ depth, (Edit.sorted (pass.edits p)).length = depth + 1 :=
    Nat.exists_eq_add_one.2 (List.length_pos_of_mem hsorted)
  constructor
  · rw [text_apply, pieces, whole]
    exact infix_sweep d he
  · have hled (f : Edit) (h : d.Led (Edit.sorted (pass.edits p)) e f) : f ∈ pass.edits p := by
      obtain ⟨s, rest, _, hhead, _⟩ := h
      exact hmem ((picked_sublist _ _ _ _).subset (List.mem_of_mem_head? hhead))
    rw [hdepth, Nat.add_sub_cancel]
    constructor
    · rintro ⟨hopens, hcontinues⟩
      obtain ⟨hpass, f, hf⟩ := led_of_opens (hmem hsorted) hd depth hopens hcontinues
      refine ⟨hpass, hcontinues, f, hf, ?_⟩
      rw [← hf.opens_eq (hled f hf) depth]
      exact hopens
    · rintro ⟨_, hcontinues, f, hf, hopens⟩
      refine ⟨?_, hcontinues⟩
      rw [hf.opens_eq (hled f hf) depth]
      exact hopens

theorem opens_and_continues_iff_terminated :
    ∃ p ∈ (Program.parse .tsx (Text.ofString "f();\nArray.from(x);")).toOption,
      ∃ e ∈ picked true ⟨0, (ofText p.text).text.length⟩ 0
        (Edit.sorted (Pass.edits .arrayFromToSpread p)),
        ((ofText p.text).replacementText (Edit.sorted (Pass.edits .arrayFromToSpread p))
          (Edit.sorted (Pass.edits .arrayFromToSpread p)).length e).opens = true ∧
        continuesPrevious p.text e.range.start = false := by
  have hparse : ∃ p ∈ (Program.parse .tsx (Text.ofString "f();\nArray.from(x);")).toOption,
      ∃ e ∈ picked true ⟨0, (ofText p.text).text.length⟩ 0
        (Edit.sorted (Pass.edits .arrayFromToSpread p)),
        ((ofText p.text).replacementText (Edit.sorted (Pass.edits .arrayFromToSpread p))
          (Edit.sorted (Pass.edits .arrayFromToSpread p)).length e).opens = true := by
    decide +kernel
  obtain ⟨p, hp, e, he, hopens⟩ := hparse
  refine ⟨p, hp, e, he, hopens, ?_⟩
  rw [← Bool.not_eq_true]
  intro hcontinues
  have hiff := (opens_and_continues_iff (ofText p.text) p .arrayFromToSpread e rfl he).2
  exact absurd (hiff.1 ⟨hopens, hcontinues⟩).1 (by decide)

/--
After a line that ends in a call, a power whose base begins with another power in parentheses
becomes an argument of that call.
-/
theorem opens_and_continues_of_nested_power :
    ∃ p ∈ (Program.parse .tsx (Text.ofString "f()\nMath.pow(Math.pow(x, 2).y, 3);\n")).toOption,
      (∃ e ∈ picked true ⟨0, (ofText p.text).text.length⟩ 0
        (Edit.sorted (Pass.edits .mathPowToExponent p)),
        ((ofText p.text).replacementText (Edit.sorted (Pass.edits .mathPowToExponent p))
          (Edit.sorted (Pass.edits .mathPowToExponent p)).length e).opens = true ∧
        continuesPrevious p.text e.range.start = true) ∧
      ((ofText p.text).apply (Pass.edits .mathPowToExponent p)).1.text =
        Text.ofString "f()\n(x ** 2).y ** 3;\n" := by
  decide +kernel

end Document

end Uplift
