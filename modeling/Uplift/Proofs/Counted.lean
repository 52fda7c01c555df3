import Uplift.Proofs.Aside
import Uplift.Proofs.Made

namespace Uplift

set_option autoImplicit true

namespace IndexedFor

open Edit

inductive Starts (index : String) : Node → Prop
  | mk (h : value.bare.kind = .number true) : Starts index
      (.mk (.varDecl .scoped ambient) span
        [.mk .declarator span' [.mk (.binding index) span'' cs, value]])

inductive Bounds (index array : String) (test : Node) : Prop
  | mk (h : test.bare = .mk (.binary "<") span [left, right]) (hleft : left.bare.name? = some index)
      (hright : right.bare.member? = some (object, "length"))
        (hobject : object.bare.name? = some array)

inductive Increments (index : String) (step : Node) : Prop
  | mk (h : step.bare = .mk (.update "++") span [e]) (he : e.bare.name? = some index)

inductive Reads (array index : String) (value : Node) : Prop
  | mk (h : value.bare = .mk .index span [object, i]) (hobject : object.bare.name? = some array)
      (hi : i.bare.name? = some index)

structure Count where
  index : String
  array : String
  declaring : Declaring
  pattern : Node
  rest : List Node

namespace Count

/-- The code of the loop that is written again. -/
def survivors (c : Count) : List Node := c.pattern :: c.rest

/--
`for (let index = 0; index < array.length; index++) { declaring pattern = array[index]; rest }`,
with the ranges of the declaration and of the body.
-/
inductive Describes (c : Count) (decl body : Range) : Node → Prop
  | mk (hfirst : Starts c.index first) (htest : Bounds c.index c.array test)
      (hstep : Increments c.index step)
      (hvalue : Reads c.array c.index value) : Describes c decl body
        (.mk .for span [first, test, step, .mk .block body
          (.mk (.varDecl c.declaring ambient) decl [.mk .declarator span' [c.pattern, value]] ::
            c.rest)])

end Count

theorem starts_of_index? (h : index? n = some index) : Starts index n := by
  unfold index? at h
  split at h
  next =>
    split at h
    next hzero =>
      cases h
      exact .mk hzero
    next => cases h
  next => cases h

theorem bounds_of_array? (h : array? index test = some array) : Bounds index array test := by
  unfold array? at h
  split at h
  next span left right hbare =>
    obtain ⟨⟨object, name⟩, hmember, h⟩ := Option.bind_eq_some_iff.1 h
    simp only [Bool.and_eq_true, decide_eq_true_eq] at h
    split at h
    next hnames => exact .mk hbare hnames.1 (hnames.2 ▸ hmember) h
    next => cases h
  next => cases h

theorem increments_of_isStep (h : isStep index step = true) : Increments index step := by
  unfold isStep at h
  split at h
  next hbare => exact .mk hbare (of_decide_eq_true h)
  next => cases h

theorem reads_of_isElement (h : isElement array index n = true) : Reads array index n := by
  unfold isElement at h
  split at h
  next hbare =>
    simp only [Bool.and_eq_true, decide_eq_true_eq] at h
    exact .mk hbare h.2 h.1
  next => cases h

theorem of_element? (h : element? array index n = some (declaring, pattern)) :
    ∃ ambient span span' value,
      n = .mk (.varDecl declaring ambient) span [.mk .declarator span' [pattern, value]] ∧
      pattern.mentions index = false ∧ Reads array index value := by
  unfold element? at h
  split at h
  next =>
    simp only [Bool.and_eq_true, Bool.not_eq_true'] at h
    split at h
    next hkept =>
      cases h
      exact ⟨_, _, _, _, rfl, hkept.1.2, reads_of_isElement hkept.2⟩
    next => cases h
  next => cases h

theorem exists_describes (h : edit? p n = some e) :
    ∃ (c : Count) (decl body : Range), c.Describes decl body n ∧
      (∀ m ∈ c.survivors, m.mentions c.index = false) ∧ (∀ m ∈ c.rest, c.array ∉ m.assigned) ∧
      e = laid n.span [.string ("for (" ++ c.declaring.keyword ++ " "), .reused c.pattern.span,
        .string (" of " ++ c.array ++ ") \x7b"),
          .reused ⟨(p.statementRange decl).stop, body.stop⟩] := by
  unfold edit? at h
  split at h
  next span first test step body decl rest =>
    obtain ⟨index, hindex, h⟩ := Option.bind_eq_some_iff.1 h
    obtain ⟨array, harray, h⟩ := Option.bind_eq_some_iff.1 h
    split at h
    next => cases h
    next hstep =>
      obtain ⟨⟨declaring, pattern⟩, helement, h⟩ := Option.bind_eq_some_iff.1 h
      simp only at h
      split at h
      next => cases h
      next hrest =>
        simp only [replacing_eq_laid, string_laid, reuse_laid, List.nil_append,
          List.cons_append] at h
        simp only [Bool.or_eq_true, Bool.not_eq_true', not_or, Bool.not_eq_false] at hstep
        simp only [Bool.or_eq_true, not_or, Bool.not_eq_true, List.any_eq_false,
          List.contains_iff_mem] at hrest
        obtain ⟨ambient, declSpan, span', value, rfl, hpattern, hvalue⟩ := of_element? helement
        refine ⟨⟨index, array, declaring, pattern, rest⟩, declSpan, body, ?_, ?_, hrest.2,
          (Option.some.inj h).symm⟩
        · exact .mk (starts_of_index? hindex) (bounds_of_array? harray)
            (increments_of_isStep hstep.2) hvalue
        · exact List.forall_mem_cons.2 ⟨hpattern, hrest.1⟩
  next => cases h

/--
Where a loop is rewritten the index is gone, and what survives writes the array just if a part of
the element's pattern that binds nothing writes it.
-/
theorem array_assigned_iff_of_mem_edits {p : Program} {e : Edit} (he : e ∈ edits p) :
    ∃ loop ∈ p.tree.subtrees, ∃ (c : Count) (decl body : Range), c.Describes decl body loop ∧
      e = laid loop.span [.string ("for (" ++ c.declaring.keyword ++ " "), .reused c.pattern.span,
        .string (" of " ++ c.array ++ ") \x7b"),
          .reused ⟨(p.statementRange decl).stop, body.stop⟩] ∧
      (∀ m ∈ c.survivors, m.mentions c.index = false) ∧
      ((∃ m ∈ c.survivors, c.array ∈ m.assigned) ↔
        ∃ x ∈ c.pattern.asides, c.array ∈ x.assigned) := by
  obtain ⟨loop, hloop, he⟩ := List.mem_filterMap.1 he
  obtain ⟨c, decl, body, hdescribes, hindex, hrest, hlaid⟩ := exists_describes he
  refine ⟨loop, hloop, c, decl, body, hdescribes, hlaid, hindex, ?_⟩
  have hpattern : c.array ∈ c.pattern.assigned ↔ ∃ x ∈ c.pattern.asides, c.array ∈ x.assigned := by
    rw [Node.assigned_eq_asides, List.mem_flatMap]
  rw [← hpattern]
  constructor
  · rintro ⟨m, hm, hwritten⟩
    rcases List.mem_cons.1 hm with rfl | hm
    · exact hwritten
    · exact absurd hwritten (hrest m hm)
  · intro hwritten
    exact ⟨c.pattern, List.mem_cons_self, hwritten⟩

theorem array_assigned_iff_of_mem_edits_default :
    ∃ p ∈ (Program.parse .tsx (Text.ofString
        "for (let i = 0; i < xs.length; i++) \x7b const [a, \x7b b = ys \x7d] = xs[i]; use(a, b); \x7d\n")).toOption,
      ∃ e ∈ edits p, ∃ loop ∈ p.tree.subtrees, ∃ (c : Count) (decl body : Range),
        c.Describes decl body loop ∧
        ∀ m ∈ c.survivors, m.mentions c.index = false ∧ c.array ∉ m.assigned := by
  have hparse : ∃ p ∈ (Program.parse .tsx (Text.ofString
        "for (let i = 0; i < xs.length; i++) \x7b const [a, \x7b b = ys \x7d] = xs[i]; use(a, b); \x7d\n")).toOption,
      (edits p).length = 1 ∧
        ∀ n ∈ p.tree.subtrees,
          ((((n.child 3).child 0).child 0).child 0).asides.flatMap Node.assigned = [] := by
    decide +kernel
  obtain ⟨p, hp, hone, hasides⟩ := hparse
  obtain ⟨e, he⟩ := List.exists_mem_of_length_pos (hone ▸ Nat.one_pos)
  obtain ⟨loop, hloop, c, decl, body, hdescribes, _, hindex, harray⟩ :=
    array_assigned_iff_of_mem_edits he
  refine ⟨p, hp, e, he, loop, hloop, c, decl, body, hdescribes, ?_⟩
  intro m hm
  refine ⟨hindex m hm, ?_⟩
  intro hwritten
  obtain ⟨x, hx, hwritten⟩ := harray.1 ⟨m, hm, hwritten⟩
  have hnone : c.pattern.asides.flatMap Node.assigned = [] := by
    cases hdescribes
    exact hasides _ hloop
  have hmem : c.array ∈ c.pattern.asides.flatMap Node.assigned :=
    List.mem_flatMap.2 ⟨x, hx, hwritten⟩
  rw [hnone] at hmem
  cases hmem

/-- A write of the array in a default value is overlooked, and goes on in a loop over the array. -/
theorem array_assigned_in_default :
    ∃ p ∈ (Program.parse .tsx (Text.ofString
        "for (let i = 0; i < xs.length; i++) \x7b const [a, b = (xs = [])] = xs[i]; use(a, b); \x7d\n")).toOption,
      ∃ q ∈ (Program.parse .tsx ((Document.ofText p.text).apply (edits p)).1.text).toOption,
        ∃ loop ∈ q.tree.subtrees, loop.kind = .forOf false ∧ (loop.child 1).name? = some "xs" ∧
          "xs" ∈ (loop.child 0).assigned := by
  decide +kernel

end IndexedFor

end Uplift
