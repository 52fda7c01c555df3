import Mathlib.Algebra.Group.Nat.Defs
import Uplift.Proofs.Document
import Uplift.Proofs.Line

namespace Uplift

set_option autoImplicit true

/-- Where a byte of a revised text comes from. -/
inductive Source where
  | carried (offset : Nat)
  | fresh (line : Nat)
deriving DecidableEq, Repr

def Source.startedLine (first : Text) : Source → Nat
  | .carried o => (LineIndex.ofText first).lineNumber o + 1
  | .fresh line => line

/-- A text in which every byte is marked with its source. -/
abbrev Marked := List (UInt8 × Source)

namespace Marked

def ofText (t : Text) : Marked := t.zipIdx.map fun (b, o) => (b, .carried o)

def slice (m : Marked) (r : Range) : Marked := (m.take r.stop).drop r.start

def breaks (m : Marked) : List Source :=
  m.filterMap fun (b, s) => if b = Text.newline then some s else none

def lastBreak? (m : Marked) (offset : Nat) : Option Source := (breaks (m.take offset)).getLast?

/-- The line of the first text to which the last line break before an offset belongs. -/
def line (first : Text) (m : Marked) (offset : Nat) : Nat :=
  (m.lastBreak? offset).elim 1 (Source.startedLine first)

def ofPiece (first : Text) (m : Marked) (edits : List Edit) : Piece → Marked
  | .kept r => m.slice r
  | .fresh i t =>
    t.map (·, .fresh (m.line first ((edits[i]?.map (·.range.start)).getD 0)))

def apply (first : Text) (m : Marked) (edits : List Edit) : Marked :=
  (Rendering.whole (Edit.sorted edits) m.length).pieces.flatMap
    (m.ofPiece first (Edit.sorted edits))

def revised (first : Text) (steps : List (List Edit)) : Marked :=
  steps.foldl (apply first) (ofText first)

theorem breaks_append (m n : Marked) : breaks (m ++ n) = breaks m ++ breaks n :=
  List.filterMap_append

theorem breaks_flatMap (l : List α) (f : α → Marked) :
    breaks (l.flatMap f) = l.flatMap fun a => breaks (f a) :=
  List.filterMap_flatMap

theorem breaks_cons (b : UInt8) (s : Source) (m : Marked) :
    breaks ((b, s) :: m) = if b = Text.newline then s :: breaks m else breaks m := by
  by_cases hb : b = Text.newline
  · simp only [breaks, List.filterMap_cons, hb, ↓reduceIte]
  · simp only [breaks, List.filterMap_cons, hb, ↓reduceIte]

theorem length_breaks (m : Marked) : (breaks m).length = (m.map Prod.fst).count Text.newline := by
  induction m with
  | nil => rfl
  | cons x m ih =>
    obtain ⟨b, s⟩ := x
    rw [breaks_cons, List.map_cons, List.count_cons, ← ih]
    by_cases hb : b = Text.newline
    · simp only [hb, ↓reduceIte, List.length_cons, beq_self_eq_true]
    · simp only [hb, ↓reduceIte, beq_iff_eq, Nat.add_zero]

theorem mem_breaks (m : Marked) : s ∈ breaks m ↔ (Text.newline, s) ∈ m := by
  induction m with
  | nil => exact ⟨fun h => (nomatch h), fun h => (nomatch h)⟩
  | cons x m ih =>
    obtain ⟨b, s'⟩ := x
    rw [breaks_cons, List.mem_cons, Prod.mk.injEq, ← ih]
    by_cases hb : b = Text.newline
    · simp only [hb, ↓reduceIte, List.mem_cons, true_and]
    · have hne : ¬Text.newline = b := fun h => hb h.symm
      simp only [hb, hne, ↓reduceIte, false_and, false_or]

theorem breaks_fresh (t : Text) (s : Source) :
    breaks (t.map (·, s)) = List.replicate (t.count Text.newline) s := by
  induction t with
  | nil => rfl
  | cons b t ih =>
    rw [List.map_cons, breaks_cons, List.count_cons, ih]
    by_cases hb : b = Text.newline
    · simp only [hb, ↓reduceIte, beq_self_eq_true, List.replicate_succ]
    · simp only [hb, ↓reduceIte, beq_iff_eq, Nat.add_zero]

theorem map_slice (m : Marked) (r : Range) :
    (m.slice r).map Prod.fst = Text.slice (m.map Prod.fst) r := by
  rw [slice, Text.slice, List.map_drop, List.map_take]

theorem slice_begins (m : Marked) (r : Range) : m.slice r <+: m.drop r.start := by
  rw [slice, List.drop_take]
  exact List.take_prefix _ _

theorem getElem?_last_break (x : Nat) (a b : List Nat) :
    (x :: (a ++ b))[a.length]? = some (a.getLast?.getD x) := by
  induction a generalizing x with
  | nil => rfl
  | cons y a ih =>
    rw [List.length_cons, List.cons_append, List.getElem?_cons_succ, ih, List.getLast?_cons,
      Option.getD_some]

theorem line_succ (first : Text) (hb : m[offset]? = some (Text.newline, s)) :
    line first m (offset + 1) = s.startedLine first := by
  have htake : m.take (offset + 1) = m.take offset ++ [(Text.newline, s)] := by
    rw [List.take_add_one, hb]
    rfl
  rw [line, lastBreak?, htake, breaks_append, breaks_cons, if_pos rfl, List.getLast?_append]
  rfl

theorem startedLines (first before rest : Text) (hf : before ++ rest = first) :
    (breaks ((rest.zipIdx before.length).map fun (b, o) => (b, Source.carried o))).map
        (Source.startedLine first) =
      List.range' (before.count Text.newline + 2) (rest.count Text.newline) := by
  induction rest generalizing before with
  | nil => rfl
  | cons b rest ih =>
    have hnext := ih (before ++ [b]) (by rw [List.append_assoc, List.singleton_append, hf])
    have hline : (LineIndex.ofText first).lineNumber before.length =
        before.count Text.newline + 1 := by
      rw [LineIndex.lineNumber, LineIndex.lineOf_ofText, ← hf, List.take_left]
    rw [List.length_append, List.length_singleton, List.count_append, List.count_singleton] at hnext
    rw [List.zipIdx_cons, List.map_cons, breaks_cons, List.count_cons]
    by_cases hb : b = Text.newline
    · simp only [hb, ↓reduceIte, beq_self_eq_true] at hnext ⊢
      rw [List.map_cons, hnext, Source.startedLine, hline, List.range'_succ]
    · simp only [hb, ↓reduceIte, beq_iff_eq, Nat.add_zero] at hnext ⊢
      exact hnext

theorem apply_nil (first : Text) (m : Marked) : m.apply first [] = m := by
  cases m with
  | nil => rfl
  | cons x m =>
    change slice (x :: m) ⟨0, (x :: m).length⟩ ++ [] = x :: m
    rw [List.append_nil, slice, List.take_length, List.drop_zero]

theorem mem_ofPiece {m : Marked} (h : (b, s) ∈ m.ofPiece first edits piece) :
    (b, s) ∈ m ∨ ∃ offset, s = .fresh (m.line first offset) := by
  cases piece with
  | kept r => exact .inl (List.mem_of_mem_take (List.mem_of_mem_drop h))
  | fresh i t =>
    obtain ⟨x, _, he⟩ := List.mem_map.1 h
    cases he
    exact .inr ⟨_, rfl⟩

end Marked

/-- The marks of `m` account for the text of a document and for its origins. -/
structure Document.Accounted (first : Text) (d : Document) (m : Marked) : Prop where
  text : d.text = m.map Prod.fst
  lines : d.lines = LineIndex.ofText d.text
  origins : d.origins.toList = 1 :: m.breaks.map (Source.startedLine first)
  verbatim : ∀ b o, (b, Source.carried o) ∈ m → first[o]? = some b
  bounded : ∀ s ∈ m.breaks, 1 ≤ s.startedLine first ∧
      s.startedLine first ≤ first.count Text.newline + 1

namespace Document.Accounted

open Marked

theorem length_eq (h : Accounted first d m) : m.length = d.text.length := by
  rw [h.text, List.length_map]

theorem originAt (h : Accounted first d m) (offset : Nat) :
    d.originAt offset = m.line first offset := by
  have hline : d.lines.lineOf offset = (breaks (m.take offset)).length := by
    rw [h.lines, LineIndex.lineOf_ofText, length_breaks, h.text, List.map_take]
  have hsplit : m.breaks = breaks (m.take offset) ++ breaks (m.drop offset) := by
    rw [← breaks_append, List.take_append_drop]
  rw [Document.originAt, hline, ← Array.getElem?_toList, h.origins, hsplit, List.map_append,
    ← List.length_map (f := Source.startedLine first), getElem?_last_break, List.getLast?_map, line,
    lastBreak?]
  cases (breaks (m.take offset)).getLast? <;> rfl

theorem line_bounds (h : Accounted first d m) (offset : Nat) :
    1 ≤ m.line first offset ∧ m.line first offset ≤ first.count Text.newline + 1 := by
  rw [Marked.line]
  cases hlast : m.lastBreak? offset with
  | none => exact ⟨Nat.le_refl _, Nat.le_add_left _ _⟩
  | some s =>
    have hmem : s ∈ breaks (m.take offset) := List.mem_of_getLast? hlast
    rw [mem_breaks] at hmem
    exact h.bounded s ((mem_breaks m).2 (List.mem_of_mem_take hmem))

theorem originAt_bounds (h : Accounted first d m) (offset : Nat) :
    1 ≤ d.originAt offset ∧ d.originAt offset ≤ first.count Text.newline + 1 := by
  rw [h.originAt]
  exact h.line_bounds offset

theorem keptOrigins (h : Accounted first d m) (hn : n <+: m.drop offset) :
    d.keptOrigins offset (n.map Prod.fst) = (breaks n).map (Source.startedLine first) := by
  induction n generalizing offset with
  | nil => rfl
  | cons x n ih =>
    obtain ⟨b, s⟩ := x
    have hget : m[offset]? = some (b, s) := by
      obtain ⟨rest, hrest⟩ := hn
      rw [← Nat.add_zero offset, ← List.getElem?_drop, ← hrest]
      rfl
    have hnext : n <+: m.drop (offset + 1) := by
      obtain ⟨rest, hrest⟩ := hn
      refine ⟨rest, ?_⟩
      rw [← List.tail_drop, ← hrest]
      rfl
    rw [List.map_cons, Document.keptOrigins, ih hnext, breaks_cons]
    by_cases hb : b = Text.newline
    · rw [hb] at hget
      rw [if_pos hb, if_pos hb, h.originAt, line_succ first hget, List.map_cons]
    · rw [if_neg hb, if_neg hb]

theorem bytes_piece (h : Accounted first d m) (edits : List Edit) (piece : Piece) :
    d.bytes piece = (m.ofPiece first edits piece).map Prod.fst := by
  cases piece with
  | kept r => rw [Document.bytes, ofPiece, map_slice, h.text]
  | fresh i t => rw [Document.bytes, ofPiece, List.map_map]; exact (List.map_id _).symm

theorem origins_piece (h : Accounted first d m) (edits : List Edit) (piece : Piece) :
    d.origins? edits piece =
      (breaks (m.ofPiece first edits piece)).map (Source.startedLine first) := by
  cases piece with
  | kept r =>
    rw [Document.origins?, ofPiece, h.text, ← map_slice]
    exact h.keptOrigins (slice_begins m r)
  | fresh i t =>
    rw [Document.origins?, ofPiece, breaks_fresh, List.map_replicate, h.originAt]
    rfl

theorem ofText (t : Text) : Accounted t (Document.ofText t) (Marked.ofText t) where
  text := by
    rw [Marked.ofText, List.map_map]
    exact (List.zipIdx_map_fst 0 t).symm
  lines := rfl
  origins := by
    have h := startedLines t [] t rfl
    rw [Document.ofText, List.toList_toArray, LineIndex.size_ofText, List.range'_succ]
    exact congrArg (1 :: ·) h.symm
  verbatim := by
    intro b o h
    obtain ⟨x, hx, he⟩ := List.mem_map.1 h
    cases he
    exact List.mem_zipIdx_iff_getElem?.1 hx
  bounded := by
    intro s hs
    have hmem := List.mem_map_of_mem (f := Source.startedLine t) hs
    have hlines := startedLines t [] t rfl
    rw [List.count_nil] at hlines
    rw [Marked.ofText] at hmem
    rw [show ([] : Text).length = 0 from rfl] at hlines
    rw [hlines, List.mem_range'_1] at hmem
    omega

theorem first_origin (h : Accounted first d m) : d.origins[0]?.getD 0 = 1 := by
  rw [← Array.getElem?_toList, h.origins]
  rfl

theorem size_origins (h : Accounted first d m) :
    d.origins.size = d.text.count Text.newline + 1 := by
  rw [← Array.length_toList, h.origins, List.length_cons, List.length_map, length_breaks, h.text]

theorem size_lines (h : Accounted first d m) : d.lines.size = d.text.count Text.newline + 1 := by
  rw [h.lines, LineIndex.size_ofText]

theorem origin_bounds (h : Accounted first d m) (hl : l ∈ d.origins.toList) :
    1 ≤ l ∧ l ≤ first.count Text.newline + 1 := by
  rw [h.origins] at hl
  rcases List.mem_cons.1 hl with rfl | hl
  · exact ⟨Nat.le_refl _, Nat.le_add_left _ _⟩
  · obtain ⟨s, hs, rfl⟩ := List.mem_map.1 hl
    exact h.bounded s hs

theorem lineOf_lt (h : Accounted first d m) (offset : Nat) :
    d.lines.lineOf offset < d.origins.size := by
  have hle : (d.text.take offset).count Text.newline ≤ d.text.count Text.newline :=
    (List.take_sublist offset d.text).count_le _
  rw [h.lines, LineIndex.lineOf_ofText, h.size_origins]
  exact Nat.lt_succ_of_le hle

theorem lookup (h : Accounted first d m) (offset : Nat) :
    d.origins[d.lines.lineOf offset]? = some (d.originAt offset) := by
  have hlt := h.lineOf_lt offset
  rw [Document.originAt, Array.getElem?_eq_getElem hlt, Option.getD_some]

/-- A revision keeps the marks in step with the origins. -/
theorem apply (h : Accounted first d m) (edits : List Edit) :
    Accounted first (d.apply edits).1 (m.apply first edits) := by
  cases edits with
  | nil =>
    rw [apply_nil]
    exact h
  | cons e rest =>
    refine ⟨?_, rfl, ?_, ?_, ?_⟩
    · rw [text_apply, pieces, Marked.apply, h.length_eq, List.map_flatMap]
      exact congrArg (List.flatMap · _) (funext (h.bytes_piece _))
    · change d.origins[0]?.getD 0 :: (d.pieces (e :: rest)).flatMap (d.origins? _) = _
      rw [h.first_origin, pieces, Marked.apply, h.length_eq, breaks_flatMap, List.map_flatMap]
      exact congrArg (1 :: List.flatMap · _) (funext (h.origins_piece _))
    · intro b o hb
      obtain ⟨piece, _, hb⟩ := List.mem_flatMap.1 hb
      rcases mem_ofPiece hb with hb | ⟨_, he⟩
      · exact h.verbatim b o hb
      · cases he
    · intro s hs
      rw [mem_breaks] at hs
      obtain ⟨piece, _, hs⟩ := List.mem_flatMap.1 hs
      rcases mem_ofPiece hs with hs | ⟨offset, rfl⟩
      · exact h.bounded s ((mem_breaks m).2 hs)
      · exact h.line_bounds offset

end Document.Accounted

def Document.revised (first : Text) (steps : List (List Edit)) : Document :=
  steps.foldl (fun d edits => (d.apply edits).1) (ofText first)

namespace Document

open Marked

theorem accounted_revised (first : Text) (steps : List (List Edit)) :
    Accounted first (Document.revised first steps) (Marked.revised first steps) := by
  have hsteps : ∀ d m, Accounted first d m → Accounted first
      (steps.foldl (fun d edits => (d.apply edits).1) d) (steps.foldl (Marked.apply first) m) := by
    induction steps with
    | nil => exact fun d m h => h
    | cons edits steps ih => exact fun d m h => ih _ _ (h.apply edits)
  exact hsteps _ _ (.ofText first)

/--
After any revisions, the origin at an offset is the line that the last line break before it starts.
A byte that is carried over has the line it stood on as its origin exactly if that is this line.
-/
theorem originAt_revised (first : Text) (steps : List (List Edit)) :
    (revised first steps).text = (Marked.revised first steps).map Prod.fst ∧
    (∀ p, (revised first steps).originAt p = (Marked.revised first steps).line first p) ∧
    (∀ p b o, (Marked.revised first steps)[p]? = some (b, .carried o) → first[o]? = some b ∧
      ((revised first steps).originAt p = (LineIndex.ofText first).lineNumber o ↔
        match (Marked.revised first steps).lastBreak? p with
        | none => (LineIndex.ofText first).lineNumber o = 1
        | some (.carried q) =>
          (LineIndex.ofText first).lineNumber o = (LineIndex.ofText first).lineNumber q + 1
        | some (.fresh line) => (LineIndex.ofText first).lineNumber o = line)) ∧
    ∀ edits, ((revised first steps).apply edits).2 =
      ((revised first steps).applied edits).map fun e =>
        (Marked.revised first steps).line first e.range.start := by
  have h := accounted_revised first steps
  refine ⟨h.text, h.originAt, ?_, ?_⟩
  · intro p b o hp
    refine ⟨h.verbatim b o (List.mem_of_getElem? hp), ?_⟩
    rw [h.originAt, Marked.line, eq_comm]
    cases (Marked.revised first steps).lastBreak? p with
    | none => exact .rfl
    | some s => cases s <;> exact .rfl
  · intro edits
    rw [lines_apply]
    simp only [h.originAt]

theorem originAt_revised_moved :
    (Marked.revised (Text.ofString "a\nb") [[⟨⟨0, 1⟩, [.fresh (Text.ofString "c\nd\ne")]⟩]])[6]? =
      some (98, .carried 2) ∧
    (revised (Text.ofString "a\nb") [[⟨⟨0, 1⟩, [.fresh (Text.ofString "c\nd\ne")]⟩]]).originAt 6 =
      (LineIndex.ofText (Text.ofString "a\nb")).lineNumber 2 :=
  ⟨by decide, ((originAt_revised _ _).2.2.1 6 98 2 (by decide)).2.2 rfl⟩

/-- A byte behind a deleted line break has the line before it as its origin. -/
theorem originAt_behind_deleted_break :
    (Edit.replacing ⟨0, 2⟩).range.within ⟨0, 3⟩ = true ∧
    (Marked.revised (Text.ofString "a\nb") [[Edit.replacing ⟨0, 2⟩]])[0]? = some (98, .carried 2) ∧
    (LineIndex.ofText (Text.ofString "a\nb")).lineNumber 2 = 2 ∧
    (revised (Text.ofString "a\nb") [[Edit.replacing ⟨0, 2⟩]]).originAt 0 = 1 := by
  decide

/--
After any revisions there is one origin for each line of the text, and it is a line of the first
text. So the lookup at any offset, also past the end, stays inside the table.
-/
theorem origins_revised (first : Text) (steps : List (List Edit)) :
    (revised first steps).origins.size = (revised first steps).text.count Text.newline + 1 ∧
    (∀ l ∈ (revised first steps).origins.toList, 1 ≤ l ∧ l ≤ (LineIndex.ofText first).size) ∧
    ((LineIndex.ofText first).size < 2 ^ 32 →
      ∀ l ∈ (revised first steps).origins.toList, l < 2 ^ 32) ∧
    (∀ offset, (revised first steps).lines.lineOf offset < (revised first steps).origins.size ∧
      (revised first steps).origins[(revised first steps).lines.lineOf offset]? =
        some ((revised first steps).originAt offset)) ∧
    (revised first steps).origins.size = (revised first steps).lines.size := by
  have h := accounted_revised first steps
  have hbounds : ∀ l ∈ (revised first steps).origins.toList,
      1 ≤ l ∧ l ≤ (LineIndex.ofText first).size := by
    intro l hl
    rw [LineIndex.size_ofText]
    exact h.origin_bounds hl
  refine ⟨h.size_origins, hbounds, ?_, fun offset => ⟨h.lineOf_lt offset, h.lookup offset⟩, ?_⟩
  · intro hsize l hl
    exact Nat.lt_of_le_of_lt (hbounds l hl).2 hsize
  · rw [h.size_origins, h.size_lines]

def swappedLines : List (List Edit) :=
  [[⟨⟨0, 4⟩, [.reused ⟨2, 4⟩, .fresh [10], .reused ⟨0, 2⟩]⟩],
    [⟨⟨1, 3⟩, [.fresh [10, 10], .reused ⟨1, 2⟩]⟩]]

theorem origins_revised_swapped :
    (LineIndex.ofText (Text.ofString "a\nb\nc")).size < 2 ^ 32 ∧
    3 ∈ (revised (Text.ofString "a\nb\nc") swappedLines).origins.toList ∧
    (1 ≤ 3 ∧ 3 ≤ (LineIndex.ofText (Text.ofString "a\nb\nc")).size) ∧ 3 < 2 ^ 32 :=
  ⟨by decide, by decide, (origins_revised _ swappedLines).2.1 3 (by decide),
    (origins_revised (Text.ofString "a\nb\nc") swappedLines).2.2.1 (by decide) 3 (by decide)⟩

end Document

end Uplift
