import Uplift.Proofs.Frame
import Uplift.Proofs.Origin

namespace Uplift

set_option autoImplicit true

/-- `s` lies before `r` and the item in front of it, or behind `r`. -/
def Range.Avoids (s r : Range) : Prop :=
  s.start < r.start ∧ s.stop < r.start ∨ r.stop ≤ s.start ∧ r.stop ≤ s.stop

instance (s r : Range) : Decidable (s.Avoids r) := inferInstanceAs (Decidable (_ ∨ _))

structure Spare (rs : List Range) (r : Range) : Prop where
  avoids : ∀ s ∈ rs, s.Avoids r
  ordered : rs.Pairwise fun s s' => s.start ≤ s'.start

/--
What a list with other items in the place of some ranges has before a stretch that none of them
touches.
-/
def forepart (l : List α) (r : Range) (xs : List (Range × List α)) : List α :=
  spliced l 0 r.start (xs.takeWhile fun x => x.1.stop < r.start)

section Spliced

variable {l : List α} {r : Range} {xs before after : List (Range × List α)} {cursor mid stop : Nat}

theorem length_cut (h : r.stop ≤ l.length) : (r.cut l).length = r.length := by
  rw [Range.cut, List.length_drop, List.length_take, Nat.min_eq_left h, Range.length]

theorem map_cut (f : α → β) (r : Range) (l : List α) : (r.cut l).map f = r.cut (l.map f) := by
  rw [Range.cut, Range.cut, List.map_drop, List.map_take]

theorem map_spliced (f : α → β) (l : List α) (cursor stop : Nat) (xs : List (Range × List α)) :
    (spliced l cursor stop xs).map f =
      spliced (l.map f) cursor stop (xs.map fun x => (x.1, x.2.map f)) := by
  induction xs generalizing cursor with
  | nil => exact map_cut f _ l
  | cons x xs ih =>
    rw [spliced, List.map_append, List.map_append, map_cut, ih, List.map_cons, spliced]

theorem map_forepart (f : α → β) (l : List α) (r : Range) (xs : List (Range × List α)) :
    (forepart l r xs).map f = forepart (l.map f) r (xs.map fun x => (x.1, x.2.map f)) := by
  rw [forepart, map_spliced, forepart, List.takeWhile_map]
  rfl

theorem spliced_append (hc : cursor ≤ mid) (hs : mid ≤ stop) (hb : ∀ x ∈ before, x.1.stop ≤ mid)
    (ha : ∀ x ∈ after, mid ≤ x.1.start) :
    spliced l cursor stop (before ++ after) =
      spliced l cursor mid before ++ spliced l mid stop after := by
  induction before generalizing cursor with
  | nil =>
    rw [List.nil_append, spliced]
    cases after with
    | nil => rw [spliced, spliced, Range.cut_append l hc hs]
    | cons x after =>
      rw [spliced, spliced, ← Range.cut_append l hc (ha x (.head _)), List.append_assoc]
  | cons x before ih =>
    have hnext := ih (hb x (.head _)) fun y hy => hb y (.tail _ hy)
    rw [List.cons_append, spliced, spliced, hnext]
    simp only [List.append_assoc]

theorem spliced_ne_nil (hc : cursor < stop) (hs : stop ≤ l.length)
    (hb : ∀ x ∈ before, x.1.stop < stop) : spliced l cursor stop before ≠ [] := by
  induction before generalizing cursor with
  | nil =>
    apply List.ne_nil_of_length_pos
    rw [spliced, length_cut hs]
    exact Nat.sub_pos_of_lt hc
  | cons x before ih =>
    rw [spliced]
    apply List.append_ne_nil_of_right_ne_nil
    apply List.append_ne_nil_of_right_ne_nil
    exact ih (hb x (.head _)) fun y hy => hb y (.tail _ hy)

theorem stop_lt_of_mem_takeWhile {offset : Nat} (hx : x ∈ xs.takeWhile fun x => x.1.stop < offset) :
    x.1.stop < offset :=
  of_decide_eq_true (List.all_eq_true.1 List.all_takeWhile x hx)

theorem forepart_of_start_eq_zero (h : r.start = 0) : forepart l r xs = [] := by
  have hnone : (xs.takeWhile fun x => x.1.stop < r.start) = [] := by
    rw [List.eq_nil_iff_forall_not_mem]
    intro x hx
    exact Nat.not_lt_zero _ (h ▸ stop_lt_of_mem_takeWhile hx)
  rw [forepart, hnone, spliced, h]
  rfl

theorem Spare.stop_le_of_mem_dropWhile (h : Spare (xs.map Prod.fst) r)
    (hx : x ∈ xs.dropWhile fun x => x.1.stop < r.start) : r.stop ≤ x.1.start := by
  induction xs with
  | nil => cases hx
  | cons y xs ih =>
    obtain ⟨hav, ho⟩ := h
    obtain ⟨hy, ho⟩ := List.pairwise_cons.1 ho
    rw [List.dropWhile_cons] at hx
    split at hx
    next => exact ih ⟨fun s hs => hav s (.tail _ hs), ho⟩ hx
    next hnot =>
      have hbehind : r.stop ≤ y.1.start := by
        rcases hav y.1 (.head _) with hbefore | hbehind
        · exact absurd (decide_eq_true hbefore.2) hnot
        · exact hbehind.1
      rcases List.mem_cons.1 hx with rfl | hx
      · exact hbehind
      · exact Nat.le_trans hbehind (hy x.1 (List.mem_map_of_mem hx))

theorem Spare.spliced_eq (h : Spare (xs.map Prod.fst) r) (hf : r.start ≤ r.stop)
    (hs : r.stop ≤ stop) : ∃ rest, spliced l 0 stop xs = forepart l r xs ++ (r.cut l ++ rest) := by
  refine ⟨spliced l r.stop stop (xs.dropWhile fun x => x.1.stop < r.start), ?_⟩
  calc spliced l 0 stop xs
      = spliced l 0 stop ((xs.takeWhile fun x => x.1.stop < r.start) ++ xs.dropWhile fun x =>
        x.1.stop < r.start) := by
        rw [List.takeWhile_append_dropWhile]
    _ = forepart l r xs ++ spliced l r.start stop (xs.dropWhile fun x => x.1.stop < r.start) := by
        apply spliced_append (Nat.zero_le _) (Nat.le_trans hf hs)
        · intro x hx
          exact Nat.le_of_lt (stop_lt_of_mem_takeWhile hx)
        · intro x hx
          exact Nat.le_trans hf (h.stop_le_of_mem_dropWhile hx)
    _ = forepart l r xs ++
      (r.cut l ++ spliced l r.stop stop (xs.dropWhile fun x => x.1.stop < r.start)) := by
        rw [← List.nil_append (xs.dropWhile _),
          spliced_append hf hs (fun x hx => absurd hx List.not_mem_nil) (fun x =>
            h.stop_le_of_mem_dropWhile), spliced, List.nil_append]

theorem Spare.cut_spliced (h : Spare (xs.map Prod.fst) r) (hf : r.start ≤ r.stop)
    (hs : r.stop ≤ stop) (hl : r.stop ≤ l.length) :
    (forepart l r xs).length + r.length ≤ (spliced l 0 stop xs).length ∧
      Range.cut ⟨(forepart l r xs).length, (forepart l r xs).length + r.length⟩
        (spliced l 0 stop xs) = r.cut l := by
  obtain ⟨rest, he⟩ := h.spliced_eq (l := l) hf hs
  have hlength := length_cut hl
  rw [he]
  constructor
  · rw [List.length_append, List.length_append, hlength]
    omega
  · rw [Range.cut, ← List.append_assoc, ← hlength, ← List.length_append, List.take_left,
      List.drop_left]

theorem Spare.getElem?_spliced (h : Spare (xs.map Prod.fst) r) (hf : r.start ≤ r.stop)
    (hs : r.stop ≤ stop) (hstart : r.start = k + 1) (hk : l[k]? = some a) :
    ∃ j, (forepart l r xs).length = j + 1 ∧ (spliced l 0 stop xs)[j]? = some a := by
  obtain ⟨rest, he⟩ := h.spliced_eq (l := l) hf hs
  have hcut : Range.cut ⟨k, k + 1⟩ l = [a] := by
    have hlt := (List.getElem?_eq_some_iff.1 hk).1
    rw [Range.cut, List.take_add_one, hk]
    apply List.drop_left'
    rw [List.length_take, Nat.min_eq_left (Nat.le_of_lt hlt)]
  have hfore :
      forepart l r xs = spliced l 0 k (xs.takeWhile fun x => x.1.stop < r.start) ++ [a] := by
    rw [forepart, ← List.append_nil (xs.takeWhile _), spliced_append (Nat.zero_le k), spliced,
      hstart, hcut, List.append_nil]
    · omega
    · intro x hx
      have hlt := stop_lt_of_mem_takeWhile hx
      omega
    · intro x hx
      cases hx
  refine ⟨(spliced l 0 k (xs.takeWhile fun x => x.1.stop < r.start)).length, ?_, ?_⟩
  · rw [hfore, List.length_append, List.length_singleton]
  · rw [he, hfore, List.append_assoc, List.getElem?_append_right (Nat.le_refl _), Nat.sub_self]
    rfl

theorem Spare.length_forepart_lt {s : Range} (h : Spare (xs.map Prod.fst) r) (hf : r.start ≤ r.stop)
    (hlt : r.start < s.start) (hs : s.start ≤ l.length) :
    (forepart l r xs).length < (forepart l s xs).length := by
  have hsplit :
      (xs.takeWhile fun x => x.1.stop < s.start) = (xs.takeWhile fun x => x.1.stop < r.start) ++
        (xs.dropWhile fun x => x.1.stop < r.start).takeWhile fun x => x.1.stop < s.start := by
    rw [← List.takeWhile_append_of_pos, List.takeWhile_append_dropWhile]
    intro x hx
    exact decide_eq_true (Nat.lt_trans (stop_lt_of_mem_takeWhile hx) hlt)
  have hbetween : forepart l s xs = forepart l r xs ++ spliced l r.start s.start
      ((xs.dropWhile fun x => x.1.stop < r.start).takeWhile fun x => x.1.stop < s.start) := by
    rw [forepart, hsplit]
    apply spliced_append (Nat.zero_le _) (Nat.le_of_lt hlt)
    · intro x hx
      exact Nat.le_of_lt (stop_lt_of_mem_takeWhile hx)
    · intro x hx
      exact Nat.le_trans hf (h.stop_le_of_mem_dropWhile ((List.takeWhile_sublist _).subset hx))
  rw [hbetween, List.length_append]
  apply Nat.lt_add_of_pos_right
  apply List.length_pos_of_ne_nil
  exact spliced_ne_nil hlt hs fun x => stop_lt_of_mem_takeWhile

end Spliced

/-- A stretch of a text from the start of a line on, such as the line itself. -/
structure Text.StartsLine (t : Text) (r : Range) : Prop where
  forward : r.start ≤ r.stop
  bounded : r.stop ≤ t.length
  broken : r.start = 0 ∨ t[r.start - 1]? = some Text.newline

instance (t : Text) (r : Range) : Decidable (t.StartsLine r) :=
  decidable_of_iff (r.start ≤ r.stop ∧ r.stop ≤ t.length ∧
    (r.start = 0 ∨ t[r.start - 1]? = some Text.newline))
    ⟨fun ⟨hf, hb, hn⟩ => ⟨hf, hb, hn⟩, fun ⟨hf, hb, hn⟩ => ⟨hf, hb, hn⟩⟩

theorem Text.StartsLine.exists_newline (h : StartsLine t r) (hpos : r.start ≠ 0) :
    ∃ k, r.start = k + 1 ∧ t[k]? = some Text.newline := by
  obtain ⟨k, hk⟩ := Nat.exists_eq_add_one_of_ne_zero hpos
  refine ⟨k, hk, ?_⟩
  rcases h.broken with hzero | hn
  · exact absurd hzero hpos
  · rwa [hk, Nat.add_sub_cancel] at hn

theorem Rendering.map_substitutes (f : α → β) (render : Range → Rendering) (read : Piece → List α)
    (top : Bool) (range : Range) (cursor index : Nat) (edits : List Edit) :
    (substitutes render read top range cursor index edits).map (fun x => (x.1, x.2.map f)) =
      substitutes render (fun piece => (read piece).map f) top range cursor index edits := by
  induction edits generalizing cursor index with
  | nil => rfl
  | cons e rest ih =>
    cases hs : passes top range cursor e with
    | true => rw [substitutes_passed hs, substitutes_passed hs, ih]
    | false =>
      rw [substitutes_picked hs, substitutes_picked hs, List.map_cons, ih, List.map_flatMap]

namespace Document

open Rendering

/--
Where a stretch that no edit touches stands after a revision: behind all that is written before it.
-/
def landing (d : Document) (edits : List Edit) (r : Range) : Range :=
  ⟨(forepart d.text r (d.replacements edits (d.outermost edits))).length,
    (forepart d.text r (d.replacements edits (d.outermost edits))).length + r.length⟩

/--
What stands in `r` of `d` stands in `s` of `d'` at the start of a line, and the origin of the line
is the same.
-/
structure Keeps (d d' : Document) (r s : Range) : Prop where
  starts : d'.text.StartsLine s
  bytes : d'.text.slice s = d.text.slice r
  origin : d'.originAt s.start = d.originAt r.start

theorem Keeps.trans (h : Keeps d d' r s) (h' : Keeps d' d'' s t) : Keeps d d'' r t where
  starts := h'.starts
  bytes := h'.bytes.trans h.bytes
  origin := h'.origin.trans h.origin

theorem spare_outermost {d : Document} (hav : ∀ e ∈ d.outermost edits, e.range.Avoids r) :
    Spare ((d.replacements edits (d.outermost edits)).map Prod.fst) r := by
  have hranges :
      (d.replacements edits (d.outermost edits)).map Prod.fst =
        (d.outermost edits).map Edit.range :=
    List.map_map
  rw [hranges]
  constructor
  · intro s hs
    obtain ⟨e, he, rfl⟩ := List.mem_map.1 hs
    exact hav e he
  · rw [List.pairwise_map]
    apply ((Edit.sorted_before edits).sublist (taken_sublist edits true _)).imp
    intro e f hbefore
    simp only [Edit.Before, Edit.precedes_iff] at hbefore
    omega

theorem Accounted.exists_marks (h : Accounted first d m) (edits : List Edit) :
    ∃ xs : List (Range × Marked), m.apply first edits = spliced m 0 m.length xs ∧
      xs.map (fun x => (x.1, x.2.map Prod.fst)) = d.replacements edits (d.outermost edits) := by
  have hread : (fun piece => (m.ofPiece first (Edit.sorted edits) piece).map Prod.fst) = d.bytes :=
    funext fun piece => (h.bytes_piece _ piece).symm
  refine ⟨_, flatMap_sweep fun _ => rfl, ?_⟩
  rw [map_substitutes, hread, substitutes_bytes, h.length_eq]
  rfl

variable {d : Document} {r s : Range} {edits : List Edit}

theorem Accounted.exists_break (h : Accounted first d m) (hr : d.text.StartsLine r)
    (hav : ∀ e ∈ d.outermost edits, e.range.Avoids r) (hpos : r.start ≠ 0) :
    ∃ j k s, (d.landing edits r).start = j + 1 ∧ r.start = k + 1 ∧ m[k]? = some (Text.newline, s) ∧
      (m.apply first edits)[j]? = some (Text.newline, s) := by
  obtain ⟨k, hk, hn⟩ := hr.exists_newline hpos
  obtain ⟨xs, happly, hxs⟩ := h.exists_marks edits
  have hmark : ∃ s, m[k]? = some (Text.newline, s) := by
    rw [h.text, List.getElem?_map, Option.map_eq_some_iff] at hn
    obtain ⟨⟨b, s⟩, hs, hb⟩ := hn
    cases hb
    exact ⟨s, hs⟩
  obtain ⟨s, hs⟩ := hmark
  have hranges : xs.map Prod.fst = (d.replacements edits (d.outermost edits)).map Prod.fst := by
    rw [← hxs, List.map_map]
    rfl
  have hspare : Spare (xs.map Prod.fst) r := hranges ▸ spare_outermost hav
  have hstop : r.stop ≤ m.length := h.length_eq ▸ hr.bounded
  obtain ⟨j, hj, hget⟩ := hspare.getElem?_spliced hr.forward hstop hk hs
  refine ⟨j, k, s, ?_, hk, hs, happly ▸ hget⟩
  rw [landing, ← hj, ← List.length_map (f := Prod.fst), map_forepart, hxs, ← h.text]

/-- A revision keeps a stretch that it does not touch. -/
theorem Accounted.keeps_landing (h : Accounted first d m) (hr : d.text.StartsLine r)
    (hav : ∀ e ∈ d.outermost edits, e.range.Avoids r) :
    d.Keeps (d.apply edits).1 r (d.landing edits r) := by
  obtain ⟨hbound, hcut⟩ := (spare_outermost hav).cut_spliced hr.forward hr.bounded hr.bounded
  rw [← text_apply_eq_spliced] at hbound hcut
  have happly := h.apply edits
  by_cases hpos : r.start = 0
  · have hzero : (d.landing edits r).start = 0 := by
      rw [landing, forepart_of_start_eq_zero hpos, List.length_nil]
    refine ⟨⟨Nat.le_add_right _ _, hbound, .inl hzero⟩, hcut, ?_⟩
    rw [hzero, hpos, happly.originAt, h.originAt]
    rfl
  · obtain ⟨j, k, s, hj, hk, hs, hs'⟩ := h.exists_break hr hav hpos
    refine ⟨⟨Nat.le_add_right _ _, hbound, .inr ?_⟩, hcut, ?_⟩
    · rw [hj, Nat.add_sub_cancel, happly.text, List.getElem?_map, hs']
      rfl
    · rw [hj, hk, happly.originAt, h.originAt, Marked.line_succ first hs',
        Marked.line_succ first hs]

theorem landing_lt (hr : d.text.StartsLine r) (hs : d.text.StartsLine s)
    (hav : ∀ e ∈ d.outermost edits, e.range.Avoids r) (hlt : r.start < s.start) :
    (d.landing edits r).start < (d.landing edits s).start :=
  (spare_outermost hav).length_forepart_lt hr.forward hlt (Nat.le_trans hs.forward hs.bounded)

def followed (d : Document) : List (List Edit) → Range → Range
  | [], r => r
  | edits :: steps, r => (d.apply edits).1.followed steps (d.landing edits r)

/--
None of the edits that some revisions apply outermost touches a stretch, wherever it has come to
stand.
-/
def Untouched (d : Document) : List (List Edit) → Range → Prop
  | [], _ => True
  | edits :: steps, r =>
    (∀ e ∈ d.outermost edits, e.range.Avoids r) ∧
      (d.apply edits).1.Untouched steps (d.landing edits r)

instance decidableUntouched :
    ∀ (d : Document) (steps : List (List Edit)) (r : Range), Decidable (d.Untouched steps r)
  | _, [], _ => .isTrue trivial
  | d, edits :: steps, r =>
    have := decidableUntouched (d.apply edits).1 steps (d.landing edits r)
    inferInstanceAs (Decidable (_ ∧ _))

theorem Accounted.keeps_followed (h : Accounted first d m) (hr : d.text.StartsLine r)
    (hu : d.Untouched steps r) :
    d.Keeps (steps.foldl (fun d edits => (d.apply edits).1) d) r (d.followed steps r) := by
  induction steps generalizing d m r with
  | nil => exact ⟨hr, rfl, rfl⟩
  | cons edits steps ih =>
    obtain ⟨hav, hu⟩ := hu
    have hstep := h.keeps_landing hr hav
    exact hstep.trans (ih (h.apply edits) hstep.starts hu)

theorem Accounted.followed_lt (h : Accounted first d m) (hr : d.text.StartsLine r)
    (hs : d.text.StartsLine s) (hu : d.Untouched steps r) (hu' : d.Untouched steps s)
    (hlt : r.start < s.start) : (d.followed steps r).start < (d.followed steps s).start := by
  induction steps generalizing d m r s with
  | nil => exact hlt
  | cons edits steps ih =>
    obtain ⟨hav, hu⟩ := hu
    obtain ⟨hav', hu'⟩ := hu'
    have hr' := (h.keeps_landing hr hav).starts
    have hs' := (h.keeps_landing hs hav').starts
    exact ih (h.apply edits) hr' hs' hu hu' (landing_lt hr hs hav hlt)

theorem originAt_ofText (t : Text) (offset : Nat) :
    (ofText t).originAt offset = (LineIndex.ofText t).lineNumber offset := by
  have hlt : (LineIndex.ofText t).lineOf offset < (LineIndex.ofText t).size := by
    rw [LineIndex.lineOf_ofText, LineIndex.size_ofText]
    exact Nat.lt_succ_of_le ((List.take_sublist offset t).count_le _)
  change ((List.range' 1 (LineIndex.ofText t).size).toArray[(LineIndex.ofText t).lineOf
    offset]?).getD 0 = _
  rw [List.getElem?_toArray, List.getElem?_range' hlt, Option.getD_some, Nat.one_mul, Nat.add_comm]
  rfl

/--
A revision writes the stretches that its outermost edits do not touch as they stand, each at the
start of a line with the origin it had, and in their order. So does any run of revisions, from the
first text on: what no edit touches still has its line in the first text as its origin.
-/
theorem keeps_untouched (first : Text) (steps : List (List Edit)) :
    (∀ edits r, (revised first steps).text.StartsLine r →
      (∀ e ∈ (revised first steps).outermost edits, e.range.Avoids r) →
      (revised first steps).Keeps ((revised first steps).apply edits).1 r
        ((revised first steps).landing edits r) ∧
      ∀ s, (revised first steps).text.StartsLine s → r.start < s.start →
        ((revised first steps).landing edits r).start <
          ((revised first steps).landing edits s).start) ∧
    ∀ r, first.StartsLine r → (ofText first).Untouched steps r →
      (revised first steps).text.StartsLine ((ofText first).followed steps r) ∧
      (revised first steps).text.slice ((ofText first).followed steps r) = first.slice r ∧
      (revised first steps).originAt ((ofText first).followed steps r).start =
        (LineIndex.ofText first).lineNumber r.start ∧
      ∀ s, first.StartsLine s → (ofText first).Untouched steps s → r.start < s.start →
        ((ofText first).followed steps r).start < ((ofText first).followed steps s).start := by
  have h := accounted_revised first steps
  have hfirst : Accounted first (ofText first) _ := .ofText first
  constructor
  · intro edits r hr hav
    refine ⟨h.keeps_landing hr hav, ?_⟩
    intro s hs hlt
    exact landing_lt hr hs hav hlt
  · intro r hr hu
    obtain ⟨hstarts, hbytes, horigin⟩ := hfirst.keeps_followed hr hu
    refine ⟨hstarts, hbytes, horigin.trans (originAt_ofText first r.start), ?_⟩
    intro s hs hu' hlt
    exact hfirst.followed_lt hr hs hu hu' hlt

def movedLines : List (List Edit) :=
  [[⟨⟨0, 2⟩, [.fresh (Text.ofString "x;\ny;\nz;")]⟩], [⟨⟨8, 11⟩, []⟩]]

theorem keeps_untouched_moved :
    (Text.ofString "a;\nb;\nc;\n").StartsLine ⟨6, 8⟩ ∧
    (ofText (Text.ofString "a;\nb;\nc;\n")).Untouched movedLines ⟨6, 8⟩ ∧
    (revised (Text.ofString "a;\nb;\nc;\n") movedLines).text = Text.ofString "x;\ny;\nz;\nc;\n" ∧
    (ofText (Text.ofString "a;\nb;\nc;\n")).followed movedLines ⟨6, 8⟩ = ⟨9, 11⟩ ∧
    (revised (Text.ofString "a;\nb;\nc;\n") movedLines).originAt 9 = 3 ∧
    (revised (Text.ofString "a;\nb;\nc;\n") movedLines).Keeps
      ((revised (Text.ofString "a;\nb;\nc;\n") movedLines).apply [⟨⟨0, 8⟩, []⟩]).1 ⟨9, 11⟩
        ⟨1, 3⟩ := by
  have hlines := keeps_untouched (Text.ofString "a;\nb;\nc;\n") movedLines
  have hstarts : (Text.ofString "a;\nb;\nc;\n").StartsLine ⟨6, 8⟩ := by decide
  have huntouched : (ofText (Text.ofString "a;\nb;\nc;\n")).Untouched movedLines ⟨6, 8⟩ := by decide
  obtain ⟨_, _, horigin, _⟩ := hlines.2 _ hstarts huntouched
  obtain ⟨hkeeps, _⟩ := hlines.1 [⟨⟨0, 8⟩, []⟩] ⟨9, 11⟩ (by decide) (by decide)
  exact ⟨hstarts, huntouched, by decide, by decide, horigin, hkeeps⟩

end Document

end Uplift
