import Uplift.Proofs.Interpolation

namespace Uplift

set_option autoImplicit true

open Edit

theorem Edit.laminar_of_pairwise
    (hb : ∀ e ∈ edits, e.range.start < e.range.stop ∧ e.range.stop ≤ length)
    (hpair : edits.Pairwise fun e f => f.range.Inside e.range ∨ e.range.Apart f.range)
    (ha : ∀ e ∈ edits, Program.Affords p e) : Laminar length edits where
  bounded := hb
  distinct := by
    refine hpair.imp_of_mem ?_
    intro e f he _ hef heq
    rcases hef with hin | hapart
    · exact hin.2 heq.symm
    · have hpos := (hb e he).1
      rw [← heq] at hapart
      simp only [Range.Apart] at hapart
      omega
  nested := by
    have hnested : edits.Pairwise fun e f =>
        e.range.within f.range = true ∨ f.range.within e.range = true ∨ e.range.Apart f.range :=
      hpair.imp fun hef => .inr (hef.imp_left And.left)
    have hflip : edits.Pairwise (flip fun e f : Edit =>
        e.range.within f.range = true ∨ f.range.within e.range = true ∨ e.range.Apart f.range) := by
      refine hpair.imp ?_
      intro e f hef
      exact hef.imp And.left fun hapart => .inr hapart.symm
    intro e he f hf
    refine List.Pairwise.forall_of_forall_of_flip ?_ hnested hflip he hf
    exact fun e _ => .inl (Range.within_self e.range)
  reuses := by
    intro e he s hs
    obtain ⟨_, _, hholds⟩ := (ha e he).holds
    exact ⟨(ha e he).filled s hs, hholds.within s hs⟩
  separate := by
    intro e he
    obtain ⟨_, _, hholds⟩ := (ha e he).holds
    exact hholds.apart

/--
Edits of a program that are nested or apart, each of which takes away more ink than it writes.
-/
structure Program.Collects (p : Program) (edits : List Edit) : Prop where
  laminar : Laminar p.text.length edits
  affords : ∀ e ∈ edits, p.Affords e

section Collected

variable {p : Program} (hp : p.WellFormed)

include hp

theorem Program.collects_of_replaces {collect : Node → Option Edit}
    (hedits : edits.Sublist (p.tree.subtrees.filterMap collect))
    (hcollect : ∀ n ∈ p.tree.subtrees, ∀ e, collect n = some e → p.Replaces k n e) :
    p.Collects edits := by
  have hmem {e : Edit} (he : e ∈ edits) : ∃ n, p.Replaces k n e := by
    obtain ⟨n, hn, hedit⟩ := List.mem_filterMap.1 (hedits.subset he)
    exact ⟨n, hcollect n hn e hedit⟩
  have haffords : ∀ e ∈ edits, p.Affords e := by
    intro e he
    obtain ⟨n, hn⟩ := hmem he
    exact hn.affords
  refine ⟨laminar_of_pairwise ?_ ?_ haffords, haffords⟩
  · intro e he
    obtain ⟨n, hn⟩ := hmem he
    rw [hn.range]
    exact ⟨Node.start_lt_stop_of_isSolid hn.has.solid, hp.stop_le hn.has.mem hn.has.solid⟩
  · refine List.Pairwise.sublist hedits (List.pairwise_filterMap.2 (hp.pairwise.imp_of_mem ?_))
    intro n m hn hm hnm e he f hf
    have hn := hcollect n hn e he
    have hm := hcollect m hm f hf
    rw [hn.range, hm.range]
    refine (hnm hn.has.solid hm.has.solid).imp_left ?_
    intro hdesc
    exact ⟨within_of_mem_descendants hp hn.has hdesc hm.has.solid,
      hn.alone m hdesc hm.has.solid hm.kind⟩

end Collected

namespace VarToConst

theorem keyword?_eq_some (h : keyword? t n = some start) :
    ∃ span ds, n = .mk (.varDecl .hoisted false) span ds ∧ span.start = start ∧
      t.slice ⟨start, start + 3⟩ = Text.ofString "var" := by
  rw [keyword?.eq_def] at h
  split at h
  next span ds =>
    split at h
    next hvar =>
      cases h
      refine ⟨span, ds, rfl, rfl, ?_⟩
      rw [Text.slice, List.drop_take, Nat.add_sub_cancel_left]
      exact hvar
    next => cases h
  next => cases h

theorem spelled_of_slice (h : Text.slice t ⟨start, start + 3⟩ = Text.ofString "var") :
    t[start]? = some 118 ∧ t[start + 1]? = some 97 ∧ t[start + 2]? = some 114 ∧
    start + 3 ≤ t.length := by
  have hget (i : Nat) (hi : i < 3) : t[start + i]? = (Text.ofString "var")[i]? := by
    rw [← h, Text.slice, List.getElem?_drop,
      List.getElem?_take_of_lt (Nat.add_lt_add_left hi start)]
  have hlast : t[start + 2]? = some 114 := hget 2 (by decide)
  have hlength := (List.getElem?_eq_some_iff.1 hlast).1
  exact ⟨hget 0 (by decide), hget 1 (by decide), hlast, hlength⟩

theorem apart_of_slice (h : Text.slice t ⟨start, start + 3⟩ = Text.ofString "var")
    (h' : Text.slice t ⟨start', start' + 3⟩ = Text.ofString "var") (hne : start ≠ start') :
    Range.Apart ⟨start, start + 3⟩ ⟨start', start' + 3⟩ := by
  have hlater {a b : Nat} (ha : Text.slice t ⟨a, a + 3⟩ = Text.ofString "var")
      (hb : Text.slice t ⟨b, b + 3⟩ = Text.ofString "var") (hlt : a < b) : a + 3 ≤ b := by
    obtain ⟨_, hone, htwo, _⟩ := spelled_of_slice ha
    obtain ⟨hzero, _⟩ := spelled_of_slice hb
    have hnone : b ≠ a + 1 := by
      rintro rfl
      rw [hone] at hzero
      exact absurd hzero (by decide)
    have hntwo : b ≠ a + 2 := by
      rintro rfl
      rw [htwo] at hzero
      exact absurd hzero (by decide)
    omega
  rcases Nat.lt_or_gt_of_ne hne with hlt | hgt
  · exact .inl (hlater h h' hlt)
  · exact .inr (hlater h' h hgt)

variable {p : Program} (hp : p.WellFormed)

include hp

theorem has_of_keyword (hn : n ∈ p.tree.subtrees) (h : keyword? p.text n = some start) :
    p.Has n ∧ n.span.start = start ∧ n.heading ≠ [] := by
  obtain ⟨span, ds, rfl, hstart, _⟩ := keyword?_eq_some h
  exact ⟨(Program.has_plain hp hn rfl).1, hstart, List.cons_ne_nil _ _⟩

theorem nodup_keywords : (p.tree.subtrees.filterMap (keyword? p.text)).Nodup := by
  refine List.pairwise_filterMap.2 (hp.pairwise.imp_of_mem ?_)
  intro n m hn hm hnm start hstart start' hstart'
  obtain ⟨hn, rfl, hheading⟩ := has_of_keyword hp hn hstart
  obtain ⟨hm, rfl, _⟩ := has_of_keyword hp hm hstart'
  have hnpos := Node.start_lt_stop_of_isSolid hn.solid
  have hmpos := Node.start_lt_stop_of_isSolid hm.solid
  rcases hnm hn.solid hm.solid with hdesc | hapart
  · obtain ⟨c, hc, hin⟩ := Node.exists_part (hp.laidOut_of_mem hn.mem) hdesc hm.solid
    have hlt := hp.headed n hn.mem hheading c hc
    have hle := (Range.within_iff.1 hin).1
    omega
  · simp only [Range.Apart] at hapart
    omega

omit hp in
theorem slice_of_mem_edits (h : e ∈ edits p) :
    ∃ start declaring, (declaring = .scoped ∨ declaring = .constant) ∧
    e = laid ⟨start, start + 3⟩ [.string (Declaring.keyword declaring)] ∧
    p.text.slice ⟨start, start + 3⟩ = Text.ofString "var" := by
  obtain ⟨start, declaring, hdeclaring, rfl⟩ := edit_eq_laid h
  have hstart := (starts_edits p).subset (List.mem_map_of_mem h)
  obtain ⟨n, _, hkeyword⟩ := List.mem_filterMap.1 hstart
  obtain ⟨_, _, _, _, hslice⟩ := keyword?_eq_some hkeyword
  exact ⟨start, declaring, hdeclaring, rfl, hslice⟩

theorem collects : p.Collects (edits p) := by
  have haffords : ∀ e ∈ edits p, p.Affords e := by
    intro e he
    obtain ⟨start, declaring, hdeclaring, rfl, hslice⟩ := slice_of_mem_edits he
    have hholds : p.Holds ⟨start, start + 3⟩ 6 [] := by
      refine ⟨fun s hs => absurd hs List.not_mem_nil, .nil, fun _ => ?_⟩
      rw [Program.ink, hslice]
      exact (by decide : 6 ≤ (Text.ofString "var").ink)
    refine Program.Holds.affords hholds ?_
    rcases hdeclaring with rfl | rfl
    · decide
    · decide
  refine ⟨laminar_of_pairwise ?_ ?_ haffords, haffords⟩
  · intro e he
    obtain ⟨start, _, _, rfl, hslice⟩ := slice_of_mem_edits he
    obtain ⟨_, _, _, hlength⟩ := spelled_of_slice hslice
    exact ⟨Nat.lt_add_of_pos_right (by decide), hlength⟩
  · have hnodup : ((edits p).map (·.range.start)).Nodup := by
      obtain ⟨starts, hperm, hsub⟩ := starts_edits p
      exact hperm.nodup_iff.1 ((nodup_keywords hp).sublist hsub)
    refine (List.pairwise_map.1 hnodup).imp_of_mem ?_
    intro e f he hf hne
    obtain ⟨start, _, _, rfl, hslice⟩ := slice_of_mem_edits he
    obtain ⟨start', _, _, rfl, hslice'⟩ := slice_of_mem_edits hf
    exact .inr (apart_of_slice hslice hslice' hne)

end VarToConst

theorem Pass.collects (pass : Pass) {p : Program} (hp : p.WellFormed) :
    p.Collects (pass.edits p) := by
  cases pass with
  | varToConst => exact VarToConst.collects hp
  | objectAssignToSpread =>
    exact Program.collects_of_replaces hp (.refl _) fun _ hn _ => ObjectAssign.replaces hp hn
  | arrayFromForEachToForOf =>
    exact Program.collects_of_replaces hp (.refl _) fun _ hn _ => ArrayFromForEach.replaces hp hn
  | arrayFromToSpread =>
    exact Program.collects_of_replaces hp (.refl _) fun _ hn _ => ArrayFromSpread.replaces hp hn
  | arrayConcatToSpread =>
    exact Program.collects_of_replaces hp (.refl _) fun _ hn _ => ArrayConcat.replaces hp hn
  | mathPowToExponent =>
    exact Program.collects_of_replaces hp (.refl _) fun _ hn _ => MathPow.replaces hp hn
  | indexedForToForOf =>
    exact Program.collects_of_replaces hp (.refl _) fun _ hn _ => IndexedFor.replaces hp hn
  | domForEachToForOf =>
    exact Program.collects_of_replaces hp (.refl _) fun _ hn _ => DomForEach.replaces hp hn
  | objectKeysForOfToForIn =>
    exact Program.collects_of_replaces hp (.refl _) fun _ hn _ => ObjectKeys.replaces hp hn
  | stringConcatToTemplate =>
    exact Program.collects_of_replaces hp (StringConcat.edits_sublist p) fun _ hn _ =>
      StringConcat.replaces hp hn
  | functionToArrow =>
    exact Program.collects_of_replaces hp (.refl _) fun _ hn _ => FunctionToArrow.replaces hp hn
  | promiseConstructorToTry =>
    exact Program.collects_of_replaces hp (.refl _) fun _ hn _ => PromiseTry.replaces hp hn

def Piece.kept? : Piece → Option Range
  | .kept r => some r
  | .fresh _ _ => none

namespace Rendering

/--
What holds of kept ranges, passes from adjoining ranges to the range they make up, and passes from
the ranges that an edit reuses to the range it replaces, holds of every range that is rendered.
-/
theorem sweep_rule {P : Range → Rendering → Prop} (h : Laminar length edits)
    (hkeep : ∀ r, r.start ≤ r.stop → P r (keep r))
    (hjoin : ∀ a b c x y, a ≤ b → b ≤ c → P ⟨a, b⟩ x → P ⟨b, c⟩ y → P ⟨a, c⟩ (append x y))
    (hemit : ∀ e ∈ edits, ∀ i render, (∀ s ∈ e.reusedRanges, P s (render s)) →
      P e.range (emission render i e)) (top : Bool) (r : Range) (hr : r.start ≤ r.stop) :
      P r (sweep (full edits) top r r.start 0 edits) := by
  induction top, r using reuse_induction h.proper with
  | step top r ih =>
    -- The sweep from a cursor on renders what lies between the cursor and the end of the range.
    have hrest : ∀ rest cursor index, (∀ e ∈ rest, e ∈ edits) →
        (∀ e ∈ picked top r cursor rest, e ∈ picked top r r.start edits) → cursor ≤ r.stop →
        P ⟨cursor, r.stop⟩ (sweep (full edits) top r cursor index rest) := by
      intro rest
      induction rest with
      | nil => exact fun cursor _ _ _ hc => hkeep ⟨cursor, r.stop⟩ hc
      | cons e rest ihrest =>
        intro cursor index hmem hpicked hc
        have hmem' : ∀ f ∈ rest, f ∈ edits := fun f hf => hmem f (.tail _ hf)
        cases hs : passes top r cursor e with
        | true =>
          rw [sweep_passed hs]
          rw [picked_passed hs] at hpicked
          exact ihrest cursor (index + 1) hmem' hpicked hc
        | false =>
          rw [sweep_emission hs]
          rw [picked_picked hs] at hpicked
          obtain ⟨hstart, hstop, _⟩ := passes_eq_false_iff.1 hs
          have he := hmem e (.head _)
          have hforward := Nat.le_of_lt (h.bounded e he).1
          have hinner : P e.range (emission (full edits) index e) := by
            apply hemit e he
            intro s hse
            rw [full_eq_sweep h.proper]
            exact ih e (hpicked e (.head _)) s hse (Nat.le_of_lt (h.reuses e he s hse).1)
          have hlater :=
            ihrest e.range.stop (index + 1) hmem' (fun f hf => hpicked f (.tail _ hf)) hstop
          exact hjoin _ _ _ _ _ hstart (Nat.le_trans hforward hstop) (hkeep _ hstart)
            (hjoin _ _ _ _ _ hforward hstop hinner hlater)
    exact hrest edits r.start 0 (fun _ he => he) (fun _ he => he) hr

/-- The ranges that a rendering keeps, in order. -/
def kept (x : Rendering) : List Range := x.pieces.filterMap Piece.kept?

theorem kept_append (a b : Rendering) : (append a b).kept = a.kept ++ b.kept :=
  List.filterMap_append

theorem kept_segments (render : Range → Rendering) (index : Nat) (segs : List Segment) :
    (segments render index segs).kept = (segs.filterMap Segment.reused?).flatMap fun s =>
      (render s).kept := by
  induction segs with
  | nil => rfl
  | cons segment segs ih =>
    cases segment with
    | fresh t => exact ih
    | reused r =>
      rw [segments, kept_append, ih]
      rfl

theorem kept_emission (render : Range → Rendering) (index : Nat) (e : Edit) :
    (emission render index e).kept = e.reusedRanges.flatMap fun s => (render s).kept :=
  kept_segments render index e.segments

end Rendering

end Uplift
