import Uplift.Proofs.Concatenation
import Uplift.Proofs.Thrift

namespace Uplift

set_option autoImplicit true

open Edit Segment

namespace Text

theorem inkOf_eq_zero {b : UInt8} (h : 128 ≤ b.toNat) : inkOf b = 0 := by
  have hall : ∀ n : Fin 256, 128 ≤ n.val → inkOf (UInt8.ofNat n.val) = 0 := by decide +kernel
  have hb := hall ⟨b.toNat, b.toNat_lt⟩ h
  rwa [UInt8.ofNat_toNat] at hb

theorem ink_ofChars_cons (c : Char) (cs : List Char) :
    ink (ofChars (c :: cs)) = ink (String.utf8EncodeChar c) + ink (ofChars cs) := by
  rw [ofChars_cons, ink_append]

theorem ink_ofChars_append (cs ds : List Char) :
    ink (ofChars (cs ++ ds)) = ink (ofChars cs) + ink (ofChars ds) := by
  rw [ofChars_append, ink_append]

theorem ink_backslash : ink (String.utf8EncodeChar '\\') = 0 := by decide

theorem ink_ofChars_reverse (cs : List Char) : ink (ofChars cs.reverse) = ink (ofChars cs) := by
  induction cs with
  | nil => rfl
  | cons c cs ih =>
    rw [List.reverse_cons, ofChars_append, ofChars_cons, ofChars_cons, ink_append, ink_append,
      ink_append, ih]
    exact Nat.add_comm _ _

theorem ink_encodeChar (h : 128 ≤ c.val.toNat) : ink (String.utf8EncodeChar c) = 0 := by
  obtain ⟨v, hv⟩ : ∃ v, c.val.toNat = v := ⟨_, rfl⟩
  have hbyte (n : Nat) (hn : 128 ≤ n % 256) : inkOf (UInt8.ofNat n) = 0 := by
    apply inkOf_eq_zero
    rwa [UInt8.toNat_ofNat']
  simp only [String.utf8EncodeChar, hv]
  split
  next h1 => omega
  next h1 =>
  split
  next h2 =>
    rw [ink_cons, ink_cons, hbyte _ (by omega), hbyte _ (by omega)]
    rfl
  next h2 =>
  split
  next h3 =>
    rw [ink_cons, ink_cons, ink_cons, hbyte _ (by omega), hbyte _ (by omega), hbyte _ (by omega)]
    rfl
  next h3 =>
    have hmax : v < 0x110000 := by
      have hvalid : c.val.toNat.isValidChar := c.valid
      rw [hv] at hvalid
      rcases hvalid with h | h
      · omega
      · exact h.2
    rw [ink_cons, ink_cons, ink_cons, ink_cons, hbyte _ (by omega), hbyte _ (by omega),
      hbyte _ (by omega), hbyte _ (by omega)]
    rfl

theorem le_of_scalar? (h : scalar? least lead rest = some c) : least ≤ c.val.toNat := by
  obtain ⟨tail, _, h⟩ := Option.bind_eq_some_iff.1 h
  obtain ⟨hv, hc⟩ := Option.dite_none_right_eq_some.1 h
  cases hc
  exact hv.2

theorem encodeChar_ascii (b : UInt8) (h : b < 0x80) :
    String.utf8EncodeChar (Char.ofNat b.toNat) = [b] := by
  have hb : b.toNat < 128 := UInt8.lt_iff_toNat_lt.1 h
  have hall : ∀ n : Fin 128, String.utf8EncodeChar (Char.ofNat n.val) = [UInt8.ofNat n.val] := by
    decide
  have h := hall ⟨b.toNat, hb⟩
  rwa [UInt8.ofNat_toNat] at h

theorem ink_ofChars_scalar (h : scalar? least lead rest = some c) (hl : 128 ≤ least)
    (done : List Char) : ink (ofChars (c :: done)) = ink (ofChars done) := by
  rw [ofChars_cons, ink_append, ink_encodeChar (Nat.le_trans hl (le_of_scalar? h)), Nat.zero_add]

theorem ink_decodeOnto (h : decodeOnto done t = some cs) :
    ink (ofChars cs) ≤ ink (ofChars done) + ink t := by
  fun_induction decodeOnto done t with
  | case1 done =>
    cases h
    exact Nat.le_refl _
  | case2 done a rest ha ih =>
    have hle := ih h
    rw [ofChars_cons, encodeChar_ascii a ha, ink_append] at hle
    rw [ink_cons]
    have hone : ink [a] = inkOf a := Nat.add_zero _
    omega
  | case5 done a _ _ b rest _ c hc ih =>
    have hle := ih h
    rw [ink_ofChars_scalar hc (by decide)] at hle
    simp only [ink_cons]
    omega
  | case8 done a _ _ b _ d rest _ c hc ih =>
    have hle := ih h
    rw [ink_ofChars_scalar hc (by decide)] at hle
    simp only [ink_cons]
    omega
  | case11 done a _ _ b _ d _ e rest _ c hc ih =>
    have hle := ih h
    rw [ink_ofChars_scalar hc (by decide)] at hle
    simp only [ink_cons]
    omega
  | _ => cases h

theorem ink_decode (h : decode? t = some cs) : ink (ofChars cs) ≤ ink t := by
  obtain ⟨ds, hds, rfl⟩ := Option.map_eq_some_iff.1 h
  rw [ink_ofChars_reverse]
  have hle := ink_decodeOnto hds
  have hnone : ink (ofChars []) = 0 := rfl
  omega

end Text

namespace Concatenation

def inkOf (ps : List Part) : Nat := (ps.map fun q => (Text.ofChars q.text).ink).sum

theorem inkOf_append (ps qs : List Part) : inkOf (ps ++ qs) = inkOf ps + inkOf qs := by
  rw [inkOf, List.map_append, List.sum_append]
  rfl

theorem inkOf_cons (q : Part) (ps : List Part) :
    inkOf (q :: ps) = (Text.ofChars q.text).ink + inkOf ps := by
  rw [inkOf, List.map_cons, List.sum_cons]
  rfl

theorem ink_templateText (h : templateText? body = some out) :
    (Text.ofChars out).ink ≤ (Text.ofChars body).ink := by
  fun_induction templateText? body generalizing out with
  | case1 =>
    cases h
    exact Nat.le_refl _
  | case2 =>
    cases h
    exact Nat.le_refl _
  | case3 => cases h
  | case4 d rest _ ih =>
    obtain ⟨more, hmore, rfl⟩ := Option.map_eq_some_iff.1 h
    have hle := ih hmore
    simp only [Text.ink_ofChars_cons]
    omega
  | case5 c rest _ _ ih =>
    obtain ⟨more, hmore, rfl⟩ := Option.map_eq_some_iff.1 h
    have hle := ih hmore
    simp only [Text.ink_ofChars_cons, Text.ink_backslash]
    omega
  | case6 c rest _ _ ih =>
    obtain ⟨more, hmore, rfl⟩ := Option.map_eq_some_iff.1 h
    have hle := ih hmore
    simp only [Text.ink_ofChars_cons]
    omega

/-- The text that a string becomes has the ink of the string at most. -/
theorem ink_literal (h : templateText? (quotedBody raw) = some out) :
    (Text.ofChars out).ink ≤ raw.ink := by
  refine Nat.le_trans (ink_templateText h) ?_
  have hbody : Text.ink (raw.drop 1).dropLast ≤ raw.ink := by
    have hsub := ((raw.drop 1).dropLast_sublist.trans (raw.drop_sublist 1)).map Text.inkOf
    exact hsub.sum_le_sum fun _ _ => Nat.zero_le _
  rw [quotedBody]
  cases hd : Text.decode? (raw.drop 1).dropLast with
  | none => exact Nat.zero_le _
  | some cs => exact Nat.le_trans (Text.ink_decode hd) hbody

end Concatenation

namespace Template

open Concatenation

def ink (t : Template) : Nat := (t.quasis.map fun q => (Text.ofChars q).ink).sum

theorem ink_eq (t : Template) :
    t.ink = (t.parts.map fun q => (Text.ofChars q.1).ink).sum + (Text.ofChars t.last).ink := by
  rw [ink, quasis, List.map_append, List.sum_append, List.map_map]
  rfl

theorem ink_join (text more : List Char) :
    (Text.ofChars (join text more)).ink ≤ (Text.ofChars text).ink + (Text.ofChars more).ink := by
  rw [join]
  split
  · have hsub : (Text.ofChars text.dropLast).ink ≤ (Text.ofChars text).ink := by
      have hsub := (text.dropLast_sublist.flatMap String.utf8EncodeChar).map Text.inkOf
      exact hsub.sum_le_sum fun _ _ => Nat.zero_le _
    have hdollar : Text.ink (String.utf8EncodeChar '$') = 0 := by decide
    rw [Text.ink_ofChars_append, Text.ink_ofChars_cons, Text.ink_ofChars_cons,
      Text.ink_backslash, hdollar]
    omega
  · rw [Text.ink_ofChars_append]

theorem ink_add (t : Template) (q : Part) : (add t q).ink ≤ t.ink + (Text.ofChars q.text).ink := by
  have htext (text : List Char) : (t.addText text).ink ≤ t.ink + (Text.ofChars text).ink := by
    have hjoin := ink_join t.last text
    rw [addText, ink_eq, ink_eq]
    simp only
    omega
  cases q with
  | literal text => exact htext text
  | quasi text => exact htext text
  | hole range =>
    rw [add, addHole, ink_eq, ink_eq, List.map_append, List.sum_append]
    exact Nat.le_refl _

theorem ink_foldl_add (t : Template) (ps : List Part) :
    (ps.foldl add t).ink ≤ t.ink + Concatenation.inkOf ps := by
  induction ps generalizing t with
  | nil => exact Nat.le_refl _
  | cons q ps ih =>
    have hadd := ink_add t q
    have hrest := ih (add t q)
    rw [List.foldl_cons, Concatenation.inkOf_cons]
    omega

end Template

namespace StringConcat

theorem inkOf_holes (hs : List (Range × List Char)) :
    Edit.inkOf (holeSegments hs) = (hs.map fun h => (Text.ofChars h.2).ink).sum := by
  induction hs with
  | nil => rfl
  | cons h hs ih =>
    have hbrace : Text.ink (String.utf8EncodeChar '\x7d') = 0 := by decide
    have hopen : (Segment.string "$\x7b").written.ink = 0 := by decide
    rw [holeSegments, List.flatMap_cons, Edit.inkOf_append, ← holeSegments, ih, List.map_cons,
      List.sum_cons, Edit.inkOf_cons, Edit.inkOf_cons, Edit.inkOf_cons, hopen]
    change 0 + (0 + ((Text.ofChars ('\x7d' :: h.2)).ink + 0)) + _ = _
    rw [Text.ink_ofChars_cons, hbrace]
    omega

theorem reused_holes (hs : List (Range × List Char)) :
    (holeSegments hs).filterMap reused? = hs.map Prod.fst := by
  induction hs with
  | nil => rfl
  | cons h hs ih =>
    rw [holeSegments, List.flatMap_cons, List.filterMap_append, ← holeSegments, ih]
    rfl

theorem quasis_eq (t : Template) :
    ∃ first rest, t.quasis = first :: rest ∧ rest.length = t.holes.length := by
  have hlength := Concatenation.length_quasis t
  cases hq : t.quasis with
  | nil =>
    rw [hq] at hlength
    cases hlength
  | cons first rest =>
    rw [hq, List.length_cons] at hlength
    exact ⟨first, rest, rfl, by omega⟩

theorem inkOf_template (t : Template) : Edit.inkOf (templateSegments t) = t.ink := by
  obtain ⟨first, rest, hq, hlength⟩ := quasis_eq t
  have htick : Text.ink (String.utf8EncodeChar '\x60') = 0 := by decide
  have hend : Edit.inkOf [.string "\x60"] = 0 := by decide
  have hrest : (t.holes.zip rest).map (fun h => (Text.ofChars h.2).ink) =
      rest.map fun q => (Text.ofChars q).ink := by
    calc (t.holes.zip rest).map (fun h => (Text.ofChars h.2).ink)
        = ((t.holes.zip rest).map Prod.snd).map fun q => (Text.ofChars q).ink := by
          rw [List.map_map]
          rfl
      _ = rest.map fun q => (Text.ofChars q).ink := by rw [List.map_snd_zip (Nat.le_of_eq hlength)]
  rw [templateSegments, Template.ink, hq, Edit.inkOf_cons, Edit.inkOf_append, hend, inkOf_holes,
    List.drop_succ_cons, List.drop_zero, hrest, List.map_cons, List.sum_cons]
  change (Text.ofChars ('\x60' :: first)).ink + _ = _
  rw [Text.ink_ofChars_cons, htick]
  omega

theorem reused_template (t : Template) : (templateSegments t).filterMap reused? = t.holes := by
  obtain ⟨first, rest, hq, hlength⟩ := quasis_eq t
  rw [templateSegments, hq, List.filterMap_cons_none rfl, List.filterMap_append, reused_holes,
    List.drop_succ_cons, List.drop_zero, List.map_fst_zip (Nat.le_of_eq hlength.symm)]
  exact List.append_nil _

end StringConcat

section Sums

open Concatenation

variable {p : Program} (hp : p.WellFormed)

theorem templateParts_eq {cs : List Node} (h : ∀ c ∈ cs, c.isSolid = true ∨ c.raw?.isSome = true) :
    ((templateParts cs).filterMap Part.hole?).Sublist ((cs.flatMap Node.pieces).map Node.span) ∧
      Concatenation.inkOf (templateParts cs) = Node.weight (cs.filterMap Node.raw?) := by
  fun_induction templateParts cs with
  | case1 => exact ⟨.slnil, rfl⟩
  | case2 raw span inner cs ih =>
    obtain ⟨hholes, hink⟩ := ih fun c hc => h c (List.mem_cons_of_mem _ hc)
    have hraw : (Node.mk (.quasi raw) span inner).raw? = some raw := rfl
    rw [List.filterMap_cons_none rfl, List.filterMap_cons_some hraw, Concatenation.inkOf_cons, hink,
      List.flatMap_cons, List.map_append]
    exact ⟨hholes.trans (List.sublist_append_right _ _), rfl⟩
  | case3 c cs hc ih =>
    obtain ⟨hholes, hink⟩ := ih fun d hd => h d (List.mem_cons_of_mem _ hd)
    have hraw : c.raw? = none := by
      rw [Node.raw?.eq_def]
      split
      next raw s inner => exact absurd rfl (hc raw s inner)
      next => rfl
    have hsolid : c.isSolid = true :=
      (h c List.mem_cons_self).resolve_right (by rw [hraw]; exact Bool.false_ne_true)
    have hhole : (Part.hole c.span).hole? = some c.span := rfl
    rw [List.filterMap_cons_some hhole, List.filterMap_cons_none hraw, Concatenation.inkOf_cons,
      hink, List.flatMap_cons, Node.pieces_of_isSolid hsolid, List.map_append]
    exact ⟨hholes.cons_cons _, Nat.zero_add _⟩

include hp

/-- What stands in the operands of a sum stands in it, with the ink of its operator. -/
theorem holds_sum (hn : .mk (.binary "+") span [a, b] ∈ p.tree.subtrees)
    (ha : p.Holds a.span (Concatenation.inkOf ps) (ps.filterMap Part.hole?))
    (hb : p.Holds b.span (Concatenation.inkOf qs) (qs.filterMap Part.hole?)) :
    p.Holds span (1 + Concatenation.inkOf (ps ++ qs)) ((ps ++ qs).filterMap Part.hole?) := by
  have hsum : p.Holds span 1 (a.span :: [b.span]) := Program.holds_plain hp hn rfl
  have hboth := (hsum.head ha).trans hb
  rw [List.append_nil, ← List.filterMap_append, Nat.add_assoc,
    ← Concatenation.inkOf_append] at hboth
  exact hboth

theorem holds_summand (hn : p.Has n) (h : parts? p.text n = some ps) :
    p.Holds n.span (Concatenation.inkOf ps) (ps.filterMap Part.hole?) := by
  fun_induction parts? p.text n generalizing ps with
  | case1 span e ih =>
    obtain ⟨_, he⟩ := Program.has_plain hp hn.mem rfl
    have hboth := (Program.holds_plain hp hn.mem rfl).head (ih (he e List.mem_cons_self) h)
    rw [List.map_nil, List.append_nil] at hboth
    exact hboth.sublist (.refl _) (Nat.le_add_left _ _)
  | case2 span a b _ iha ihb =>
    obtain ⟨qs, ha, h⟩ := Option.bind_eq_some_iff.1 h
    obtain ⟨rs, hb, h⟩ := Option.bind_eq_some_iff.1 h
    cases h
    obtain ⟨_, hparts⟩ := Program.has_plain hp hn.mem rfl
    have hsum := holds_sum hp hn.mem (iha (hparts a (by simp)) ha) (ihb (hparts b (by simp)) hb)
    exact hsum.sublist (.refl _) (Nat.le_add_left _ _)
  | case3 span a b _ =>
    cases h
    exact .refl p span
  | case4 span cs =>
    obtain ⟨text, htext, rfl⟩ := Option.map_eq_some_iff.1 h
    refine ⟨?_, List.Pairwise.nil, fun _ => ink_literal htext⟩
    intro s hs
    cases hs
  | case5 span cs =>
    cases h
    have hshape := hp.shaped _ hn.mem
    simp only [Node.isShaped, Bool.and_eq_true, List.all_eq_true, Bool.or_eq_true] at hshape
    obtain ⟨hholes, hink⟩ := templateParts_eq hshape.2
    have htemplate := Program.holds_node hp hn
    rw [Node.parts_eq] at htemplate
    exact htemplate.sublist hholes (Nat.le_of_eq hink)
  | case6 n =>
    cases h
    exact .refl p n.span

theorem StringConcat.replaces (hn : n ∈ p.tree.subtrees) (h : sum? p n = some e) :
    p.Replaces (.binary "+") n e := by
  obtain ⟨span, a, b, rfl, hedit⟩ := sum?_eq_some h
  obtain ⟨t, hflatten, _, rfl⟩ := edit?_eq_some hedit
  obtain ⟨ps, qs, ha, hb, _, rfl⟩ := flatten_eq_ok hflatten
  obtain ⟨hself, hparts⟩ := Program.has_plain hp hn rfl
  have hsum := holds_sum hp hn (holds_summand hp (hparts a (by simp)) ha)
    (holds_summand hp (hparts b (by simp)) hb)
  have hink := Template.ink_foldl_add {} (ps ++ qs)
  have hholes := Template.holes_foldl_add {} (ps ++ qs)
  have halone : ∀ c ∈ (Node.mk (.binary "+") span [a, b]).parts, c.span ≠ span := by
    have hab : (Node.mk (.binary "+") span [a, b]).parts = [a, b] := by
      rw [Node.parts_eq]
      exact Node.flatMap_pieces fun c hc => (hparts c hc).solid
    exact Program.span_ne_of_cons hp hself hab (List.cons_ne_nil b [])
  refine ⟨hself, rfl, rfl, fun m hm hs _ => Program.span_ne_of_parts hp hself halone hm hs, ?_⟩
  apply Program.Holds.affords
  · rw [reused_template, hholes]
    exact hsum
  · have hempty : Template.ink {} = 0 := by decide
    rw [inkOf_template]
    omega

end Sums

end Uplift
