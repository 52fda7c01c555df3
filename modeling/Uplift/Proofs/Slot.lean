import Uplift.Proofs.Made
import Uplift.Proofs.Neighbour

namespace Uplift

set_option autoImplicit true

open Neighbour Slot

namespace Neighbour

def noneEndsIn (ps : List String) (b : UInt8) : Bool :=
  ps.all fun s => (Text.ofString s).getLast? != some b

theorem isPunctIn_eq_false {ps : List String} (h : noneEndsIn ps b = true) (w : Text) :
    (punct (w ++ [b])).isPunctIn ps = false := by
  apply List.any_eq_false.2
  intro s hs heq
  apply bne_iff_ne.1 (List.all_eq_true.1 h s hs)
  rw [beq_iff_eq.1 heq, List.getLast?_append]
  rfl

theorem isWordIn_eq_false {ws : List String} {w' : Text} (h : ∀ s ∈ ws, ¬w' <:+ Text.ofString s)
    (w : Text) : (word (w ++ w')).isWordIn ws = false := by
  apply List.any_eq_false.2
  intro s hs heq
  apply h s hs
  rw [beq_iff_eq.1 heq]
  exact List.suffix_append w w'

end Neighbour

namespace Slot

theorem exponentFitsAfter_word (hw : w ∈ ["typeof", "void", "delete", "await"])
    (hbefore : before t offset = lastToken (lead ++ Text.ofString w).reverse) :
    exponentFitsAfter t offset = false := by
  have hbytes : ∀ s ∈ ["typeof", "void", "delete", "await"],
      Text.ofString s ≠ [] ∧ (Text.ofString s).all isWordByte = true := by
    decide
  have hwords : ∀ s ∈ ["typeof", "void", "delete", "await"], ∀ r ∈ exponentWords,
      ¬Text.ofString s <:+ Text.ofString r := by
    decide
  obtain ⟨front, run, rfl, hrun, hfront⟩ := exists_run isWordByte lead
  have hends :
      Ends (front ++ (run ++ Text.ofString w)) (.word (run ++ Text.ofString w), front.length) := by
    apply Ends.word (List.append_ne_nil_of_right_ne_nil run (hbytes w hw).1) _ hfront
    exact List.forall_mem_append.2 ⟨hrun, List.all_eq_true.1 (hbytes w hw).2⟩
  rw [List.append_assoc, lastToken_of_ends hends] at hbefore
  simp only [exponentFitsAfter, hbefore, isWordIn_eq_false (hwords w hw), isPunctIn, reduceCtorEq,
    decide_false, Bool.or_self, Bool.false_and]

def firmPuncts : List String :=
  openers ++ (assignmentOperators ++ (binaryOperators ++ [";", "\x7b", "\x7d", ")", "]"]))

theorem exponentFitsAfter_punct (hbefore : before t offset = (.punct w, start)) :
    exponentFitsAfter t offset =
      ((punct w).isPunctIn firmPuncts ||
        ((punct w).isPunctIn ["+", "-", "/"] && endsOperand t start)) := by
  simp only [exponentFitsAfter, hbefore, firmPuncts, isPunctIn, isWordIn, List.any_append,
    reduceCtorEq, decide_false, Bool.false_or, Bool.or_assoc]

theorem isPunctIn_signs (hb : b ∈ [(43 : UInt8), 45]) (w : Text) :
    (punct (w ++ [b])).isPunctIn ["+", "-", "/"] = w.isEmpty := by
  cases w with
  | nil =>
    have hall : [(43 : UInt8), 45].all (fun b => (punct [b]).isPunctIn ["+", "-", "/"]) = true := by
      decide
    exact List.all_eq_true.1 hall b hb
  | cons c w =>
    apply List.any_eq_false.2
    intro s hs heq
    have hone : ∀ s ∈ ["+", "-", "/"], (Text.ofString s).length = 1 := by
      decide
    have hlength := hone s hs
    rw [beq_iff_eq.1 heq] at hlength
    simp at hlength

/--
Behind a sign a power can stand exactly if the sign is a token of its own and an operand ends before
it.
-/
theorem exponentFitsAfter_sign (hb : b ∈ [(43 : UInt8), 45])
    (hbefore : before t offset = lastToken (lead ++ [b]).reverse) :
    exponentFitsAfter t offset =
      (!lead.getLast?.any isOperatorByte && endsOperand t lead.length) := by
  have hall :
      [(43 : UInt8), 45].all (fun b => isOperatorByte b && noneEndsIn firmPuncts b) = true := by
    decide
  obtain ⟨hoperator, hfirm⟩ := Bool.and_eq_true_iff.1 (List.all_eq_true.1 hall b hb)
  obtain ⟨front, run, rfl, hrun, hfront⟩ := exists_run_append hoperator lead
  rw [List.append_assoc, lastToken_of_ends (.operator (by simp) hrun hfront)] at hbefore
  rw [exponentFitsAfter_punct hbefore, isPunctIn_eq_false hfirm, Bool.false_or, isPunctIn_signs hb]
  cases run using List.reverseRecOn with
  | nil => simp [hfront]
  | append_singleton run c =>
    have hc : isOperatorByte c = true := hrun c (by simp)
    simp [hc]

theorem exponentFitsAfter_negation (hb : b ∈ [(33 : UInt8), 126])
    (hbefore : before t offset = lastToken (lead ++ [b]).reverse) :
    exponentFitsAfter t offset = false := by
  have hall : [(33 : UInt8), 126].all (fun b =>
      isOperatorByte b && (noneEndsIn firmPuncts b && noneEndsIn ["+", "-", "/"] b)) = true := by
    decide
  obtain ⟨hoperator, hnone⟩ := Bool.and_eq_true_iff.1 (List.all_eq_true.1 hall b hb)
  obtain ⟨hfirm, hsigns⟩ := Bool.and_eq_true_iff.1 hnone
  obtain ⟨front, run, rfl, hrun, hfront⟩ := exists_run_append hoperator lead
  rw [List.append_assoc, lastToken_of_ends (.operator (by simp) hrun hfront)] at hbefore
  rw [exponentFitsAfter_punct hbefore, isPunctIn_eq_false hfirm, isPunctIn_eq_false hsigns]
  rfl

end Slot

namespace Node

def prefixOperators : List String := ["+", "-", "!", "~", "typeof", "void", "delete"]

/-- The operator before an operand, and the operand. -/
def prefixed? : Node → Option (String × Node)
  | .mk (.unary op) _ [c] => if prefixOperators.contains op then some (op, c) else none
  | .mk .await _ [c] => some ("await", c)
  | _ => none

theorem mem_of_prefixed? (h : prefixed? u = some (op, c)) : op ∈ "await" :: prefixOperators := by
  rw [prefixed?.eq_def] at h
  split at h
  next =>
    split at h
    next hop =>
      cases h
      exact List.mem_cons_of_mem _ (List.contains_iff_mem.1 hop)
    next => cases h
  next =>
    cases h
    exact List.mem_cons_self
  next => cases h

end Node

namespace Slot

theorem exponentFitsAfter_iff (hop : op ∈ "await" :: Node.prefixOperators)
    (hbefore : before t offset = lastToken (lead ++ Text.ofString op).reverse) :
    exponentFitsAfter t offset = true ↔ (op = "+" ∨ op = "-") ∧
    lead.getLast?.any isOperatorByte = false ∧
      endsOperand t lead.length = true := by
  simp only [Node.prefixOperators, List.mem_cons, List.not_mem_nil, or_false] at hop
  have hword (hw : op ∈ ["typeof", "void", "delete", "await"]) :
      exponentFitsAfter t offset = false :=
    exponentFitsAfter_word hw hbefore
  have hsign {b : UInt8} (hb : b ∈ [(43 : UInt8), 45]) (hspelled : Text.ofString op = [b]) :
      exponentFitsAfter t offset = true ↔
        lead.getLast?.any isOperatorByte = false ∧ endsOperand t lead.length = true := by
    rw [hspelled] at hbefore
    rw [exponentFitsAfter_sign hb hbefore, Bool.and_eq_true, Bool.not_eq_true']
  have hnegation {b : UInt8} (hb : b ∈ [(33 : UInt8), 126]) (hspelled : Text.ofString op = [b]) :
      exponentFitsAfter t offset = false := by
    rw [hspelled] at hbefore
    exact exponentFitsAfter_negation hb hbefore
  rcases hop with rfl | rfl | rfl | rfl | rfl | rfl | rfl | rfl
  · simp [hword (by decide)]
  · simp [hsign (by decide) rfl]
  · simp [hsign (by decide) rfl]
  · simp [hnegation (by decide) rfl]
  · simp [hnegation (by decide) rfl]
  · simp [hword (by decide)]
  · simp [hword (by decide)]
  · simp [hword (by decide)]

theorem take_of_slice {t : Text} (h : t.slice ⟨i, j⟩ = w ++ gap) (hw : w ≠ []) :
    (t.take i).length = i ∧ t.take j = t.take i ++ w ++ gap := by
  rw [Text.slice] at h
  have hlength := congrArg List.length h
  have hpos := List.length_pos_iff.2 hw
  simp only [List.length_drop, List.length_take, List.length_append] at hlength
  refine ⟨by rw [List.length_take]; omega, ?_⟩
  rw [List.append_assoc, ← h]
  have hsplit := List.take_append_drop i (t.take j)
  rw [List.take_take, Nat.min_eq_left (by omega)] at hsplit
  exact hsplit.symm

/--
A power that takes the place of an operand behind its operator is left without parentheses exactly
if the operator is a sign, no other operator touches it, what stands before it ends an operand, and
what follows lets a power stand.
-/
theorem needsParens_eq_false_iff_sign (p : Program) (u c : Node) (op : String) (gap : Text)
    (e : Edit) (hu : u.prefixed? = some (op, c)) (he : MathPow.edit? p c = some e)
    (htext : p.text.slice ⟨u.span.start, c.span.start⟩ = Text.ofString op ++ gap)
    (hgap : Gap (p.text.take u.span.start ++ Text.ofString op) gap)
    (hends : endsInToken (p.text.take u.span.start ++ Text.ofString op) = true) :
    (∃ base exponent, e = Edit.laid c.span (Edit.wrapped (needsParens p.text c.span .exponent)
      (MathPow.operandSegments base ++ [.string " ** "] ++ MathPow.operandSegments exponent))) ∧
    (needsParens p.text c.span .exponent = false ↔ (op = "+" ∨ op = "-") ∧
      (p.text.take u.span.start).getLast?.any isOperatorByte = false ∧
      endsOperand p.text u.span.start = true ∧
      exponentFitsBefore p.text c.span.stop = true) := by
  have hop := Node.mem_of_prefixed? hu
  have hspelled : ∀ op ∈ "await" :: Node.prefixOperators, Text.ofString op ≠ [] := by
    decide
  obtain ⟨hlength, htake⟩ := take_of_slice htext (hspelled op hop)
  have hfits := exponentFitsAfter_iff hop (before_of_gap htake hgap hends)
  rw [hlength] at hfits
  obtain ⟨_, base, exponent, _, _, _, hlaid⟩ := MathPow.edit?_eq_laid he
  refine ⟨⟨base, exponent, hlaid⟩, ?_⟩
  rw [needsParens, Bool.not_eq_false', Bool.and_eq_true, hfits, and_assoc, and_assoc]

theorem needsParens_eq_false_iff_sign_signed :
    ∃ p ∈ (Program.parse .tsx (Text.ofString "x = !a + - /* c */ Math.pow(c, d);")).toOption,
      ∃ u ∈ p.tree.subtrees, ∃ x ∈ u.prefixed?, x.1 = "-" ∧ (MathPow.edit? p x.2).isSome = true ∧
        needsParens p.text x.2.span .exponent = true := by
  have hbody : ¬[47, 42] <:+: Text.ofString " c " := by
    decide
  have hgap (lead : Text) : Gap lead (Text.ofString " /* c */ ") :=
    .blank (.block (.blank .nil rfl) hbody) rfl
  have hparse :
      ∃ p ∈ (Program.parse .tsx (Text.ofString "x = !a + - /* c */ Math.pow(c, d);")).toOption,
      ∃ u ∈ p.tree.subtrees, ∃ x ∈ u.prefixed?, x.1 = "-" ∧ (MathPow.edit? p x.2).isSome = true ∧
        p.text.slice ⟨u.span.start, x.2.span.start⟩ =
          Text.ofString x.1 ++ Text.ofString " /* c */ " ∧
        endsInToken (p.text.take u.span.start ++ Text.ofString x.1) = true ∧
        endsOperand p.text u.span.start = false := by
    decide +kernel
  obtain ⟨p, hp, u, hu, x, hx, hop, hmade, htext, hends, hoperand⟩ := hparse
  obtain ⟨e, he⟩ := Option.isSome_iff_exists.1 hmade
  have hiff := (needsParens_eq_false_iff_sign p u x.2 x.1 _ e hx he htext (hgap _) hends).2
  refine ⟨p, hp, u, hu, x, hx, hop, hmade, ?_⟩
  rw [← Bool.not_eq_false, hiff]
  rintro ⟨_, _, hends', _⟩
  cases hoperand.symm.trans hends'

/-- The bracket that closes the head of a statement passes for the end of an operand. -/
theorem needsParens_eq_false_of_head :
    ∃ p ∈ (Program.parse .tsx (Text.ofString "if (x) -Math.pow(a, b);\n")).toOption,
      (∃ u ∈ p.tree.subtrees, ∃ x ∈ u.prefixed?, x.1 = "-" ∧ (MathPow.edit? p x.2).isSome = true ∧
        needsParens p.text x.2.span .exponent = false) ∧
      (Program.parse .tsx
        ((Document.ofText p.text).apply (MathPow.edits p)).1.text).toOption.isNone = true := by
  decide +kernel

/-- Whether a brace behind a text is taken to open a block. -/
inductive OpensBlock : Text → Prop
  | boundary : OpensBlock []
  | semicolon (front : Text) : OpensBlock (front ++ [59])
  | word (hw : w ∈ ["do", "else"]) (hfront : front.getLast?.any isWordByte = false) :
      OpensBlock (front ++ Text.ofString w)
  | operator (hw : w ∈ [":", "=>"]) (hfront : front.getLast?.any isOperatorByte = false) :
      OpensBlock (front ++ Text.ofString w)
  | brace (hhole : front.getLast? ≠ some 36)
      (hattribute : (before front front.length).1 ≠ .punct [61]) :
      OpensBlock (front ++ [123])

/-- Whether a bracket behind a text would go on with what the text ends in. -/
inductive Continued : Text → Prop
  | bracket (front : Text) (hb : b ∈ [(41 : UInt8), 93, 125]) : Continued (front ++ [b])
  | word (hne : run ≠ []) (hrun : ∀ b ∈ run, isWordByte b = true)
      (hfront : front.getLast?.any isWordByte = false)
      (hoperand : isOperatorKeyword run = false) : Continued (front ++ run)

theorem before_of_initial (h : front <+: t) :
    before t front.length = before front front.length := by
  rw [before, before, ← List.prefix_iff_eq_take.1 h, List.take_length]

theorem isPunctIn_singleton (n : Neighbour) (s : String) :
    n.isPunctIn [s] = true ↔ n = .punct (Text.ofString s) := by
  cases n with
  | boundary => simp [isPunctIn]
  | word w => simp [isPunctIn]
  | punct w =>
    simp only [isPunctIn, List.any_cons, List.any_nil, Bool.or_false, beq_iff_eq, punct.injEq]
    exact eq_comm

def sealers : List String := [";", "\x7d", ")", "]", "=>", ":"]

theorem objectNeedsParens_word (hbefore : before t offset = (.word w, start)) :
    objectNeedsParens t offset = ((word w).isWordIn ["do", "else"] || !isOperatorKeyword w) := by
  rw [objectNeedsParens, hbefore]

theorem objectNeedsParens_punct (hbefore : before t offset = (.punct w, start))
    (hbrace : w ≠ [123]) : objectNeedsParens t offset = (punct w).isPunctIn sealers := by
  have hno : (punct w).isPunctIn ["\x7b"] = false := by
    rw [← Bool.not_eq_true, isPunctIn_singleton]
    intro heq
    cases heq
    exact hbrace rfl
  simp only [objectNeedsParens, hbefore, hno, Bool.false_eq_true, if_false, sealers]

theorem objectNeedsParens_brace (hfront : front <+: t)
    (hbefore : before t offset = (.punct [123], front.length)) :
    objectNeedsParens t offset = true ↔ (before front front.length).1 ≠ .punct [61] := by
  have hbrace : (punct [123]).isPunctIn ["\x7b"] = true := rfl
  simp only [objectNeedsParens, isAttributeBrace, hbefore, hbrace, if_true, Bool.true_and]
  rw [before_of_initial hfront, Bool.not_eq_true', ← Bool.not_eq_true, isPunctIn_singleton]
  rfl

theorem objectNeedsParens_of_opensBlock (h : OpensBlock lead) (hlead : lead <+: t)
    (hbefore : before t offset = lastToken lead.reverse) : objectNeedsParens t offset = true := by
  cases h with
  | boundary =>
    rw [objectNeedsParens, hbefore]
    rfl
  | semicolon front =>
    rw [lastToken_of_ends (.byte (by decide) (by decide) fun heq =>
      absurd heq (by decide))] at hbefore
    rw [objectNeedsParens_punct hbefore (by decide)]
    rfl
  | @word w front hw hfront =>
    have hbytes : ∀ s ∈ ["do", "else"], Text.ofString s ≠ [] ∧
        (Text.ofString s).all isWordByte = true ∧
        (Neighbour.word (Text.ofString s)).isWordIn ["do", "else"] = true := by
      decide
    obtain ⟨hne, hrun, hin⟩ := hbytes w hw
    rw [lastToken_of_ends (.word hne (List.all_eq_true.1 hrun) hfront)] at hbefore
    rw [objectNeedsParens_word hbefore, hin, Bool.true_or]
  | @operator w front hw hfront =>
    have hbytes : ∀ s ∈ [":", "=>"], Text.ofString s ≠ [] ∧
        (Text.ofString s).all isOperatorByte = true ∧
        Text.ofString s ≠ [123] ∧ (punct (Text.ofString s)).isPunctIn sealers = true := by
      decide
    obtain ⟨hne, hrun, hbrace, hin⟩ := hbytes w hw
    rw [lastToken_of_ends (.operator hne (List.all_eq_true.1 hrun) hfront)] at hbefore
    rw [objectNeedsParens_punct hbefore hbrace, hin]
  | @brace front hhole hattribute =>
    rw [lastToken_of_ends (.byte (by decide) (by decide) fun _ => hhole)] at hbefore
    exact (objectNeedsParens_brace ((List.prefix_append front [123]).trans hlead) hbefore).2
      hattribute

theorem continuesPrevious_of_continued (h : Continued lead)
    (hbefore : before t offset = lastToken lead.reverse) :
    continuesPrevious t offset = true ∧ objectNeedsParens t offset = true := by
  cases h with
  | @bracket b front hb =>
    have hbytes :
        [(41 : UInt8), 93, 125].all (fun b =>
          decide (isWordByte b = false ∧ isOperatorByte b = false ∧
        b ≠ 123 ∧ (operandClosers.contains [b] || (punct [b]).isPunctIn ["\x7d"]) = true ∧
        (punct [b]).isPunctIn sealers = true)) = true := by
      decide
    obtain ⟨hword, hoperator, hbrace, hcloses, hin⟩ :=
      of_decide_eq_true (List.all_eq_true.1 hbytes b hb)
    rw [lastToken_of_ends (.byte hword hoperator fun heq => absurd heq hbrace)] at hbefore
    rw [objectNeedsParens_punct hbefore (by simpa using hbrace), continuesPrevious,
      endsOperand, hbefore]
    exact ⟨hcloses, hin⟩
  | @word run front hne hrun hfront hoperand =>
    rw [lastToken_of_ends (.word hne hrun hfront)] at hbefore
    rw [objectNeedsParens_word hbefore, continuesPrevious, endsOperand, hbefore, hoperand]
    simp only [hoperand, Bool.not_false, Bool.true_or, Bool.or_true, and_self]

theorem opensBlock_of_objectNeedsParens (h : objectNeedsParens t offset = true) (hlead : lead <+: t)
    (hbefore : before t offset = lastToken lead.reverse) (hcontinued : ¬Continued lead) :
    OpensBlock lead := by
  obtain ⟨token, hends⟩ := exists_ends lead
  rw [lastToken_of_ends hends] at hbefore
  cases hends with
  | boundary => exact .boundary
  | @word run front hne hrun hfront =>
    rw [objectNeedsParens_word hbefore, Bool.or_eq_true, Bool.not_eq_true'] at h
    rcases h with hin | hoperand
    · obtain ⟨w, hw, heq⟩ := List.any_eq_true.1 hin
      rw [← beq_iff_eq.1 heq]
      exact .word hw hfront
    · exact absurd (.word hne hrun hfront hoperand) hcontinued
  | @operator run front hne hrun hfront =>
    have hbrace : run ≠ [123] := by
      rintro rfl
      exact absurd (hrun 123 List.mem_cons_self) (by decide)
    rw [objectNeedsParens_punct hbefore hbrace] at h
    obtain ⟨w, hw, heq⟩ := List.any_eq_true.1 h
    have hsplit : ∀ s ∈ sealers, (Text.ofString s).all isOperatorByte = true → s ∈ [":", "=>"] := by
      decide
    rw [← beq_iff_eq.1 heq] at hrun ⊢
    exact .operator (hsplit w hw (List.all_eq_true.2 hrun)) hfront
  | hole front =>
    rw [objectNeedsParens_punct hbefore (by decide)] at h
    exact absurd h (by decide)
  | @byte b front hword hoperator hhole =>
    by_cases hbrace : b = 123
    · subst hbrace
      exact .brace (hhole rfl)
        ((objectNeedsParens_brace ((List.prefix_append front [123]).trans hlead) hbefore).1 h)
    · rw [objectNeedsParens_punct hbefore (by simpa using hbrace)] at h
      obtain ⟨w, hw, heq⟩ := List.any_eq_true.1 h
      have hsplit : ∀ s ∈ sealers, (Text.ofString s).getLast?.all (fun c =>
          decide (isOperatorByte c = true ∨ c = 59 ∨ c ∈ [(41 : UInt8), 93, 125])) = true := by
        decide
      have hlast := hsplit w hw
      rw [beq_iff_eq.1 heq] at hlast
      rcases of_decide_eq_true hlast with hop | rfl | hclose
      · cases hoperator.symm.trans hop
      · exact .semicolon front
      · exact absurd (.bracket front hclose) hcontinued

theorem not_continuesPrevious_of_wrapped
    (h : startsSafely t (Edit.laid range (Edit.wrapped true segs)) = true) :
    continuesPrevious t range.start = false := by
  change (!(true && continuesPrevious t range.start)) = true at h
  rwa [Bool.true_and, Bool.not_eq_true'] at h

/--
A copy is written in parentheses exactly if the token before it is known to leave a brace at the
start of a block, and it is not written where a bracket would go on with what stands before.
-/
theorem object_wrapped_iff_opensBlock (p : Program) (n : Node) (e : Edit) (lead gap : Text)
    (he : ObjectAssign.edit? p n = some e) (htext : p.text.take n.span.start = lead ++ gap)
    (hgap : Gap lead gap) (hends : endsInToken lead = true) :
    ¬Continued lead ∧ ∃ arguments target sources wrap,
      n.staticCall? "Object" "assign" = some arguments ∧
      arguments.children = target :: sources ∧
      e = Edit.laid n.span (Edit.wrapped wrap (ObjectAssign.literalSegments sources)) ∧
      (wrap = true ↔ OpensBlock lead) := by
  have hbefore := before_of_gap htext hgap hends
  have hlead : lead <+: p.text := by
    apply (List.prefix_append lead gap).trans
    rw [← htext]
    exact List.take_prefix _ _
  obtain ⟨arguments, target, sources, hcall, hchildren, hsafe, hlaid⟩ :=
    ObjectAssign.edit?_eq_laid he
  have hcontinued : ¬Continued lead := by
    intro hcontinued
    obtain ⟨hcontinues, hparens⟩ := continuesPrevious_of_continued hcontinued hbefore
    rw [hlaid, needsParens, hparens] at hsafe
    cases hcontinues.symm.trans (not_continuesPrevious_of_wrapped hsafe)
  refine ⟨hcontinued, arguments, target, sources, _, hcall, hchildren, hlaid, ?_⟩
  constructor
  · intro hparens
    exact opensBlock_of_objectNeedsParens hparens hlead hbefore hcontinued
  · intro hopens
    exact objectNeedsParens_of_opensBlock hopens hlead hbefore

theorem object_wrapped_iff_opensBlock_arrow :
    ∃ p ∈
      (Program.parse .tsx (Text.ofString "f = a => /* b */ Object.assign(\x7b\x7d, a);")).toOption,
      ∃ n ∈ p.tree.subtrees, ∃ e ∈ ObjectAssign.edit? p n, ∃ sources,
        e = Edit.laid n.span (Edit.wrapped true (ObjectAssign.literalSegments sources)) := by
  have hbody : ¬[47, 42] <:+: Text.ofString " b " := by
    decide
  have hgap (lead : Text) : Gap lead (Text.ofString " /* b */ ") :=
    .blank (.block (.blank .nil rfl) hbody) rfl
  have hopens : OpensBlock (Text.ofString "f = a =>") := by
    have h : OpensBlock (Text.ofString "f = a " ++ Text.ofString "=>") :=
      .operator (by decide) (by decide)
    exact h
  have hparse :
      ∃ p ∈
        (Program.parse .tsx
          (Text.ofString "f = a => /* b */ Object.assign(\x7b\x7d, a);")).toOption,
      ∃ n ∈ p.tree.subtrees, ∃ e ∈ ObjectAssign.edit? p n,
        p.text.take n.span.start = Text.ofString "f = a =>" ++ Text.ofString " /* b */ " := by
    decide +kernel
  obtain ⟨p, hp, n, hn, e, he, htext⟩ := hparse
  obtain ⟨_, _, _, sources, wrap, _, _, hlaid, hwrap⟩ :=
    object_wrapped_iff_opensBlock p n e _ _ he htext (hgap _) (by decide)
  refine ⟨p, hp, n, hn, e, he, sources, ?_⟩
  rw [hlaid, hwrap.2 hopens]

/-- Behind a quote at the end of a line a statement starts unseen, and the copy becomes a block. -/
theorem object_not_wrapped_of_quote :
    ∃ p ∈ (Program.parse .tsx (Text.ofString "'use strict'\nObject.assign(\x7b\x7d);\n")).toOption,
      (∃ s ∈ p.tree.subtrees, s.kind = .exprStmt ∧ ∃ n ∈ s.subtrees, n.span.start = s.span.start ∧
        ∃ e ∈ ObjectAssign.edit? p n,
          e = Edit.laid n.span (Edit.wrapped false (ObjectAssign.literalSegments []))) ∧
      ∃ q ∈
        (Program.parse .tsx
          ((Document.ofText p.text).apply (ObjectAssign.edits p)).1.text).toOption,
        (∃ s ∈ q.tree.subtrees, s.kind = .block) ∧ ∀ s ∈ q.tree.subtrees, s.kind ≠ .object := by
  decide +kernel

end Slot

end Uplift
