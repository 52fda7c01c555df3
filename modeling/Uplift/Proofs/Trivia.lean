import Mathlib.Data.List.TakeWhile
import Uplift.Proofs.Comment

namespace Uplift.Neighbour

set_option autoImplicit true

theorem any_head_dropWhile (f : UInt8 → Bool) (s : Text) : (s.dropWhile f).head?.any f = false := by
  have h := List.head?_dropWhile_not f s
  cases hfirst : (s.dropWhile f).head? with
  | none => rfl
  | some b =>
    rw [hfirst] at h
    exact h

theorem skip_settled (hcomment : ∀ s rest, comment s = some rest → rest.length < s.length)
    (hfuel : s.length < fuel) :
    (skip comment fuel s).head?.any isSpace = false ∧ comment (skip comment fuel s) = none := by
  induction fuel generalizing s with
  | zero => cases hfuel
  | succ fuel ih =>
    rw [skip]
    cases hnext : comment (s.dropWhile isSpace) with
    | none => exact ⟨any_head_dropWhile isSpace s, hnext⟩
    | some rest =>
      have hblanks : (s.dropWhile isSpace).length ≤ s.length :=
        (List.dropWhile_suffix isSpace).length_le
      have hrest := hcomment _ _ hnext
      exact ih (by omega)

/-- Blanks, `/*...*/` groups and `//...` ends of lines. -/
inductive PassedBack : Text → Prop
  | nil : PassedBack []
  | blank (h : PassedBack gap) (hb : isSpace b = true) : PassedBack (gap ++ [b])
  | block (h : PassedBack gap) (hbody : ¬[47, 42] <:+: body) : PassedBack (gap ++ blockComment body)
  | line (h : PassedBack gap) (hbody : 10 ∉ body) : PassedBack (gap ++ 47 :: 47 :: body)

theorem PassedBack.blanks (h : PassedBack gap) (hspaces : ∀ b ∈ spaces, isSpace b = true) :
    PassedBack (gap ++ spaces) := by
  induction spaces generalizing gap with
  | nil =>
    rw [List.append_nil]
    exact h
  | cons b spaces ih =>
    obtain ⟨hb, hspaces⟩ := List.forall_mem_cons.1 hspaces
    rw [List.append_cons]
    exact ih (h.blank hb) hspaces

theorem newline_not_mem_currentLine (back : Text) : 10 ∉ currentLine back := by
  intro hmem
  have h := List.mem_takeWhile_imp (List.mem_reverse.1 hmem)
  exact absurd h (by decide)

theorem currentLine_suffix (back : Text) : currentLine back <:+ back.reverse := by
  rw [currentLine, List.reverse_suffix]
  exact List.takeWhile_prefix _

theorem skipCommentBack_cases (h : skipCommentBack back = some rest) :
    (∃ body, back.reverse = rest.reverse ++ blockComment body ∧ ¬[47, 42] <:+: body) ∨
    ∃ body, back.reverse = rest.reverse ++ 47 :: 47 :: body ∧ 10 ∉ body := by
  rw [skipCommentBack.eq_def] at h
  split at h
  next behind =>
    obtain ⟨inner, rfl, hinner⟩ := eq_of_beforeOpen h
    refine .inl ⟨inner.reverse, by simp [blockComment], ?_⟩
    intro hin
    exact hinner (List.reverse_infix.1 hin)
  next =>
    obtain ⟨n, hn, rfl⟩ := Option.map_eq_some_iff.1 h
    obtain ⟨body, hline, rfl⟩ := exists_of_lineComment hn
    obtain ⟨front, hfront⟩ := hline.trans (currentLine_suffix back)
    have hback : back = (47 :: 47 :: body).reverse ++ front.reverse := by
      rw [← List.reverse_append, hfront, List.reverse_reverse]
    refine .inr ⟨body, ?_, ?_⟩
    · rw [hback, List.drop_left' (by simp)]
      simp
    · intro hmem
      exact newline_not_mem_currentLine back (hline.subset (by simp [hmem]))

theorem exists_passedBack (fuel : Nat) (back : Text) :
    ∃ gap, back.reverse = (skip skipCommentBack fuel back).reverse ++ gap ∧ PassedBack gap := by
  induction fuel generalizing back with
  | zero => exact ⟨[], (List.append_nil _).symm, .nil⟩
  | succ fuel ih =>
    have hblanks : ∀ b ∈ (back.takeWhile isSpace).reverse, isSpace b = true := by
      intro b hb
      exact List.mem_takeWhile_imp (List.mem_reverse.1 hb)
    have hback :
        back.reverse = (back.dropWhile isSpace).reverse ++ (back.takeWhile isSpace).reverse := by
      rw [← List.reverse_append, List.takeWhile_append_dropWhile]
    rw [skip]
    cases hnext : skipCommentBack (back.dropWhile isSpace) with
    | none =>
      refine ⟨_, hback, ?_⟩
      have hgap := PassedBack.nil.blanks hblanks
      rwa [List.nil_append] at hgap
    | some rest =>
      obtain ⟨gap, hrest, hgap⟩ := ih rest
      have hpass {comment : Text}
          (hcomment : (back.dropWhile isSpace).reverse = rest.reverse ++ comment)
          (h : PassedBack (gap ++ comment)) :
          ∃ gap, back.reverse = (skip skipCommentBack fuel rest).reverse ++ gap ∧
            PassedBack gap := by
        refine ⟨gap ++ comment ++ (back.takeWhile isSpace).reverse, ?_, h.blanks hblanks⟩
        rw [hback, hcomment, hrest]
        simp
      obtain ⟨body, hcomment, hbody⟩ | ⟨body, hcomment, hbody⟩ := skipCommentBack_cases hnext
      · exact hpass hcomment (hgap.block hbody)
      · exact hpass hcomment (hgap.line hbody)

theorem ends_lastToken (back : Text) : Ends back.reverse (lastToken back) := by
  obtain ⟨token, htoken⟩ := exists_ends back.reverse
  have h := lastToken_of_ends htoken
  rw [List.reverse_reverse] at h
  rw [h]
  exact htoken

/--
The token before an offset ends where the gap before the offset starts, and a text that ends there
ends in a token.
-/
theorem exists_gap_before (t : Text) (offset : Nat) :
    ∃ lead gap, t.take offset = lead ++ gap ∧ PassedBack gap ∧ Ends lead (before t offset) ∧
      endsInToken lead = true := by
  let back := (t.take offset).reverse
  let stop := skip skipCommentBack (back.length + 1) back
  obtain ⟨gap, hback, hgap⟩ := exists_passedBack (back.length + 1) back
  obtain ⟨hblank, hcomment⟩ :=
    skip_settled (fun _ _ => length_of_skipCommentBack) (Nat.lt_succ_self back.length)
  have hbefore : before t offset = lastToken stop := by
    rw [before, skipBack_eq_skip]
  refine ⟨stop.reverse, gap, ?_, hgap, ?_, ?_⟩
  · rw [← hback, List.reverse_reverse]
  · rw [hbefore]
    exact ends_lastToken stop
  · rw [endsInToken, List.reverse_reverse, List.getLast?_reverse, hblank, hcomment]
    rfl

/--
Blanks and comments in front of a text. A line comment goes up to a newline or to the end, and a
block comment left open has nothing behind it.
-/
inductive PassedAhead : Text → Text → Prop
  | nil : PassedAhead [] rest
  | blank (hb : isSpace b = true) (h : PassedAhead gap rest) : PassedAhead (b :: gap) rest
  | block (hbody : ¬[42, 47] <:+: body) (h : PassedAhead gap rest) :
      PassedAhead (blockComment body ++ gap) rest
  | line (hbody : 10 ∉ body) (hend : (gap ++ rest).head?.all (· == 10) = true)
      (h : PassedAhead gap rest) :
      PassedAhead (47 :: 47 :: (body ++ gap)) rest
  | unclosed (hbody : ¬[42, 47] <:+: body) : PassedAhead (47 :: 42 :: body) []

/-- The token with which a text starts, which goes on for as long as it can. -/
inductive Starts : Text → Neighbour → Prop
  | boundary : Starts [] .boundary
  | word (hne : run ≠ []) (hrun : ∀ b ∈ run, isWordByte b = true)
      (hrest : rest.head?.any isWordByte = false) :
      Starts (run ++ rest) (.word run)
  | operator (hne : run ≠ []) (hrun : ∀ b ∈ run, isOperatorByte b = true)
      (hrest : rest.head?.any isOperatorByte = false) : Starts (run ++ rest) (.punct run)
  | byte (hword : isWordByte b = false) (hoperator : isOperatorByte b = false) :
      Starts (b :: rest) (.punct [b])

/-- Whether a text starts with a token: neither with a blank nor with a comment. -/
def startsInToken (rest : Text) : Bool :=
  !rest.head?.any isSpace && !List.isPrefixOf [47, 47] rest && !List.isPrefixOf [47, 42] rest

theorem PassedAhead.blanks (h : PassedAhead gap rest) (hspaces : ∀ b ∈ spaces, isSpace b = true) :
    PassedAhead (spaces ++ gap) rest := by
  induction spaces with
  | nil => exact h
  | cons b spaces ih =>
    obtain ⟨hb, hspaces⟩ := List.forall_mem_cons.1 hspaces
    exact .blank hb (ih hspaces)

theorem afterClose_eq_none (h : afterClose t = none) : ¬[42, 47] <:+: t := by
  rintro ⟨front, behind, rfl⟩
  induction front with
  | nil => cases h
  | cons b front ih =>
    rw [List.cons_append, List.cons_append, afterClose.eq_def] at h
    split at h
    next heq => cases heq
    next => cases h
    next heq =>
      cases heq
      exact ih h

theorem skipCommentAhead_cases (h : skipCommentAhead s = some rest) :
    (∃ body, s = 47 :: 47 :: (body ++ rest) ∧ 10 ∉ body ∧ rest.head?.all (· == 10) = true) ∨
    (∃ body, s = blockComment body ++ rest ∧ ¬[42, 47] <:+: body) ∨
    ∃ body, s = 47 :: 42 :: body ∧ ¬[42, 47] <:+: body ∧ rest = [] := by
  rw [skipCommentAhead.eq_def] at h
  split at h
  next line =>
    cases h
    refine .inl ⟨line.takeWhile (· != Text.newline), by simp, ?_, ?_⟩
    · intro hmem
      exact absurd (List.mem_takeWhile_imp hmem) (by decide)
    · have hhead := any_head_dropWhile (· != Text.newline) line
      simpa [Text.newline, Option.any_eq_false, Option.all_eq_true] using hhead
  next inner =>
    cases hclose : afterClose inner with
    | none =>
      rw [hclose] at h
      cases h
      exact .inr (.inr ⟨inner, rfl, afterClose_eq_none hclose, rfl⟩)
    | some after =>
      rw [hclose] at h
      cases h
      rw [afterClose_eq] at hclose
      obtain ⟨body, rfl, hbody⟩ := eq_of_beforeOpen hclose
      exact .inr (.inl ⟨body, by simp [blockComment], hbody⟩)
  next => cases h

theorem exists_passedAhead (fuel : Nat) (s : Text) :
    ∃ gap, s = gap ++ skip skipCommentAhead fuel s ∧
      PassedAhead gap (skip skipCommentAhead fuel s) := by
  induction fuel generalizing s with
  | zero => exact ⟨[], rfl, .nil⟩
  | succ fuel ih =>
    have hblanks : ∀ b ∈ s.takeWhile isSpace, isSpace b = true :=
      fun b hb => List.mem_takeWhile_imp hb
    have hs : s = s.takeWhile isSpace ++ s.dropWhile isSpace := List.takeWhile_append_dropWhile.symm
    rw [skip]
    cases hnext : skipCommentAhead (s.dropWhile isSpace) with
    | none =>
      refine ⟨_, hs, ?_⟩
      have hgap : PassedAhead (s.takeWhile isSpace ++ []) (s.dropWhile isSpace) :=
        PassedAhead.nil.blanks hblanks
      rwa [List.append_nil] at hgap
    | some rest =>
      obtain ⟨gap, hrest, hgap⟩ := ih rest
      have hpass (comment : Text) (hcomment : s.dropWhile isSpace = comment ++ rest)
          (h : PassedAhead (comment ++ gap) (skip skipCommentAhead fuel rest)) :
          ∃ gap, s = gap ++ skip skipCommentAhead fuel rest ∧
            PassedAhead gap (skip skipCommentAhead fuel rest) := by
        refine ⟨s.takeWhile isSpace ++ (comment ++ gap), ?_, h.blanks hblanks⟩
        rw [List.append_assoc, List.append_assoc, ← hrest, ← hcomment]
        exact hs
      obtain ⟨body, hcomment, hbody, hend⟩ | ⟨body, hcomment, hbody⟩ |
        ⟨body, hcomment, hbody, rfl⟩ := skipCommentAhead_cases hnext
      · rw [hrest] at hend
        exact hpass (47 :: 47 :: body) hcomment (.line hbody hend hgap)
      · exact hpass _ hcomment (.block hbody hgap)
      · obtain ⟨rfl, hnil⟩ := List.append_eq_nil_iff.1 hrest.symm
        apply hpass _ (hcomment.trans (List.append_nil _).symm)
        rw [hnil, List.append_nil]
        exact .unclosed hbody

theorem startsInToken_of_settled (hblank : rest.head?.any isSpace = false)
    (hcomment : skipCommentAhead rest = none) : startsInToken rest = true := by
  rw [skipCommentAhead.eq_def] at hcomment
  split at hcomment
  next => cases hcomment
  next => cases hcomment
  next hline hopen =>
    have hmark (c : UInt8) (h : ∀ s, rest ≠ 47 :: c :: s) :
        List.isPrefixOf [47, c] rest = false := by
      rw [← Bool.not_eq_true, List.isPrefixOf_iff_prefix]
      rintro ⟨s, hs⟩
      exact h s hs.symm
    rw [startsInToken, hblank, hmark 47 hline, hmark 42 hopen]
    rfl

theorem starts_firstToken (rest : Text) : Starts rest (firstToken rest) := by
  cases rest with
  | nil => exact .boundary
  | cons b behind =>
    have hne {f : UInt8 → Bool} (hb : f b = true) : (b :: behind).takeWhile f ≠ [] := by
      rw [List.takeWhile_cons, if_pos hb]
      exact List.cons_ne_nil b _
    rw [firstToken.eq_def]
    simp only
    split
    next hword =>
      have h := Starts.word (hne hword) (fun _ hc => List.mem_takeWhile_imp hc)
        (any_head_dropWhile isWordByte (b :: behind))
      rwa [List.takeWhile_append_dropWhile] at h
    next hword =>
    split
    next hoperator =>
      have h := Starts.operator (hne hoperator) (fun _ hc => List.mem_takeWhile_imp hc)
        (any_head_dropWhile isOperatorByte (b :: behind))
      rwa [List.takeWhile_append_dropWhile] at h
    next hoperator => exact .byte (Bool.eq_false_iff.2 hword) (Bool.eq_false_iff.2 hoperator)

theorem exists_gap_after (t : Text) (offset : Nat) :
    ∃ gap rest, t.drop offset = gap ++ rest ∧ PassedAhead gap rest ∧ Starts rest (after t offset) ∧
      startsInToken rest = true := by
  let s := t.drop offset
  obtain ⟨gap, hgap, hpass⟩ := exists_passedAhead (s.length + 1) s
  obtain ⟨hblank, hcomment⟩ :=
    skip_settled (fun _ _ => length_of_skipCommentAhead) (Nat.lt_succ_self s.length)
  refine ⟨gap, _, hgap, hpass, ?_, startsInToken_of_settled hblank hcomment⟩
  rw [after, skipAhead_eq_skip]
  exact starts_firstToken _

end Uplift.Neighbour
