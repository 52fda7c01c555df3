import Uplift.Proofs.Neighbour

namespace Uplift.Neighbour

set_option autoImplicit true

def blockComment (body : Text) : Text := 47 :: 42 :: (body ++ [42, 47])

theorem eq_of_beforeOpen (h : beforeOpen back = some rest) :
    ∃ inner, back = inner ++ 42 :: 47 :: rest ∧ ¬[42, 47] <:+: inner := by
  induction back with
  | nil => cases h
  | cons b back ih =>
    rw [beforeOpen.eq_def] at h
    split at h
    next heq => cases heq
    next heq =>
      cases heq
      cases h
      exact ⟨[], rfl, by decide⟩
    next hopen heq =>
      cases heq
      obtain ⟨inner, rfl, hinner⟩ := ih h
      refine ⟨b :: inner, rfl, ?_⟩
      intro hin
      rcases List.infix_cons_iff.1 hin with ⟨behind, hfirst⟩ | hin
      · -- the mark would have been found at the first byte already
        cases inner with
        | nil => cases hfirst
        | cons c inner =>
          simp only [List.cons_append, List.cons.injEq] at hfirst
          obtain ⟨rfl, rfl, -⟩ := hfirst
          exact hopen _ rfl rfl
      · exact hinner hin

theorem length_of_beforeOpen (h : beforeOpen back = some rest) : rest.length < back.length := by
  obtain ⟨inner, rfl, -⟩ := eq_of_beforeOpen h
  simp only [List.length_append, List.length_cons]
  omega

theorem afterClose_eq (t : Text) : afterClose t = beforeOpen t := by
  induction t with
  | nil => rfl
  | cons b t ih =>
    rw [afterClose.eq_def, beforeOpen.eq_def]
    split
    next heq => cases heq
    next heq =>
      cases heq
      rfl
    next heq =>
      cases heq
      exact ih

theorem suffix_of_afterClose (h : afterClose t = some rest) : rest <:+ t := by
  rw [afterClose_eq] at h
  obtain ⟨inner, rfl, -⟩ := eq_of_beforeOpen h
  exact ⟨inner ++ [42, 47], by simp⟩

theorem exists_of_lineComment (h : lineComment fuel q line = some n) :
    ∃ body, 47 :: 47 :: body <:+ line ∧ n = body.length + 2 := by
  induction fuel generalizing q line with
  | zero => cases h
  | succ fuel ih =>
    cases line with
    | nil => cases h
    | cons b rest =>
      -- every other step goes on with an end of the line
      have hstep {q : Quoting} {line : Text} (hend : line <:+ rest)
          (h : lineComment fuel q line = some n) :
          ∃ body, 47 :: 47 :: body <:+ b :: rest ∧ n = body.length + 2 := by
        obtain ⟨body, hbody, hn⟩ := ih h
        exact ⟨body, (hbody.trans hend).trans (List.suffix_cons b rest), hn⟩
      rw [lineComment.eq_def] at h
      simp only at h
      cases q with
      | inside quote =>
        simp only at h
        split at h
        next => exact hstep (List.drop_suffix 1 rest) h
        next =>
        split at h
        next => exact hstep (List.suffix_refl rest) h
        next => exact hstep (List.suffix_refl rest) h
      | plain =>
        simp only at h
        split at h
        next => exact hstep (List.suffix_refl rest) h
        next =>
        split at h
        next hslash =>
          split at h
          next body =>
            cases h
            rw [hslash]
            exact ⟨body, List.suffix_refl _, rfl⟩
          next inner =>
            split at h
            next after hclose =>
              exact hstep ((suffix_of_afterClose hclose).trans (List.suffix_cons 42 inner)) h
            next => cases h
          next => exact hstep (List.suffix_refl rest) h
        next => exact hstep (List.suffix_refl rest) h

theorem length_of_skipCommentBack (h : skipCommentBack back = some rest) :
    rest.length < back.length := by
  rw [skipCommentBack.eq_def] at h
  split at h
  next inner =>
    have hinner := length_of_beforeOpen h
    simp only [List.length_cons]
    omega
  next =>
    obtain ⟨n, hn, rfl⟩ := Option.map_eq_some_iff.1 h
    obtain ⟨body, -, hlong⟩ := exists_of_lineComment hn
    have hback : back ≠ [] := by
      rintro rfl
      cases hn
    rw [List.length_drop]
    have hlength := List.length_pos_iff.2 hback
    omega

theorem length_of_afterClose (h : afterClose t = some rest) : rest.length < t.length := by
  rw [afterClose_eq] at h
  exact length_of_beforeOpen h

/-- Passes over blanks and then over a comment, for as long as there is one. -/
def skip (comment : Text → Option Text) : Nat → Text → Text
  | 0, s => s
  | fuel + 1, s =>
    match comment (s.dropWhile isSpace) with
    | some rest => skip comment fuel rest
    | none => s.dropWhile isSpace

def skipCommentAhead (rest : Text) : Option Text :=
  match rest with
  | 47 :: 47 :: line => some (line.dropWhile (· != Text.newline))
  | 47 :: 42 :: inner => some ((afterClose inner).getD [])
  | _ => none

theorem skipBack_eq_skip (fuel : Nat) (back : Text) :
    skipBack fuel back = skip skipCommentBack fuel back := by
  induction fuel generalizing back with
  | zero => rfl
  | succ fuel ih =>
    rw [skipBack, skip]
    cases skipCommentBack (back.dropWhile isSpace) with
    | none => rfl
    | some rest => exact ih rest

theorem skipAhead_eq_skip (fuel : Nat) (rest : Text) :
    skipAhead fuel rest = skip skipCommentAhead fuel rest := by
  induction fuel generalizing rest with
  | zero => rfl
  | succ fuel ih =>
    rw [skipAhead, skip]
    split
    next line heq =>
      rw [heq]
      exact ih _
    next inner heq =>
      rw [heq]
      exact ih _
    next hline hopen =>
      have hnone : skipCommentAhead (rest.dropWhile isSpace) = none := by
        rw [skipCommentAhead.eq_def]
        split
        next line heq => exact (hline line heq).elim
        next inner heq => exact (hopen inner heq).elim
        next => rfl
      rw [hnone]

theorem length_of_skipCommentAhead (h : skipCommentAhead s = some rest) :
    rest.length < s.length := by
  rw [skipCommentAhead.eq_def] at h
  split at h
  next line =>
    cases h
    have hline : (line.dropWhile (· != Text.newline)).length ≤ line.length :=
      (List.dropWhile_suffix _).length_le
    simp only [List.length_cons]
    omega
  next inner =>
    cases h
    have hinner : ((afterClose inner).getD []).length ≤ inner.length := by
      cases hclose : afterClose inner with
      | none => exact Nat.zero_le _
      | some rest => exact Nat.le_of_lt (length_of_afterClose hclose)
    simp only [List.length_cons]
    omega
  next => cases h

theorem skip_eq (hcomment : ∀ s rest, comment s = some rest → rest.length < s.length)
    (hfuel : s.length < fuel) (hfuel' : s.length < fuel') :
    skip comment fuel s = skip comment fuel' s := by
  induction fuel generalizing fuel' s with
  | zero => cases hfuel
  | succ fuel ih =>
    obtain ⟨fuel', rfl⟩ := Nat.exists_eq_succ_of_ne_zero (Nat.ne_zero_of_lt hfuel')
    have hspace : (s.dropWhile isSpace).length ≤ s.length :=
      (List.dropWhile_suffix isSpace).length_le
    rw [skip, skip]
    cases hnext : comment (s.dropWhile isSpace) with
    | none => rfl
    | some rest =>
      have hrest := hcomment _ _ hnext
      exact ih (by omega) (by omega)

theorem before_eq (htake : t.take offset = lead) (hfuel : lead.length < fuel) :
    before t offset = lastToken (skipBack fuel lead.reverse) := by
  rw [before, htake, skipBack_eq_skip, skipBack_eq_skip]
  rw [← List.length_reverse] at hfuel
  exact congrArg lastToken
    (skip_eq (fun _ _ => length_of_skipCommentBack) (Nat.lt_succ_self _) hfuel)

theorem skipAhead_eq (hfuel : rest.length < fuel) (hfuel' : rest.length < fuel') :
    skipAhead fuel rest = skipAhead fuel' rest := by
  rw [skipAhead_eq_skip, skipAhead_eq_skip]
  exact skip_eq (fun _ _ => length_of_skipCommentAhead) hfuel hfuel'

theorem after_eq (hdrop : t.drop offset = rest) (hfuel : rest.length < fuel) :
    after t offset = firstToken (skipAhead fuel rest) := by
  rw [after, hdrop]
  exact congrArg firstToken (skipAhead_eq (Nat.lt_succ_self _) hfuel)

theorem after_blockComment (hbody : ¬[42, 47] <:+: body)
    (hdrop : t.drop offset = blockComment body ++ s) : after t offset = after s 0 := by
  have hlength : s.length < (blockComment body ++ s).length := by
    simp only [blockComment, List.length_append, List.length_cons]
    omega
  have hclose : afterClose (body ++ [42, 47] ++ s) = some s := by
    rw [afterClose_eq, List.append_assoc]
    exact beforeOpen_append hbody
  rw [after_eq hdrop (Nat.lt_succ_self _), after_eq List.drop_zero hlength, skipAhead, blockComment,
    List.cons_append, List.cons_append, List.dropWhile_cons, if_neg (by decide)]
  simp only [hclose, Option.getD_some]

theorem after_lineComment (hline : 10 ∉ line)
    (hdrop : t.drop offset = 47 :: 47 :: (line ++ 10 :: s)) : after t offset = after s 0 := by
  have hlength : s.length < (line ++ 10 :: s).length := by
    simp only [List.length_append, List.length_cons]
    omega
  have hend : (line ++ 10 :: s).dropWhile (· != Text.newline) = 10 :: s := by
    rw [List.dropWhile_append_of_pos]
    · rfl
    · intro b hb
      rw [bne_iff_ne]
      rintro rfl
      exact hline hb
  -- the newline behind the comment is a blank
  have hblank (fuel : Nat) : skipAhead (fuel + 1) (10 :: s) = skipAhead (fuel + 1) s := by
    rw [skipAhead, skipAhead, List.dropWhile_cons, if_pos (by decide)]
  rw [after_eq hdrop (Nat.lt_succ_self _), after_eq List.drop_zero (Nat.lt_succ_of_lt hlength),
    List.length_cons, List.length_cons, skipAhead, List.dropWhile_cons, if_neg (by decide)]
  simp only [hend]
  rw [hblank]
  exact congrArg firstToken (skipAhead_eq (by omega) (by omega))

theorem exists_last_open (h : [47, 42] <:+: body) :
    ∃ outer inner : Text, body = outer ++ 47 :: 42 :: inner ∧ ¬[47, 42] <:+: inner := by
  induction body with
  | nil => exact absurd h (by decide)
  | cons b body ih =>
    by_cases hbody : [47, 42] <:+: body
    · obtain ⟨outer, inner, rfl, hinner⟩ := ih hbody
      exact ⟨b :: outer, inner, rfl, hinner⟩
    · obtain ⟨inner, hinner⟩ := (List.infix_cons_iff.1 h).resolve_right hbody
      obtain ⟨rfl, rfl⟩ := List.cons.inj hinner
      refine ⟨[], inner, rfl, ?_⟩
      intro hin
      exact hbody (hin.trans (List.suffix_cons 42 inner).isInfix)

/-- The scan back goes on before the last `/*` that stands before the end of a comment. -/
theorem before_eq_of_close {inner : Text}
    (htake : t.take offset = lead ++ 47 :: 42 :: (inner ++ [42, 47]))
    (hinner : ¬[47, 42] <:+: inner) : before t offset = before lead lead.length := by
  have hreverse : ¬[42, 47] <:+: inner.reverse := by
    intro hin
    apply hinner
    have h := List.reverse_infix.2 hin
    rwa [List.reverse_reverse] at h
  have hback : (lead ++ 47 :: 42 :: (inner ++ [42, 47])).reverse =
      47 :: 42 :: (inner.reverse ++ 42 :: 47 :: lead.reverse) := by
    simp
  have hlength : lead.length < (lead ++ 47 :: 42 :: (inner ++ [42, 47])).length := by
    simp only [List.length_append, List.length_cons]
    omega
  rw [before_eq htake (Nat.lt_succ_self _), before_eq List.take_length hlength, hback, skipBack,
    List.dropWhile_cons, if_neg (by decide)]
  simp only [skipCommentBack, beforeOpen_append hreverse]

/--
The scan ahead gives the same token in front of a comment as behind it. The scan back gives the same
token behind a block comment as in front of it exactly if it does so from the last `/*` inside the
comment, if there is one; so it does behind every comment without.
-/
theorem comment_transparent_iff (hbody : ¬[42, 47] <:+: body) (hline : 10 ∉ line) :
    (∀ t offset lead, t.take offset = lead ++ blockComment body →
      (before t offset = before lead lead.length ↔
        ∀ outer inner, body = outer ++ 47 :: 42 :: inner → ¬[47, 42] <:+: inner →
          before (lead ++ 47 :: 42 :: outer) (lead ++ 47 :: 42 :: outer).length =
            before lead lead.length)) ∧
    (∀ t offset s, t.drop offset = blockComment body ++ s → after t offset = after s 0) ∧
    ∀ t offset s, t.drop offset = 47 :: 47 :: (line ++ 10 :: s) → after t offset = after s 0 := by
  refine ⟨?_, fun t offset s => after_blockComment hbody, fun t offset s => after_lineComment hline⟩
  intro t offset lead htake
  have hnested {outer inner : Text} (hsplit : body = outer ++ 47 :: 42 :: inner)
      (hinner : ¬[47, 42] <:+: inner) :
      before t offset = before (lead ++ 47 :: 42 :: outer) (lead ++ 47 :: 42 :: outer).length := by
    apply before_eq_of_close _ hinner
    rw [htake, blockComment, hsplit]
    simp
  constructor
  · intro hsame outer inner hsplit hinner
    rw [← hnested hsplit hinner]
    exact hsame
  · intro hlast
    by_cases hopen : [47, 42] <:+: body
    · obtain ⟨outer, inner, hsplit, hinner⟩ := exists_last_open hopen
      rw [hnested hsplit hinner]
      exact hlast outer inner hsplit hinner
    · exact before_eq_of_close htake hopen

theorem comment_transparent_iff_between :
    before (Text.ofString "x/* a */y") 8 = (.word [120], 0) ∧
    after (Text.ofString "x/* a */y") 1 = .word [121] ∧
    after (Text.ofString "// c\ny") 0 = .word [121] := by
  have hbody : ¬[42, 47] <:+: Text.ofString " a " := by decide
  have hline : 10 ∉ Text.ofString " c" := by decide
  obtain ⟨hback, hblock, hahead⟩ := comment_transparent_iff hbody hline
  refine ⟨((hback _ 8 [120] rfl).2 ?_).trans rfl, (hblock _ 1 [121] rfl).trans rfl,
    (hahead _ 0 [121] rfl).trans rfl⟩
  intro outer inner hsplit _
  have hopen : ¬[47, 42] <:+: Text.ofString " a " := by decide
  exact absurd ⟨outer, inner, by rw [hsplit]; simp⟩ hopen

/--
Behind the one comment of `x /* a /* b */` the scan back finds the word `a`, which stands in the
comment.
-/
theorem before_misled_by_open :
    ¬[42, 47] <:+: Text.ofString " a /* b " ∧
    before (Text.ofString "x " ++ blockComment (Text.ofString " a /* b ")) 14 =
      (.word (Text.ofString "a"), 5) ∧
    before (Text.ofString "x " ++ blockComment (Text.ofString " a /* b ")) 14 ≠
      before (Text.ofString "x ") 2 := by
  decide

end Uplift.Neighbour
