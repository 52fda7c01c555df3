import Mathlib.Data.List.Infix
import Uplift.Text.Neighbour

namespace Uplift.Neighbour

set_option autoImplicit true

/-- Blanks and comments behind a text, each of which the scan back can tell. -/
inductive Gap (lead : Text) : Text → Prop
  | nil : Gap lead []
  | blank (h : Gap lead t) (hb : isSpace b = true) : Gap lead (t ++ [b])
  | block (h : Gap lead t) (hbody : ¬[47, 42] <:+: body) :
      Gap lead (t ++ (47 :: 42 :: (body ++ [42, 47])))
  | line (h : Gap lead t) (hline : ∀ b ∈ currentLine (lead ++ t).reverse, b ∉ [39, 34, 96, 47])
      (hbody : 10 ∉ body) (hclose : ¬[42, 47] <:+: body) :
        Gap lead (t ++ (47 :: 47 :: (body ++ [10])))

/--
Whether a text ends in a token: neither in a blank nor in what the scan back takes for a comment.
-/
def endsInToken (lead : Text) : Bool :=
  !lead.getLast?.any isSpace && (skipCommentBack lead.reverse).isNone

theorem beforeOpen_append {back rest : Text} (h : ¬[42, 47] <:+: back) :
    beforeOpen (back ++ 42 :: 47 :: rest) = some rest := by
  induction back with
  | nil => rfl
  | cons b back ih =>
    have htail : ¬[42, 47] <:+: back := fun hin => h (hin.trans (List.suffix_cons b back).isInfix)
    rw [List.cons_append, beforeOpen.eq_def]
    split
    next heq => cases heq
    next heq =>
      -- The mark would stand in `back`, for the byte behind it is an asterisk.
      obtain ⟨hfirst, hrest⟩ := List.cons.inj heq
      cases back with
      | nil => cases hrest
      | cons c back =>
        obtain ⟨hsecond, _⟩ := List.cons.inj hrest
        rw [hfirst, hsecond] at h
        exact absurd (List.prefix_append [42, 47] back).isInfix h
    next heq =>
      obtain ⟨_, rfl⟩ := List.cons.inj heq
      exact ih htail

theorem lineComment_append {line body : Text} (h : ∀ b ∈ line, b ∉ [39, 34, 96, 47])
    (hfuel : line.length < fuel) :
    lineComment fuel .plain (line ++ 47 :: 47 :: body) = some (body.length + 2) := by
  induction line generalizing fuel with
  | nil =>
    cases fuel with
    | zero => cases hfuel
    | succ fuel => rfl
  | cons b line ih =>
    cases fuel with
    | zero => cases hfuel
    | succ fuel =>
      have hb := h b List.mem_cons_self
      simp only [List.mem_cons, List.not_mem_nil, or_false, not_or] at hb
      obtain ⟨hquote, hdouble, hback, hslash⟩ := hb
      rw [List.cons_append, lineComment.eq_def]
      simp only [hquote, hdouble, hback, hslash, decide_false, Bool.or_self,
        Bool.false_eq_true, if_false]
      exact ih (fun c hc => h c (List.mem_cons_of_mem b hc)) (Nat.lt_of_succ_lt_succ hfuel)

theorem currentLine_append {back : Text} (h : 10 ∉ back) (rest : Text) :
    currentLine (back ++ rest) = currentLine rest ++ back.reverse := by
  have hall : ∀ b ∈ back, (b != Text.newline) = true := by
    intro b hb
    rw [bne_iff_ne]
    rintro rfl
    exact h hb
  rw [currentLine, currentLine, List.takeWhile_append_of_pos hall, List.reverse_append]

theorem dropWhile_append_slash (back rest : Text) :
    (back ++ 47 :: rest).dropWhile isSpace = back.dropWhile isSpace ++ 47 :: rest := by
  induction back with
  | nil => rfl
  | cons b back ih =>
    rw [List.cons_append, List.dropWhile_cons, List.dropWhile_cons]
    split
    · exact ih
    · rfl

theorem skipCommentBack_line {back rest : Text} (hbreak : 10 ∉ back) (hclose : ¬[47, 42] <:+: back)
    (hline : ∀ b ∈ currentLine rest, b ∉ [39, 34, 96, 47]) :
    skipCommentBack (back ++ 47 :: 47 :: rest) = some rest := by
  have hmarked : 10 ∉ back ++ [47, 47] := by
    simpa using hbreak
  have hcurrent :
      currentLine (back ++ 47 :: 47 :: rest) = currentLine rest ++ 47 :: 47 :: back.reverse := by
    have h := currentLine_append hmarked rest
    rwa [List.append_assoc, List.reverse_append] at h
  rw [skipCommentBack.eq_def]
  split
  next heq =>
    cases back with
    | nil => cases heq
    | cons b back =>
      cases back with
      | nil => cases heq
      | cons c back =>
        obtain ⟨hfirst, hrest⟩ := List.cons.inj heq
        obtain ⟨hsecond, _⟩ := List.cons.inj hrest
        rw [hfirst, hsecond] at hclose
        exact absurd (List.prefix_append [47, 42] back).isInfix hclose
  next =>
    have hfuel :
        (currentLine rest).length < (currentLine rest ++ 47 :: 47 :: back.reverse).length + 1 := by
      rw [List.length_append]
      omega
    simp only [hcurrent]
    rw [lineComment_append hline hfuel, Option.map_some, List.length_reverse]
    congr 1
    rw [List.drop_append, List.drop_of_length_le (by omega)]
    simp

theorem skipBack_gap (hgap : Gap lead gap) (hends : endsInToken lead = true)
    (hfuel : gap.length < fuel) : skipBack fuel (lead ++ gap).reverse = lead.reverse := by
  rw [endsInToken, Bool.and_eq_true, Bool.not_eq_true', Option.isNone_iff_eq_none] at hends
  obtain ⟨hlast, hcomment⟩ := hends
  induction hgap generalizing fuel with
  | nil =>
    obtain ⟨fuel, rfl⟩ := Nat.exists_eq_succ_of_ne_zero (Nat.ne_zero_of_lt hfuel)
    have hkeep : lead.reverse.dropWhile isSpace = lead.reverse := by
      rw [← List.head?_reverse] at hlast
      cases hback : lead.reverse with
      | nil => rfl
      | cons b back =>
        rw [hback] at hlast
        rw [List.dropWhile_cons, if_neg (by simpa using hlast)]
    rw [List.append_nil, skipBack]
    simp only [hkeep, hcomment]
  | @blank t b _ hb ih =>
    obtain ⟨fuel, rfl⟩ := Nat.exists_eq_succ_of_ne_zero (Nat.ne_zero_of_lt hfuel)
    have hinner : skipBack (fuel + 1) (lead ++ t).reverse = lead.reverse := by
      apply ih
      rw [List.length_append] at hfuel
      omega
    rw [← hinner, ← List.append_assoc, List.reverse_append, skipBack, skipBack]
    have hdrop :
        ([b].reverse ++ (lead ++ t).reverse).dropWhile isSpace =
          (lead ++ t).reverse.dropWhile isSpace := by
      rw [List.reverse_singleton, List.singleton_append, List.dropWhile_cons, if_pos hb]
    rw [hdrop]
  | @block t body _ hbody ih =>
    obtain ⟨fuel, rfl⟩ := Nat.exists_eq_succ_of_ne_zero (Nat.ne_zero_of_lt hfuel)
    have hinner : skipBack fuel (lead ++ t).reverse = lead.reverse := by
      apply ih
      simp only [List.length_append, List.length_cons] at hfuel
      omega
    have hback : (lead ++ (t ++ 47 :: 42 :: (body ++ [42, 47]))).reverse =
        47 :: 42 :: (body.reverse ++ 42 :: 47 :: (lead ++ t).reverse) := by
      simp
    have hopen : ¬[42, 47] <:+: body.reverse := by
      intro hin
      apply hbody
      have h := List.reverse_infix.2 hin
      rwa [List.reverse_reverse] at h
    rw [hback, skipBack, List.dropWhile_cons, if_neg (by decide)]
    simp only [skipCommentBack, beforeOpen_append hopen]
    exact hinner
  | @line t body _ hline hbody hclose ih =>
    obtain ⟨fuel, rfl⟩ := Nat.exists_eq_succ_of_ne_zero (Nat.ne_zero_of_lt hfuel)
    have hinner : skipBack fuel (lead ++ t).reverse = lead.reverse := by
      apply ih
      simp only [List.length_append, List.length_cons] at hfuel
      omega
    have hback : (lead ++ (t ++ 47 :: 47 :: (body ++ [10]))).reverse =
        (10 :: body.reverse) ++ 47 :: 47 :: (lead ++ t).reverse := by
      simp
    -- What is left of the comment without the blanks at its end.
    have hsuffix : (10 :: body.reverse).dropWhile isSpace <:+ body.reverse := by
      rw [List.dropWhile_cons, if_pos (by decide)]
      exact List.dropWhile_suffix isSpace
    have hbreak : 10 ∉ (10 :: body.reverse).dropWhile isSpace := by
      intro hmem
      exact hbody (List.mem_reverse.1 (hsuffix.subset hmem))
    have hnoclose : ¬[47, 42] <:+: (10 :: body.reverse).dropWhile isSpace := by
      intro hin
      apply hclose
      have h := List.reverse_infix.2 (hin.trans hsuffix.isInfix)
      rwa [List.reverse_reverse] at h
    rw [hback, skipBack, dropWhile_append_slash, skipCommentBack_line hbreak hnoclose hline]
    exact hinner

/-- The token in which a text ends, with the offset at which it starts. -/
inductive Ends : Text → Neighbour × Nat → Prop
  | boundary : Ends [] (.boundary, 0)
  | word (hne : run ≠ []) (hrun : ∀ b ∈ run, isWordByte b = true)
      (hfront : front.getLast?.any isWordByte = false) :
      Ends (front ++ run) (.word run, front.length)
  | operator (hne : run ≠ []) (hrun : ∀ b ∈ run, isOperatorByte b = true)
      (hfront : front.getLast?.any isOperatorByte = false) :
        Ends (front ++ run) (.punct run, front.length)
  | hole (front : Text) : Ends (front ++ [36, 123]) (.punct [36, 123], front.length)
  | byte (hword : isWordByte b = false) (hoperator : isOperatorByte b = false)
      (hhole : b = 123 → front.getLast? ≠ some 36) : Ends (front ++ [b]) (.punct [b], front.length)

theorem exists_run (f : UInt8 → Bool) (lead : Text) :
    ∃ front run, lead = front ++ run ∧ (∀ b ∈ run, f b = true) ∧ front.getLast?.any f = false := by
  induction lead using List.reverseRecOn with
  | nil => exact ⟨[], [], rfl, fun _ hb => (List.not_mem_nil hb).elim, rfl⟩
  | append_singleton lead b ih =>
    cases hb : f b with
    | false =>
      exact ⟨lead ++ [b], [], by simp, fun _ hb => (List.not_mem_nil hb).elim, by simpa using hb⟩
    | true =>
      obtain ⟨front, run, rfl, hrun, hfront⟩ := ih
      refine ⟨front, run ++ [b], List.append_assoc front run [b], ?_, hfront⟩
      rw [List.forall_mem_append, List.forall_mem_singleton]
      exact ⟨hrun, hb⟩

theorem exists_run_append (hb : f b = true) (lead : Text) :
    ∃ front run, lead = front ++ run ∧ (∀ c ∈ run ++ [b], f c = true) ∧
      front.getLast?.any f = false := by
  obtain ⟨front, run, hlead, hrun, hfront⟩ := exists_run f lead
  refine ⟨front, run, hlead, ?_, hfront⟩
  rw [List.forall_mem_append, List.forall_mem_singleton]
  exact ⟨hrun, hb⟩

theorem exists_ends (lead : Text) : ∃ token, Ends lead token := by
  cases lead using List.reverseRecOn with
  | nil => exact ⟨_, .boundary⟩
  | append_singleton lead b =>
    cases hword : isWordByte b with
    | true =>
      obtain ⟨front, run, rfl, hrun, hfront⟩ := exists_run_append hword lead
      rw [List.append_assoc]
      exact ⟨_, .word (by simp) hrun hfront⟩
    | false =>
      cases hoperator : isOperatorByte b with
      | true =>
        obtain ⟨front, run, rfl, hrun, hfront⟩ := exists_run_append hoperator lead
        rw [List.append_assoc]
        exact ⟨_, .operator (by simp) hrun hfront⟩
      | false =>
        by_cases hhole : b = 123 ∧ lead.getLast? = some 36
        · obtain ⟨rfl, hdollar⟩ := hhole
          obtain ⟨front, rfl⟩ := List.getLast?_eq_some_iff.1 hdollar
          rw [List.append_assoc]
          exact ⟨_, .hole front⟩
        · exact ⟨_, .byte hword hoperator (not_and.1 hhole)⟩

theorem takeWhile_run (hrun : ∀ b ∈ run, f b = true) (hfront : front.getLast?.any f = false) :
    (front ++ run : Text).reverse.takeWhile f = run.reverse := by
  have hnone : front.reverse.takeWhile f = [] := by
    rw [← List.head?_reverse] at hfront
    cases hback : front.reverse with
    | nil => rfl
    | cons b back =>
      rw [hback] at hfront
      rw [List.takeWhile_cons, if_neg (by simpa using hfront)]
  rw [List.reverse_append, List.takeWhile_append_of_pos fun b hb =>
    hrun b (List.mem_reverse.1 hb), hnone, List.append_nil]

theorem not_word_of_isOperatorByte (h : isOperatorByte b = true) :
    isWordByte b = false ∧ b ≠ 123 := by
  have hall : operatorBytes.all (fun b => !isWordByte b && b != 123) = true := by
    decide
  simpa using List.all_eq_true.1 hall b (List.contains_iff_mem.1 h)

theorem lastToken_of_ends (h : Ends lead token) : lastToken lead.reverse = token := by
  -- The byte that the scan sees first is the last one of the run.
  have hfirst (front : Text) {run : Text} (hne : run ≠ []) :
      ∃ b back, b ∈ run ∧ (front ++ run).reverse = b :: back := by
    obtain ⟨b, back, hback⟩ := List.exists_cons_of_ne_nil (List.reverse_ne_nil_iff.2 hne)
    refine ⟨b, back ++ front.reverse, List.mem_reverse.1 (hback ▸ List.mem_cons_self), ?_⟩
    rw [List.reverse_append, hback, List.cons_append]
  have hstart (front run : Text) :
      (front ++ run).reverse.length - run.reverse.length = front.length := by
    simp
  cases h with
  | boundary => rfl
  | @word run front hne hrun hfront =>
    obtain ⟨b, back, hb, hback⟩ := hfirst front hne
    rw [hback, lastToken.eq_def]
    simp only [hrun b hb, if_true]
    rw [← hback, takeWhile_run hrun hfront, List.reverse_reverse, hstart]
  | @operator run front hne hrun hfront =>
    obtain ⟨b, back, hb, hback⟩ := hfirst front hne
    obtain ⟨hword, hbrace⟩ := not_word_of_isOperatorByte (hrun b hb)
    rw [hback, lastToken.eq_def]
    simp only [hword, hbrace, hrun b hb, if_true, Bool.false_eq_true, if_false, decide_false,
      Bool.false_and]
    rw [← hback, takeWhile_run hrun hfront, List.reverse_reverse, hstart]
  | hole front =>
    have hword : isWordByte 123 = false := by
      decide
    simp [lastToken, hword]
  | @byte b front hword hoperator hhole =>
    have hnohole : (decide (b = 123) && decide (front.reverse.head? = some 36)) = false := by
      rw [List.head?_reverse]
      simpa using hhole
    rw [List.reverse_append, List.reverse_singleton, List.singleton_append, lastToken.eq_def]
    simp only [hword, hoperator, hnohole, Bool.false_eq_true, if_false, List.length_reverse]

/-- The token before an offset is the one in which the text before the gap ends. -/
theorem before_of_gap (htake : t.take offset = lead ++ gap) (hgap : Gap lead gap)
    (hends : endsInToken lead = true) : before t offset = lastToken lead.reverse := by
  have hfuel : gap.length < (lead ++ gap).reverse.length + 1 := by
    rw [List.length_reverse, List.length_append]
    omega
  rw [before, htake]
  exact congrArg lastToken (skipBack_gap hgap hends hfuel)

end Uplift.Neighbour
