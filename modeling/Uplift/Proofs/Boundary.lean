import Mathlib.Data.List.Chain
import Uplift.Proofs.Encoding
import Uplift.Proofs.Trivia

namespace Uplift.Text

set_option autoImplicit true

/-- Behind an ASCII byte no character goes on. -/
def Cohesive (t : Text) : Prop := t.IsChain fun b c => b < 128 → continuation? c = none

theorem continuation?_eq_none_of_lt (h : b < 128) : continuation? b = none := by
  rw [UInt8.lt_iff_toNat_lt] at h
  rw [continuation?, if_neg]
  simp only [UInt8.reduceToNat] at h
  omega

theorem not_lt_of_continuation? (h : (continuation? b).isSome = true) : ¬b < 128 := by
  intro hb
  rw [continuation?_eq_none_of_lt hb] at h
  cases h

theorem exists_encodeChar (c : Char) :
    ∃ b tail, String.utf8EncodeChar c = b :: tail ∧ continuation? b = none ∧ (b < 128 → tail = []) ∧
      ∀ x ∈ tail, (continuation? x).isSome = true := by
  obtain ⟨v, hv⟩ : ∃ v, c.val.toNat = v := ⟨_, rfl⟩
  have hlong {n : Nat} (hmin : 192 ≤ n) (hmax : n < 256) (ms : List Nat) :
      ∃ b tail, UInt8.ofNat n :: ms.map (fun m => UInt8.ofNat (m % 64 + 128)) = b :: tail ∧
        continuation? b = none ∧
        (b < 128 → tail = []) ∧ ∀ x ∈ tail, (continuation? x).isSome = true := by
    refine ⟨_, _, rfl, ?_, ?_, ?_⟩
    · rw [continuation?, UInt8.toNat_ofNat_of_lt' hmax, if_neg (by omega)]
    · intro hn
      simp only [ofNat_lt hmax, UInt8.reduceToNat] at hn
      omega
    · intro x hx
      obtain ⟨m, -, rfl⟩ := List.mem_map.1 hx
      rw [continuation?_ofNat]
      rfl
  simp only [String.utf8EncodeChar, hv]
  split
  next h1 =>
    have hascii : UInt8.ofNat v < 128 := by
      simp only [ofNat_lt (show v < 256 by omega), UInt8.reduceToNat]
      omega
    exact ⟨_, [], rfl, continuation?_eq_none_of_lt hascii, fun _ => rfl, fun x hx =>
      (List.not_mem_nil hx).elim⟩
  next h1 =>
  split
  next h2 => exact hlong (by omega) (by omega) [v]
  next h2 =>
  split
  next h3 => exact hlong (by omega) (by omega) [v / 64, v]
  next h3 => exact hlong (by omega) (by omega) [v / 4096, v / 64, v]

theorem head_ofChars {cs : List Char} (h : b ∈ (ofChars cs).head?) : continuation? b = none := by
  cases cs with
  | nil => cases h
  | cons c cs =>
    obtain ⟨first, tail, hc, hfirst, -, -⟩ := exists_encodeChar c
    rw [ofChars_cons, hc] at h
    cases h
    exact hfirst

theorem cohesive_ofChars (cs : List Char) : Cohesive (ofChars cs) := by
  induction cs with
  | nil => exact .nil
  | cons c cs ih =>
    obtain ⟨b, tail, hc, -, hascii, htail⟩ := exists_encodeChar c
    rw [Cohesive, ofChars_cons, hc, List.isChain_append]
    refine ⟨?_, ih, fun x _ y hy _ => head_ofChars hy⟩
    cases tail with
    | nil => exact .singleton b
    | cons x tail =>
      -- no byte of a longer character is an ASCII byte
      have hall : ∀ y ∈ b :: x :: tail, ¬y < 128 := by
        intro y hy
        rcases List.mem_cons.1 hy with rfl | hy
        · intro hb
          cases hascii hb
        · exact not_lt_of_continuation? (htail y hy)
      apply List.Pairwise.isChain
      apply List.pairwise_of_forall_mem_list
      intro y hy _ _ hb
      exact absurd hb (hall y hy)

theorem isBoundary_append_iff (lead rest : Text) :
    isBoundary (lead ++ rest) lead.length = true ↔ lead = [] ∨
    ∀ b ∈ rest.head?, continuation? b = none := by
  cases rest with
  | nil => simp [isBoundary]
  | cons c rest => simp [isBoundary]

theorem isBoundary_of_head {lead rest : Text} (h : b ∈ rest.head?) (hb : b < 128) :
    isBoundary (lead ++ rest) lead.length = true := by
  rw [isBoundary_append_iff]
  apply Or.inr
  intro c hc
  rw [Option.mem_unique hc h]
  exact continuation?_eq_none_of_lt hb

theorem Cohesive.isBoundary_of_last {lead rest : Text} (ht : Cohesive (lead ++ rest))
    (h : b ∈ lead.getLast?) (hb : b < 128) : isBoundary (lead ++ rest) lead.length = true := by
  rw [isBoundary_append_iff]
  apply Or.inr
  intro c hc
  exact (List.isChain_append.1 ht).2.2 b h c hc hb

theorem Cohesive.isBoundary_of_suffix (ht : Cohesive t) (h : b :: rest <:+ t) (hb : b < 128) :
    isBoundary t (t.length - rest.length) = true := by
  obtain ⟨front, rfl⟩ := h
  rw [List.append_cons] at ht ⊢
  have hlength : (front ++ [b] ++ rest).length - rest.length = (front ++ [b]).length := by
    rw [List.length_append, Nat.add_sub_cancel]
  rw [hlength]
  exact ht.isBoundary_of_last (List.getLast?_concat) hb

theorem isBoundary_of_cons_suffix (h : b :: rest <:+ t) (hb : b < 128) :
    isBoundary t (t.length - (b :: rest).length) = true := by
  obtain ⟨front, rfl⟩ := h
  rw [List.length_append, Nat.add_sub_cancel]
  exact isBoundary_of_head rfl hb

theorem isBoundary_length (t : Text) : isBoundary t t.length = true := by
  simp [isBoundary]

theorem isBoundary_add {lead rest : Text} (hlead : lead ≠ [])
    (hrest : ∀ b ∈ rest.head?, continuation? b = none) (i : Nat) :
    isBoundary (lead ++ rest) (lead.length + i) = isBoundary rest i := by
  cases i with
  | zero => exact (isBoundary_append_iff lead rest).2 (.inr hrest)
  | succ i => simp [isBoundary, List.getElem?_append_right, hlead]

/-- The offsets that cut no character are those between the characters. -/
theorem isBoundary_ofChars_iff (cs : List Char) (i : Nat) :
    isBoundary (ofChars cs) i = true ↔ ∃ front rest, cs = front ++ rest ∧
      i = (ofChars front).length := by
  induction cs generalizing i with
  | nil =>
    constructor
    · intro h
      have hi : i = 0 := by simpa [isBoundary, ofChars] using h
      exact ⟨[], [], rfl, hi⟩
    · rintro ⟨front, rest, hcs, rfl⟩
      obtain ⟨rfl, -⟩ := List.append_eq_nil_iff.1 hcs.symm
      rfl
  | cons c cs ih =>
    obtain ⟨b, tail, hc, -, -, htail⟩ := exists_encodeChar c
    constructor
    · intro h
      rw [ofChars_cons] at h
      by_cases hshort : i < (b :: tail).length
      · cases i with
        | zero => exact ⟨[], c :: cs, rfl, rfl⟩
        | succ i =>
          -- a byte behind the first one of the character continues it
          have hi : i < tail.length := Nat.lt_of_succ_lt_succ hshort
          have hbyte : (b :: tail ++ ofChars cs)[i + 1]? = some tail[i] := by
            rw [List.getElem?_append_left hshort, List.getElem?_cons_succ,
              List.getElem?_eq_getElem hi]
          have hcontinues := Option.isSome_iff_ne_none.1 (htail tail[i] (List.getElem_mem hi))
          rw [hc, isBoundary, hbyte] at h
          have hend : i = tail.length + (ofChars cs).length := by
            simpa [hcontinues] using h
          omega
      · obtain ⟨j, rfl⟩ := Nat.exists_eq_add_of_le (Nat.le_of_not_lt hshort)
        rw [hc, isBoundary_add (List.cons_ne_nil b tail) fun x => head_ofChars] at h
        obtain ⟨front, rest, rfl, rfl⟩ := (ih j).1 h
        refine ⟨c :: front, rest, rfl, ?_⟩
        rw [ofChars_cons, hc, List.length_append]
    · rintro ⟨front, rest, hcs, rfl⟩
      cases front with
      | nil => rfl
      | cons d front =>
        obtain ⟨rfl, rfl⟩ := List.cons.inj hcs
        rw [ofChars_cons, ofChars_cons, hc, List.length_append,
          isBoundary_add (List.cons_ne_nil b tail) fun x => head_ofChars]
        exact (ih _).2 ⟨front, rest, rfl, rfl⟩

end Uplift.Text

namespace Uplift.Neighbour

set_option autoImplicit true

def text : Neighbour → Text
  | .boundary => []
  | .word t => t
  | .punct t => t

def lineComment? (line : Text) (q : Quoting) (s : Text) : Option (Option Nat) :=
  match s with
  | [] => some none
  | b :: rest =>
    match q with
    | .inside quote =>
      if b = 92 then lineComment? line q (rest.drop 1)
      else if b = quote then lineComment? line .plain rest
      else lineComment? line q rest
    | .plain =>
      if b = 39 || b = 34 || b = 96 then lineComment? line (.inside b) rest
      else if b = 47 then
        match rest with
        | 47 :: body => some (some (body.length + 2))
        | 42 :: inner =>
          if line.isBoundary (line.length - inner.length) then
            match afterClose inner with
            | some after =>
              if after.length < inner.length then lineComment? line .plain after else none
            | none => some none
          else none
        | rest => lineComment? line .plain rest
      else lineComment? line .plain rest
termination_by s.length

/--
A step back in `t`, which is cut before `*/`, or else at both ends of the last line of what is left.
-/
def skipCommentBack? (t back : Text) : Option (Option Text) :=
  match back with
  | 47 :: 42 :: rest => if t.isBoundary rest.length then some (beforeOpen rest) else none
  | _ =>
    let line := currentLine back
    if t.isBoundary back.length && t.isBoundary (back.length - line.length) then
      (lineComment? line .plain line).map fun n => n.map fun n => back.drop n
    else none

/-- A step ahead in `t`, which is cut where the text that is left starts, and behind `/*`. -/
def skipCommentAhead? (t rest : Text) : Option (Option Text) :=
  if t.isBoundary (t.length - rest.length) then
    match rest with
    | 47 :: 42 :: inner =>
      if t.isBoundary (t.length - inner.length) then some (skipCommentAhead rest) else none
    | _ => some (skipCommentAhead rest)
  else none

def skip? (comment : Text → Option (Option Text)) (s : Text) : Option Text :=
  match comment (s.dropWhile isSpace) with
  | some (some rest) => if rest.length < s.length then skip? comment rest else none
  | some none => some (s.dropWhile isSpace)
  | none => none
termination_by s.length

/-- The token before an offset, at both ends of which the text is cut. -/
def before? (t : Text) (offset : Nat) : Option (Neighbour × Nat) :=
  (skip? (skipCommentBack? t) (t.take offset).reverse).bind fun back =>
    if t.isBoundary (lastToken back).2 && t.isBoundary back.length then some (lastToken back)
      else none

/-- The token behind an offset, at both ends of which the text is cut. -/
def after? (t : Text) (offset : Nat) : Option Neighbour :=
  (skip? (skipCommentAhead? t) (t.drop offset)).bind fun rest =>
    let start := t.length - rest.length
    if t.isBoundary start && t.isBoundary (start + (firstToken rest).text.length) then
      some (firstToken rest) else none

theorem lineComment_open (fuel : Nat) (inner : Text) :
    lineComment (fuel + 1) .plain (47 :: 42 :: inner) =
      (afterClose inner).bind (lineComment fuel .plain) := by
  cases hclose : afterClose inner with
  | none => simp [lineComment, hclose]
  | some after => simp [lineComment, hclose]

theorem lineComment?_eq (hline : Text.Cohesive line) (hs : s <:+ line) (hfuel : s.length < fuel) :
    lineComment? line q s = some (lineComment fuel q s) := by
  induction fuel generalizing q s with
  | zero => cases hfuel
  | succ fuel ih =>
    cases s with
    | nil => rw [lineComment?, lineComment]
    | cons b rest =>
      have hrest : rest.length < fuel := Nat.lt_of_succ_lt_succ hfuel
      have hstep {q : Quoting} {s : Text} (hend : s <:+ rest) :
          lineComment? line q s = some (lineComment fuel q s) :=
        ih ((hend.trans (List.suffix_cons b rest)).trans hs)
          (Nat.lt_of_le_of_lt hend.length_le hrest)
      rw [lineComment?.eq_def]
      simp only
      cases q with
      | inside quote =>
        rw [lineComment.eq_def]
        simp only
        split
        next => exact hstep (List.drop_suffix 1 rest)
        next =>
        split
        next => exact hstep (List.suffix_refl rest)
        next => exact hstep (List.suffix_refl rest)
      | plain =>
        simp only
        split
        next hquote =>
          rw [lineComment.eq_def]
          simp only [hquote, if_true]
          exact hstep (List.suffix_refl rest)
        next hquote =>
        split
        next hslash =>
          subst hslash
          split
          next body => rfl
          next inner =>
            have hopen := (List.suffix_cons 47 (42 :: inner)).trans hs
            rw [if_pos (hline.isBoundary_of_suffix hopen (by decide)), lineComment_open]
            cases hclose : afterClose inner with
            | none => rfl
            | some after =>
              simp only
              rw [if_pos (length_of_afterClose hclose)]
              exact hstep ((suffix_of_afterClose hclose).trans (List.suffix_cons 42 inner))
          next =>
            rw [lineComment.eq_def]
            simp only [hquote, Bool.false_eq_true, if_false, if_true]
            exact hstep (List.suffix_refl rest)
        next hslash =>
          rw [lineComment.eq_def]
          simp only [hquote, hslash, Bool.false_eq_true, if_false]
          exact hstep (List.suffix_refl rest)

theorem lt_of_isSpace (h : isSpace b = true) : b < 128 := by
  simp only [isSpace, Bool.or_eq_true, decide_eq_true_eq] at h
  rcases h with (((rfl | rfl) | rfl) | rfl) | rfl <;> decide

theorem lt_of_not_isWordByte (h : isWordByte b = false) : b < 128 := by
  rw [← UInt8.not_le]
  intro hb
  simp [isWordByte, hb] at h

theorem lt_of_isOperatorByte (h : isOperatorByte b = true) : b < 128 :=
  lt_of_not_isWordByte (not_word_of_isOperatorByte h).1

theorem skip?_eq {P : Text → Prop} (hblanks : ∀ s, P s → P (s.dropWhile isSpace))
    (hstep : ∀ s, P s → comment? s = some (comment s))
    (hnext : ∀ s rest, P s → comment s = some rest → P rest)
    (hless : ∀ s rest, comment s = some rest → rest.length < s.length) (hs : P s)
    (hfuel : s.length < fuel) :
    skip? comment? s = some (skip comment fuel s) ∧ P (skip comment fuel s) := by
  induction fuel generalizing s with
  | zero => cases hfuel
  | succ fuel ih =>
    have hrest := hblanks s hs
    rw [skip?, skip, hstep _ hrest]
    cases hcomment : comment (s.dropWhile isSpace) with
    | none => exact ⟨rfl, hrest⟩
    | some rest =>
      have hlength : (s.dropWhile isSpace).length ≤ s.length :=
        (List.dropWhile_suffix isSpace).length_le
      have hshort := hless _ _ hcomment
      simp only
      rw [if_pos (by omega)]
      exact ih (hnext _ _ hrest hcomment) (by omega)

def CutBack (t back : Text) : Prop := back.reverse <+: t ∧ t.isBoundary back.length = true

theorem cutBack_of_append (ht : t = back.reverse ++ b :: behind) (hb : b < 128) :
    CutBack t back := by
  refine ⟨⟨_, ht.symm⟩, ?_⟩
  rw [ht, ← List.length_reverse]
  exact Text.isBoundary_of_head rfl hb

theorem CutBack.blanks (h : CutBack t back) : CutBack t (back.dropWhile isSpace) := by
  obtain ⟨behind, ht⟩ := h.1
  have hback :
      back.reverse = (back.dropWhile isSpace).reverse ++ (back.takeWhile isSpace).reverse := by
    rw [← List.reverse_append, List.takeWhile_append_dropWhile]
  cases hblanks : (back.takeWhile isSpace).reverse with
  | nil =>
    rw [hblanks, List.append_nil, List.reverse_inj] at hback
    rwa [← hback]
  | cons b blanks =>
    have hb : isSpace b = true :=
      List.mem_takeWhile_imp (List.mem_reverse.1 (hblanks ▸ List.mem_cons_self))
    have hsplit : t = (back.dropWhile isSpace).reverse ++ b :: (blanks ++ behind) := by
      rw [← ht, hback, hblanks, List.append_assoc, List.cons_append]
    exact cutBack_of_append hsplit (lt_of_isSpace hb)

theorem CutBack.comment (h : CutBack t back) (hcomment : skipCommentBack back = some rest) :
    CutBack t rest := by
  obtain ⟨behind, rfl⟩ := h.1
  have hslash : (47 : UInt8) < 128 := by decide
  obtain ⟨body, hback, -⟩ | ⟨body, hback, -⟩ := skipCommentBack_cases hcomment
  · rw [hback, List.append_assoc]
    exact cutBack_of_append rfl hslash
  · rw [hback, List.append_assoc]
    exact cutBack_of_append rfl hslash

theorem exists_currentLine (back : Text) :
    ∃ front, back.reverse = front ++ currentLine back ∧ (front = [] ∨ 10 ∈ front.getLast?) := by
  refine ⟨(back.dropWhile (· != Text.newline)).reverse, ?_, ?_⟩
  · rw [currentLine, ← List.reverse_append, List.takeWhile_append_dropWhile]
  · have hhead := any_head_dropWhile (· != Text.newline) back
    rw [List.getLast?_reverse, List.reverse_eq_nil_iff, ← List.head?_eq_none_iff]
    cases hfirst : (back.dropWhile (· != Text.newline)).head? with
    | none => exact .inl rfl
    | some b =>
      rw [hfirst] at hhead
      have hb : b = 10 := by simpa [Text.newline] using hhead
      exact .inr (hb ▸ rfl)

theorem skipCommentBack?_eq (ht : Text.Cohesive t) (h : CutBack t back) :
    skipCommentBack? t back = some (skipCommentBack back) := by
  obtain ⟨⟨behind, rfl⟩, hcut⟩ := h
  rw [skipCommentBack?.eq_def]
  split
  next rest =>
    have hclose :
        ((47 :: 42 :: rest).reverse ++ behind : Text) = rest.reverse ++ 42 :: 47 :: behind := by
      simp
    rw [if_pos (cutBack_of_append hclose (by decide)).2]
    rfl
  next hnoclose =>
    obtain ⟨front, hfront, hstart⟩ := exists_currentLine back
    have hline :
        Text.isBoundary (back.reverse ++ behind) (back.length - (currentLine back).length) =
          true := by
      have hlength : back.length - (currentLine back).length = front.length := by
        rw [← List.length_reverse, hfront, List.length_append, Nat.add_sub_cancel]
      rw [hfront, List.append_assoc] at ht ⊢
      rw [hlength]
      rcases hstart with rfl | hlast
      · rfl
      · exact ht.isBoundary_of_last hlast (by decide)
    have hcohesive : Text.Cohesive (currentLine back) := by
      apply List.IsChain.infix ht
      exact ⟨front, behind, by rw [← hfront]⟩
    simp only [hcut, hline, Bool.and_self, if_true]
    rw [lineComment?_eq hcohesive (List.suffix_refl _) (Nat.lt_succ_self _), Option.map_some,
      skipCommentBack.eq_def]
    split
    next rest => exact absurd rfl (hnoclose rest)
    next => rfl

theorem isBoundary_of_ends (ht : Text.Cohesive t) (hlead : lead <+: t) (h : Ends lead token) :
    t.isBoundary token.2 = true := by
  obtain ⟨behind, rfl⟩ := hlead
  cases h with
  | boundary => rfl
  | @word run front hne hrun hfront =>
    rw [List.append_assoc] at ht ⊢
    cases hlast : front.getLast? with
    | none =>
      rw [List.getLast?_eq_none_iff.1 hlast]
      rfl
    | some b =>
      rw [hlast] at hfront
      exact ht.isBoundary_of_last hlast (lt_of_not_isWordByte hfront)
  | @operator run front hne hrun hfront =>
    obtain ⟨b, run, rfl⟩ := List.exists_cons_of_ne_nil hne
    rw [List.append_assoc]
    exact Text.isBoundary_of_head rfl (lt_of_isOperatorByte (hrun b List.mem_cons_self))
  | hole front =>
    rw [List.append_assoc]
    exact Text.isBoundary_of_head rfl (by decide)
  | @byte b front hword _ _ =>
    rw [List.append_assoc]
    exact Text.isBoundary_of_head rfl (lt_of_not_isWordByte hword)

theorem before?_eq (ht : Text.Cohesive t) (hcut : t.isBoundary (min offset t.length) = true) :
    before? t offset = some (before t offset) := by
  have hstart : CutBack t (t.take offset).reverse := by
    rw [CutBack, List.reverse_reverse, List.length_reverse, List.length_take]
    exact ⟨List.take_prefix offset t, hcut⟩
  obtain ⟨hskip, hend⟩ :=
    skip?_eq (P := CutBack t) (fun _ => CutBack.blanks) (fun _ => skipCommentBack?_eq ht)
      (fun _ _ => CutBack.comment) (fun _ _ => length_of_skipCommentBack) hstart
      (Nat.lt_succ_self _)
  rw [before?, hskip, Option.bind_some, isBoundary_of_ends ht hend.1 (ends_lastToken _), hend.2,
    before, skipBack_eq_skip]
  rfl

def CutAhead (t rest : Text) : Prop := rest <:+ t ∧ t.isBoundary (t.length - rest.length) = true

theorem CutAhead.blanks (ht : Text.Cohesive t) (h : CutAhead t rest) :
    CutAhead t (rest.dropWhile isSpace) := by
  have hrest : rest.takeWhile isSpace ++ rest.dropWhile isSpace = rest :=
    List.takeWhile_append_dropWhile
  cases hlast : (rest.takeWhile isSpace).getLast? with
  | none =>
    rw [List.getLast?_eq_none_iff.1 hlast, List.nil_append] at hrest
    rwa [hrest]
  | some b =>
    obtain ⟨blanks, hblanks⟩ := List.getLast?_eq_some_iff.1 hlast
    have hb : isSpace b = true := List.mem_takeWhile_imp (List.mem_of_getLast? hlast)
    have hsuffix : b :: rest.dropWhile isSpace <:+ t := by
      rw [hblanks, List.append_assoc] at hrest
      exact List.IsSuffix.trans ⟨blanks, hrest⟩ h.1
    exact ⟨(List.suffix_cons b _).trans hsuffix, ht.isBoundary_of_suffix hsuffix (lt_of_isSpace hb)⟩

theorem cutAhead_nil (t : Text) : CutAhead t [] := ⟨List.nil_suffix, Text.isBoundary_length t⟩

theorem CutAhead.comment (ht : Text.Cohesive t) (h : CutAhead t s)
    (hcomment : skipCommentAhead s = some rest) : CutAhead t rest := by
  obtain ⟨body, hs, -, hend⟩ | ⟨body, hs, -⟩ | ⟨-, -, -, rfl⟩ := skipCommentAhead_cases hcomment
  · have hrest : rest <:+ t := List.IsSuffix.trans ⟨47 :: 47 :: body, hs.symm⟩ h.1
    cases rest with
    | nil => exact cutAhead_nil t
    | cons b rest =>
      have hb : b = 10 := by simpa using hend
      exact ⟨hrest, Text.isBoundary_of_cons_suffix hrest (by rw [hb]; decide)⟩
  · have hslash : 47 :: rest <:+ t := by
      apply List.IsSuffix.trans _ h.1
      exact ⟨47 :: 42 :: (body ++ [42]), by rw [hs, blockComment]; simp⟩
    exact ⟨(List.suffix_cons 47 rest).trans hslash, ht.isBoundary_of_suffix hslash (by decide)⟩
  · exact cutAhead_nil t

theorem skipCommentAhead?_eq (ht : Text.Cohesive t) (h : CutAhead t rest) :
    skipCommentAhead? t rest = some (skipCommentAhead rest) := by
  rw [skipCommentAhead?.eq_def, if_pos h.2]
  split
  next inner =>
    have hopen : 42 :: inner <:+ t := (List.suffix_cons 47 _).trans h.1
    rw [if_pos (ht.isBoundary_of_suffix hopen (by decide))]
  next => rfl

theorem isBoundary_of_starts (ht : Text.Cohesive t) (hcut : CutAhead t rest)
    (h : Starts rest token) : t.isBoundary (t.length - rest.length + token.text.length) = true := by
  obtain ⟨⟨lead, rfl⟩, hstart⟩ := hcut
  have hlength (run : Text) :
      (lead ++ rest).length - rest.length + run.length = (lead ++ run).length := by
    rw [List.length_append, List.length_append, Nat.add_sub_cancel]
  cases h with
  | boundary => exact hstart
  | @word run rest hne hrun hrest =>
    rw [text, hlength, ← List.append_assoc, Text.isBoundary_append_iff]
    apply Or.inr
    intro b hb
    rw [Option.mem_def.1 hb] at hrest
    exact Text.continuation?_eq_none_of_lt (lt_of_not_isWordByte hrest)
  | @operator run rest hne hrun hrest =>
    have hlast : run.getLast hne ∈ (lead ++ run).getLast? := by
      rw [List.getLast?_append, List.getLast?_eq_some_getLast hne]
      rfl
    rw [text, hlength]
    rw [← List.append_assoc] at ht ⊢
    exact ht.isBoundary_of_last hlast (lt_of_isOperatorByte (hrun _ (List.getLast_mem hne)))
  | @byte b rest hword hoperator =>
    rw [text, hlength]
    rw [List.append_cons] at ht ⊢
    exact ht.isBoundary_of_last List.getLast?_concat (lt_of_not_isWordByte hword)

theorem after?_eq (ht : Text.Cohesive t) (hcut : t.isBoundary (min offset t.length) = true) :
    after? t offset = some (after t offset) := by
  have hstart : CutAhead t (t.drop offset) := by
    have hlength : t.length - (t.drop offset).length = min offset t.length := by
      rw [List.length_drop]
      omega
    rw [CutAhead, hlength]
    exact ⟨List.drop_suffix offset t, hcut⟩
  obtain ⟨hskip, hend⟩ :=
    skip?_eq (P := CutAhead t) (fun _ => CutAhead.blanks ht) (fun _ => skipCommentAhead?_eq ht)
    (fun _ _ => CutAhead.comment ht) (fun _ _ =>
      length_of_skipCommentAhead) hstart (Nat.lt_succ_self _)
  simp only [after?, hskip, Option.bind_some, hend.2,
    isBoundary_of_starts ht hend (starts_firstToken _), Bool.and_self, if_true]
  rw [after, skipAhead_eq_skip]

theorem drop_of_ends (h : Ends lead token) : lead.drop token.2 = token.1.text := by
  cases h with
  | boundary => rfl
  | word => exact List.drop_left
  | operator => exact List.drop_left
  | hole => exact List.drop_left
  | byte => exact List.drop_left

theorem exists_stop (t : Text) (offset : Nat) :
    ∃ stop ≤ min offset t.length, t.slice ⟨(before t offset).2, stop⟩ = (before t offset).1.text ∧
      PassedBack (t.slice ⟨stop, offset⟩) ∧ Ends (t.take stop) (before t offset) ∧
      endsInToken (t.take stop) = true := by
  obtain ⟨lead, gap, htake, hgap, hends, htoken⟩ := exists_gap_before t offset
  have hlead : lead = t.take lead.length := by
    rw [← List.prefix_iff_eq_take]
    exact List.IsPrefix.trans ⟨gap, htake.symm⟩ (List.take_prefix offset t)
  have hlength : lead.length ≤ min offset t.length := by
    rw [← List.length_take, htake, List.length_append]
    exact Nat.le_add_right _ _
  refine ⟨lead.length, hlength, ?_, ?_, ?_, ?_⟩
  · rw [Text.slice, ← hlead]
    exact drop_of_ends hends
  · rw [Text.slice, htake, List.drop_left]
    exact hgap
  · rwa [← hlead]
  · rwa [← hlead]

theorem exists_start (t : Text) (offset : Nat) :
    ∃ start, min offset t.length ≤ start ∧ start ≤ t.length ∧
      PassedAhead (t.slice ⟨offset, start⟩) (t.drop start) ∧
      Starts (t.drop start) (after t offset) ∧ startsInToken (t.drop start) = true := by
  obtain ⟨gap, rest, hdrop, hgap, hstarts, htoken⟩ := exists_gap_after t offset
  have hrest : rest = t.drop (t.length - rest.length) := by
    rw [← List.suffix_iff_eq_drop]
    exact List.IsSuffix.trans ⟨gap, hdrop.symm⟩ (List.drop_suffix offset t)
  have hlength : t.length - offset = gap.length + rest.length := by
    rw [← List.length_drop, hdrop, List.length_append]
  have hslice : t.slice ⟨offset, t.length - rest.length⟩ = gap := by
    have hlong : gap.length = t.length - rest.length - offset := by
      omega
    rw [Text.slice, List.drop_take, hdrop]
    exact List.take_left' hlong
  refine ⟨t.length - rest.length, by omega, Nat.sub_le _ _, ?_, ?_, ?_⟩
  · rwa [hslice, ← hrest]
  · rwa [← hrest]
  · rwa [← hrest]

/--
From every offset between two characters, and from every offset past the end, both scans come to an
end and cut no character on the way. Up to the offset nothing but blanks and comments stands behind
the token before it, and from the offset on nothing else stands in front of the token behind it.
Neither token can be made longer.
-/
theorem tokens_at_boundary (ht : t = Text.ofChars cs)
    (hoffset : (∃ front rest, cs = front ++ rest ∧ offset = (Text.ofChars front).length) ∨
      t.length ≤ offset) :
    (before? t offset = some (before t offset) ∧
      ∃ stop ≤ min offset t.length, t.slice ⟨(before t offset).2, stop⟩ = (before t offset).1.text ∧
        PassedBack (t.slice ⟨stop, offset⟩) ∧ Ends (t.take stop) (before t offset) ∧
        endsInToken (t.take stop) = true) ∧
    after? t offset = some (after t offset) ∧
      ∃ start, min offset t.length ≤ start ∧ start ≤ t.length ∧
        PassedAhead (t.slice ⟨offset, start⟩) (t.drop start) ∧
        Starts (t.drop start) (after t offset) ∧
        startsInToken (t.drop start) = true := by
  have hcohesive : Text.Cohesive t := by
    rw [ht]
    exact Text.cohesive_ofChars cs
  have hcut : t.isBoundary (min offset t.length) = true := by
    rcases hoffset with ⟨front, rest, rfl, rfl⟩ | hpast
    · have hlength : (Text.ofChars front).length ≤ t.length := by
        rw [ht, Text.ofChars_append, List.length_append]
        exact Nat.le_add_right _ _
      rw [Nat.min_eq_left hlength, ht, Text.isBoundary_ofChars_iff]
      exact ⟨front, rest, rfl, rfl⟩
    · rw [Nat.min_eq_right hpast]
      exact Text.isBoundary_length t
  exact ⟨⟨before?_eq hcohesive hcut, exists_stop t offset⟩, after?_eq hcohesive hcut,
    exists_start t offset⟩

theorem tokens_at_boundary_accented :
    before? (Text.ofString "a'\\é' // ü\n /* ö */ñ") 22 = some (.punct [39], 5) ∧
    after? (Text.ofString "a'\\é' // ü\n /* ö */ñ") 22 = some (.word [195, 177]) := by
  have hsplit : ∃ front rest, "a'\\é' // ü\n /* ö */ñ".toList = front ++ rest ∧
      22 = (Text.ofChars front).length :=
    ⟨"a'\\é' // ü\n /* ö */".toList, ['ñ'], by decide, by decide⟩
  have hbefore : before (Text.ofString "a'\\é' // ü\n /* ö */ñ") 22 = (.punct [39], 5) := by decide
  have hafter : after (Text.ofString "a'\\é' // ü\n /* ö */ñ") 22 = .word [195, 177] := by decide
  obtain ⟨⟨hback, -⟩, hahead, -⟩ := tokens_at_boundary rfl (.inl hsplit)
  exact ⟨hback.trans (congrArg some hbefore), hahead.trans (congrArg some hafter)⟩

-- both scans fail at an offset inside a character
example : before? (Text.ofString "é") 1 = none ∧ after? (Text.ofString "é") 1 = none := by
  decide +kernel

end Uplift.Neighbour
