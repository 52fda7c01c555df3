import Uplift.Proofs.Stretch

namespace Uplift.Quoted

set_option autoImplicit true

open Concatenation

/--
Whether a mark stands in a text and no backslash escapes it: the backslashes before it escape one
another.
-/
def Bare (mark text : List Char) : Prop :=
  ∃ before after, text = before ++ (mark ++ after) ∧ trailing before % 2 = 0

/-- Whether a text has an escape of a digit other than `0`, or the escape `\0` before a digit. -/
def OldEscape (text : List Char) : Prop :=
  (∃ d, '1' ≤ d ∧ d ≤ '9' ∧ Bare ['\\', d] text) ∨ ∃ d, d.isDigit = true ∧ Bare ['\\', '0', d] text

@[elab_as_elim]
theorem escape_induction {P : List Char → Prop} (nil : P []) (lone : P ['\\'])
    (escape : ∀ d rest, P rest → P ('\\' :: d :: rest))
    (char : ∀ c rest, c ≠ '\\' → P rest → P (c :: rest)) (text : List Char) : P text := by
  obtain ⟨n, hn⟩ : ∃ n, text.length ≤ n := ⟨_, Nat.le_refl _⟩
  induction n generalizing text with
  | zero =>
    rw [List.eq_nil_of_length_eq_zero (Nat.le_zero.1 hn)]
    exact nil
  | succ n ih =>
    cases text with
    | nil => exact nil
    | cons c rest =>
      rw [List.length_cons] at hn
      by_cases hc : c = '\\'
      · subst c
        cases rest with
        | nil => exact lone
        | cons d rest =>
          rw [List.length_cons] at hn
          exact escape d rest (ih rest (by omega))
      · exact char c rest hc (ih rest (by omega))

theorem Bare.at_start (h : mark <+: text) : Bare mark text := by
  obtain ⟨after, rfl⟩ := h
  exact ⟨[], after, rfl, rfl⟩

theorem Bare.length_le (h : Bare mark text) : mark.length ≤ text.length := by
  obtain ⟨before, after, rfl, _⟩ := h
  simp only [List.length_append]
  omega

theorem Bare.append (h : Bare mark text) (hx : trailing x % 2 = 0) : Bare mark (x ++ text) := by
  obtain ⟨before, after, rfl, heven⟩ := h
  refine ⟨x ++ before, after, (List.append_assoc _ _ _).symm, ?_⟩
  rw [trailing_append hx]
  exact heven

theorem bare_escape : Bare mark ('\\' :: c :: text) ↔ mark <+: '\\' :: c :: text ∨
    Bare mark text := by
  have hpair : trailing ['\\', c] % 2 = 0 :=
    trailing_escape (fun _ hd => absurd hd List.not_mem_nil) c
  constructor
  · rintro ⟨before, after, htext, heven⟩
    cases before with
    | nil => exact .inl ⟨after, htext.symm⟩
    | cons b before =>
      cases before with
      | nil =>
        -- the first backslash escapes the character behind it
        obtain ⟨rfl, _⟩ := List.cons.inj htext
        cases heven
      | cons b' before =>
        cases htext
        exact .inr ⟨before, after, rfl, (trailing_append hpair before).symm.trans heven⟩
  · rintro (hmark | hbare)
    · exact .at_start hmark
    · exact hbare.append hpair

theorem bare_char (hc : c ≠ '\\') :
    Bare mark (c :: text) ↔ mark <+: c :: text ∨ Bare mark text := by
  have hone : trailing [c] % 2 = 0 := by
    rw [← List.nil_append [c], trailing_append_char hc]
  constructor
  · rintro ⟨before, after, htext, heven⟩
    cases before with
    | nil => exact .inl ⟨after, htext.symm⟩
    | cons b before =>
      cases htext
      exact .inr ⟨before, after, rfl, (trailing_append hone before).symm.trans heven⟩
  · rintro (hmark | hbare)
    · exact .at_start hmark
    · exact hbare.append hone

theorem not_oldEscape_of_length (h : text.length < 2) : ¬OldEscape text := by
  rintro (⟨d, _, _, hbare⟩ | ⟨d, _, hbare⟩)
  · exact absurd hbare.length_le (Nat.not_le_of_lt h)
  · exact absurd (Nat.le_of_succ_le hbare.length_le) (Nat.not_le_of_lt h)

theorem oldEscape_escape : OldEscape ('\\' :: d :: text) ↔ isLegacy d text = true ∨
    OldEscape text := by
  simp only [OldEscape, bare_escape, isLegacy, Bool.or_eq_true, Bool.and_eq_true, decide_eq_true_eq,
    List.cons_prefix_cons, true_and, List.nil_prefix, and_true]
  constructor
  · rintro (⟨e, hlow, hhigh, rfl | hbare⟩ | ⟨e, he, ⟨rfl, hnext⟩ | hbare⟩)
    · exact .inl (.inl ⟨hlow, hhigh⟩)
    · exact .inr (.inl ⟨e, hlow, hhigh, hbare⟩)
    · obtain ⟨after, rfl⟩ := hnext
      exact .inl (.inr ⟨rfl, he⟩)
    · exact .inr (.inr ⟨e, he, hbare⟩)
  · rintro ((⟨hlow, hhigh⟩ | ⟨rfl, hnext⟩) | ⟨e, hlow, hhigh, hbare⟩ | ⟨e, he, hbare⟩)
    · exact .inl ⟨d, hlow, hhigh, .inl rfl⟩
    · cases text with
      | nil => cases hnext
      | cons e text => exact .inr ⟨e, hnext, .inl ⟨rfl, text, rfl⟩⟩
    · exact .inl ⟨e, hlow, hhigh, .inr hbare⟩
    · exact .inr ⟨e, he, .inr hbare⟩

theorem oldEscape_char (hc : c ≠ '\\') : OldEscape (c :: text) ↔ OldEscape text := by
  have hmark (mark : List Char) : ¬('\\' :: mark) <+: c :: text := by
    intro h
    exact hc (List.cons_prefix_cons.1 h).1.symm
  simp only [OldEscape, bare_char hc, hmark, false_or]

theorem templateText?_escape (d : Char) (rest : List Char) :
    templateText? ('\\' :: d :: rest) =
      if isLegacy d rest then none else (templateText? rest).map fun out => '\\' :: d :: out := by
  rw [templateText?, if_pos rfl]

theorem templateText?_char (hc : c ≠ '\\') (rest : List Char) :
    templateText? (c :: rest) = (templateText? rest).map fun out =>
      if c = '\x60' || (c = '$' && rest.head? = some '\x7b') then '\\' :: c :: out
        else c :: out := by
  rw [templateText?.eq_def]
  simp only [if_neg hc]
  split <;> rfl

theorem templateText?_eq_none_iff : templateText? body = none ↔ OldEscape body := by
  induction body using escape_induction with
  | nil =>
    have hnot : ¬OldEscape [] := not_oldEscape_of_length (by decide)
    exact ⟨fun h => absurd h (by decide), fun h => absurd h hnot⟩
  | lone =>
    have hnot : ¬OldEscape ['\\'] := not_oldEscape_of_length (by decide)
    exact ⟨fun h => absurd h (by decide), fun h => absurd h hnot⟩
  | escape d rest ih =>
    rw [oldEscape_escape, templateText?_escape, ← ih]
    cases isLegacy d rest with
    | true => exact ⟨fun _ => .inl rfl, fun _ => rfl⟩
    | false =>
      simp only [Bool.false_eq_true, if_false, Option.map_eq_none_iff, false_or]
  | char c rest hc ih => rw [oldEscape_char hc, templateText?_char hc, ← ih, Option.map_eq_none_iff]

/-- Whether a text neither ends a template nor opens a hole. -/
def Inert (text : List Char) : Prop := ¬Bare ['\x60'] text ∧ ¬Bare ['$', '\x7b'] text

theorem Inert.escape (h : Inert text) (c : Char) : Inert ('\\' :: c :: text) := by
  have hmark {m : Char} {mark : List Char} (hm : m ≠ '\\') :
      ¬(m :: mark) <+: '\\' :: c :: text := by
    intro hprefix
    exact hm (List.cons_prefix_cons.1 hprefix).1
  constructor
  · rw [bare_escape, not_or]
    exact ⟨hmark (by decide), h.1⟩
  · rw [bare_escape, not_or]
    exact ⟨hmark (by decide), h.2⟩

theorem Inert.char (h : Inert text) (hc : c ∉ ['\\', '\x60'])
    (hhole : c = '$' → text.head? ≠ some '\x7b') : Inert (c :: text) := by
  simp only [List.mem_cons, List.not_mem_nil, or_false, not_or] at hc
  constructor
  · rw [bare_char hc.1, not_or]
    refine ⟨?_, h.1⟩
    intro hprefix
    exact hc.2 (List.cons_prefix_cons.1 hprefix).1.symm
  · rw [bare_char hc.1, not_or]
    refine ⟨?_, h.2⟩
    intro hprefix
    obtain ⟨hdollar, after, rfl⟩ := List.cons_prefix_cons.1 hprefix
    exact hhole hdollar.symm rfl

theorem inert_of_length (h : text.length < 2) (hquote : '\x60' ∉ text) : Inert text := by
  constructor
  · rintro ⟨before, after, rfl, _⟩
    exact hquote (by simp)
  · intro hbare
    exact absurd hbare.length_le (Nat.not_le_of_lt h)

/-- Template text of a string neither ends the template nor opens a hole. -/
theorem inert_templateText (h : templateText? body = some text) : Inert text := by
  induction body using escape_induction generalizing text with
  | nil =>
    cases h
    exact inert_of_length (by decide) (by decide)
  | lone =>
    cases h
    exact inert_of_length (by decide) (by decide)
  | escape d rest ih =>
    rw [templateText?_escape] at h
    split at h
    next => cases h
    next =>
      obtain ⟨out, hout, rfl⟩ := Option.map_eq_some_iff.1 h
      exact (ih hout).escape d
  | char c rest hc ih =>
    rw [templateText?_char hc] at h
    obtain ⟨out, hout, rfl⟩ := Option.map_eq_some_iff.1 h
    split
    next => exact (ih hout).escape c
    next hplain =>
      simp only [Bool.or_eq_true, Bool.and_eq_true, decide_eq_true_eq, not_or, not_and] at hplain
      apply (ih hout).char
      · simp only [List.mem_cons, List.not_mem_nil, or_false, not_or]
        exact ⟨hc, hplain.1⟩
      · intro hdollar hbrace
        -- what follows a dollar sign is kept or escaped
        rcases head?_templateText hout with hhead | hhead
        · exact hplain.2 hdollar (hhead.symm.trans hbrace)
        · rw [hhead] at hbrace
          cases hbrace

theorem read_eq_readString (hq : q = '\'' ∨ q = '"') (types : Bool) (offset : Nat)
    (cs : List Char) : Token.read types offset (q :: cs) = Token.readString offset q cs := by
  rcases hq with rfl | rfl
  · rfl
  · rfl

theorem flatten_eq_legacyEscape (h : parts? source a = none ∨ parts? source b = none) :
    flatten source a b = .error .legacyEscape := by
  rw [flatten]
  rcases h with h | h
  · rw [h]
  · rw [h]
    cases parts? source a <;> rfl

/--
A string literal that is read becomes template text, unless it has an escape that templates refuse.
The text has the value of the literal as its own and neither ends the template nor opens a hole.
With such an escape, no sum that the literal is added to becomes a template.
-/
theorem templateText?_literal (hq : q = '\'' ∨ q = '"')
    (htoken : (Token.read types offset (q :: cs)).token = .string raw)
    (hfaults : (Token.read types offset (q :: cs)).faults = []) :
    ∃ body us, raw = String.ofList (q :: (body ++ [q])) ∧
      cs = body ++ q :: (Token.read types offset (q :: cs)).rest ∧ value .string body = .ok us ∧
      (¬OldEscape body → ∃ text, templateText? (quotedBody (Text.ofString raw)) = some text ∧
        Inert text ∧ Closed text ∧ value .template text = .ok us) ∧
      (OldEscape body → templateText? (quotedBody (Text.ofString raw)) = none ∧
        ∀ source span parts other, Text.slice source span = Text.ofString raw →
          flatten source (.mk .string span parts) other = .error .legacyEscape ∧
          flatten source other (.mk .string span parts) = .error .legacyEscape) := by
  rw [read_eq_readString hq] at htoken hfaults ⊢
  obtain ⟨body, us, rfl, htext, hreturns, hvalue⟩ := readString_eq htoken hfaults
  refine ⟨body, us, rfl, htext, hvalue, ?_, ?_⟩
  · rw [quotedBody_ofString hq, ← templateText?_eq_none_iff, ← ne_eq, Option.ne_none_iff_exists']
    rintro ⟨text, ht⟩
    obtain ⟨us', hus, hcooked⟩ := cooked_templateText .decimal hreturns hvalue (Nat.le_refl _) ht
    cases hus
    exact ⟨text, ht, inert_templateText ht, hcooked.closed, hcooked.value⟩
  · intro hold
    rw [quotedBody_ofString hq]
    have hnone : templateText? body = none := templateText?_eq_none_iff.2 hold
    refine ⟨hnone, ?_⟩
    intro source span parts other hslice
    have hparts : parts? source (.mk .string span parts) = none := by
      rw [parts?, hslice, quotedBody_ofString hq, hnone, Option.map_none]
    exact ⟨flatten_eq_legacyEscape (.inl hparts), flatten_eq_legacyEscape (.inr hparts)⟩

def markedBody : List Char :=
  ['\x60', '$', '\x7b', '\\', '\'', '\\', '\r', '\n', '\\', 'x', '4', '1']

theorem templateText?_literal_marked :
    (∃ text, templateText? markedBody = some text ∧ Inert text ∧ Closed text ∧
      value .template text = .ok [96, 36, 123, 39, 65]) ∧
    OldEscape ['\\', '0', '8'] ∧
    flatten (Text.ofString "\"\\08\"") (.mk .string ⟨0, 5⟩ []) (.mk .string ⟨0, 5⟩ []) =
      .error .legacyEscape := by
  have hbody {q : Char} {body body' : List Char}
      (h : String.ofList (q :: (body ++ [q])) = String.ofList (q :: (body' ++ [q]))) :
        body = body' := by
    have hchars := congrArg String.toList h
    rw [String.toList_ofList, String.toList_ofList] at hchars
    exact List.append_cancel_right (List.cons.inj hchars).2
  have hmarked : (Token.read true 0 ('\'' :: (markedBody ++ ['\'']))).token =
      .string (String.ofList ('\'' :: (markedBody ++ ['\'']))) := rfl
  have hold : OldEscape ['\\', '0', '8'] := templateText?_eq_none_iff.1 rfl
  have hrefused : (Token.read true 0 ('"' :: (['\\', '0', '8'] ++ ['"']))).token =
      .string (String.ofList ('"' :: (['\\', '0', '8'] ++ ['"']))) := rfl
  refine ⟨?_, hold, ?_⟩
  · obtain ⟨body, us, hraw, _, hvalue, hgood, _⟩ := templateText?_literal (.inl rfl) hmarked rfl
    obtain rfl := hbody hraw
    cases hvalue
    obtain ⟨text, htext, hrest⟩ := hgood fun h => absurd (templateText?_eq_none_iff.2 h) (by decide)
    rw [quotedBody_ofString (.inl rfl)] at htext
    exact ⟨text, htext, hrest⟩
  · obtain ⟨body, us, hraw, _, _, _, hnone⟩ := templateText?_literal (.inr rfl) hrefused rfl
    obtain rfl := hbody hraw
    exact ((hnone hold).2 _ ⟨0, 5⟩ [] _ rfl).1

end Uplift.Quoted
