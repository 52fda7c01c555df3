import Mathlib.Data.List.Chain
import Uplift.Grammar.Template
import Uplift.Proofs.Concatenation
import Uplift.Proofs.Encoding
import Uplift.Proofs.Literal
import Uplift.Proofs.Template

namespace Uplift.Quoted

set_option autoImplicit true

open Concatenation Template

theorem scanString_eq (h : scanString q escaped cs = (body, .quote, rest)) :
    cs = body ++ q :: rest := by
  induction cs generalizing escaped body with
  | nil => cases h
  | cons c cs ih =>
    cases escaped with
    | true =>
      obtain ⟨t, rfl, hs⟩ := scanString_escaped h
      rw [List.cons_append, ← ih hs]
    | false =>
      rw [scanString, if_neg Bool.false_ne_true] at h
      split at h
      next hquote =>
        cases h
        rw [hquote, List.nil_append]
      next =>
      split at h
      next => cases h
      next =>
      split at h
      next t ending rest' hs =>
        cases h
        rw [List.cons_append, ← ih hs]

theorem readString_eq (htoken : (Token.readString offset q cs).token = .string raw)
    (hfaults : (Token.readString offset q cs).faults = []) :
    ∃ body us, raw = String.ofList (q :: (body ++ [q])) ∧
      cs = body ++ q :: (Token.readString offset q cs).rest ∧ returnsEscaped body = true ∧
      value .string body = .ok us := by
  obtain ⟨⟨body, ending, rest⟩, hs⟩ : ∃ p, scanString q false cs = p := ⟨_, rfl⟩
  rw [Token.readString, hs] at htoken hfaults ⊢
  cases ending with
  | hole => cases hfaults
  | unterminated => cases hfaults
  | quote =>
    cases hv : value .string body with
    | error rest =>
      simp only [fault?, hv] at htoken
      cases htoken
    | ok us =>
      simp only [fault?, hv] at htoken ⊢
      cases htoken
      exact ⟨body, us, rfl, scanString_eq hs, returnsEscaped_scanString hs, hv⟩

theorem quotedBody_ofString (hq : q = '\'' ∨ q = '"') (body : List Char) :
    quotedBody (Text.ofString (String.ofList (q :: (body ++ [q])))) = body := by
  have hbytes : ∃ b, String.utf8EncodeChar q = [b] := by
    rcases hq with rfl | rfl
    · exact ⟨_, rfl⟩
    · exact ⟨_, rfl⟩
  obtain ⟨b, hb⟩ := hbytes
  have htext :
      Text.ofString (String.ofList (q :: (body ++ [q]))) = b :: (Text.ofChars body ++ [b]) := by
    rw [Text.ofString, String.toList_ofList, Text.ofChars, Text.ofChars, List.flatMap_cons,
      List.flatMap_append, List.flatMap_cons, List.flatMap_nil, hb, List.append_nil]
    rfl
  rw [quotedBody, htext, List.drop_one, List.tail_cons, List.dropLast_concat, Text.decode?_ofChars]
  rfl

theorem head?_scanTemplate (h : scanTemplate e cs = (body, ending, rest)) :
    body = [] ∨ body.head? = cs.head? := by
  cases cs with
  | nil =>
    cases h
    exact .inl rfl
  | cons c cs =>
    rw [scanTemplate] at h
    split at h
    next =>
      cases h
      exact .inr rfl
    next =>
    split at h
    next =>
      cases h
      exact .inl rfl
    next =>
    split at h
    next =>
      cases h
      exact .inl rfl
    next =>
      cases h
      exact .inr rfl

theorem scanTemplate_body (h : scanTemplate e cs = (body, ending, rest))
    (hend : ending ≠ .unterminated) : scanTemplate e (body ++ ['\x60']) = (body, .quote, []) := by
  induction cs generalizing e body ending rest with
  | nil =>
    cases h
    exact absurd rfl hend
  | cons c cs ih =>
    rw [scanTemplate] at h
    split at h
    next he =>
      cases h
      rw [List.cons_append, scanTemplate, if_pos he, ih rfl hend]
    next he =>
    have hempty : scanTemplate e ([] ++ ['\x60']) = ([], .quote, []) := by
      rw [Bool.eq_false_iff.2 he]
      rfl
    split at h
    next =>
      cases h
      exact hempty
    next hquote =>
    split at h
    next =>
      cases h
      exact hempty
    next hhole =>
      obtain ⟨⟨body', ending', rest'⟩, hs⟩ : ∃ p, scanTemplate (c = '\\') cs = p := ⟨_, rfl⟩
      rw [hs] at h
      cases h
      rw [List.cons_append, scanTemplate, if_neg he, if_neg hquote, if_neg, ih hs hend]
      rw [Bool.and_eq_true, decide_eq_true_eq, decide_eq_true_eq] at hhole ⊢
      rintro ⟨hdollar, hbrace⟩
      cases body' with
      | nil => cases hbrace
      | cons d body' =>
        rcases head?_scanTemplate hs with hnil | hhead
        · cases hnil
        · exact hhole ⟨hdollar, hhead.symm.trans hbrace⟩

theorem quasi_eq_done (h : Grammar.quasi false c s = .done (.mk (.quasi raw) span cs, more) s') :
    Closed raw.toList ∧ ∃ us, value .template raw.toList = .ok us := by
  obtain ⟨⟨body, ending, rest⟩, hs⟩ : ∃ p, scanTemplate false s.rest = p := ⟨_, rfl⟩
  cases hv : value .template body with
  | error left =>
    simp only [Grammar.quasi, bind, Grammar.Parse.bind, Grammar.Parse.state, hs, fault?, hv] at h
    cases h
  | ok us =>
    simp only [Grammar.quasi, bind, Grammar.Parse.bind, Grammar.Parse.state, hs, fault?, hv] at h
    have hraw : ending ≠ .unterminated ∧ raw = String.ofList body := by
      cases ending with
      | unterminated => cases h
      | hole =>
        cases h
        exact ⟨Ending.noConfusion, rfl⟩
      | quote =>
        cases h
        exact ⟨Ending.noConfusion, rfl⟩
    rw [hraw.2, String.toList_ofList]
    exact ⟨scanTemplate_body hs hraw.1, us, hv⟩

/--
A stretch of text for a template: a string that was read, put into a template, or text of a template
that was read. If the language's own rules are asked for, that text must follow them.
-/
inductive Stretch (r : Refusal) : List Char → Prop where
  | literal (hq : q = '\'' ∨ q = '"') (htoken : (Token.readString offset q cs).token = .string raw)
      (hfaults : (Token.readString offset q cs).faults = [])
      (ht : templateText? (quotedBody (Text.ofString raw)) = some text) : Stretch r text
  | quasi (h : Grammar.quasi false c s = .done (.mk (.quasi raw) span cs, more) s')
      (hd : r = .decimal → hasRefused .decimal raw.toList = false) : Stretch r raw.toList

theorem Stretch.cooked (h : Stretch r text) : ∃ us, Cooked r text us := by
  cases h with
  | literal hq htoken hfaults ht =>
    obtain ⟨body, us, rfl, _, hreturns, hvalue⟩ := readString_eq htoken hfaults
    rw [quotedBody_ofString hq] at ht
    obtain ⟨vs, -, hcooked⟩ := cooked_templateText r hreturns hvalue (Nat.le_refl _) ht
    exact ⟨vs, hcooked⟩
  | quasi h hd =>
    obtain ⟨hclosed, us, hvalue⟩ := quasi_eq_done h
    obtain ⟨vs, -, hcooked⟩ := cooked_of_valueFrom hvalue (Nat.le_refl _) hclosed
    cases r with
    | octal => exact ⟨vs, hcooked⟩
    | decimal => exact ⟨vs, hcooked.of_octal (hd rfl)⟩

theorem Cooked.units_eq (h : Cooked r text us) : units .template text = us := by
  rw [units, h.value]
  rfl

theorem Stretch.cooked_units (h : Stretch r text) : Cooked r text (units .template text) := by
  obtain ⟨us, hus⟩ := h.cooked
  rw [hus.units_eq]
  exact hus

theorem join_nil (text : List Char) : Template.join text [] = text := List.append_nil text

theorem last_foldl_addText (pieces : List (List Char)) (t : Template) :
    (pieces.foldl addText t).last = pieces.foldl Template.join t.last := by
  induction pieces generalizing t with
  | nil => rfl
  | cons p pieces ih => exact ih (t.addText p)

theorem Spoilt.foldl {pieces : List (List Char)} (h : Spoilt r text n)
    (hp : ∀ p ∈ pieces, Cooked r p (units .template p)) :
    Spoilt r (pieces.foldl Template.join text) (n + (pieces.flatMap (units .template)).length) := by
  induction pieces generalizing text n with
  | nil => exact h
  | cons p pieces ih =>
    obtain ⟨hhead, htail⟩ := List.forall_mem_cons.1 hp
    rw [List.flatMap_cons, List.length_append, ← Nat.add_assoc]
    exact ih (h.join hhead) htail

/--
Merged texts mean what they mean apart, one behind the other, exactly if none clashes with the next
one that is not empty.
-/
theorem Cooked.foldl_join_iff {pieces : List (List Char)} (h : Cooked r text us)
    (hp : ∀ p ∈ pieces, Cooked r p (units .template p)) :
    Cooked r (pieces.foldl Template.join text) (us ++ pieces.flatMap (units .template)) ↔
      (text :: pieces.filter (· ≠ [])).IsChain fun a b => clashes r a b = false := by
  induction pieces generalizing text us with
  | nil =>
    rw [List.foldl_nil, List.flatMap_nil, List.append_nil]
    exact ⟨fun _ => .singleton _, fun _ => h⟩
  | cons p pieces ih =>
    obtain ⟨hhead, htail⟩ := List.forall_mem_cons.1 hp
    rw [List.foldl_cons, List.flatMap_cons, ← List.append_assoc]
    by_cases hnil : p = []
    · subst p
      rw [join_nil, List.filter_cons_of_neg (by decide)]
      have hunits : units .template [] = [] := rfl
      rw [hunits, List.append_nil]
      exact ih h htail
    · rw [List.filter_cons, if_pos (decide_eq_true hnil), List.isChain_cons_cons]
      cases hclash : clashes r text p with
      | false =>
        rw [ih (h.join hhead hclash) htail, List.isChain_cons, List.isChain_cons]
        simp only [h.clashes_join hnil, true_and]
      | true =>
        -- what is spoilt at one seam stays so to the end
        have hspoilt := (h.spoilt hhead hclash).foldl htail
        rw [← List.length_append, ← List.length_append] at hspoilt
        exact ⟨fun hcooked => absurd hcooked hspoilt.not_cooked, fun hne => (nomatch hne.1)⟩

theorem cooked_iff (text : List Char) (us : List Nat) :
    Cooked r text us ↔ WellFormed r text ∧ units .template text = us := by
  constructor
  · exact fun h => ⟨h.wellFormed, h.units_eq⟩
  · rintro ⟨hwell, rfl⟩
    obtain ⟨us, hus⟩ := hwell.cooked
    rw [hus.units_eq]
    exact hus

/--
Strings and stretches of templates that are merged are well formed, each for itself. The text they
are merged into is well formed and has their values, one behind the other, exactly if none of them
ends in the escape `\0` where the next starts with a digit, or in a carriage return where the next
starts with a newline.
-/
theorem wellFormed_merged_iff (r : Refusal) (t : Template) (ht : t.last = [])
    (pieces : List (List Char)) (hp : ∀ p ∈ pieces, Stretch r p) :
    (∀ p ∈ pieces, WellFormed r p) ∧
    (WellFormed r (pieces.foldl addText t).last ∧
      units .template (pieces.foldl addText t).last = pieces.flatMap (units .template) ↔
      (pieces.filter (· ≠ [])).IsChain fun a b => clashes r a b = false) := by
  refine ⟨fun p hmem => (hp p hmem).cooked_units.wellFormed, ?_⟩
  rw [last_foldl_addText, ht, ← cooked_iff, ← List.nil_append (pieces.flatMap _),
    Cooked.nil.foldl_join_iff fun p hmem => (hp p hmem).cooked_units, List.isChain_cons]
  exact and_iff_right fun b _ => clashes_nil r b

def templateStart (rest : List Char) : Grammar.State where
  here := '\x60' :: rest
  start := 0
  token := .punct "\x60"
  lo := 0
  hi := 1
  whole := '\x60' :: rest
  rest := rest
  fresh := false

theorem WellFormed.stretch (h : WellFormed r text) : Stretch r text := by
  obtain ⟨us, hv⟩ := h.escapes
  have hread : ∃ s', Grammar.quasi false { dialect := .ecmascript, size := 0 }
      (templateStart (text ++ ['\x60'])) =
      .done (.mk (.quasi (String.ofList text)) ⟨1, 1 + Letter.width text⟩ [], false) s' := by
    have hs : scanTemplate false (templateStart (text ++ ['\x60'])).rest = (text, .quote, []) :=
      h.closed
    simp only [Grammar.quasi, bind, Grammar.Parse.bind, Grammar.Parse.state, hs, fault?, hv]
    exact ⟨_, rfl⟩
  obtain ⟨s', hread⟩ := hread
  have hstretch : Stretch r (String.ofList text).toList := by
    refine .quasi hread ?_
    rintro rfl
    rw [String.toList_ofList]
    exact h.digits
  rwa [String.toList_ofList] at hstretch

theorem wellFormed_merged_dollar :
    Stretch .decimal ['a', '$'] ∧ Stretch .decimal ['\x7b', 'n', '\x7d'] ∧
    ([['a', '$'], ['\x7b', 'n', '\x7d']].foldl addText {}).last =
      ['a', '\\', '$', '\x7b', 'n', '\x7d'] ∧
    WellFormed .decimal ['a', '\\', '$', '\x7b', 'n', '\x7d'] ∧
    units .template ['a', '\\', '$', '\x7b', 'n', '\x7d'] = [97, 36, 123, 110, 125] := by
  have hread : (Token.readString 0 '\'' ['a', '$', '\'']).token =
      .string (String.ofList ['\'', 'a', '$', '\'']) := rfl
  have hstring : Stretch .decimal ['a', '$'] := .literal (.inl rfl) hread rfl (by decide +kernel)
  have htext : Stretch .decimal ['\x7b', 'n', '\x7d'] :=
    WellFormed.stretch ⟨by decide, ⟨[123, 110, 125], rfl⟩, rfl⟩
  have hmerged := wellFormed_merged_iff .decimal {} rfl [['a', '$'], ['\x7b', 'n', '\x7d']]
    (List.forall_mem_cons.2 ⟨hstring, List.forall_mem_singleton.2 htext⟩)
  obtain ⟨hwell, hunits⟩ := hmerged.2.2 (by decide)
  exact ⟨hstring, htext, rfl, hwell, hunits⟩

/--
The strings `'\0'` and `'1'` make `\01`, which no template can hold. A carriage return and a newline
that come from two templates are one line break in the text they are merged into.
-/
theorem merged_escapes_clash :
    (Stretch .octal ['\\', '0'] ∧ Stretch .octal ['1'] ∧
      ¬ WellFormed .octal ([['\\', '0'], ['1']].foldl addText {}).last) ∧
    Stretch .decimal ['\r'] ∧ Stretch .decimal ['\n'] ∧
      units .template ([['\r'], ['\n']].foldl addText {}).last ≠
        [['\r'], ['\n']].flatMap (units .template) := by
  have hnul : (Token.readString 0 '\'' ['\\', '0', '\'']).token =
      .string (String.ofList ['\'', '\\', '0', '\'']) := rfl
  have hone :
      (Token.readString 0 '\'' ['1', '\'']).token = .string (String.ofList ['\'', '1', '\'']) := rfl
  refine ⟨⟨.literal (.inl rfl) hnul rfl (by decide +kernel),
    .literal (.inl rfl) hone rfl (by decide +kernel),
    fun h => (nomatch h.digits)⟩, ?_, ?_, by decide⟩
  · exact WellFormed.stretch ⟨by decide, ⟨[10], rfl⟩, rfl⟩
  · exact WellFormed.stretch ⟨by decide, ⟨[10], rfl⟩, rfl⟩

end Uplift.Quoted
