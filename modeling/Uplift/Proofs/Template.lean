import Mathlib.Data.List.Basic
import Uplift.Concatenation
import Uplift.Proofs.Quoted

namespace Uplift.Quoted

set_option autoImplicit true

open Template

def trailing (text : List Char) : Nat := (text.reverse.takeWhile (· = '\\')).length

def endsEscaped (c : Char) (text : List Char) : Bool :=
  text.getLast? = some c && trailing text.dropLast % 2 = 1

/-- Whether the last item of a text is read differently before the other text. -/
def clashes (r : Refusal) (text more : List Char) : Bool :=
  (endsEscaped '0' text && more.head?.any r.digit) ||
    (text.getLast? = some '\r' && more.head? = some '\n')

theorem trailing_append_char (h : c ≠ '\\') (text : List Char) : trailing (text ++ [c]) = 0 := by
  rw [trailing, List.reverse_append, List.reverse_singleton, List.singleton_append,
    List.takeWhile_cons, decide_eq_false h]
  rfl

theorem trailing_append (h : trailing x % 2 = 0) (y : List Char) :
    trailing (x ++ y) % 2 = trailing y % 2 := by
  simp only [trailing, List.reverse_append] at h ⊢
  rw [List.takeWhile_append]
  split
  next hall =>
    rw [List.length_append, hall, Nat.add_mod, h, Nat.add_zero, Nat.mod_mod]
  next => rfl

theorem endsOpen_append (text : List Char) (c : Char) :
    endsOpen (text ++ [c]) = true ↔ c = '$' ∧ trailing text % 2 = 0 := by
  rw [endsOpen, List.reverse_append, List.reverse_singleton, List.singleton_append]
  split
  next before he =>
    cases he
    rw [decide_eq_true_eq, trailing]
    exact ⟨fun h => ⟨rfl, h⟩, And.right⟩
  next hne =>
    refine ⟨fun h => (nomatch h), ?_⟩
    rintro ⟨rfl, -⟩
    exact absurd rfl (hne _)

theorem exists_dollar_of_endsOpen (h : endsOpen text = true) :
    ∃ t, text = t ++ ['$'] ∧ trailing t % 2 = 0 := by
  have hne : text ≠ [] := by
    rintro rfl
    cases h
  obtain ⟨t, c, rfl⟩ : ∃ t c, text = t ++ [c] := ⟨_, _, (List.dropLast_concat_getLast hne).symm⟩
  obtain ⟨rfl, ht⟩ := (endsOpen_append t c).1 h
  exact ⟨t, rfl, ht⟩

theorem endsEscaped_append (d c : Char) (text : List Char) :
    endsEscaped d (text ++ [c]) = true ↔ c = d ∧ trailing text % 2 = 1 := by
  rw [endsEscaped, List.getLast?_concat, List.dropLast_concat, Bool.and_eq_true, decide_eq_true_eq,
    decide_eq_true_eq, Option.some.injEq]

theorem trailing_escape (ht : ∀ d ∈ t, d ≠ '\\') (c : Char) :
    trailing ('\\' :: c :: t) % 2 = 0 := by
  by_cases hnil : t = []
  · subst t
    by_cases hc : c = '\\'
    · rw [hc]
      rfl
    · have h := trailing_append_char hc ['\\']
      rw [List.singleton_append] at h
      rw [h]
  · have h := trailing_append_char (ht _ (List.getLast_mem hnil)) ('\\' :: c :: t.dropLast)
    rw [List.cons_append, List.cons_append, List.dropLast_concat_getLast] at h
    rw [h]

theorem trailing_item (h : Item r x us refuses) : trailing x % 2 = 0 := by
  cases h with
  | @char c h =>
    have hc : c ≠ '\\' := by
      rintro rfl
      exact h List.mem_cons_self
    have h0 := trailing_append_char hc []
    rw [List.nil_append] at h0
    rw [h0]
  | dollar => rfl
  | carriage => rfl
  | carriagePair => rfl
  | escape h =>
    obtain ⟨c, t, rfl, ht, -⟩ := h.exists_cons
    exact trailing_escape (ne_backslash_of_not_mem ht) c

theorem endsOpen_item (h : Item r x us refuses) (hne : text ≠ []) :
    endsOpen (x ++ text) = endsOpen text := by
  obtain ⟨t, c, rfl⟩ : ∃ t c, text = t ++ [c] := ⟨_, _, (List.dropLast_concat_getLast hne).symm⟩
  rw [Bool.eq_iff_iff, ← List.append_assoc, endsOpen_append, endsOpen_append,
    trailing_append (trailing_item h)]

theorem endsEscaped_of_even (h : trailing x % 2 = 0) (hne : text ≠ []) (d : Char) :
    endsEscaped d (x ++ text) = endsEscaped d text := by
  obtain ⟨t, c, rfl⟩ : ∃ t c, text = t ++ [c] := ⟨_, _, (List.dropLast_concat_getLast hne).symm⟩
  rw [Bool.eq_iff_iff, ← List.append_assoc, endsEscaped_append, endsEscaped_append,
    trailing_append h]

theorem clashes_append (h : trailing a % 2 = 0) (hne : b ≠ []) (c : List Char) :
    clashes r (a ++ b) c = clashes r b c := by
  rw [clashes, clashes, endsEscaped_of_even h hne, List.getLast?_append_of_ne_nil _ hne]

theorem refuses_none (h : Item r x us refuses) : refuses none = false := by
  cases hn : refuses none with
  | false => rfl
  | true =>
    rcases h.refuses_cases hn with ⟨-, he⟩ | ⟨-, he⟩ | ⟨-, he⟩ <;> cases he

/-- Texts that do not meet in a way that changes how they are read can be put together. -/
theorem Cooked.append (ha : Cooked r a u) (hb : Cooked r b v) (hclash : clashes r a b = false)
    (hopen : endsOpen a = true → b.head? ≠ some '\x7b') : Cooked r (a ++ b) (u ++ v) := by
  induction ha with
  | nil => exact hb
  | @cons x us refuses rest vs h hn hrest ih =>
    rw [List.append_assoc, List.append_assoc]
    cases rest with
    | nil =>
      -- only the last item of `a` gets another neighbour
      rw [List.append_nil] at hclash hopen
      refine .cons h ?_ (ih rfl fun h => (nomatch h))
      rw [List.nil_append]
      cases hrefuses : refuses b.head? with
      | false => rfl
      | true =>
        rcases h.refuses_cases hrefuses with ⟨rfl, hbrace⟩ | ⟨hlast, hbreak⟩ | ⟨rfl, hdigit⟩
        · exact absurd hbrace (hopen rfl)
        · rw [clashes, hlast, hbreak, Bool.or_eq_false_iff] at hclash
          cases hclash.2
        · rw [clashes, hdigit, Bool.or_eq_false_iff] at hclash
          cases hclash.1
    | cons c rest =>
      have hne := List.cons_ne_nil c rest
      rw [clashes_append (trailing_item h) hne] at hclash
      rw [endsOpen_item h hne] at hopen
      exact .cons h hn (ih hclash hopen)

theorem eq_dollar_of_item (h : Item r x us refuses) (he : x = t ++ ['$'])
    (ht : trailing t % 2 = 0) : t = [] ∧ us = [36] := by
  have hlast : x.getLast? = some '$' := by rw [he, List.getLast?_concat]
  cases h with
  | char h =>
    cases hlast
    exact absurd (by decide) h
  | dollar =>
    exact ⟨(List.append_eq_singleton_iff.1 he.symm).elim And.left (fun h => (nomatch h.2)), rfl⟩
  | carriage => cases hlast
  | carriagePair => cases hlast
  | escape h =>
    obtain ⟨c, x', rfl, hx, -⟩ := h.exists_cons
    by_cases hnil : x' = []
    · subst x'
      have he' : ['\\'] ++ [c] = t ++ ['$'] := he
      have ht' : t = ['\\'] := (List.append_inj' he' rfl).1.symm
      rw [ht'] at ht
      cases ht
    · have hd := hx _ (List.getLast_mem hnil)
      rw [List.getLast?_cons_cons, List.getLast?_cons, List.getLast?_eq_some_getLast hnil] at hlast
      rw [Option.getD_some, Option.some.injEq] at hlast
      rw [hlast] at hd
      exact absurd (by decide) hd

theorem units_of_nil (h : Cooked r [] us) : us = [] := h.unique (Cooked.nil (r := r))

theorem Cooked.of_dollar (h : Cooked r text u) (he : text = t ++ ['$']) (ht : trailing t % 2 = 0) :
    ∃ v, u = v ++ [36] ∧ Cooked r t v := by
  induction h generalizing t with
  | nil =>
    cases t <;> cases he
  | @cons x us refuses rest vs h hn hrest ih =>
    by_cases hnil : rest = []
    · subst rest
      rw [List.append_nil] at he
      obtain ⟨rfl, rfl⟩ := eq_dollar_of_item h he ht
      rw [units_of_nil hrest]
      exact ⟨[], rfl, .nil⟩
    · obtain ⟨t', c, rfl⟩ : ∃ t c, rest = t ++ [c] :=
        ⟨_, _, (List.dropLast_concat_getLast hnil).symm⟩
      rw [← List.append_assoc] at he
      obtain ⟨rfl, hc⟩ := List.append_inj' he rfl
      cases hc
      rw [trailing_append (trailing_item h)] at ht
      obtain ⟨v, rfl, hv⟩ := ih rfl ht
      refine ⟨us ++ v, (List.append_assoc _ _ _).symm, .cons h ?_ hv⟩
      cases t' with
      | nil => exact refuses_none h
      | cons d t' => exact hn

theorem Cooked.escape_dollar (r : Refusal) (h : Cooked r b v) :
    Cooked r ('\\' :: '$' :: b) (36 :: v) := by
  have hd : r.digit '$' = false := by
    cases r <;> decide
  exact .cons (.escape (.single (by decide) hd)) rfl h

theorem clashes_backslash (r : Refusal) (a b : List Char) : clashes r a ('\\' :: b) = false := by
  have hd : r.digit '\\' = false := by
    cases r <;> decide
  rw [clashes, List.head?_cons, Option.any_some, hd, Bool.and_false, Bool.false_or,
    Bool.and_eq_false_iff]
  exact .inr (by decide)

theorem Cooked.join (ha : Cooked r a u) (hb : Cooked r b v) (hclash : clashes r a b = false) :
    Cooked r (Template.join a b) (u ++ v) := by
  rw [Template.join]
  split
  next hmeet =>
    rw [Bool.and_eq_true, decide_eq_true_eq] at hmeet
    obtain ⟨t, rfl, ht⟩ := exists_dollar_of_endsOpen hmeet.2
    obtain ⟨v', rfl, hv'⟩ := ha.of_dollar rfl ht
    rw [List.dropLast_concat, List.append_assoc]
    refine hv'.append (hb.escape_dollar r) (clashes_backslash r _ _) ?_
    exact fun _ hbrace => (nomatch hbrace)
  next hmeet =>
    refine ha.append hb hclash ?_
    intro ho hbrace
    rw [ho, hbrace] at hmeet
    exact hmeet rfl

theorem eq_nul_of_item (h : Item r x us refuses) (hz : endsEscaped '0' x = true) :
    x = ['\\', '0'] := by
  cases h with
  | @char c h => exact absurd ((endsEscaped_append '0' c []).1 hz).2 (by decide)
  | dollar => cases hz
  | carriage => cases hz
  | carriagePair => cases hz
  | escape h =>
    obtain ⟨c, t, rfl, ht, -⟩ := h.exists_cons
    by_cases hnil : t = []
    · subst t
      rw [((endsEscaped_append '0' c ['\\']).1 hz).1]
    · -- a code is too far behind the backslash for its last character to be escaped
      have heven :=
        trailing_escape (ne_backslash_of_not_mem fun d hd => ht d (List.dropLast_subset t hd)) c
      rw [← List.dropLast_concat_getLast hnil] at hz
      have hodd := ((endsEscaped_append '0' (t.getLast hnil) ('\\' :: c :: t.dropLast)).1 hz).2
      omega

/-- A digit behind the escape `\0` makes an escape that is refused. -/
theorem Cooked.refused (ha : Cooked r a u) (hz : endsEscaped '0' a = true)
    (hd : b.head?.any r.digit = true) : hasRefused r (a ++ b) = true := by
  induction ha with
  | nil => cases hz
  | @cons x us refuses rest vs h hn hrest ih =>
    rw [List.append_assoc]
    by_cases hnil : rest = []
    · subst rest
      rw [List.append_nil] at hz
      rw [eq_nul_of_item h hz]
      change (b.head?.any r.digit || hasRefused r b) = true
      rw [hd, Bool.true_or]
    · rw [endsEscaped_of_even (trailing_item h) hnil] at hz
      rw [h.hasRefused, ih hz]
      rw [List.head?_append_of_ne_nil _ hnil]
      exact hn

theorem Cooked.of_newline (h : Cooked r text v) (he : text = '\n' :: b) :
    ∃ v', v = 10 :: v' ∧ Cooked r b v' := by
  cases h with
  | nil => cases he
  | cons h hn hrest =>
    cases h with
    | char h =>
      cases he
      exact ⟨_, rfl, hrest⟩
    | dollar => cases he
    | carriage => cases he
    | carriagePair => cases he
    | escape h => cases he

/-- A carriage return and a newline that meet are one line break. -/
theorem Cooked.shorter (ha : Cooked r a u) (hl : a.getLast? = some '\r')
    (hb : Cooked r ('\n' :: b) v) :
    ∃ w, Cooked r (a ++ '\n' :: b) w ∧ w.length + 1 = u.length + v.length := by
  induction ha with
  | nil => cases hl
  | @cons x us refuses rest vs h hn hrest ih =>
    rw [List.append_assoc]
    by_cases hnil : rest = []
    · subst rest
      rw [List.append_nil] at hl
      rw [units_of_nil hrest, List.nil_append, List.append_nil]
      obtain ⟨v', rfl, hv'⟩ := hb.of_newline rfl
      cases h with
      | char h =>
        cases hl
        exact absurd (by decide) h
      | dollar => cases hl
      | carriage => exact ⟨10 :: v', .cons .carriagePair rfl hv', Nat.add_comm _ _⟩
      | carriagePair => cases hl
      | escape h =>
        cases h with
        | carriage => exact ⟨v', .cons (.escape .carriagePair) rfl hv', (Nat.zero_add _).symm⟩
        | carriagePair => cases hl
        | nul => cases hl
        | single h =>
          cases hl
          exact absurd (by decide) h
        | @coded c t us hc ht hne h =>
          have hcode := not_mem_of_isCode (ht _ (List.getLast_mem hne))
          rw [List.getLast?_cons_cons, List.getLast?_cons, List.getLast?_eq_some_getLast hne,
            Option.getD_some, Option.some.injEq] at hl
          rw [hl] at hcode
          exact absurd (by decide) hcode
    · rw [List.getLast?_append_of_ne_nil _ hnil] at hl
      obtain ⟨w, hw, hlen⟩ := ih hl
      refine ⟨us ++ w, .cons h ?_ hw, ?_⟩
      · rw [List.head?_append_of_ne_nil _ hnil]
        exact hn
      · rw [List.length_append, List.length_append]
        omega

theorem join_of_clashes (h : clashes r a b = true) : Template.join a b = a ++ b := by
  rw [clashes, Bool.or_eq_true, Bool.and_eq_true, Bool.and_eq_true, decide_eq_true_eq,
    decide_eq_true_eq] at h
  rw [Template.join, if_neg]
  rw [Bool.and_eq_true, decide_eq_true_eq]
  rintro ⟨hbrace, -⟩
  rcases h with ⟨-, hd⟩ | ⟨-, hbreak⟩
  · rw [hbrace, Option.any_some] at hd
    cases r <;> cases hd
  · rw [hbrace] at hbreak
    cases hbreak

/-- Text with an escape that is refused, or with fewer code units than it should have. -/
def Spoilt (r : Refusal) (text : List Char) (n : Nat) : Prop :=
  hasRefused r text = true ∨ ∃ us, Cooked r text us ∧ us.length < n

theorem Spoilt.not_cooked (h : Spoilt r text us.length) : ¬ Cooked r text us := by
  intro hcooked
  rcases h with h | ⟨vs, hvs, hlt⟩
  · rw [hcooked.not_refused] at h
    cases h
  · rw [hvs.unique hcooked] at hlt
    exact Nat.lt_irrefl _ hlt

theorem Cooked.spoilt (ha : Cooked r a u) (hb : Cooked r b v) (h : clashes r a b = true) :
    Spoilt r (Template.join a b) (u.length + v.length) := by
  rw [join_of_clashes h]
  rw [clashes, Bool.or_eq_true, Bool.and_eq_true, Bool.and_eq_true, decide_eq_true_eq,
    decide_eq_true_eq] at h
  rcases h with ⟨hz, hd⟩ | ⟨hl, hbreak⟩
  · exact .inl (ha.refused hz hd)
  · obtain ⟨b, rfl⟩ := List.head?_eq_some_iff.1 hbreak
    obtain ⟨w, hw, hlen⟩ := ha.shorter hl hb
    exact .inr ⟨w, hw, by omega⟩

theorem hasRefused_append (h : hasRefused r a = true) (b : List Char) :
    hasRefused r (a ++ b) = true := by
  fun_induction hasRefused r a with
  | case1 => cases h
  | case2 d rest ih =>
    rw [Bool.or_eq_true] at h
    rw [List.cons_append, List.cons_append, hasRefused, Bool.or_eq_true]
    rcases h with h | h
    · left
      split at h
      next hd =>
        rw [if_pos hd]
        cases rest with
        | nil => cases h
        | cons e rest => exact h
      next hd =>
        rw [if_neg hd]
        exact h
    · exact .inr (ih h)
  | case3 c rest hc ih =>
    cases rest with
    | nil => cases h
    | cons d rest =>
      rw [List.cons_append, hasRefused]
      · exact ih h
      · intro e rest' he hr
        cases hr
        exact hc _ _ he rfl

theorem hasRefused_dollar (h : hasRefused r (t ++ ['$']) = true) : hasRefused r t = true := by
  have hdollar : r.digit '$' = false := by
    cases r <;> rfl
  fun_induction hasRefused r t with
  | case1 => cases h
  | case2 d rest ih =>
    rw [List.cons_append, List.cons_append, hasRefused, Bool.or_eq_true] at h
    rw [Bool.or_eq_true]
    rcases h with h | h
    · left
      split at h
      next hd =>
        rw [if_pos hd]
        cases rest with
        | nil => exact hdollar.symm.trans h
        | cons e rest => exact h
      next hd =>
        rw [if_neg hd]
        exact h
    · exact .inr (ih h)
  | case3 c rest hc ih =>
    cases rest with
    | nil =>
      by_cases hback : c = '\\'
      · subst c
        rw [List.singleton_append, hasRefused, if_neg (by decide), hdollar] at h
        cases h
      · rw [hasRefused_chars fun d hd => (List.mem_singleton.1 hd).symm ▸ hback] at h
        cases h
    | cons d rest =>
      rw [List.cons_append, hasRefused] at h
      · exact ih h
      · intro e rest' he hr
        cases hr
        exact hc _ _ he rfl

theorem hasRefused_join (h : hasRefused r a = true) (b : List Char) :
    hasRefused r (Template.join a b) = true := by
  rw [Template.join]
  split
  next hmeet =>
    rw [Bool.and_eq_true, decide_eq_true_eq] at hmeet
    obtain ⟨t, rfl, -⟩ := exists_dollar_of_endsOpen hmeet.2
    rw [List.dropLast_concat]
    exact hasRefused_append (hasRefused_dollar h) _
  next => exact hasRefused_append h b

theorem Spoilt.join (h : Spoilt r a n) (hb : Cooked r b v) :
    Spoilt r (Template.join a b) (n + v.length) := by
  rcases h with h | ⟨u, hu, hlt⟩
  · exact .inl (hasRefused_join h b)
  · cases hclash : clashes r a b with
    | false =>
      refine .inr ⟨u ++ v, hu.join hb hclash, ?_⟩
      rw [List.length_append]
      omega
    | true =>
      rcases hu.spoilt hb hclash with hspoilt | ⟨w, hw, hlen⟩
      · exact .inl hspoilt
      · exact .inr ⟨w, hw, by omega⟩

theorem Cooked.trailing (h : Cooked r text us) : Quoted.trailing text % 2 = 0 := by
  induction h with
  | nil => rfl
  | cons h hn hrest ih => rw [trailing_append (trailing_item h), ih]

theorem Cooked.clashes_join (ha : Cooked r a u) (hne : b ≠ []) (c : List Char) :
    clashes r (Template.join a b) c = clashes r b c := by
  rw [Template.join]
  split
  next =>
    have hsplit : a.dropLast ++ '\\' :: '$' :: b = (a.dropLast ++ ['\\'] ++ ['$']) ++ b := by
      rw [List.append_assoc, List.append_assoc]
      rfl
    rw [hsplit]
    apply clashes_append _ hne
    rw [trailing_append_char (by decide)]
  next => exact clashes_append ha.trailing hne c

theorem clashes_nil (r : Refusal) (b : List Char) : clashes r [] b = false := rfl

end Uplift.Quoted
