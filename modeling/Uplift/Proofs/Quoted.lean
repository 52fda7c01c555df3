import Uplift.Token.Quoted

namespace Uplift.Quoted

set_option autoImplicit true

open Letter

/--
Which digits are refused behind a backslash: the reader of templates refuses octal ones, the
language refuses all.
-/
inductive Refusal where
  | octal
  | decimal
deriving DecidableEq, Repr

def Refusal.digit : Refusal → Char → Bool
  | octal => Escape.isOctal
  | decimal => Char.isDigit

def singleUnits (c : Char) : List Nat :=
  if isLineBreak c then [] else ((Escape.simple? c).map ([·])).getD (Escape.units c.toNat)

def isCode (c : Char) : Bool := (hexDigit? c).isSome || c = '\x7b' || c = '\x7d'

inductive Spells (r : Refusal) : List Char → List Nat → (Option Char → Bool) → Prop where
  | carriage : Spells r ['\r'] [] (· == some '\n')
  | carriagePair : Spells r ['\r', '\n'] [] fun _ => false
  | nul : Spells r ['0'] [0] (·.any r.digit)
  | single (h : c ∉ ['\r', 'x', 'u']) (hd : r.digit c = false) :
    Spells r [c] (singleUnits c) fun _ => false
  | coded (hc : c ∈ ['x', 'u']) (ht : ∀ d ∈ t, isCode d = true) (hne : t ≠ [])
      (h : ∀ rest, Escape.read (c :: (t ++ rest)) = some (.plain us, rest)) :
    Spells r (c :: t) us fun _ => false

/-- An item of template text, its value, and the characters it refuses behind it. -/
inductive Item (r : Refusal) : List Char → List Nat → (Option Char → Bool) → Prop where
  | char (h : c ∉ ['\\', '\r', '\x60', '$']) : Item r [c] (Escape.units c.toNat) fun _ => false
  | dollar : Item r ['$'] [36] (· == some '\x7b')
  | carriage : Item r ['\r'] [10] (· == some '\n')
  | carriagePair : Item r ['\r', '\n'] [10] fun _ => false
  | escape (h : Spells r x us refuses) : Item r ('\\' :: x) us refuses

inductive Cooked (r : Refusal) : List Char → List Nat → Prop where
  | nil : Cooked r [] []
  | cons (h : Item r x us refuses) (hn : refuses rest.head? = false) (hrest : Cooked r rest vs) :
    Cooked r (x ++ rest) (us ++ vs)

theorem Refusal.digit_of_isOctal (r : Refusal) (h : Escape.isOctal c = true) :
    r.digit c = true := by
  cases r with
  | octal => exact h
  | decimal =>
    simp only [Escape.isOctal, Bool.and_eq_true, decide_eq_true_eq] at h
    simp only [digit, Char.isDigit, Bool.and_eq_true, decide_eq_true_eq]
    exact ⟨h.1, UInt32.le_trans h.2 (by decide)⟩

theorem Refusal.isDigit_of_digit (r : Refusal) (h : r.digit c = true) : c.isDigit = true := by
  cases r with
  | octal => exact Refusal.decimal.digit_of_isOctal h
  | decimal => exact h

theorem Refusal.any_isDigit_of_digit (r : Refusal) {next : Option Char}
    (h : next.any r.digit = true) : next.any Char.isDigit = true := by
  cases next with
  | none => cases h
  | some c => exact r.isDigit_of_digit h

theorem Refusal.isOctal_eq_false (r : Refusal) (h : r.digit c = false) :
    Escape.isOctal c = false := by
  cases ho : Escape.isOctal c with
  | false => rfl
  | true =>
    rw [r.digit_of_isOctal ho] at h
    cases h

theorem fixedHex_eq_some (h : Escape.fixedHex n acc cs = some (v, after)) :
    ∃ t, cs = t ++ after ∧ t.length = n ∧ (∀ d ∈ t, isCode d = true) ∧
      ∀ rest, Escape.fixedHex n acc (t ++ rest) = some (v, rest) := by
  induction n generalizing acc cs with
  | zero =>
    rw [Escape.fixedHex] at h
    cases h
    exact ⟨[], rfl, rfl, fun _ hd => (nomatch hd), fun _ => rfl⟩
  | succ n ih =>
    cases cs with
    | nil => cases h
    | cons c cs =>
      rw [Escape.fixedHex] at h
      cases hd : hexDigit? c with
      | none =>
        rw [hd] at h
        cases h
      | some d =>
        rw [hd] at h
        obtain ⟨t, rfl, hlen, hcode, ht⟩ := ih h
        refine ⟨c :: t, rfl, congrArg Nat.succ hlen, ?_, ?_⟩
        · intro e he
          rcases List.mem_cons.1 he with rfl | he
          · rw [isCode, hd]
            rfl
          · exact hcode e he
        · intro rest
          rw [List.cons_append, Escape.fixedHex, hd]
          exact ht rest

theorem bracedHex_eq_some (h : Escape.bracedHex acc cs = some (v, after)) :
    ∃ t, cs = t ++ after ∧ t ≠ [] ∧ (∀ d ∈ t, isCode d = true) ∧
      ∀ rest, Escape.bracedHex acc (t ++ rest) = some (v, rest) := by
  induction cs generalizing acc with
  | nil => cases h
  | cons c cs ih =>
    rw [Escape.bracedHex] at h
    split at h
    next hc =>
      obtain ⟨v', hv, he⟩ := Option.map_eq_some_iff.1 h
      cases he
      refine ⟨[c], rfl, List.cons_ne_nil _ _, ?_, ?_⟩
      · intro d hd
        rw [List.mem_singleton.1 hd, hc]
        rfl
      · intro rest
        rw [List.singleton_append, Escape.bracedHex, if_pos hc, hv, Option.map_some]
    next hc =>
      split at h
      next d hd =>
        simp only at h
        split at h
        next hle =>
          obtain ⟨t, rfl, hne, hcode, ht⟩ := ih h
          refine ⟨c :: t, rfl, List.cons_ne_nil _ _, ?_, ?_⟩
          · intro e he
            rcases List.mem_cons.1 he with rfl | he
            · rw [isCode, hd]
              rfl
            · exact hcode e he
          · intro rest
            rw [List.cons_append, Escape.bracedHex, if_neg hc, hd]
            simp only
            rw [if_pos hle]
            exact ht rest
        next => cases h
      next => cases h

theorem codePoint_eq_some (h : Escape.codePoint cs = some (v, after)) :
    ∃ t, cs = t ++ after ∧ t ≠ [] ∧ (∀ d ∈ t, isCode d = true) ∧
      ∀ rest, Escape.codePoint (t ++ rest) = some (v, rest) := by
  rw [Escape.codePoint.eq_def] at h
  split at h
  next cs =>
    obtain ⟨t, rfl, -, hcode, ht⟩ := bracedHex_eq_some h
    refine ⟨'\x7b' :: t, rfl, List.cons_ne_nil _ _, ?_, ?_⟩
    · intro d hd
      rcases List.mem_cons.1 hd with rfl | hd
      · rfl
      · exact hcode d hd
    · intro rest
      rw [List.cons_append, Escape.codePoint]
      exact ht rest
  next cs hbrace =>
    obtain ⟨t, rfl, hlen, hcode, ht⟩ := fixedHex_eq_some h
    cases t with
    | nil => cases hlen
    | cons c t =>
      refine ⟨c :: t, rfl, List.cons_ne_nil _ _, hcode, ?_⟩
      intro rest
      rw [List.cons_append, Escape.codePoint.eq_2]
      · exact ht rest
      · intro cs' he
        cases he
        exact hbrace _ rfl

theorem Spells.read (h : Spells r x us refuses) (hn : refuses rest.head? = false) :
    Escape.read (x ++ rest) = some (.plain us, rest) := by
  cases h with
  | carriage =>
    have hne : rest.head? ≠ some '\n' := by
      intro he
      rw [he] at hn
      cases hn
    rw [List.singleton_append, Escape.read, if_pos rfl, if_neg hne]
  | carriagePair => rfl
  | nul =>
    have hoctal : rest.head?.any Escape.isOctal = false := by
      cases rest with
      | nil => rfl
      | cons d rest => exact r.isOctal_eq_false hn
    rw [List.singleton_append, Escape.read, hoctal]
    rfl
  | @single c h hd =>
    simp only [List.mem_cons, List.not_mem_nil, or_false, not_or] at h
    have hzero : c ≠ '0' := by
      rintro rfl
      rw [r.digit_of_isOctal rfl] at hd
      cases hd
    simp only [List.singleton_append, Escape.read, h.1, h.2.1, h.2.2, hzero, r.isOctal_eq_false hd,
      singleUnits, ↓reduceIte, decide_false, Bool.false_and, Bool.false_eq_true]
    split
    next => rfl
    next => cases Escape.simple? c <;> rfl
  | coded hc ht hne h => exact h rest

theorem spells_of_read (h : Escape.read cs = some (.plain us, after)) :
    ∃ x refuses, cs = x ++ after ∧ Spells .octal x us refuses ∧ refuses after.head? = false := by
  cases cs with
  | nil => cases h
  | cons c rest =>
    rw [Escape.read] at h
    split at h
    next hc =>
      subst c
      cases h
      split
      next hhead =>
        obtain ⟨rest, rfl⟩ := List.head?_eq_some_iff.1 hhead
        exact ⟨_, _, rfl, .carriagePair, rfl⟩
      next hhead => exact ⟨_, _, rfl, .carriage, beq_eq_false_iff_ne.2 hhead⟩
    next hcarriage =>
    split at h
    next hbreak =>
      cases h
      have hunits : singleUnits c = [] := by rw [singleUnits, if_pos hbreak]
      simp only [isLineBreak, Bool.or_eq_true, decide_eq_true_eq] at hbreak
      have hsingle : Spells .octal [c] (singleUnits c) fun _ => false := by
        rcases hbreak with ((rfl | rfl) | rfl) | rfl
        · exact .single (by decide) (by decide)
        · exact absurd rfl hcarriage
        · exact .single (by decide) (by decide)
        · exact .single (by decide) (by decide)
      rw [hunits] at hsingle
      exact ⟨_, _, rfl, hsingle, rfl⟩
    next hbreak =>
    split at h
    next hx =>
      subst c
      obtain ⟨⟨v, rest'⟩, hhex, he⟩ := Option.map_eq_some_iff.1 h
      cases he
      obtain ⟨t, rfl, hlen, hcode, ht⟩ := fixedHex_eq_some hhex
      refine ⟨'x' :: t, _, rfl,
        .coded (by decide) hcode (List.ne_nil_of_length_pos (by omega)) ?_, rfl⟩
      intro rest
      change (Escape.fixedHex 2 0 (t ++ rest)).map _ = _
      rw [ht rest]
      rfl
    next hx =>
    split at h
    next hu =>
      subst c
      obtain ⟨⟨v, rest'⟩, hpoint, he⟩ := Option.map_eq_some_iff.1 h
      cases he
      obtain ⟨t, rfl, hne, hcode, ht⟩ := codePoint_eq_some hpoint
      refine ⟨'u' :: t, _, rfl, .coded (by decide) hcode hne ?_, rfl⟩
      intro rest
      change (Escape.codePoint (t ++ rest)).map _ = _
      rw [ht rest]
      rfl
    next hu =>
    split at h
    next hnul =>
      cases h
      simp only [Bool.and_eq_true, decide_eq_true_eq, Bool.not_eq_true'] at hnul
      obtain ⟨rfl, hoctal⟩ := hnul
      exact ⟨_, _, rfl, .nul, hoctal⟩
    next hnul =>
    split at h
    next hoctal => cases h
    next hoctal =>
      have hsingle : Spells .octal [c] (singleUnits c) fun _ => false := by
        refine .single ?_ (Bool.eq_false_iff.2 hoctal)
        simp only [List.mem_cons, List.not_mem_nil, or_false, not_or]
        exact ⟨hcarriage, hx, hu⟩
      rw [singleUnits, if_neg hbreak] at hsingle
      split at h
      next v hv =>
        cases h
        rw [hv] at hsingle
        exact ⟨_, _, rfl, hsingle, rfl⟩
      next hv =>
        cases h
        rw [hv] at hsingle
        exact ⟨_, _, rfl, hsingle, rfl⟩

theorem Item.ne_nil (h : Item r x us refuses) : x ≠ [] := by
  cases h <;> exact List.cons_ne_nil _ _

/-- What an item refuses, and where: only three kinds of item depend on what is behind them. -/
theorem Item.refuses_cases (h : Item r x us refuses) (hn : refuses next = true) :
    (x = ['$'] ∧ next = some '\x7b') ∨ (x.getLast? = some '\r' ∧ next = some '\n') ∨
      (x = ['\\', '0'] ∧ next.any r.digit = true) := by
  cases h with
  | char => cases hn
  | dollar => exact .inl ⟨rfl, beq_iff_eq.1 hn⟩
  | carriage => exact .inr (.inl ⟨rfl, beq_iff_eq.1 hn⟩)
  | carriagePair => cases hn
  | escape h =>
    cases h with
    | carriage => exact .inr (.inl ⟨rfl, beq_iff_eq.1 hn⟩)
    | carriagePair => cases hn
    | nul => exact .inr (.inr ⟨rfl, hn⟩)
    | single => cases hn
    | coded => cases hn

theorem Item.valueFrom (h : Item r x us refuses) (hn : refuses rest.head? = false) (fuel : Nat)
    (done : List Nat) :
    Quoted.valueFrom .template (fuel + 1) done (x ++ rest) =
      Quoted.valueFrom .template fuel (us.reverse ++ done) rest := by
  cases h with
  | @char c h =>
    simp only [List.mem_cons, List.not_mem_nil, or_false, not_or] at h
    rw [List.singleton_append, Quoted.valueFrom]
    · exact h.1
    · exact h.2.1
  | dollar => rfl
  | carriage =>
    have hne : rest.head? ≠ some '\n' := beq_eq_false_iff_ne.1 hn
    rw [List.singleton_append, Quoted.valueFrom, if_neg hne]
    rfl
  | carriagePair => rfl
  | escape h =>
    rw [List.cons_append, Quoted.valueFrom, h.read hn]
    rfl

theorem Cooked.valueFrom (h : Cooked r text us) (hf : text.length ≤ fuel) (done : List Nat) :
    Quoted.valueFrom .template fuel done text = .ok (done.reverse ++ us) := by
  induction h generalizing fuel done with
  | nil =>
    rw [List.append_nil]
    cases fuel <;> rfl
  | @cons x us refuses rest vs h hn hrest ih =>
    have hx := List.length_pos_iff.2 h.ne_nil
    rw [List.length_append] at hf
    obtain ⟨fuel, rfl⟩ := Nat.exists_eq_succ_of_ne_zero (show fuel ≠ 0 by omega)
    rw [Nat.succ_eq_add_one, h.valueFrom hn, ih (by omega), List.reverse_append,
      List.reverse_reverse, List.append_assoc]

theorem Cooked.value (h : Cooked r text us) : Quoted.value .template text = .ok us :=
  h.valueFrom (Nat.le_refl _) []

theorem Cooked.unique (h : Cooked r text us) (h' : Cooked r' text us') : us = us' := by
  have he := h.value.symm.trans h'.value
  cases he
  rfl

theorem scanTemplate_chars (h : ∀ c ∈ x, c ∉ ['\\', '\x60', '$'])
    (hs : scanTemplate false t = (body, ending, rest)) :
    scanTemplate false (x ++ t) = (x ++ body, ending, rest) := by
  induction x with
  | nil => exact hs
  | cons c x ih =>
    have hc := h c List.mem_cons_self
    simp only [List.mem_cons, List.not_mem_nil, or_false, not_or] at hc
    rw [List.cons_append, scanTemplate, if_neg Bool.false_ne_true, if_neg hc.2.1]
    simp only [hc.1, hc.2.2, decide_false, Bool.false_and, Bool.false_eq_true, ↓reduceIte]
    rw [ih fun d hd => h d (List.mem_cons_of_mem _ hd)]
    rfl

theorem not_mem_of_isCode (h : isCode c = true) : c ∉ ['\\', '\x60', '$', '\r'] := by
  intro hc
  simp only [List.mem_cons, List.not_mem_nil, or_false] at hc
  rcases hc with rfl | rfl | rfl | rfl <;> cases h

theorem ne_backslash_of_not_mem {t : List Char} (h : ∀ d ∈ t, d ∉ ['\\', '\x60', '$', '\r']) :
    ∀ d ∈ t, d ≠ '\\' := by
  rintro d hd rfl
  exact h _ hd List.mem_cons_self

theorem Spells.exists_cons (h : Spells r x us refuses) :
    ∃ c t, x = c :: t ∧ (∀ d ∈ t, d ∉ ['\\', '\x60', '$', '\r']) ∧
      (x = ['0'] ∧ refuses = (·.any r.digit) ∨ c ≠ '0' ∧ r.digit c = false) := by
  have hdigit : ∀ d, d.isDigit = false → r.digit d = false := by
    intro d hd
    cases hr : r.digit d with
    | false => rfl
    | true => exact (r.isDigit_of_digit hr).symm.trans hd
  cases h with
  | carriage => exact ⟨_, _, rfl, fun _ h => (nomatch h), .inr ⟨by decide, hdigit _ rfl⟩⟩
  | carriagePair =>
    exact ⟨_, _, rfl, List.forall_mem_singleton.2 (by decide), .inr ⟨by decide, hdigit _ rfl⟩⟩
  | nul => exact ⟨_, _, rfl, fun _ h => (nomatch h), .inl ⟨rfl, rfl⟩⟩
  | @single c h hd =>
    refine ⟨_, _, rfl, fun _ h => (nomatch h), .inr ⟨?_, hd⟩⟩
    rintro rfl
    rw [r.digit_of_isOctal rfl] at hd
    cases hd
  | @coded c t us hc ht hne h =>
    refine ⟨_, _, rfl, fun d hd => not_mem_of_isCode (ht d hd), .inr ?_⟩
    simp only [List.mem_cons, List.not_mem_nil, or_false] at hc
    rcases hc with rfl | rfl
    · exact ⟨by decide, hdigit _ rfl⟩
    · exact ⟨by decide, hdigit _ rfl⟩

theorem Item.scanTemplate (h : Item r x us refuses) (hn : x = ['$'] → t.head? ≠ some '\x7b')
    (hs : Quoted.scanTemplate false t = (body, ending, rest)) :
    Quoted.scanTemplate false (x ++ t) = (x ++ body, ending, rest) := by
  cases h with
  | @char c h =>
    apply scanTemplate_chars _ hs
    intro d hd
    rw [List.mem_singleton] at hd
    subst d
    simp only [List.mem_cons, List.not_mem_nil, or_false, not_or] at h ⊢
    exact ⟨h.1, h.2.2.1, h.2.2.2⟩
  | dollar =>
    have hne := hn rfl
    rw [List.singleton_append, Quoted.scanTemplate]
    simp only [Bool.false_eq_true, ↓reduceIte, hne, decide_false, Bool.and_false, Char.reduceEq, hs]
    rfl
  | carriage => exact scanTemplate_chars (List.forall_mem_singleton.2 (by decide)) hs
  | carriagePair =>
    exact scanTemplate_chars
      (List.forall_mem_cons.2 ⟨by decide, List.forall_mem_singleton.2 (by decide)⟩) hs
  | escape h =>
    obtain ⟨c, x', rfl, hx, -⟩ := h.exists_cons
    have hpass : Quoted.scanTemplate false (x' ++ t) = (x' ++ body, ending, rest) := by
      apply scanTemplate_chars _ hs
      intro d hd hmem
      exact hx d hd (List.mem_append_left ['\r'] hmem)
    have hescaped :
        Quoted.scanTemplate true (c :: (x' ++ t)) = (c :: (x' ++ body), ending, rest) := by
      rw [Quoted.scanTemplate, if_pos rfl, hpass]
    rw [List.cons_append, List.cons_append, Quoted.scanTemplate]
    simp only [Bool.false_eq_true, ↓reduceIte, Char.reduceEq, decide_false, Bool.false_and,
      decide_true, hescaped]
    rfl

/-- Whether a text ends where it ends: nothing in it closes the template or opens a hole. -/
def Closed (text : List Char) : Prop :=
  scanTemplate false (text ++ ['\x60']) = (text, .quote, [])

instance (text : List Char) : Decidable (Closed text) := inferInstanceAs (Decidable (_ = _))

theorem closed_nil : Closed [] := by decide

theorem Cooked.closed (h : Cooked r text us) : Closed text := by
  induction h with
  | nil => exact closed_nil
  | @cons x us refuses rest vs h hn hrest ih =>
    rw [Closed, List.append_assoc]
    refine h.scanTemplate ?_ ih
    rintro rfl hbrace
    cases h with
    | char h => exact h (by decide)
    | dollar =>
      cases rest with
      | nil => cases hbrace
      | cons c rest =>
        rw [List.cons_append, List.head?_cons] at hbrace
        rw [List.head?_cons, hbrace] at hn
        cases hn

theorem Closed.of_item (hc : Closed (x ++ text)) (h : Item r x us refuses)
    (hn : x = ['$'] → text.head? ≠ some '\x7b') : Closed text := by
  obtain ⟨⟨body, ending, rest⟩, hs⟩ : ∃ p, scanTemplate false (text ++ ['\x60']) = p := ⟨_, rfl⟩
  have hn' : x = ['$'] → (text ++ ['\x60']).head? ≠ some '\x7b' := by
    intro hx hbrace
    cases text with
    | nil => cases hbrace
    | cons c text => exact hn hx hbrace
  have hwhole := h.scanTemplate hn' hs
  rw [Closed, List.append_assoc, hwhole] at hc
  simp only [Prod.mk.injEq, List.append_cancel_left_eq] at hc
  obtain ⟨rfl, rfl, rfl⟩ := hc
  exact hs

theorem cooked_of_valueFrom (h : valueFrom .template fuel done text = .ok w)
    (hf : text.length ≤ fuel) (hc : Closed text) :
    ∃ us, w = done.reverse ++ us ∧ Cooked .octal text us := by
  induction fuel generalizing done text with
  | zero =>
    obtain rfl := List.eq_nil_of_length_eq_zero (Nat.le_zero.1 hf)
    cases h
    exact ⟨[], (List.append_nil _).symm, .nil⟩
  | succ fuel ih =>
    -- an item at the start leaves a shorter text, to which the induction applies
    have hitem : ∀ x us refuses rest, text = x ++ rest → Item .octal x us refuses →
        refuses rest.head? = false → ∃ us, w = done.reverse ++ us ∧ Cooked .octal text us := by
      rintro x us refuses rest rfl hx hn
      have hlen := List.length_pos_iff.2 hx.ne_nil
      have hdollar : x = ['$'] → rest.head? ≠ some '\x7b' := by
        rintro rfl hbrace
        cases hx with
        | char hx => exact hx (by decide)
        | dollar =>
          rw [hbrace] at hn
          cases hn
      rw [hx.valueFrom hn] at h
      rw [List.length_append] at hf
      obtain ⟨vs, rfl, hcooked⟩ := ih h (by omega) (hc.of_item hx hdollar)
      refine ⟨us ++ vs, ?_, .cons hx hn hcooked⟩
      rw [List.reverse_append, List.reverse_reverse, List.append_assoc]
    cases text with
    | nil =>
      cases h
      exact ⟨[], (List.append_nil _).symm, .nil⟩
    | cons c rest =>
      by_cases hback : c = '\\'
      · subst c
        rw [valueFrom] at h
        split at h
        next meaning after hread =>
          cases meaning with
          | plain us =>
            obtain ⟨x, refuses, rfl, hspells, hn⟩ := spells_of_read hread
            exact hitem ('\\' :: x) us refuses after rfl (.escape hspells) hn
          | legacy => cases h
        next => cases h
      by_cases hcarriage : c = '\r'
      · subst c
        by_cases hbreak : rest.head? = some '\n'
        · obtain ⟨rest, rfl⟩ := List.head?_eq_some_iff.1 hbreak
          exact hitem _ _ _ rest rfl .carriagePair rfl
        · exact hitem _ _ _ rest rfl .carriage (beq_eq_false_iff_ne.2 hbreak)
      by_cases hquote : c = '\x60'
      · subst c
        cases hc
      by_cases hdollar : c = '$'
      · subst c
        refine hitem _ _ _ rest rfl .dollar (beq_eq_false_iff_ne.2 ?_)
        intro hbrace
        obtain ⟨rest, rfl⟩ := List.head?_eq_some_iff.1 hbrace
        cases hc
      · refine hitem _ _ _ rest rfl (.char ?_) rfl
        simp only [List.mem_cons, List.not_mem_nil, or_false, not_or]
        exact ⟨hback, hcarriage, hquote, hdollar⟩

/-- Whether a digit that is refused stands behind a backslash, or behind the escape `\0`. -/
def hasRefused (r : Refusal) : List Char → Bool
  | [] => false
  | '\\' :: d :: rest =>
    (if d = '0' then rest.head?.any r.digit else r.digit d) || hasRefused r rest
  | _ :: rest => hasRefused r rest

theorem hasRefused_chars (h : ∀ c ∈ x, c ≠ '\\') : hasRefused r (x ++ t) = hasRefused r t := by
  induction x with
  | nil => rfl
  | cons c x ih =>
    rw [List.cons_append, hasRefused, ih fun d hd => h d (List.mem_cons_of_mem _ hd)]
    intro d rest hc
    exact absurd hc (h c List.mem_cons_self)

theorem Item.hasRefused (h : Item r x us refuses) (hn : refuses t.head? = false) :
    Quoted.hasRefused r (x ++ t) = Quoted.hasRefused r t := by
  cases h with
  | char h =>
    apply hasRefused_chars
    rintro d hd rfl
    rw [← List.mem_singleton.1 hd] at h
    exact h List.mem_cons_self
  | dollar => exact hasRefused_chars (List.forall_mem_singleton.2 (by decide))
  | carriage => exact hasRefused_chars (List.forall_mem_singleton.2 (by decide))
  | carriagePair =>
    exact hasRefused_chars
      (List.forall_mem_cons.2 ⟨by decide, List.forall_mem_singleton.2 (by decide)⟩)
  | escape h =>
    obtain ⟨c, x', rfl, hx, hc⟩ := h.exists_cons
    have hpass : Quoted.hasRefused r (x' ++ t) = Quoted.hasRefused r t :=
      hasRefused_chars (ne_backslash_of_not_mem hx)
    rw [List.cons_append, List.cons_append, Quoted.hasRefused, hpass]
    rcases hc with ⟨hzero, rfl⟩ | ⟨hzero, hd⟩
    · cases hzero
      have hdigit : t.head?.any r.digit = false := hn
      rw [if_pos rfl, List.nil_append, hdigit, Bool.false_or]
    · rw [if_neg hzero, hd, Bool.false_or]

theorem Cooked.not_refused (h : Cooked r text us) : hasRefused r text = false := by
  induction h with
  | nil => rfl
  | cons h hn hrest ih => rw [h.hasRefused hn, ih]

theorem Item.of_octal (h : Item .octal x us refuses) (hn : refuses t.head? = false)
    (hd : Quoted.hasRefused r (x ++ t) = false) :
    ∃ refuses', Item r x us refuses' ∧ refuses' t.head? = false := by
  cases h with
  | char h => exact ⟨_, .char h, rfl⟩
  | dollar => exact ⟨_, .dollar, hn⟩
  | carriage => exact ⟨_, .carriage, hn⟩
  | carriagePair => exact ⟨_, .carriagePair, rfl⟩
  | escape h =>
    cases h with
    | carriage => exact ⟨_, .escape .carriage, hn⟩
    | carriagePair => exact ⟨_, .escape .carriagePair, rfl⟩
    | nul =>
      refine ⟨_, .escape .nul, ?_⟩
      exact (Bool.or_eq_false_iff.1 hd).1
    | @single c h hoctal =>
      refine ⟨_, .escape (.single h ?_), rfl⟩
      have hzero : c ≠ '0' := by
        rintro rfl
        cases hoctal
      have hdigit := (Bool.or_eq_false_iff.1 hd).1
      rwa [if_neg hzero] at hdigit
    | coded hc ht hne h => exact ⟨_, .escape (.coded hc ht hne h), rfl⟩

theorem Cooked.of_octal (h : Cooked .octal text us) (hd : hasRefused r text = false) :
    Cooked r text us := by
  induction h with
  | nil => exact .nil
  | cons h hn hrest ih =>
    obtain ⟨refuses', h', hn'⟩ := h.of_octal hn hd
    rw [h'.hasRefused hn'] at hd
    exact .cons h' hn' (ih hd)

/--
Text that can stand in a template without tag: it neither closes the template nor opens a hole, and
no escape in it is refused.
-/
structure WellFormed (r : Refusal) (text : List Char) : Prop where
  closed : Closed text
  escapes : ∃ us, value .template text = .ok us
  digits : hasRefused r text = false

theorem Cooked.wellFormed (h : Cooked r text us) : WellFormed r text :=
  ⟨h.closed, ⟨us, h.value⟩, h.not_refused⟩

theorem WellFormed.cooked (h : WellFormed r text) : ∃ us, Cooked r text us := by
  obtain ⟨us, hus⟩ := h.escapes
  obtain ⟨us', -, hcooked⟩ := cooked_of_valueFrom hus (Nat.le_refl _) h.closed
  exact ⟨us', hcooked.of_octal h.digits⟩

end Uplift.Quoted
