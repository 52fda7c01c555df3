import Uplift.Concatenation
import Uplift.Proofs.Quoted

namespace Uplift.Quoted

set_option autoImplicit true

open Concatenation

def returnsEscaped : List Char → Bool
  | [] => true
  | '\\' :: _ :: rest => returnsEscaped rest
  | c :: rest => c != '\r' && returnsEscaped rest

theorem returnsEscaped_cons (h : c ≠ '\\') (rest : List Char) :
    returnsEscaped (c :: rest) = (c != '\r' && returnsEscaped rest) := by
  rw [returnsEscaped]
  intro d rest' hc
  exact absurd hc h

theorem returnsEscaped_chars (h : ∀ c ∈ t, c ≠ '\\') (ht : returnsEscaped (t ++ rest) = true) :
    returnsEscaped rest = true := by
  induction t with
  | nil => exact ht
  | cons c t ih =>
    rw [List.cons_append, returnsEscaped_cons (h c List.mem_cons_self), Bool.and_eq_true] at ht
    exact ih (fun d hd => h d (List.mem_cons_of_mem _ hd)) ht.2

theorem scanString_escaped (h : scanString q true (c :: cs) = (body, ending, rest)) :
    ∃ t, body = c :: t ∧
      scanString q (c = '\r' && cs.head? = some '\n') cs = (t, ending, rest) := by
  rw [scanString, if_pos rfl] at h
  split at h
  next t ending' rest' hs =>
    cases h
    exact ⟨t, rfl, hs⟩

theorem returnsEscaped_scanString (h : scanString q e cs = (body, ending, rest)) :
    returnsEscaped (if e then body.tail else body) = true := by
  induction cs generalizing e body ending rest with
  | nil =>
    cases h
    cases e <;> rfl
  | cons c cs ih =>
    cases e with
    | true =>
      obtain ⟨t, rfl, hs⟩ := scanString_escaped h
      have ht := ih hs
      cases hpair : (decide (c = '\r') && decide (cs.head? = some '\n')) with
      | false =>
        rw [hpair] at ht
        exact ht
      | true =>
        -- the newline behind an escaped carriage return belongs to it
        rw [hpair] at hs ht
        rw [Bool.and_eq_true, decide_eq_true_eq, decide_eq_true_eq] at hpair
        obtain ⟨cs, rfl⟩ := List.head?_eq_some_iff.1 hpair.2
        obtain ⟨t, rfl, -⟩ := scanString_escaped hs
        rw [if_pos rfl, List.tail_cons, returnsEscaped_cons (by decide)]
        exact ht
    | false =>
      rw [scanString, if_neg Bool.false_ne_true] at h
      split at h
      next =>
        cases h
        rfl
      next =>
      split at h
      next =>
        cases h
        rfl
      next hbreak =>
      split at h
      next t ending' rest' hs =>
        cases h
        have ht := ih hs
        rw [if_neg Bool.false_ne_true]
        by_cases hc : c = '\\'
        · subst c
          cases t with
          | nil => rfl
          | cons d t => exact ht
        · rw [decide_eq_false hc] at ht
          rw [Bool.or_eq_true, not_or, decide_eq_true_eq, decide_eq_true_eq] at hbreak
          rw [returnsEscaped_cons hc, Bool.and_eq_true, bne_iff_ne]
          exact ⟨hbreak.2, ht⟩

theorem head?_templateText (h : templateText? cs = some text) :
    text.head? = cs.head? ∨ text.head? = some '\\' := by
  cases cs with
  | nil =>
    cases h
    exact .inl rfl
  | cons c cs =>
    rw [templateText?.eq_def] at h
    simp only at h
    split at h
    next hc =>
      split at h
      next =>
        cases h
        exact .inr rfl
      next =>
        split at h
        next => cases h
        next =>
          obtain ⟨out, -, rfl⟩ := Option.map_eq_some_iff.1 h
          exact .inr rfl
    next hc =>
      split at h
      next =>
        obtain ⟨out, -, rfl⟩ := Option.map_eq_some_iff.1 h
        exact .inr rfl
      next =>
        obtain ⟨out, -, rfl⟩ := Option.map_eq_some_iff.1 h
        exact .inl rfl

theorem templateText?_chars (h : ∀ c ∈ t, c ∉ ['\\', '\x60', '$', '\r']) (rest : List Char) :
    templateText? (t ++ rest) = (templateText? rest).map (t ++ ·) := by
  induction t with
  | nil => exact Option.map_id'.symm
  | cons c t ih =>
    have hc := h c List.mem_cons_self
    simp only [List.mem_cons, List.not_mem_nil, or_false, not_or] at hc
    rw [List.cons_append, templateText?.eq_def]
    simp only [hc.1, hc.2.1, hc.2.2.1, decide_false, Bool.false_and, Bool.or_self,
      Bool.false_eq_true, ↓reduceIte]
    rw [ih fun d hd => h d (List.mem_cons_of_mem _ hd), Option.map_map]
    rfl

theorem eq_zero_or_of_isDigit (h : Char.isDigit c = true) : c = '0' ∨ ('1' ≤ c ∧ c ≤ '9') := by
  simp only [Char.isDigit, Bool.and_eq_true, decide_eq_true_eq, ge_iff_le,
    UInt32.le_iff_toNat_le] at h
  simp only [Char.le_def, UInt32.le_iff_toNat_le]
  have h0 : '0'.val.toNat = 48 := rfl
  have h1 : '1'.val.toNat = 49 := rfl
  have h9 : '9'.val.toNat = 57 := rfl
  by_cases hc : c.val.toNat = 48
  · exact .inl (Char.ext (UInt32.toNat_inj.1 hc))
  · omega

/-- A digit behind a backslash is an old escape, unless it is `0` before something else. -/
theorem isLegacy_of_isDigit (h : Char.isDigit d = true)
    (hz : d = '0' → rest.head?.any Char.isDigit = true) : isLegacy d rest = true := by
  rw [isLegacy, Bool.or_eq_true, Bool.and_eq_true, Bool.and_eq_true, decide_eq_true_eq,
    decide_eq_true_eq, decide_eq_true_eq]
  rcases eq_zero_or_of_isDigit h with hd | hd
  · exact .inr ⟨hd, hz hd⟩
  · exact .inl hd

theorem isLegacy_of_read (h : Escape.read (d :: rest) = some (.legacy us, after)) :
    isLegacy d rest = true := by
  rw [Escape.read] at h
  split at h
  next => cases h
  next =>
  split at h
  next => cases h
  next =>
  split at h
  next =>
    obtain ⟨_, -, he⟩ := Option.map_eq_some_iff.1 h
    cases he
  next =>
  split at h
  next =>
    obtain ⟨_, -, he⟩ := Option.map_eq_some_iff.1 h
    cases he
  next =>
  split at h
  next => cases h
  next hnul =>
  split at h
  next hoctal =>
    refine isLegacy_of_isDigit (Refusal.decimal.digit_of_isOctal hoctal) ?_
    rintro rfl
    have hnext : rest.head?.any Escape.isOctal = true := by
      cases hnext : rest.head?.any Escape.isOctal with
      | true => rfl
      | false =>
        rw [hnext] at hnul
        exact absurd rfl hnul
    exact Refusal.octal.any_isDigit_of_digit hnext
  next =>
    split at h
    next => cases h
    next => cases h

/--
The first item of the template text of a string: what is behind it is the template text of what is
left of the string.
-/
structure Begins (r : Refusal) (body text x : List Char) (us : List Nat) (after out : List Char) :
    Prop where
  item : ∃ refuses, Item r x us refuses ∧ refuses out.head? = false
  text_eq : text = x ++ out
  out_eq : templateText? after = some out
  returns : returnsEscaped after = true
  shorter : after.length < body.length
  value : ∀ fuel done, valueFrom .string (fuel + 1) done body =
    valueFrom .string fuel (us.reverse ++ done) after

theorem begins_escape (r : Refusal) (hs : returnsEscaped ('\\' :: body) = true)
    (hread : Escape.read body = some (meaning, after))
    (ht : templateText? ('\\' :: body) = some text) :
    ∃ x us out, Begins r ('\\' :: body) text x us after out := by
  cases body with
  | nil => cases hread
  | cons d rest =>
    rw [templateText?, if_pos rfl] at ht
    split at ht
    next => cases ht
    next hlegacy =>
    obtain ⟨out, hout, rfl⟩ := Option.map_eq_some_iff.1 ht
    cases meaning with
    | legacy us => exact absurd (isLegacy_of_read hread) hlegacy
    | plain us =>
      rw [returnsEscaped] at hs
      have hvalue : ∀ fuel done, valueFrom .string (fuel + 1) done ('\\' :: d :: rest) =
          valueFrom .string fuel (us.reverse ++ done) after := by
        intro fuel done
        rw [valueFrom, hread]
        rfl
      obtain ⟨x, refuses, hx, hspells, hn⟩ := spells_of_read hread
      have hlt : after.length < ('\\' :: d :: rest).length := by
        rw [hx, List.length_cons, List.length_append]
        omega
      have hhead := head?_templateText hout
      cases hspells with
      | carriage =>
        cases hx
        refine ⟨_, _, out, ⟨_, .escape .carriage, ?_⟩, rfl, hout, hs, hlt, hvalue⟩
        rw [beq_eq_false_iff_ne] at hn ⊢
        rcases hhead with hhead | hhead
        · rw [hhead]
          exact hn
        · rw [hhead]
          decide
      | carriagePair =>
        cases hx
        have hpass :=
          templateText?_chars (t := ['\n']) (List.forall_mem_singleton.2 (by decide)) after
        obtain ⟨out', hout', rfl⟩ := Option.map_eq_some_iff.1 (hpass.symm.trans hout)
        exact ⟨_, _, out', ⟨_, .escape .carriagePair, rfl⟩, rfl, hout',
          returnsEscaped_chars (t := ['\n']) (List.forall_mem_singleton.2 (by decide)) hs,
          hlt, hvalue⟩
      | nul =>
        cases hx
        refine ⟨_, _, out, ⟨_, .escape .nul, ?_⟩, rfl, hout, hs, hlt, hvalue⟩
        rw [Bool.eq_false_iff]
        intro hdigit
        rcases hhead with hhead | hhead
        · rw [hhead] at hdigit
          exact hlegacy (isLegacy_of_isDigit rfl fun _ => r.any_isDigit_of_digit hdigit)
        · rw [hhead] at hdigit
          cases r <;> cases hdigit
      | @single c h hd =>
        cases hx
        refine ⟨_, _, out, ⟨_, .escape (.single h ?_), rfl⟩, rfl, hout, hs, hlt, hvalue⟩
        rw [Bool.eq_false_iff]
        intro hdigit
        refine hlegacy (isLegacy_of_isDigit (r.isDigit_of_digit hdigit) ?_)
        rintro rfl
        cases hd
      | @coded c t us hc hcode hne h =>
        cases hx
        have hplain := fun d hd => not_mem_of_isCode (hcode d hd)
        have hpass := templateText?_chars hplain after
        obtain ⟨out', hout', rfl⟩ := Option.map_eq_some_iff.1 (hpass.symm.trans hout)
        exact ⟨_, _, out', ⟨_, .escape (.coded hc hcode hne h), rfl⟩, rfl, hout',
          returnsEscaped_chars (ne_backslash_of_not_mem hplain) hs, hlt, hvalue⟩

theorem begins_char (r : Refusal) (hs : returnsEscaped (c :: rest) = true) (hc : c ≠ '\\')
    (ht : templateText? (c :: rest) = some text) :
    ∃ x us out, Begins r (c :: rest) text x us rest out := by
  rw [returnsEscaped_cons hc, Bool.and_eq_true, bne_iff_ne] at hs
  have hvalue : ∀ fuel done, valueFrom .string (fuel + 1) done (c :: rest) =
      valueFrom .string fuel ((Escape.units c.toNat).reverse ++ done) rest := by
    intro fuel done
    rw [valueFrom]
    · exact hc
    · exact hs.1
  have hlt : rest.length < (c :: rest).length := Nat.lt_succ_self _
  rw [templateText?.eq_def] at ht
  simp only [if_neg hc] at ht
  split at ht
  next hmeans =>
    obtain ⟨out, hout, rfl⟩ := Option.map_eq_some_iff.1 ht
    have hsingle : Spells r [c] (Escape.units c.toNat) fun _ => false := by
      rw [Bool.or_eq_true, Bool.and_eq_true, decide_eq_true_eq, decide_eq_true_eq] at hmeans
      rcases hmeans with rfl | ⟨rfl, -⟩
      · exact .single (by decide) (by cases r <;> rfl)
      · exact .single (by decide) (by cases r <;> rfl)
    exact ⟨_, _, out, ⟨_, .escape hsingle, rfl⟩, rfl, hout, hs.2, hlt, hvalue⟩
  next hmeans =>
    obtain ⟨out, hout, rfl⟩ := Option.map_eq_some_iff.1 ht
    rw [Bool.or_eq_true, not_or, Bool.and_eq_true, decide_eq_true_eq, decide_eq_true_eq,
      decide_eq_true_eq] at hmeans
    by_cases hdollar : c = '$'
    · subst c
      refine ⟨['$'], _, out, ⟨_, .dollar, ?_⟩, rfl, hout, hs.2, hlt, hvalue⟩
      rw [beq_eq_false_iff_ne]
      rcases head?_templateText hout with hhead | hhead
      · rw [hhead]
        exact fun hbrace => hmeans.2 ⟨rfl, hbrace⟩
      · rw [hhead]
        decide
    · refine ⟨[c], _, out, ⟨_, .char ?_, rfl⟩, rfl, hout, hs.2, hlt, hvalue⟩
      simp only [List.mem_cons, List.not_mem_nil, or_false, not_or]
      exact ⟨hc, hs.1, hmeans.1, hdollar⟩

/-- The template text of a string is made of items, and has the value of the string. -/
theorem cooked_templateText (r : Refusal) (hs : returnsEscaped body = true)
    (hv : valueFrom .string fuel done body = .ok w) (hf : body.length ≤ fuel)
    (ht : templateText? body = some text) : ∃ us, w = done.reverse ++ us ∧ Cooked r text us := by
  induction fuel generalizing done body text with
  | zero =>
    obtain rfl := List.eq_nil_of_length_eq_zero (Nat.le_zero.1 hf)
    cases hv
    cases ht
    exact ⟨[], (List.append_nil _).symm, .nil⟩
  | succ fuel ih =>
    -- an item at the start takes one step of the string's value, and what is left is shorter
    have hgo : ∀ x us after out, Begins r body text x us after out →
        ∃ us, w = done.reverse ++ us ∧ Cooked r text us := by
      intro x us after out hb
      obtain ⟨refuses, hitem, hn⟩ := hb.item
      have hlt := hb.shorter
      rw [hb.value] at hv
      obtain ⟨vs, rfl, hcooked⟩ := ih hb.returns hv (by omega) hb.out_eq
      rw [hb.text_eq, List.reverse_append, List.reverse_reverse, List.append_assoc]
      exact ⟨us ++ vs, rfl, .cons hitem hn hcooked⟩
    cases body with
    | nil =>
      cases hv
      cases ht
      exact ⟨[], (List.append_nil _).symm, .nil⟩
    | cons c rest =>
      by_cases hc : c = '\\'
      · subst c
        cases hread : Escape.read rest with
        | none =>
          rw [valueFrom, hread] at hv
          cases hv
        | some p =>
          obtain ⟨x, us, out, hb⟩ := begins_escape r hs hread ht
          exact hgo x us p.2 out hb
      · obtain ⟨x, us, out, hb⟩ := begins_char r hs hc ht
        exact hgo x us rest out hb

end Uplift.Quoted
