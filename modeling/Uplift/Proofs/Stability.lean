import Uplift.Proofs.Boundary
import Uplift.Proofs.Laminar
import Uplift.Proofs.Leading
import Uplift.Proofs.Rounds

namespace Uplift

set_option autoImplicit true

namespace Document

open Edit Rendering

/-- The ink of what a rendering writes, with one more for each edit that takes effect. -/
def cost (d : Document) (x : Rendering) : Nat :=
  x.applied.length + Text.ink (x.pieces.flatMap d.bytes)

theorem cost_append (d : Document) (a b : Rendering) :
    d.cost (append a b) = d.cost a + d.cost b := by
  simp only [cost, append, List.length_append, List.flatMap_append, Text.ink_append]
  omega

theorem cost_keep (d : Document) (r : Range) : d.cost (keep r) = (d.text.slice r).ink := by
  have hnone : (keep r).applied = [] := rfl
  rw [cost, bytes_keep, hnone, List.length_nil, Nat.zero_add]

theorem cost_segments (d : Document) (render : Range → Rendering) (index : Nat)
    (segs : List Segment) :
    d.cost (segments render index segs) =
      inkOf segs + ((segs.filterMap Segment.reused?).map fun s => d.cost (render s)).sum := by
  induction segs with
  | nil => rfl
  | cons segment segs ih =>
    rw [inkOf_cons]
    cases segment with
    | fresh t =>
      have hfresh : d.cost ⟨[.fresh index t], []⟩ = t.ink := by
        rw [cost, List.flatMap_singleton]
        exact Nat.zero_add _
      rw [Rendering.segments, cost_append, hfresh, ih, List.filterMap_cons_none rfl,
        Segment.written]
      omega
    | reused r =>
      have hnone : (Segment.reused r).written.ink = 0 := rfl
      have hsome :
          (Segment.reused r :: segs).filterMap Segment.reused? =
            r :: segs.filterMap Segment.reused? := rfl
      rw [Rendering.segments, cost_append, ih, hsome, List.map_cons, List.sum_cons, hnone]
      omega

theorem cost_emission (d : Document) (render : Range → Rendering) (index : Nat) (e : Edit) :
    d.cost (emission render index e) =
      1 + inkOf e.segments + (e.reusedRanges.map fun s => d.cost (render s)).sum := by
  have hplace : d.cost ⟨[], [index]⟩ = 1 := rfl
  rw [emission, cost_append, cost_segments, hplace, reusedRanges]
  omega

variable {d : Document} {p : Program} (hd : d.text = p.text) (hl : p.Legible)

include hd hl

theorem cost_sweep_le (h : Laminar length edits) (ha : ∀ e ∈ edits, p.Affords e) (top : Bool)
    (r : Range) (hr : r.start ≤ r.stop) :
    d.cost (sweep (full edits) top r r.start 0 edits) ≤ (d.text.slice r).ink := by
  refine sweep_rule (P := fun r x => d.cost x ≤ (d.text.slice r).ink) h ?_ ?_ ?_ top r hr
  · intro r _
    exact Nat.le_of_eq (cost_keep d r)
  · intro a b c x y hab hbc hx hy
    rw [cost_append, ← Text.ink_slice_split d.text hab hbc]
    exact Nat.add_le_add hx hy
  · intro e he i render hrender
    obtain ⟨own, hink, hholds⟩ := (ha e he).holds
    have hweight := hholds.weight hl
    have hreused :
        (e.reusedRanges.map fun s => d.cost (render s)).sum ≤ (e.reusedRanges.map p.ink).sum := by
      apply List.sum_le_sum
      intro s hs
      rw [Program.ink, ← hd]
      exact hrender s hs
    rw [cost_emission, hd]
    rw [Program.ink] at hweight
    omega

/-- A revision lowers the ink of a text by one at least for each edit that takes effect. -/
theorem ink_apply (hc : p.Collects edits) :
    (d.apply edits).2.length + (d.apply edits).1.text.ink ≤ d.text.ink := by
  have hlaminar := hc.laminar
  rw [← hd] at hlaminar
  have hsorted : ∀ e ∈ sorted edits, p.Affords e :=
    fun e he => hc.affords e ((sorted_perm edits).mem_iff.1 he)
  have hcost := cost_sweep_le hd hl hlaminar.sorted hsorted true ⟨0, d.text.length⟩ (Nat.zero_le _)
  rw [← whole_eq_sweep hlaminar.sorted.proper, Text.slice_whole, cost] at hcost
  have hlength :
      (d.applied edits).length ≤ (whole (sorted edits) d.text.length).applied.length := by
    have hnodup : (d.applied edits).Nodup := hlaminar.sorted.nodup.sublist (selected_sublist _ _ _)
    have hperm : (d.applied edits).Perm (d.emitted edits) :=
      (List.perm_ext_iff_of_nodup hnodup (emitted_nodup hlaminar)).2 fun _ => mem_applied_iff
    rw [hperm.length_eq]
    exact List.length_filterMap_le _ _
  rw [text_apply, lines_apply, List.length_map, pieces]
  omega

end Document

namespace Run

/--
Every program that a run over a text reaches is well formed, and its text has the words of its
nodes.
-/
def Readable (options : Options) (text : Text) : Prop :=
  ∀ passes run, Reached options text passes run → run.program.WellFormed ∧ run.program.Legible

/-- What changes are still to come is bounded by the ink of the text. -/
structure Spends (run next : Run) : Prop where
  grows : run.changes.length ≤ next.changes.length
  spends : next.changes.length + next.document.text.ink ≤ run.changes.length + run.document.text.ink

theorem Spends.refl (run : Run) : Spends run run := ⟨Nat.le_refl _, Nat.le_refl _⟩

theorem Spends.trans (h : Spends run next) (h' : Spends next last) : Spends run last :=
  ⟨Nat.le_trans h.grows h'.grows, Nat.le_trans h'.spends h.spends⟩

variable {options : Options} {text : Text} (hr : Readable options text)

include hr

theorem Reached.step_spends {pass : Pass} (h : Reached options text (pass :: rest) run)
    (hs : Run.step options.dialect run pass = .ok next) : Spends run next := by
  obtain ⟨hwell, hlegible⟩ := hr (pass :: rest) run h
  have htext := Program.text_of_parse h.sound.parsed
  have hink := Document.ink_apply htext.symm hlegible (pass.collects hwell)
  rcases step_ok hs with ⟨_, rfl⟩ | ⟨_, program, _, rfl⟩
  · exact ⟨Nat.le_refl _, Nat.add_le_add_left (Nat.le_trans (Nat.le_add_left _ _) hink) _⟩
  · refine ⟨?_, ?_⟩
    · rw [List.length_append]
      exact Nat.le_add_right _ _
    · rw [List.length_append, List.length_map, Nat.add_assoc]
      exact Nat.add_le_add_left hink _

theorem Reached.round_spends {passes : List Pass} (h : Reached options text passes run)
    (hs : Run.round options.dialect passes run = .ok next) :
    Reached options text [] next ∧ Spends run next := by
  rw [Run.round] at hs
  induction passes generalizing run with
  | nil =>
    cases hs
    exact ⟨h, .refl _⟩
  | cons pass rest ih =>
    rw [List.foldlM_cons] at hs
    cases hstep : Run.step options.dialect run pass with
    | error failure =>
      rw [hstep] at hs
      cases hs
    | ok middle =>
      rw [hstep] at hs
      obtain ⟨hreached, hspends⟩ := ih (.step h hstep) hs
      exact ⟨hreached, (h.step_spends hr hstep).trans hspends⟩

def Settles (options : Options) (text : Text) (run last : Run) : Prop :=
  Spends run last ∧ ∃ before, Reached options text options.baseline.passes before ∧
    round options.dialect options.baseline.passes before = .ok last ∧
      last.changes.length = before.changes.length

theorem Reached.rounds_settle (h : Reached options text options.baseline.passes run)
    (hn : run.document.text.ink < n) (hm : run.document.text.ink < m) :
    rounds options.dialect options.baseline.passes n run =
      rounds options.dialect options.baseline.passes m run ∧
    ∀ last, rounds options.dialect options.baseline.passes n run = .ok last →
      Settles options text run last := by
  -- A round that changes something leaves less ink, so one round less is still enough.
  induction n generalizing m run with
  | zero => exact absurd hn (Nat.not_lt_zero _)
  | succ n ih =>
    obtain ⟨m, rfl⟩ : ∃ k, m = k + 1 := Nat.exists_eq_succ_of_ne_zero (by omega)
    rw [rounds_succ, rounds_succ]
    cases hround : Run.round options.dialect options.baseline.passes run with
    | error failure => exact ⟨rfl, fun last hlast => nomatch hlast⟩
    | ok next =>
      obtain ⟨hreached, hspends⟩ := h.round_spends hr hround
      simp only
      by_cases hlength : next.changes.length = run.changes.length
      · rw [if_pos hlength, if_pos hlength]
        refine ⟨rfl, ?_⟩
        intro last hlast
        cases hlast
        exact ⟨hspends, run, h, hround, hlength⟩
      · rw [if_neg hlength, if_neg hlength]
        have hless : next.document.text.ink < run.document.text.ink := by
          have hgrows := hspends.grows
          have hink := hspends.spends
          omega
        obtain ⟨hsame, hsettles⟩ := ih (m := m) (.round hreached) (by omega) (by omega)
        refine ⟨hsame, ?_⟩
        intro last hlast
        obtain ⟨hmore, hbefore⟩ := hsettles last hlast
        exact ⟨hspends.trans hmore, hbefore⟩

end Run

theorem transform_eq_rounds {options : Options} {text : Text} {program : Program}
    (hp : Program.parse options.dialect text = .ok program) (n : Nat) :
    transform { options with convergence := .untilStable (n + 1) } text =
      (Run.rounds options.dialect options.baseline.passes (n + 1)
        ⟨Document.ofText text, program, []⟩).map Run.outcome := by
  have hrun : transform { options with convergence := .untilStable (n + 1) } text =
      (Run.rounds options.dialect options.baseline.passes (max (n + 1) 1)
        ⟨Document.ofText text, program, []⟩).map Run.outcome := transform_of_parse hp
  have hmax : max (n + 1) 1 = n + 1 := Nat.max_eq_left (Nat.le_add_left 1 n)
  rw [hrun, hmax]

/--
If the programs of a run are well formed and their texts have the words of their nodes, then all
numbers of rounds beyond the ink of the text come to the same: a failure, or a result whose last
round changed nothing, after no more changes than the text has ink.
-/
theorem transform_stabilizes {options : Options} {text : Text} (h : Run.Readable options text)
    (n : Nat) (hn : text.ink < n) :
    transform { options with convergence := .untilStable n } text =
      transform { options with convergence := .untilStable (text.ink + 1) } text ∧
    ∀ o, transform { options with convergence := .untilStable n } text = .ok o →
      o.changes.length ≤ text.ink ∧
      ∃ run last, Run.Reached options text options.baseline.passes run ∧
        Run.round options.dialect options.baseline.passes run = .ok last ∧
        last.changes.length = run.changes.length ∧ last.outcome = o := by
  cases hp : Program.parse options.dialect text with
  | error fault =>
    have hfails (c : Convergence) : transform { options with convergence := c } text =
        .error (.parse (fault.line text) fault.complaint) := transform_of_fault hp
    rw [hfails, hfails]
    exact ⟨rfl, fun o ho => nomatch ho⟩
  | ok program =>
    obtain ⟨n, rfl⟩ : ∃ k, n = k + 1 := Nat.exists_eq_succ_of_ne_zero (by omega)
    obtain ⟨hsame, hsettles⟩ :=
      (Run.Reached.start (Run.start_eq hp)).rounds_settle h hn (Nat.lt_succ_self _)
    rw [transform_eq_rounds hp, transform_eq_rounds hp]
    refine ⟨congrArg _ hsame, ?_⟩
    intro o ho
    cases hresult : Run.rounds options.dialect options.baseline.passes (n + 1)
        ⟨Document.ofText text, program, []⟩ with
    | error failure =>
      rw [hresult] at ho
      cases ho
    | ok last =>
      rw [hresult] at ho
      cases ho
      obtain ⟨hspends, before, hbefore, hround, hlength⟩ := hsettles last hresult
      refine ⟨?_, before, last, hbefore, hround, hlength, rfl⟩
      have hink : last.changes.length + last.document.text.ink ≤ 0 + text.ink := hspends.spends
      exact Nat.le_trans (Nat.le_add_right _ _) (Nat.le_trans hink (Nat.le_of_eq (Nat.zero_add _)))

namespace Run

theorem text_of_step {run next : Run} {pass : Pass} (h : run.step dialect pass = .ok next) :
    next.document.text = (run.document.apply (pass.edits run.program)).1.text := by
  rcases step_ok h with ⟨_, rfl⟩ | ⟨_, _, _, rfl⟩
  · rfl
  · rfl

theorem Reached.subset {passes : List Pass} (h : Reached options text passes run) :
    ∀ pass ∈ passes, pass ∈ options.baseline.passes := by
  induction h with
  | start _ => exact fun _ hmem => hmem
  | step _ _ ih => exact fun pass hmem => ih pass (.tail _ hmem)
  | round _ _ => exact fun _ hmem => hmem

/-- Texts of readable programs that every pass turns into one another. -/
def Closed (options : Options) (texts : List Text) : Prop :=
  ∀ t ∈ texts, ∃ p ∈ (Program.parse options.dialect t).toOption, (p.WellFormed ∧ p.Legible) ∧
    ∀ pass ∈ options.baseline.passes, ((Document.ofText t).apply (pass.edits p)).1.text ∈ texts

instance (options : Options) (texts : List Text) : Decidable (Closed options texts) := by
  unfold Closed
  infer_instance

theorem readable_of_closed (hc : Closed options texts) (ht : text ∈ texts) :
    Readable options text := by
  have hparsed {run : Run} (hp : Program.parse options.dialect run.document.text = .ok run.program)
      (hmem : run.document.text ∈ texts) : (run.program.WellFormed ∧ run.program.Legible) ∧
      ∀ pass ∈ options.baseline.passes,
        (run.document.apply (pass.edits run.program)).1.text ∈ texts := by
    obtain ⟨p, hparse, hread, hnext⟩ := hc _ hmem
    rw [hp] at hparse
    cases hparse
    refine ⟨hread, ?_⟩
    intro pass hpass
    have hsame : run.document.text = (Document.ofText run.document.text).text := rfl
    exact Document.text_apply_congr hsame _ ▸ hnext pass hpass
  have hmem : ∀ passes run, Reached options text passes run → run.document.text ∈ texts := by
    intro passes run h
    induction h with
    | start hs =>
      rw [Run.start] at hs
      split at hs
      next =>
        cases hs
        exact ht
      next => cases hs
    | @step rest run next pass h hs ih =>
      rw [text_of_step hs]
      exact (hparsed h.sound.parsed ih).2 pass (h.subset pass List.mem_cons_self)
    | round _ ih => exact ih
  intro passes run h
  exact (hparsed h.sound.parsed (hmem passes run h)).1

end Run

theorem transform_stabilizes_powers :
    Run.Readable {} (Text.ofString "x = Math.pow(Math.pow(a, 2), 3);") ∧
    ∀ n, 26 < n →
      transform { convergence := .untilStable n }
        (Text.ofString "x = Math.pow(Math.pow(a, 2), 3);") =
        transform { convergence := .untilStable 27 }
          (Text.ofString "x = Math.pow(Math.pow(a, 2), 3);") := by
  have hclosed : Run.Closed {} [Text.ofString "x = Math.pow(Math.pow(a, 2), 3);",
      Text.ofString "x = Math.pow(a, 2) ** 3;", Text.ofString "x = (a ** 2) ** 3;"] := by
    decide +kernel
  have hread := Run.readable_of_closed hclosed List.mem_cons_self
  have hink : (Text.ofString "x = Math.pow(Math.pow(a, 2), 3);").ink = 26 := by decide
  refine ⟨hread, ?_⟩
  intro n hn
  have hsame := (transform_stabilizes hread n (hink ▸ hn)).1
  rw [hink] at hsame
  exact hsame

open Grammar Grammar.Parse

theorem Grammar.Parse.bind_eq {p : Parse α} {f : α → Parse β} (h : p c s = .done a s')
    (h' : f a c s' = r) : (p >>= f) c s = r := by
  change Parse.bind p f c s = r
  rw [Parse.bind, h]
  exact h'

theorem Grammar.Parse.rescue_eq {p : Parse α} (h : p c s = .done a s') (test : Parse Bool)
    (instead : Fault → Parse α) : rescue p test instead c s = .done a s' := by
  rw [rescue, h]

namespace Growing

def closings : Nat → List Char
  | 0 => []
  | k + 1 => '\x7d' :: '\x60' :: closings k

def pattern (k : Nat) : List Char := 'a' :: (closings k ++ ['b', 'c'])

def ending : List Char := ['\x7d', '\x60', ';']

def behindSum (k : Nat) : List Char :=
  '/' :: 'a' :: (closings k ++ ['b', 'c', '/', '\x7d', '\x60', ';'])

/-- A template whose only hole adds a regular expression to an empty string. -/
def source (k : Nat) : List Char :=
  [' ', ' ', ' ', ';', '\x60', '$', '\x7b', '\'', '\'', '+'] ++ behindSum k

def stop (k : Nat) : Nat := 10 + (2 + Letter.width (pattern k))

theorem regexBody_closings (k : Nat) (h : Token.regexBody false false cs = some (body, rest)) :
    Token.regexBody false false (closings k ++ cs) = some (closings k ++ body, rest) := by
  induction k with
  | zero => exact h
  | succ k ih =>
    change Option.map _ (Option.map _ (Token.regexBody false false (closings k ++ cs))) = _
    rw [ih]
    rfl

theorem readRegex_eq (k : Nat) : Token.readRegex 10 (behindSum k).tail =
    { token := .regex, length := 2 + Letter.width (pattern k), rest := ending } := by
  have hend :
      Token.regexBody false false ['b', 'c', '/', '\x7d', '\x60', ';'] =
        some (['b', 'c'], ending) := rfl
  have hbody : Token.regexBody false false (behindSum k).tail = some (pattern k, ending) := by
    change Option.map _ (Token.regexBody false false (closings k ++ _)) = _
    rw [regexBody_closings k hend]
    rfl
  rw [Token.readRegex, hbody]
  rfl

def context (n : Nat) : Context := { dialect := .ecmascript, size := n, topLevel := true }

def reading (token : Token) (lo hi : Nat) (here rest : List Char)
    (lastStart lastStop : Nat) : State :=
  { here, start := lo, token, lo, hi, whole := here, rest, fresh := false, lastStart, lastStop }

def atStart (k : Nat) : State :=
  { reading (.punct ";") 3 4 ((source k).drop 3) ((source k).drop 4) 0 0 with fresh := true }

def atTemplate (k : Nat) : State :=
  reading (.punct "\x60") 4 5 ((source k).drop 4) ((source k).drop 5) 3 4

def atString (k : Nat) : State :=
  reading (.string "''") 7 9 ((source k).drop 7) ((source k).drop 9) 4 7

def atPlus (k : Nat) : State := reading (.punct "+") 9 10 ((source k).drop 9) (behindSum k) 7 9

def atRegex (k : Nat) : State := reading (.punct "/") 10 11 (behindSum k) (behindSum k).tail 9 10

def atBrace (k : Nat) : State :=
  reading (.punct "\x7d") (stop k) (stop k + 1) ending ['\x60', ';'] 10 (stop k)

def atSemicolon (k : Nat) : State :=
  reading (.punct ";") (stop k + 2) (stop k + 3) [';'] [] (stop k) (stop k + 2)

def atEnd (k : Nat) : State :=
  reading .eof (stop k + 3) (stop k + 3) [] [] (stop k + 2) (stop k + 3)

def string : Node := .mk .string ⟨7, 9⟩ []

def regex (k : Nat) : Node := .mk .regex ⟨10, stop k⟩ []

def sum (k : Nat) : Node := .mk (.binary "+") ⟨7, stop k⟩ [string, regex k]

def parts (k : Nat) : List Node :=
  [.mk (.quasi "") ⟨5, 5⟩ [], sum k, .mk (.quasi "") ⟨stop k + 1, stop k + 1⟩ []]

def template (k : Nat) : Node := .mk .template ⟨4, stop k + 2⟩ (parts k)

def statement (k : Nat) : Node := .mk .exprStmt ⟨4, stop k + 3⟩ [template k]

def tree (k : Nat) : Node :=
  .mk (.program false) ⟨0, stop k + 3⟩ [.mk .empty ⟨3, 4⟩ [], statement k]

theorem place_eq (h : Token.read false offset cs = { token := .punct p, length := l, rest }) :
    place (context n) { fresh, offset, rest := cs } s = { s with
      here := cs, start := offset, token := .punct p, lo := offset, hi :=
  offset + l, whole := cs, rest
      fresh } := by
  have htypes : (context n).dialect.hasTypes = false := rfl
  have hbehind :
      behind (context n) { fresh, offset, rest := cs } =
        { token := .punct p, length := l, rest } := by
    rw [behind, htypes, h]
  rw [place, hbehind]
  rfl

theorem goto_eq (hgap : Trivia.after offset cs = { fresh := false, offset, rest := cs })
    (hread : Token.read false offset cs = { token := .punct p, length := l, rest }) :
    goto offset cs (context n) s = .done () { s with
      here := cs, start := offset, token := .punct p, lo := offset, hi :=
  offset + l, whole := cs, rest
      fresh := false, lastStart := s.lo, lastStop := offset } := by
  rw [goto, hgap, leap, place_eq hread]

/-- The places where an operand or a sum starts, with what is read there. -/
inductive Reads (k : Nat) : State → Node → State → Prop where
  | regex : Reads k (atRegex k) (regex k) (atBrace k)
  | string : Reads k (atString k) string (atPlus k)
  | sum : Reads k (atString k) (sum k) (atBrace k)
  | template : Reads k (atTemplate k) (template k) (atSemicolon k)

-- Nothing that stands before or behind these nodes belongs to them, so the readers around an
-- operand hand it on.
theorem Reads.unary {arrow : Bool} (h : Reads k s e s')
    (hprimary : primary (level m) arrow (context n) s = .done e s') :
    unary (level m) arrow (context n) s = .done e s' := by
  have hoperand : operand (level m) arrow (context n) s = .done e s' := by
    cases h
    all_goals exact bind_eq rfl (bind_eq rfl (bind_eq rfl (bind_eq rfl (bind_eq hprimary rfl))))
  cases h
  all_goals exact bind_eq rfl (bind_eq rfl (bind_eq rfl (bind_eq hoperand rfl)))

theorem Reads.expression (h : Reads k s e s')
    (hoperation : operation (level m) true (context n) s = .done e s') :
    level (m + 1) .expression (context n) s = .done e s' := by
  have hproper : assignmentProper (level m) (context n) s = .done e s' := by
    cases h
    all_goals
      exact bind_eq rfl (bind_eq rfl (bind_eq rfl
        (bind_eq rfl (bind_eq rfl (bind_eq hoperation rfl)))))
  have hassignment : assignment (level m) (context n) s = .done e s' :=
    bind_eq rfl (bind_eq rfl (bind_eq rfl hproper))
  cases h
  all_goals exact bind_eq hassignment rfl

section Reading

variable (k n m : Nat)

theorem regexLiteral_eq : regexLiteral (context n) (atRegex k) = .done (regex k) (atBrace k) := by
  have hread : Token.readRegex (atRegex k).lo ((atRegex k).whole.drop 1) =
      { token := .regex, length := 2 + Letter.width (pattern k), rest := ending } := readRegex_eq k
  have hgoto : goto (stop k) ending (context n) (atRegex k) = .done () (atBrace k) :=
    goto_eq rfl rfl
  refine bind_eq rfl ?_
  rw [hread]
  exact bind_eq rfl (bind_eq hgoto rfl)

theorem operators_eq :
    operators (level (m + 1)) string 0 (context n) (atPlus k) = .done (sum k) (atBrace k) := by
  have hgoto : goto 10 (behindSum k) (context n) (atPlus k) = .done () (atRegex k) :=
    goto_eq (l := 1) rfl rfl
  have hadvance : advance (context n) (atPlus k) = .done () (atRegex k) := hgoto
  have hprimary : primary (level m) false (context n) (atRegex k) = .done (regex k) (atBrace k) :=
    regexLiteral_eq k n
  have hunary : level (m + 1) .unary (context n) (atRegex k) = .done (regex k) (atBrace k) :=
    Reads.regex.unary hprimary
  have hlast :
      level (m + 1) (.operators (regex k) 9) (context n) (atBrace k) =
        .done (regex k) (atBrace k) := rfl
  have hright :
      operation? (level (m + 1)) string 0 (context n) (atPlus k) =
        .done (some (sum k)) (atBrace k) :=
    bind_eq rfl (bind_eq rfl (bind_eq hadvance (bind_eq hunary (bind_eq hlast rfl))))
  exact bind_eq (bind_eq hright rfl) rfl

theorem sum_eq :
    level (m + 2) .expression (context n) (atString k) = .done (sum k) (atBrace k) := by
  have hgoto : goto 9 ('+' :: behindSum k) (context n) (atString k) = .done () (atPlus k) :=
    goto_eq (l := 1) rfl rfl
  have hadvance : advance (context n) (atString k) = .done () (atPlus k) := hgoto
  have hprimary : primary (level (m + 1)) true (context n) (atString k) = .done string (atPlus k) :=
    bind_eq rfl (bind_eq rfl (bind_eq rfl (bind_eq hadvance rfl)))
  have hleft := Reads.string.unary hprimary
  have hoperation :
      operation (level (m + 1)) true (context n) (atString k) = .done (sum k) (atBrace k) :=
    bind_eq rfl (bind_eq (rescue_eq hleft _ _) (operators_eq k n m))
  exact Reads.sum.expression hoperation

theorem template_eq : Grammar.template (level (m + 2)) false (context n) (atTemplate k) =
    .done (template k) (atSemicolon k) := by
  have hfirst :
      quasi false (context n) (atTemplate k) =
        .done (.mk (.quasi "") ⟨5, 5⟩ [], true) (atString k) := rfl
  have hlast : quasi false (context n) (atBrace k) =
      .done (.mk (.quasi "") ⟨stop k + 1, stop k + 1⟩ [], false) (atSemicolon k) := rfl
  have hhole :
      under (fun c => { c with allowIn := true, colonAhead := false }) (level (m + 2) .expression)
        (context n) (atString k) = .done (sum k) (atBrace k) := sum_eq k n m
  have hparts : templateParts false
      (under (fun c => { c with allowIn := true, colonAhead := false }) (level (m + 2) .expression))
        (context n)
      (atTemplate k) = .done (parts k) (atSemicolon k) :=
    bind_eq hfirst (bind_eq (bind_eq hhole (bind_eq rfl (bind_eq hlast rfl))) rfl)
  exact bind_eq rfl (bind_eq hparts rfl)

theorem expression_eq :
    level (m + 3) .expression (context n) (atTemplate k) = .done (template k) (atSemicolon k) := by
  have hprimary :
      primary (level (m + 2)) true (context n) (atTemplate k) =
        .done (template k) (atSemicolon k) :=
    bind_eq rfl (bind_eq rfl (template_eq k n m))
  have hunary := Reads.template.unary hprimary
  have hoperation : operation (level (m + 2)) true (context n) (atTemplate k) =
      .done (template k) (atSemicolon k) := bind_eq rfl (bind_eq (rescue_eq hunary _ _) rfl)
  exact Reads.template.expression hoperation

theorem moduleItem_eq :
    moduleItem (level (m + 3)) (context n) (atTemplate k) = .done (statement k) (atEnd k) := by
  have hfull :
      fullExpression (level (m + 3)) (context n) (atTemplate k) =
        .done (template k) (atSemicolon k) :=
    expression_eq k n m
  have hends : endExpression (level (m + 3)) 4 (template k) (context n) (atSemicolon k) =
      .done (statement k) (atEnd k) := rfl
  have hstatement : expressionStatement (level (m + 3)) 4 .absent (context n) (atTemplate k) =
      .done (statement k) (atEnd k) := bind_eq rfl (bind_eq rfl (bind_eq hfull (bind_eq rfl hends)))
  exact bind_eq rfl (bind_eq rfl (bind_eq rfl (bind_eq rfl hstatement)))

theorem program_eq :
    program (level (m + 3)) (context n) (atStart k) = .done (tree k) (atEnd k) := by
  have hgoto : goto 4 ((source k).drop 4) (context n) (atStart k) = .done () (atTemplate k) :=
    goto_eq (l := 1) rfl rfl
  have hleaf : leaf .empty (context n) (atStart k) = .done (.mk .empty ⟨3, 4⟩ []) (atTemplate k) :=
    bind_eq rfl (bind_eq hgoto rfl)
  have hempty :
      moduleItem (level (m + 3)) (context n) (atStart k) =
        .done (.mk .empty ⟨3, 4⟩ []) (atTemplate k) :=
    bind_eq rfl (bind_eq rfl (bind_eq rfl (bind_eq rfl hleaf)))
  have hrest : many (do
      if ← (do return (← token) == .eof) then return none
      return some (← moduleItem (level (m + 3)))) (context n) (atTemplate k) =
      .done [statement k] (atEnd k) :=
    bind_eq (bind_eq rfl (bind_eq (moduleItem_eq k n m) rfl)) rfl
  have hitems :
      statementsUntil (moduleItem (level (m + 3))) true (do return (← token) == .eof) (context n)
        (atStart k) = .done [.mk .empty ⟨3, 4⟩ [], statement k] (atEnd k) :=
    bind_eq rfl (bind_eq rfl (bind_eq hempty (bind_eq hrest rfl)))
  exact bind_eq hitems rfl

theorem parse_source : Grammar.parse .ecmascript (source k) = .ok (tree k) := by
  have hgap :
      Trivia.first 0 (source k) = { fresh := true, offset := 3, rest := (source k).drop 3 } := rfl
  have hstart : start (context (source k).length) (source k) = atStart k := by
    change place _ (Trivia.first 0 (source k)) _ = _
    rw [hgap]
    exact place_eq (l := 1) rfl
  have hprogram : program (level (4 * (source k).length + 64)) (context (source k).length)
      (start (context (source k).length) (source k)) = .done (tree k) (atEnd k) :=
    hstart ▸ program_eq k (source k).length (4 * (source k).length + 61)
  have hcontext :
      ({ dialect := .ecmascript, size := (source k).length, topLevel := true } : Context) =
        context (source k).length := rfl
  simp only [Grammar.parse, hcontext, hprogram]
  rfl

end Reading

def text (k : Nat) : Text := Text.ofChars ('\ufeff' :: source k)

def program (k : Nat) : Program := ⟨text k, tree k⟩

theorem parse_text (k : Nat) : Program.parse .ecmascript (text k) = .ok (program k) := by
  have hchars : (text k).chars = '\ufeff' :: source k := by
    rw [Text.chars, text, Text.decode?_ofChars]
    rfl
  have hmark : Program.withoutMark ('\ufeff' :: source k) = source k := rfl
  rw [Program.parse, hchars, hmark, parse_source]
  rfl

def lead : Text := Text.ofString "\ufeff   ;"

def opening : Text := Text.ofString "\x60$\x7b"

def hole (k : Nat) : Text := Text.ofString "''+/a" ++ Text.ofChars (closings k)

def trail : Text := Text.ofString "bc/\x7d\x60;"

theorem text_eq (k : Nat) : text k = lead ++ (opening ++ (hole k ++ trail)) := by
  have hchars :
      '\ufeff' :: source k =
        ['\ufeff', ' ', ' ', ' ', ';', '\x60', '$', '\x7b', '\'', '\'', '+', '/', 'a'] ++
      (closings k ++ ['b', 'c', '/', '\x7d', '\x60', ';']) := rfl
  rw [text, hchars, Text.ofChars_append, Text.ofChars_append]
  rfl

theorem length_closings (k : Nat) : (Text.ofChars (closings k)).length = 2 * k := by
  induction k with
  | zero => rfl
  | succ k ih =>
    rw [closings, Text.ofChars_cons, Text.ofChars_cons, List.length_append, List.length_append, ih]
    change 1 + (1 + 2 * k) = 2 * (k + 1)
    omega

theorem width_closings (k : Nat) (cs : List Char) :
    Letter.width (closings k ++ cs) = 2 * k + Letter.width cs := by
  induction k with
  | zero => exact (Nat.zero_add _).symm
  | succ k ih =>
    change 1 + (1 + Letter.width (closings k ++ cs)) = _
    rw [ih]
    omega

theorem stop_eq (k : Nat) : stop k = 15 + 2 * k := by
  have hwidth : Letter.width (pattern k) = 1 + Letter.width (closings k ++ ['b', 'c']) := rfl
  have htwo : Letter.width ['b', 'c'] = 2 := rfl
  rw [stop, hwidth, width_closings, htwo]
  omega

theorem length_hole (k : Nat) : (hole k).length = 5 + 2 * k := by
  rw [hole, List.length_append, length_closings]
  rfl

theorem hole_succ (k : Nat) : hole k ++ Text.ofString "\x7d\x60" = hole (k + 1) := by
  have hcomm : closings k ++ ['\x7d', '\x60'] = closings (k + 1) := by
    induction k with
    | zero => rfl
    | succ k ih => exact congrArg (fun cs => '\x7d' :: '\x60' :: cs) ih
  rw [hole, hole, ← hcomm, Text.ofChars_append, List.append_assoc]
  rfl

theorem stop_eq_length (k : Nat) : stop k = (lead ++ opening ++ hole k).length := by
  have hten : (lead ++ opening).length = 10 := rfl
  rw [List.length_append, hten, length_hole, stop_eq]
  omega

theorem slice_hole (k : Nat) : (text k).slice ⟨10, stop k⟩ = hole k := by
  have hten : (lead ++ opening).length = 10 := rfl
  rw [text_eq, ← List.append_assoc, ← List.append_assoc, Text.slice, stop_eq_length, List.take_left,
    ← hten, List.drop_left]

theorem slice_trail (k : Nat) : (text k).slice ⟨stop k, (text k).length⟩ = trail := by
  rw [Text.slice, List.take_length, text_eq, ← List.append_assoc, ← List.append_assoc,
    stop_eq_length, List.drop_left]

open Rendering

def edit (k : Nat) : Edit :=
  ⟨⟨7, stop k⟩,
    [.string "\x60", .string "$\x7b", .reused ⟨10, stop k⟩, .string "\x7d", .string "\x60"]⟩

theorem stop_gt (k : Nat) : 10 < stop k := by
  rw [stop_eq]
  omega

theorem templateEdit_hole (k : Nat) :
    StringConcat.templateEdit ⟨7, stop k⟩ ⟨[([], ⟨10, stop k⟩)], []⟩ = edit k := by
  have hfilled : (Segment.reused ⟨10, stop k⟩).isEmpty = false :=
    decide_eq_false (Nat.not_le_of_gt (stop_gt k))
  rw [StringConcat.templateEdit_eq]
  refine congrArg (Edit.mk _) (List.filter_eq_self.2 ?_)
  intro segment hs
  change segment ∈ (edit k).segments at hs
  simp only [edit, List.mem_cons, List.not_mem_nil, or_false] at hs
  rcases hs with rfl | rfl | rfl | rfl | rfl
  · rfl
  · rfl
  · rw [hfilled]
    rfl
  · rfl
  · rfl

theorem flatten_eq (k : Nat) :
    Concatenation.flatten (program k).text string (regex k) = .ok ⟨[([], ⟨10, stop k⟩)], []⟩ := rfl

theorem edit?_eq (k : Nat) :
    StringConcat.edit? (program k) ⟨7, stop k⟩ string (regex k) = some (edit k) := by
  have hsafe : Slot.startsSafely (program k).text (edit k) = true := rfl
  rw [StringConcat.edit?, flatten_eq]
  simp only [templateEdit_hole]
  exact (if_pos hsafe : Slot.safely (program k).text (edit k) = some (edit k))

theorem tried_eq (k : Nat) : StringConcat.tried (program k) false (tree k) = [sum k] := by
  have hstring : (Concatenation.isString string || Concatenation.isString (regex k)) = true := rfl
  have hsum : StringConcat.tried (program k) false (sum k) = [sum k] := by
    rw [sum, StringConcat.tried, if_pos hstring, if_neg Bool.false_ne_true, edit?_eq]
    rfl
  change ((StringConcat.tried (program k) false (sum k) ++ []) ++ []) ++ [] = _
  rw [hsum]
  rfl

theorem edits_eq (k : Nat) : Pass.edits .stringConcatToTemplate (program k) = [edit k] := by
  have hsum : StringConcat.sum? (program k) (sum k) = some (edit k) := edit?_eq k
  change (StringConcat.tried (program k) false (tree k)).filterMap _ = _
  rw [tried_eq, List.filterMap_cons_some hsum]
  rfl

theorem cuts_eq (k : Nat) : Pass.cuts .stringConcatToTemplate (program k) = [7, 9, 7] := by
  have hsum : StringConcat.sumCuts (program k) (sum k) =
      [7, 9] ++ Slot.cuts (program k).text none
        (StringConcat.templateEdit ⟨7, stop k⟩ ⟨[([], ⟨10, stop k⟩)], []⟩) := rfl
  change (StringConcat.tried (program k) false (tree k)).flatMap _ = _
  rw [tried_eq, List.flatMap_singleton, hsum, templateEdit_hole]
  rfl

/-- No other pass finds anything to change, or looks at the text. -/
theorem edits_eq_nil (k : Nat) {pass : Pass} (h : pass ≠ .stringConcatToTemplate) :
    pass.edits (program k) = [] ∧ pass.cuts (program k) = [] := by
  cases pass with
  | stringConcatToTemplate => exact absurd rfl h
  | _ => exact ⟨rfl, rfl⟩

theorem whole_edit (k : Nat) : whole [edit k] (text k).length =
    append (keep ⟨0, 7⟩)
      (append ⟨[], [0]⟩ (append (segments (reused [edit k] 1) 0 (edit k).segments)
        (keep ⟨stop k, (text k).length⟩))) := by
  have hlength : stop k ≤ (text k).length := by
    rw [text_eq, ← List.append_assoc, ← List.append_assoc, List.length_append, stop_eq_length]
    exact Nat.le_add_right _ _
  have hpicked : passes true ⟨0, (text k).length⟩ 0 (edit k) = false :=
    passes_eq_false_iff.2 ⟨Nat.zero_le _, hlength, fun h => nomatch h⟩
  exact sweep_picked hpicked

theorem reused_hole (k : Nat) : reused [edit k] 1 ⟨10, stop k⟩ = keep ⟨10, stop k⟩ :=
  sweep_passed (rfl : passes false ⟨10, stop k⟩ 10 (edit k) = true)

section Applied

variable {k : Nat} {d : Document} (hd : d.text = text k)

include hd

theorem text_apply_edit : (d.apply [edit k]).1.text = text (k + 1) := by
  have hlead : (text k).slice ⟨0, 7⟩ = lead := rfl
  have hhole : (reused [edit k] 1 ⟨10, stop k⟩).pieces.flatMap d.bytes = hole k := by
    rw [reused_hole, Document.bytes_keep, hd, slice_hole]
  have hsegments : (edit k).segments.flatMap (d.segmentText (reused [edit k] 1)) =
      opening ++ (hole k ++ Text.ofString "\x7d\x60") := by
    rw [← hhole]
    rfl
  have hsorted : Edit.sorted [edit k] = [edit k] := rfl
  rw [Document.text_apply, Document.pieces, hsorted, hd, whole_edit]
  simp only [append, List.flatMap_append, List.nil_append, Document.bytes_keep,
    Document.text_segments]
  rw [hd, hlead, slice_trail, hsegments, hole_succ, text_eq, List.append_assoc]

theorem length_apply_edit : (d.apply [edit k]).2.length = 1 := by
  have hsorted : Edit.sorted [edit k] = [edit k] := rfl
  have happlied : (whole [edit k] (text k).length).applied = [0] := by
    rw [whole_edit]
    simp only [append, applied_segments]
    change 0 :: ((reused [edit k] 1 ⟨10, stop k⟩).applied ++ [] ++ []) = [0]
    rw [reused_hole]
    rfl
  rw [Document.lines_apply, List.length_map, Document.applied, hsorted, hd, happlied]
  rfl

end Applied

theorem isBoundary_stop (k : Nat) : (text k).isBoundary (stop k) = true := by
  rw [text_eq, ← List.append_assoc, ← List.append_assoc, stop_eq_length]
  exact Text.isBoundary_of_head (b := Text.ascii 'b') rfl (by decide)

/--
Neither the search for the edit nor the edit cuts the mark, which is the only character of several
bytes.
-/
theorem cutsCleanly_text (k : Nat) : (text k).cutsCleanly ([7, 9, 7] ++ (edit k).ends) = true := by
  have hends : (edit k).ends = [7, stop k, 10, stop k] := rfl
  have hstop := isBoundary_stop k
  have hearly : (text k).cutsCleanly [7, 9, 10] = true := rfl
  rw [hends]
  simp only [Text.cutsCleanly, List.cons_append, List.nil_append, List.all_cons, List.all_nil,
    Bool.and_true, Bool.and_eq_true] at hearly ⊢
  exact ⟨hearly.1, hearly.2.1, hearly.1, hearly.1, hstop, hearly.2.2, hstop⟩

structure Grown (k : Nat) (run : Run) : Prop where
  text : run.document.text = text k
  program : run.program = program k

variable {k : Nat} {run : Run}

theorem Grown.step_idle {pass : Pass} (h : Grown k run) (hpass : pass ≠ .stringConcatToTemplate) :
    run.step .ecmascript pass = .ok run := by
  obtain ⟨hedits, hcuts⟩ := edits_eq_nil k hpass
  apply Run.step_idle
  · rw [h.program, hedits]
  · rw [h.program, hcuts]
    rfl

theorem Grown.cutsCleanly (h : Grown k run) : run.cutsCleanly .stringConcatToTemplate = true := by
  have hclean := List.all_append.symm.trans (cutsCleanly_text k)
  rw [Bool.and_eq_true] at hclean
  rw [Run.cutsCleanly, h.program, cuts_eq, edits_eq, Bool.and_eq_true]
  refine ⟨hclean.1, Document.cutsCleanly_of_ends fun e he => ?_⟩
  cases List.mem_singleton.1 he
  rw [h.text]
  exact hclean.2

theorem Grown.step (h : Grown k run) :
    ∃ next, run.step .ecmascript .stringConcatToTemplate = .ok next ∧
    Grown (k + 1) next ∧ next.changes.length = run.changes.length + 1 := by
  have hedits : Pass.edits .stringConcatToTemplate run.program = [edit k] := by
    rw [h.program, edits_eq]
  have htext := text_apply_edit h.text
  have hlength := length_apply_edit h.text
  rcases Run.step_eq .ecmascript run .stringConcatToTemplate with
    ⟨hclean, _⟩ | ⟨_, ⟨document, ha, _⟩ | ⟨document, line, lines, ha, he⟩⟩
  · rw [h.cutsCleanly] at hclean
    cases hclean
  · rw [hedits] at ha
    rw [ha] at hlength
    cases hlength
  · rw [hedits] at ha
    rw [ha] at htext hlength
    rw [htext, parse_text] at he
    refine ⟨_, he, ⟨htext, rfl⟩, ?_⟩
    rw [List.length_append, List.length_map]
    exact congrArg _ hlength

theorem Grown.round (h : Grown k run) :
    ∃ next, run.round .ecmascript Baseline.widelyAvailable.passes = .ok next ∧
    Grown (k + 1) next ∧ next.changes.length = run.changes.length + 1 := by
  obtain ⟨next, hstep, hnext, hlength⟩ := h.step
  have hround : run.round .ecmascript Baseline.widelyAvailable.passes = .ok next := by
    simp only [Run.round, Baseline.passes, Baseline.commonPasses, List.foldlM_cons, List.foldlM_nil]
    simp only [h.step_idle, hstep, hnext.step_idle, ne_eq, reduceCtorEq, not_false_eq_true, bind,
      Except.bind]
    rfl
  exact ⟨next, hround, hnext, hlength⟩

theorem Grown.rounds (h : Grown k run) (n : Nat) :
    ∃ last, Run.rounds .ecmascript Baseline.widelyAvailable.passes n run = .ok last ∧
      last.changes.length = run.changes.length + n := by
  induction n generalizing k run with
  | zero => exact ⟨run, rfl, rfl⟩
  | succ n ih =>
    obtain ⟨next, hround, hnext, hlength⟩ := h.round
    obtain ⟨last, hrounds, hlast⟩ := ih hnext
    have hchanged : next.changes.length ≠ run.changes.length := by omega
    refine ⟨last, ?_, by omega⟩
    rw [Run.rounds_succ, hround]
    simp only
    rw [if_neg hchanged, hrounds]

theorem changes_text (n : Nat) :
    ∃ o, transform { dialect := .ecmascript, convergence := .untilStable (n + 1) } (text 0) =
      .ok o ∧
      o.changes.length = n + 1 := by
  have hgrown : Grown 0 ⟨Document.ofText (text 0), program 0, []⟩ := ⟨rfl, rfl⟩
  obtain ⟨last, hrounds, hlength⟩ := hgrown.rounds (n + 1)
  have hparse :
      Program.parse ({ dialect := .ecmascript } : Options).dialect (text 0) = .ok (program 0) :=
      parse_text 0
  have hrun := transform_eq_rounds hparse n
  refine ⟨last.outcome, hrun.trans ?_, hlength.trans (Nat.zero_add _)⟩
  exact congrArg _ hrounds

end Growing

/-- With every round more, the run makes one change more. -/
theorem transform_never_stable :
    ¬∃ N, ∀ n, N ≤ n →
      transform { dialect := .ecmascript, convergence := .untilStable n }
          (Text.ofString "\ufeff   ;\x60$\x7b''+/abc/\x7d\x60;") =
        transform { dialect := .ecmascript, convergence := .untilStable N }
          (Text.ofString "\ufeff   ;\x60$\x7b''+/abc/\x7d\x60;") := by
  rintro ⟨N, hN⟩
  have hsame := (hN (N + 1) (Nat.le_succ N)).trans (hN (N + 2) (by omega)).symm
  obtain ⟨o, ho, hlength⟩ := Growing.changes_text N
  obtain ⟨o', ho', hlength'⟩ := Growing.changes_text (N + 1)
  have heq : (Except.ok o : Except Failure Outcome) = .ok o' := ho.symm.trans (hsame.trans ho')
  cases heq
  omega

end Uplift
