import Uplift.Proofs.Transform

namespace Uplift

set_option autoImplicit true

def Run.passes (run : Run) : List Pass := run.changes.map Change.pass

def Outcome.passes (o : Outcome) : List Pass := o.changes.map Change.pass

def Options.singly (options : Options) : Options := { options with convergence := .singlePass }

/--
The outcomes of runs of a single round, each over the code that the one before left, up to the first
that changes nothing and at most so many.
-/
def singleRuns (options : Options) : Nat → Text → Except Failure (List Outcome)
  | 0, _ => .ok []
  | n + 1, text =>
    match transform options.singly text with
    | .error failure => .error failure
    | .ok o => if o.modified then (singleRuns options n o.code).map (o :: ·) else .ok [o]

def lastCode (text : Text) (runs : List Outcome) : Text := (runs.map Outcome.code).getLastD text

theorem lastCode_cons (text : Text) (o : Outcome) (runs : List Outcome) :
    lastCode text (o :: runs) = lastCode o.code runs := by
  rw [lastCode, List.map_cons, List.getLastD_cons, lastCode]

namespace Run

/-- Runs of the same text and program, the first of which has made the changes `done` before. -/
structure Agrees (done : List Pass) (r s : Run) : Prop where
  text : r.document.text = s.document.text
  program : r.program = s.program
  passes : r.passes = done ++ s.passes

inductive Results (done : List Pass) : Except Failure Run → Except Failure Run → Prop where
  | ok {r s : Run} : Agrees done r s → Results done (.ok r) (.ok s)
  | error (failure : Failure) : Results done (.error failure) (.error failure)

theorem passes_lines (run : Run) (document : Document) (program : Program) (pass : Pass)
    (lines : List Nat) :
    passes ⟨document, program, run.changes ++ lines.map fun line => ⟨pass, line⟩⟩ =
      run.passes ++ List.replicate lines.length pass := by
  simp only [passes, List.map_append, List.map_map]
  exact congrArg _ List.map_const'

theorem Agrees.cutsCleanly_eq (h : Agrees done r s) (pass : Pass) :
    r.cutsCleanly pass = s.cutsCleanly pass := by
  rw [cutsCleanly, cutsCleanly, Document.cuts, Document.cuts, h.text, h.program]

theorem Agrees.step (h : Agrees done r s) (dialect : Dialect) (pass : Pass) :
    Results done (Run.step dialect r pass) (Run.step dialect s pass) := by
  have htext := Document.text_apply_congr h.text (pass.edits r.program)
  have hlength := Document.length_lines_congr h.text (pass.edits r.program)
  have hs := step_eq dialect s pass
  rw [← h.program] at hs
  rcases step_eq dialect r pass with ⟨hclean, he⟩ | ⟨hclean, hr⟩
  · rw [h.cutsCleanly_eq] at hclean
    rcases hs with ⟨_, he'⟩ | ⟨hclean', _⟩
    · rw [he, he']
      exact .error _
    · rw [hclean] at hclean'
      cases hclean'
  rw [h.cutsCleanly_eq] at hclean
  rcases hs with ⟨hclean', _⟩ | ⟨_, hs⟩
  · rw [hclean] at hclean'
    cases hclean'
  rcases hr with ⟨document, ha, he⟩ | ⟨document, line, lines, ha, he⟩ <;>
    rcases hs with ⟨document', ha', he'⟩ | ⟨document', line', lines', ha', he'⟩ <;>
    rw [ha, ha'] at htext hlength <;> rw [he, he']
  · exact .ok ⟨htext, rfl, h.passes⟩
  · cases hlength
  · cases hlength
  · rw [htext]
    cases Program.parse dialect document'.text with
    | error fault => exact .error _
    | ok program =>
      refine .ok ⟨htext, rfl, ?_⟩
      rw [passes_lines, passes_lines, h.passes, hlength, List.append_assoc]

theorem Agrees.round (h : Agrees done r s) (dialect : Dialect) (passes : List Pass) :
    Results done (Run.round dialect passes r) (Run.round dialect passes s) := by
  rw [Run.round, Run.round]
  induction passes generalizing r s with
  | nil => exact .ok h
  | cons pass rest ih =>
    rw [List.foldlM_cons, List.foldlM_cons]
    generalize hr : Run.step dialect r pass = r', hs : Run.step dialect s pass = s'
    have hstep := h.step dialect pass
    rw [hr, hs] at hstep
    cases hstep with
    | error failure => exact .error failure
    | ok hnext => exact ih hnext

def fresh (run : Run) : Run := ⟨Document.ofText run.document.text, run.program, []⟩

theorem agrees_fresh (run : Run) : Agrees run.passes run run.fresh :=
  ⟨rfl, rfl, (List.append_nil _).symm⟩

theorem transform_singly {options : Options} {program : Program}
    (h : Program.parse options.dialect text = .ok program) :
    transform options.singly text =
      (round options.dialect options.baseline.passes ⟨Document.ofText text, program, []⟩).map
        outcome := by
  have hsingly : Program.parse options.singly.dialect text = .ok program := h
  rw [transform_of_parse hsingly]
  simp only [Options.singly, Convergence.rounds, rounds_succ]
  cases round options.dialect options.baseline.passes ⟨Document.ofText text, program, []⟩ with
  | error failure => rfl
  | ok next => simp only [rounds, ite_self]

theorem Agrees.modified_iff {r s next : Run} (h : Agrees r.passes next s) :
    s.outcome.modified = true ↔ next.changes.length ≠ r.changes.length := by
  have hlength := congrArg List.length h.passes
  simp only [Run.passes, List.length_append, List.length_map] at hlength
  have hs : s.outcome.modified = true ↔ s.changes.length ≠ 0 := by
    rw [Outcome.modified, Bool.not_eq_true', ← Bool.not_eq_true, List.isEmpty_iff]
    exact not_congr List.length_eq_zero_iff.symm
  rw [hs]
  omega

theorem round_eq {options : Options} {run : Run}
    (h : Program.parse options.dialect run.document.text = .ok run.program) :
    (∃ failure, round options.dialect options.baseline.passes run = .error failure ∧
      transform options.singly run.document.text = .error failure) ∨
    ∃ next o, round options.dialect options.baseline.passes run = .ok next ∧
      transform options.singly run.document.text = .ok o ∧
      Program.parse options.dialect next.document.text = .ok next.program ∧
      next.document.text = o.code ∧ next.passes = run.passes ++ o.passes ∧
      (o.modified = true ↔ next.changes.length ≠ run.changes.length) := by
  have hends := (Reached.start (start_eq h) : Reached options _ _ run.fresh).ends_round
  have hround := run.agrees_fresh.round options.dialect options.baseline.passes
  have hsingly : transform options.singly run.document.text =
      (round options.dialect options.baseline.passes run.fresh).map outcome := transform_singly h
  rw [hsingly]
  generalize round options.dialect options.baseline.passes run = result at hround ⊢
  generalize round options.dialect options.baseline.passes run.fresh = result' at hends hround ⊢
  cases hround with
  | error failure => exact .inl ⟨failure, rfl, rfl⟩
  | ok hnext =>
    refine .inr ⟨_, _, rfl, rfl, ?_, hnext.text, hnext.passes, hnext.modified_iff⟩
    rw [hnext.text, hnext.program]
    exact hends.sound.parsed

/-- What rounds come to, in terms of runs of a single round over the same text. -/
inductive Repeats (run : Run) : Except Failure (List Outcome) → Except Failure Run → Prop where
  | ok : last.document.text = lastCode run.document.text runs →
    last.passes = run.passes ++ runs.flatMap Outcome.passes → Repeats run (.ok runs) (.ok last)
  | error (failure : Failure) : Repeats run (.error failure) (.error failure)

theorem Repeats.cons {run next : Run} (htext : next.document.text = o.code)
    (hpasses : next.passes = run.passes ++ o.passes) (h : Repeats next runs result) :
    Repeats run (runs.map (o :: ·)) result := by
  cases h with
  | error failure => exact .error failure
  | ok hcode hmore =>
    refine .ok ?_ ?_
    · rw [lastCode_cons, ← htext]
      exact hcode
    · rw [hmore, hpasses, List.flatMap_cons, List.append_assoc]

theorem rounds_repeats {options : Options} {run : Run} (n : Nat)
    (h : Program.parse options.dialect run.document.text = .ok run.program) :
    Repeats run (singleRuns options n run.document.text)
      (rounds options.dialect options.baseline.passes n run) := by
  induction n generalizing run with
  | zero => exact .ok rfl (List.append_nil _).symm
  | succ n ih =>
    rw [singleRuns, rounds_succ]
    rcases round_eq h with ⟨failure, hr, ht⟩ | ⟨next, o, hr, ht, hp, htext, hpasses, hm⟩
    · rw [hr, ht]
      exact .error failure
    · rw [hr, ht]
      simp only
      by_cases hlength : next.changes.length = run.changes.length
      · rw [if_pos hlength, if_neg (fun h => hm.1 h hlength)]
        refine .ok htext ?_
        rw [hpasses, List.flatMap_singleton]
      · rw [if_neg hlength, if_pos (hm.2 hlength)]
        have hrest := ih hp
        rw [htext] at hrest
        exact hrest.cons htext hpasses

end Run

theorem transform_of_not_modified (h : transform options text = .ok o) (hm : o.modified = false) :
    o = ⟨text, []⟩ := by
  obtain ⟨run, hrun, rfl⟩ := transform_ok h
  rw [Outcome.modified, Bool.not_eq_false', List.isEmpty_iff] at hm
  have htext := hrun.sound.unchanged hm
  rw [Run.outcome, htext]
  exact congrArg _ hm

theorem transform_lastCode (h : singleRuns options n text = .ok runs)
    (hn : runs.countP Outcome.modified < n) :
    transform options.singly (lastCode text runs) = .ok ⟨lastCode text runs, []⟩ := by
  induction n generalizing text runs with
  | zero => cases hn
  | succ n ih =>
    rw [singleRuns] at h
    split at h
    next => cases h
    next o ho =>
      split at h
      next hm =>
        cases hrest : singleRuns options n o.code with
        | error failure =>
          rw [hrest] at h
          cases h
        | ok rest =>
          rw [hrest] at h
          cases h
          rw [List.countP_cons_of_pos hm] at hn
          rw [lastCode_cons]
          exact ih hrest (Nat.lt_of_succ_lt_succ hn)
      next hm =>
        cases h
        have hsame := transform_of_not_modified ho (Bool.eq_false_iff.2 hm)
        subst hsame
        exact ho

theorem transform_of_singly {options : Options}
    (h : transform options.singly text = .ok ⟨text, []⟩) :
    transform options text = .ok ⟨text, []⟩ := by
  cases hp : Program.parse options.dialect text with
  | error fault =>
    have hsingly : Program.parse options.singly.dialect text = .error fault := hp
    rw [transform_of_fault hsingly] at h
    cases h
  | ok program =>
    rw [Run.transform_singly hp] at h
    obtain ⟨n, hn⟩ := options.convergence.rounds_pos
    rw [transform_of_parse hp, hn, Run.rounds_succ]
    cases hr :
      Run.round options.dialect options.baseline.passes ⟨Document.ofText text, program, []⟩ with
    | error failure =>
      rw [hr] at h
      cases h
    | ok next =>
      rw [hr] at h
      have hnext : next.outcome = ⟨text, []⟩ := Except.ok.inj h
      have hchanges : next.changes = [] := congrArg Outcome.changes hnext
      simp only [hchanges, ↓reduceIte]
      exact h

/--
A run until nothing changes fails as the runs of a single round do, or leaves the code that the last
of them leaves, by the passes of all of them. If they stop early, no further run changes that code.
-/
theorem transform_untilStable (options : Options) (n : Nat) (text : Text) :
    match singleRuns options (max n 1) text with
    | .error failure =>
      transform { options with convergence := .untilStable n } text = .error failure
    | .ok runs =>
      ∃ o, transform { options with convergence := .untilStable n } text = .ok o ∧
        o.code = lastCode text runs ∧ o.passes = runs.flatMap Outcome.passes ∧
        (runs.countP Outcome.modified < max n 1 →
          ∀ convergence, transform { options with convergence } o.code = .ok ⟨o.code, []⟩) := by
  cases hp : Program.parse options.dialect text with
  | error fault =>
    obtain ⟨k, hk⟩ : ∃ k, max n 1 = k + 1 := (Convergence.untilStable n).rounds_pos
    have hsingly : Program.parse options.singly.dialect text = .error fault := hp
    rw [hk, singleRuns, transform_of_fault hsingly]
    exact transform_of_fault hp
  | ok program =>
    have hrepeats : Run.Repeats ⟨Document.ofText text, program, []⟩
        (singleRuns options (max n 1) text) (Run.rounds options.dialect options.baseline.passes
          (max n 1) ⟨Document.ofText text, program, []⟩) := Run.rounds_repeats (max n 1) hp
    have hstable : transform { options with convergence := .untilStable n } text =
        (Run.rounds options.dialect options.baseline.passes (max n 1)
          ⟨Document.ofText text, program, []⟩).map Run.outcome := transform_of_parse hp
    rw [hstable]
    generalize Run.rounds options.dialect options.baseline.passes (max n 1) _ = result at hrepeats ⊢
    generalize hruns : singleRuns options (max n 1) text = runs at hrepeats ⊢
    cases hrepeats with
    | error failure => rfl
    | @ok runs last hcode hpasses =>
      have hcode : last.document.text = lastCode text runs := hcode
      refine ⟨last.outcome, rfl, hcode, hpasses, fun hn convergence => transform_of_singly ?_⟩
      rw [Run.outcome, hcode]
      exact (transform_lastCode hruns hn :)

-- A power inside a power takes two rounds, and the third finds nothing.
example :
    (singleRuns {} 5 (Text.ofString "x = Math.pow(Math.pow(a, 2), 3);")).toOption.map
      (·.map Outcome.passes) = some [[.mathPowToExponent], [.mathPowToExponent], []] := by
  decide +kernel

end Uplift
