import Uplift.Proofs.Nesting
import Uplift.Proofs.Rounds

namespace Uplift

set_option autoImplicit true

def Program.revised (p : Program) (pass : Pass) : Text :=
  ((Document.ofText p.text).apply (pass.edits p)).1.text

def Program.revisions (p : Program) (pass : Pass) : Nat :=
  ((Document.ofText p.text).apply (pass.edits p)).2.length

theorem Program.revised_of_no_revisions {p : Program} {pass : Pass} (h : p.revisions pass = 0) :
    p.revised pass = p.text := by
  apply Document.text_apply_of_no_lines
  exact List.length_eq_zero_iff.1 h

/-- Whether a pass cuts no character of a program, neither to find its edits nor to apply them. -/
def Program.cutsCleanly (p : Program) (pass : Pass) : Bool :=
  p.text.cutsCleanly (pass.cuts p) &&
    p.text.cutsCleanly ((Document.ofText p.text).cuts (pass.edits p))

namespace Run

theorem round_append (dialect : Dialect) (ps qs : List Pass) (run : Run) :
    round dialect (ps ++ qs) run = (round dialect ps run).bind (round dialect qs) :=
  List.foldlM_append

theorem round_singleton (dialect : Dialect) (pass : Pass) (run : Run) :
    round dialect [pass] run = step dialect run pass := by
  rw [round, List.foldlM_cons]
  cases step dialect run pass with
  | error failure => rfl
  | ok next => rfl

theorem Sound.cutsCleanly_eq (h : Sound dialect first run) (pass : Pass) :
    run.cutsCleanly pass = run.program.cutsCleanly pass := by
  have htext : run.document.text = (Document.ofText run.program.text).text :=
    (Program.text_of_parse h.parsed).symm
  rw [Run.cutsCleanly, Program.cutsCleanly, Document.cuts, Document.cuts, htext]
  rfl

theorem Sound.step_severed (h : Sound dialect first run) {pass : Pass}
    (hcut : run.program.cutsCleanly pass = false) :
    Run.step dialect run pass = .error (.severed pass) := by
  rw [← h.cutsCleanly_eq] at hcut
  rcases Run.step_eq dialect run pass with ⟨_, he⟩ | ⟨hclean, _⟩
  · exact he
  · rw [hcut] at hclean
    cases hclean

/--
What a pass makes of a run depends on the program of the run only, the lines of the changes apart.
-/
theorem Sound.step_eq (h : Sound dialect first run) {pass : Pass}
    (hclean : run.program.cutsCleanly pass = true) :
    match Program.parse dialect (run.program.revised pass) with
    | .error fault =>
      Run.step dialect run pass =
        .error (.invalid pass (fault.line (run.program.revised pass)) fault.complaint)
    | .ok _ => ∃ (next : Run) (lines : List Nat), Run.step dialect run pass = .ok next ∧
        lines.length = run.program.revisions pass ∧ next.document.text = run.program.revised pass ∧
        next.changes = run.changes ++ lines.map (⟨pass, ·⟩) := by
  have htext : run.document.text = (Document.ofText run.program.text).text :=
    (Program.text_of_parse h.parsed).symm
  have hrevised := Document.text_apply_congr htext (pass.edits run.program)
  have hlength := Document.length_lines_congr htext (pass.edits run.program)
  rw [← h.cutsCleanly_eq] at hclean
  rcases Run.step_eq dialect run pass with
    ⟨hcut, _⟩ | ⟨_, ⟨document, ha, he⟩ | ⟨document, line, lines, ha, he⟩⟩
  · rw [hclean] at hcut
    cases hcut
  · rw [ha] at hrevised hlength
    have hsame : run.program.revised pass = run.document.text := by
      rw [Program.revised_of_no_revisions hlength.symm]
      exact htext.symm
    rw [hsame, h.parsed]
    exact ⟨_, [], he, hlength, hrevised.trans hsame, (List.append_nil _).symm⟩
  · rw [ha] at hrevised hlength
    have hcode : document.text = run.program.revised pass := hrevised
    rw [he, ← hcode]
    cases Program.parse dialect document.text with
    | error fault => rfl
    | ok program => exact ⟨_, line :: lines, rfl, hlength, rfl, rfl⟩

end Run

def Options.once (baseline : Baseline) (dialect : Dialect) : Options :=
  { baseline, dialect, convergence := .singlePass }

theorem Options.singly_once (baseline : Baseline) (dialect : Dialect) :
    (once baseline dialect).singly = once baseline dialect := rfl

theorem transform_once {program : Program} (h : Program.parse dialect text = .ok program)
    (baseline : Baseline) :
    transform (.once baseline dialect) text =
      (Run.round dialect baseline.passes ⟨Document.ofText text, program, []⟩).map Run.outcome := by
  have hparse : Program.parse (Options.once baseline dialect).dialect text = .ok program := h
  rw [← Options.singly_once, Run.transform_singly hparse]
  rfl

theorem Run.sound_of_round {program : Program} (h : Program.parse dialect text = .ok program)
    (baseline : Baseline)
    (hr : round dialect baseline.passes ⟨Document.ofText text, program, []⟩ = .ok run) :
    Sound dialect text run := by
  have hstart : Reached (.once baseline dialect) text baseline.passes
      ⟨Document.ofText text, program, []⟩ := .start (start_eq h)
  have hends := hstart.ends_round
  rw [Options.once, hr] at hends
  exact hends.sound

/--
If a run with the older baseline fails, so does one with the newer baseline, by the same failure. If
it comes to some code, the run with the newer baseline goes on with one more pass. It fails if this
pass would cut a character of that code. Otherwise it fails if the pass makes no program of it, or
its code is what the pass makes of it, and its changes are the same followed by those of the pass.
-/
theorem transform_newlyAvailable (dialect : Dialect) (text : Text) :
    match transform (.once .widelyAvailable dialect) text with
    | .error failure => transform (.once .newlyAvailable dialect) text = .error failure
    | .ok o => ∃ p, Program.parse dialect o.code = .ok p ∧
        (p.cutsCleanly .promiseConstructorToTry = false →
          transform (.once .newlyAvailable dialect) text =
            .error (.severed .promiseConstructorToTry)) ∧
        (p.cutsCleanly .promiseConstructorToTry = true →
          match Program.parse dialect (p.revised .promiseConstructorToTry) with
          | .error fault =>
            transform (.once .newlyAvailable dialect) text =
              .error (.invalid .promiseConstructorToTry
                (fault.line (p.revised .promiseConstructorToTry)) fault.complaint)
          | .ok _ => ∃ lines : List Nat, lines.length = p.revisions .promiseConstructorToTry ∧
              transform (.once .newlyAvailable dialect) text =
                .ok ⟨p.revised .promiseConstructorToTry,
                  o.changes ++ lines.map (⟨.promiseConstructorToTry, ·⟩)⟩) ∧
        (Pass.edits .promiseConstructorToTry p = [] →
          transform (.once .newlyAvailable dialect) text = .ok o) ∧
        ((∀ e ∈ Pass.edits .promiseConstructorToTry p, p.text.cutsCleanly e.ends = true) →
          p.cutsCleanly .promiseConstructorToTry = true) := by
  cases hp : Program.parse dialect text with
  | error fault =>
    have hfault (baseline : Baseline) : transform (.once baseline dialect) text =
        .error (.parse (fault.line text) fault.complaint) := transform_of_fault hp
    rw [hfault, hfault]
  | ok program =>
    rw [transform_once hp, transform_once hp, Baseline.passes, Baseline.passes, Run.round_append]
    cases hr : Run.round dialect Baseline.commonPasses ⟨Document.ofText text, program, []⟩ with
    | error failure => rfl
    | ok run =>
      have hsound : Run.Sound dialect text run := Run.sound_of_round hp .widelyAvailable hr
      have hlast : Except.bind (.ok run) (Run.round dialect [.promiseConstructorToTry]) =
          Run.step dialect run .promiseConstructorToTry := Run.round_singleton dialect _ run
      rw [hlast]
      refine ⟨run.program, hsound.parsed, ?_, ?_, ?_, ?_⟩
      · intro hcut
        rw [hsound.step_severed hcut]
        rfl
      · intro hclean
        have hstep := hsound.step_eq hclean
        cases hcode : Program.parse dialect (run.program.revised .promiseConstructorToTry) with
        | error fault =>
          rw [hcode] at hstep
          simp only at hstep ⊢
          rw [hstep]
          rfl
        | ok program =>
          rw [hcode] at hstep
          obtain ⟨next, lines, hnext, hlength, htext, hchanges⟩ := hstep
          refine ⟨lines, hlength, ?_⟩
          rw [hnext]
          simp only [Except.map, Run.outcome, htext, hchanges]
      · intro hnone
        rw [Run.step_idle hnone rfl]
        rfl
      · exact Document.cutsCleanly_of_ends (d := Document.ofText run.program.text)

/--
Behind a mark, the pass looks for its edits three bytes too early, which here is inside a character.
-/
theorem transform_severed :
    transform (.once .widelyAvailable .ecmascript)
      (Text.ofString "\ufeff'é';new Promise(r => r(1));") =
      .ok ⟨Text.ofString "\ufeff'é';new Promise(r => r(1));", []⟩ ∧
    transform (.once .newlyAvailable .ecmascript)
      (Text.ofString "\ufeff'é';new Promise(r => r(1));") =
      .error (.severed .promiseConstructorToTry) := by
  decide +kernel

end Uplift
