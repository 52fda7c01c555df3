import Uplift.Transform
import Uplift.Proofs.Origin

namespace Uplift

set_option autoImplicit true

theorem Program.parse_eq_of_mem {text : Text} {p : Program}
    (h : p ∈ (parse dialect text).toOption) : parse dialect text = .ok p := by
  cases hresult : parse dialect text with
  | error fault =>
    rw [hresult] at h
    cases h
  | ok q =>
    rw [hresult] at h
    cases h
    rfl

theorem Program.text_of_parse {program : Program} {text : Text}
    (h : Program.parse dialect text = .ok program) : program.text = text := by
  rw [Program.parse] at h
  cases hp : Grammar.parse dialect (Program.withoutMark text.chars) with
  | error fault =>
    rw [hp] at h
    cases h
  | ok tree =>
    rw [hp] at h
    cases h
    rfl

namespace Run

/-- Whether a pass cuts no character of a text, neither to find its edits nor to apply them. -/
def cutsCleanly (run : Run) (pass : Pass) : Bool :=
  run.program.text.cutsCleanly (pass.cuts run.program) &&
    run.document.text.cutsCleanly (run.document.cuts (pass.edits run.program))

theorem applyCleanly_eq (run : Run) (pass : Pass) :
    (pass.edits? run.program).bind run.document.applyCleanly =
      if run.cutsCleanly pass then some (run.document.apply (pass.edits run.program))
        else none := by
  rw [Pass.edits?, cutsCleanly]
  cases run.program.text.cutsCleanly (pass.cuts run.program) with
  | false => rfl
  | true => rfl

theorem step_eq (dialect : Dialect) (run : Run) (pass : Pass) :
    (run.cutsCleanly pass = false ∧ step dialect run pass = .error (.severed pass)) ∨
    run.cutsCleanly pass = true ∧
    ((∃ document, (run.document.apply (pass.edits run.program)) = (document, []) ∧
      step dialect run pass = .ok { run with document }) ∨
    ∃ document line lines,
      (run.document.apply (pass.edits run.program)) = (document, line :: lines) ∧
      step dialect run pass = match Program.parse dialect document.text with
        | .ok program =>
          .ok ⟨document, program, run.changes ++ (line :: lines).map (⟨pass, ·⟩)⟩
        | .error fault => .error (.invalid pass (fault.line document.text) fault.complaint)) := by
  cases hclean : run.cutsCleanly pass with
  | false =>
    refine .inl ⟨rfl, ?_⟩
    rw [step, applyCleanly_eq, hclean]
    rfl
  | true =>
    refine .inr ⟨rfl, ?_⟩
    rw [step, applyCleanly_eq, hclean, if_pos rfl]
    rcases run.document.apply (pass.edits run.program) with ⟨document, _ | ⟨line, lines⟩⟩
    · exact .inl ⟨document, rfl, rfl⟩
    · exact .inr ⟨document, line, lines, rfl, rfl⟩

theorem step_idle {pass : Pass} (h : pass.edits run.program = [])
    (hclean : run.program.text.cutsCleanly (pass.cuts run.program) = true) :
    step dialect run pass = .ok run := by
  rw [step, Pass.edits?, if_pos hclean, h]
  rfl

theorem step_ok {next : Run} {pass : Pass} (h : step dialect run pass = .ok next) :
    ((run.document.apply (pass.edits run.program)).2 = [] ∧
      next = { run with document := (run.document.apply (pass.edits run.program)).1 }) ∨
    (run.document.apply (pass.edits run.program)).2 ≠ [] ∧
      ∃ program, Program.parse dialect (run.document.apply (pass.edits run.program)).1.text =
        .ok program ∧
        next = ⟨(run.document.apply (pass.edits run.program)).1, program,
          run.changes ++ (run.document.apply (pass.edits run.program)).2.map (⟨pass, ·⟩)⟩ := by
  rcases step_eq dialect run pass with ⟨_, he⟩ | ⟨_,
    ⟨document, ha, he⟩ | ⟨document, line, lines, ha, he⟩⟩
  · rw [he] at h
    cases h
  · rw [he] at h
    cases h
    rw [ha]
    exact .inl ⟨rfl, rfl⟩
  · rw [he] at h
    split at h
    next program hp =>
      cases h
      rw [ha]
      exact .inr ⟨List.cons_ne_nil _ _, program, hp, rfl⟩
    next => cases h

/-- The program of a run is the parse of its text, and its changes name lines of the first text. -/
structure Sound (dialect : Dialect) (first : Text) (run : Run) : Prop where
  parsed : Program.parse dialect run.document.text = .ok run.program
  accounted : ∃ m, run.document.Accounted first m
  lines : ∀ c ∈ run.changes, 1 ≤ c.line ∧ c.line ≤ first.count Text.newline + 1
  unchanged : run.changes = [] → run.document.text = first

theorem Sound.start (h : Run.start dialect text = .ok run) : Sound dialect text run := by
  rw [Run.start] at h
  split at h
  next program hp =>
    cases h
    exact ⟨hp, ⟨_, .ofText text⟩, fun _ hc => (nomatch hc), fun _ => rfl⟩
  next => cases h

theorem Sound.revised {program : Program} (h : Sound dialect first run) (edits : List Edit)
    (hp : Program.parse dialect (run.document.apply edits).1.text = .ok program)
    (hne : (run.document.apply edits).2 ≠ []) (pass : Pass) :
    Sound dialect first ⟨(run.document.apply edits).1, program,
      run.changes ++ (run.document.apply edits).2.map (⟨pass, ·⟩)⟩ := by
  obtain ⟨m, hm⟩ := h.accounted
  refine ⟨hp, ⟨_, hm.apply edits⟩, ?_, ?_⟩
  · intro c hc
    rcases List.mem_append.1 hc with hc | hc
    · exact h.lines c hc
    · rw [Document.lines_apply, List.map_map] at hc
      obtain ⟨e, _, rfl⟩ := List.mem_map.1 hc
      exact hm.originAt_bounds _
  · intro hc
    exact absurd (List.map_eq_nil_iff.1 (List.append_eq_nil_iff.1 hc).2) hne

theorem Sound.kept (h : Sound dialect first run) (edits : List Edit)
    (hnone : (run.document.apply edits).2 = []) :
    Sound dialect first { run with document := (run.document.apply edits).1 } := by
  obtain ⟨m, hm⟩ := h.accounted
  have htext := run.document.text_apply_of_no_lines edits hnone
  exact ⟨htext ▸ h.parsed, ⟨_, hm.apply edits⟩, h.lines, fun hc => htext.trans (h.unchanged hc)⟩

theorem Sound.step {pass : Pass} (h : Sound dialect first run)
    (hs : Run.step dialect run pass = .ok next) : Sound dialect first next := by
  rcases step_ok hs with ⟨hnone, rfl⟩ | ⟨hne, program, hp, rfl⟩
  · exact h.kept _ hnone
  · exact h.revised _ hp hne pass

/-- The states of a run over a text, each with the passes to come in its round. -/
inductive Reached (options : Options) (text : Text) : List Pass → Run → Prop where
  | start : Run.start options.dialect text = .ok run →
      Reached options text options.baseline.passes run
  | step {pass : Pass} : Reached options text (pass :: rest) run →
    run.step options.dialect pass = .ok next → Reached options text rest next
  | round : Reached options text [] run → Reached options text options.baseline.passes run

theorem Reached.sound (h : Reached options text passes run) : Sound options.dialect text run := by
  induction h with
  | start hs => exact .start hs
  | step _ hs ih => exact ih.step hs
  | round _ ih => exact ih

/-- A run ends at the end of a round, or fails at a pass in a state that it reached. -/
def Ends (options : Options) (text : Text) : Except Failure Run → Prop
  | .ok run => Reached options text [] run
  | .error failure => ∃ pass rest run, Reached options text (pass :: rest) run ∧
      run.step options.dialect pass = .error failure

theorem Reached.ends_round (h : Reached options text passes run) :
    Ends options text (Run.round options.dialect passes run) := by
  rw [Run.round]
  induction passes generalizing run with
  | nil => exact h
  | cons pass rest ih =>
    rw [List.foldlM_cons]
    cases hs : run.step options.dialect pass with
    | error failure => exact ⟨pass, rest, run, h, hs⟩
    | ok next => exact ih (.step h hs)

theorem rounds_succ (dialect : Dialect) (passes : List Pass) (n : Nat) (run : Run) :
    rounds dialect passes (n + 1) run = match round dialect passes run with
      | .ok next =>
        if next.changes.length = run.changes.length then .ok next else rounds dialect passes n next
      | .error failure => .error failure := by
  rw [rounds]
  cases round dialect passes run with
  | ok next => rfl
  | error failure => rfl

theorem Reached.ends_rounds (h : Reached options text options.baseline.passes run) (n : Nat) :
    Ends options text (Run.rounds options.dialect options.baseline.passes (n + 1) run) := by
  have hround := h.ends_round
  rw [rounds_succ]
  cases hr : Run.round options.dialect options.baseline.passes run with
  | error failure =>
    rw [hr] at hround
    exact hround
  | ok next =>
    rw [hr] at hround
    simp only
    split
    · exact hround
    · cases n with
      | zero => exact hround
      | succ n => exact Reached.ends_rounds (.round hround) n

end Run

theorem Convergence.rounds_pos (c : Convergence) : ∃ n, c.rounds = n + 1 := by
  cases c with
  | singlePass => exact ⟨0, rfl⟩
  | untilStable n => exact ⟨max n 1 - 1, by simp only [rounds]; omega⟩

def Run.outcome (run : Run) : Outcome := ⟨run.document.text, run.changes⟩

theorem transform_of_parse {options : Options}
    (h : Program.parse options.dialect text = .ok program) :
    transform options text =
      (Run.rounds options.dialect options.baseline.passes options.convergence.rounds
        ⟨Document.ofText text, program, []⟩).map Run.outcome := by
  rw [transform, Run.start, h]
  simp only [bind, Except.bind]
  cases Run.rounds options.dialect options.baseline.passes options.convergence.rounds
    ⟨Document.ofText text, program, []⟩ <;> rfl

theorem transform_of_fault {options : Options}
    (h : Program.parse options.dialect text = .error fault) :
    transform options text = .error (.parse (fault.line text) fault.complaint) := by
  rw [transform, Run.start, h]
  rfl

theorem Run.start_eq {program : Program} (h : Program.parse dialect text = .ok program) :
    Run.start dialect text = .ok ⟨Document.ofText text, program, []⟩ := by
  rw [Run.start, h]

theorem transform_ends {options : Options} (h : Program.parse options.dialect text = .ok program) :
    ∃ result, transform options text = result.map Run.outcome ∧ Run.Ends options text result := by
  obtain ⟨n, hn⟩ := options.convergence.rounds_pos
  refine ⟨_, transform_of_parse h, ?_⟩
  rw [hn]
  exact (Run.Reached.start (Run.start_eq h)).ends_rounds n

theorem Run.step_error {pass : Pass} {failure : Failure}
    (h : Run.step dialect run pass = .error failure) :
    failure = .severed pass ∨ ∃ line complaint, failure = .invalid pass line complaint := by
  rcases step_eq dialect run pass with ⟨_, he⟩ | ⟨_,
    ⟨document, ha, he⟩ | ⟨document, line, lines, ha, he⟩⟩
  · rw [he] at h
    cases h
    exact .inl rfl
  · rw [he] at h
    cases h
  · rw [he] at h
    split at h
    · cases h
    · cases h
      exact .inr ⟨_, _, rfl⟩

theorem transform_ok (h : transform options text = .ok o) :
    ∃ run, Run.Reached options text [] run ∧ run.outcome = o := by
  cases hp : Program.parse options.dialect text with
  | error fault =>
    rw [transform_of_fault hp] at h
    cases h
  | ok program =>
    obtain ⟨result, he, hends⟩ := transform_ends hp
    rw [he] at h
    cases result with
    | error failure => cases h
    | ok run =>
      cases h
      exact ⟨run, hends, rfl⟩

/-- A run fails because its text does not parse, or at a pass in a state that it reached. -/
theorem transform_error {failure : Failure} (h : transform options text = .error failure) :
    (∃ fault, Program.parse options.dialect text = .error fault ∧
      failure = .parse (fault.line text) fault.complaint) ∨
    ∃ pass rest run, Run.Reached options text (pass :: rest) run ∧
      run.step options.dialect pass = .error failure := by
  cases hp : Program.parse options.dialect text with
  | error fault =>
    rw [transform_of_fault hp] at h
    cases h
    exact .inl ⟨fault, rfl, rfl⟩
  | ok program =>
    obtain ⟨result, he, hends⟩ := transform_ends hp
    rw [he] at h
    cases result with
    | error failure' =>
      cases h
      exact .inr hends
    | ok run => cases h

/--
A run fails to parse exactly the texts that do not parse. What it makes of the others parses, is the
text itself if nothing changed, and has changes on lines of the text only. In every state that the
run reaches, the program is the parse of the text.
-/
theorem transform_sound (options : Options) (text : Text) :
    (∀ line complaint, transform options text = .error (.parse line complaint) ↔
      ∃ fault, Program.parse options.dialect text = .error fault ∧
        line = fault.line text ∧ complaint = fault.complaint) ∧
    (∀ o, transform options text = .ok o →
      (∃ program, Program.parse options.dialect o.code = .ok program) ∧
      (o.modified = true ↔ o.changes ≠ []) ∧ (o.changes = [] → o.code = text) ∧
      (∀ c ∈ o.changes, 1 ≤ c.line ∧ c.line ≤ (LineIndex.ofText text).size) ∧
      ∃ run, Run.Reached options text [] run ∧ run.outcome = o) ∧
    (∀ pass line complaint, transform options text = .error (.invalid pass line complaint) →
      ∃ rest run, Run.Reached options text (pass :: rest) run ∧
        run.step options.dialect pass = .error (.invalid pass line complaint)) ∧
    ∀ passes run, Run.Reached options text passes run →
      Program.parse options.dialect run.document.text = .ok run.program := by
  refine ⟨?_, ?_, ?_, fun passes run h => h.sound.parsed⟩
  · intro line complaint
    constructor
    · intro ht
      rcases transform_error ht with ⟨fault, hp, he⟩ | ⟨pass, rest, run, _, hs⟩
      · cases he
        exact ⟨fault, hp, rfl, rfl⟩
      · rcases Run.step_error hs with he | ⟨_, _, he⟩ <;> cases he
    · rintro ⟨fault, hp, rfl, rfl⟩
      exact transform_of_fault hp
  · intro o ht
    obtain ⟨run, hrun, rfl⟩ := transform_ok ht
    have hsound := hrun.sound
    refine ⟨⟨run.program, hsound.parsed⟩, ?_, hsound.unchanged, ?_, run, hrun, rfl⟩
    · rw [Outcome.modified, Bool.not_eq_true', ← Bool.not_eq_true, List.isEmpty_iff]
    · rw [LineIndex.size_ofText]
      exact hsound.lines
  · intro pass line complaint ht
    rcases transform_error ht with ⟨fault, _, he⟩ | ⟨pass', rest, run, hrun, hs⟩
    · cases he
    · rcases Run.step_error hs with he | ⟨_, _, he⟩ <;> cases he
      exact ⟨rest, run, hrun, hs⟩

end Uplift
