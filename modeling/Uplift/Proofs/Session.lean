import Uplift.Command
import Uplift.Proofs.Disk

namespace Uplift

set_option autoImplicit true

/-- Two paths that do not lead to one place. -/
def Disk.Distinct (d : Disk) (p p' : Path) : Prop := ∀ x, d.place? p = some x → d.place? p' ≠ some x

instance (d : Disk) (p p' : Path) : Decidable (d.Distinct p p') :=
  decidable_of_iff (d.place? p = none ∨ d.place? p' ≠ d.place? p) <| by
    rw [Disk.Distinct]
    cases d.place? p with
    | none => simp
    | some x => simp

/-- What becomes of a file: it cannot be read, its text cannot be transformed, or it can. -/
inductive Fate where
  | unread (obstacle : Obstacle)
  | failed (failure : Failure)
  | made (outcome : Outcome)
deriving DecidableEq

namespace Fate

def ofFile (r : Request) (d : Disk) (p : Path) : Fate :=
  match d.read p with
  | .error e => .unread e
  | .ok text =>
    match transform (r.options p) text with
    | .error e => .failed e
    | .ok o => .made o

/-- The message about a file that fails. A cut character is no failure: it stops the command. -/
def error? (p : Path) : Fate → Option String
  | unread e => some ("failed to read " ++ p.display ++ ": " ++ e.message)
  | failed (.severed _) => none
  | failed e => some e.message
  | made _ => none

def isNameless (r : Request) (p : Path) : Bool := r.json && p.bytes.toString?.isNone

def halt? (r : Request) (p : Path) : Fate → Option Halt
  | failed (.severed _) => some .severed
  | _ => if isNameless r p then some .nameless else none

def report (r : Request) (p : Path) : Fate → List String
  | made o =>
    if r.json then (Report.json? p o).toList
    else if o.modified then Report.lines p o.changes
    else []
  | f => if r.json then ((f.error? p).bind (Report.failureJson? p)).toList else []

def complaint (r : Request) (p : Path) (f : Fate) : List String :=
  if f.halt? r p = some .nameless then ["error: path contains invalid UTF-8 characters"]
  else if r.json then []
  else (f.error? p).toList.map (p.display ++ ": " ++ ·)

def changed? (r : Request) (p : Path) : Fate → Option Outcome
  | made o => if o.modified && !isNameless r p then some o else none
  | _ => none

theorem fields_of_error {f : Fate} (r : Request) (he : f.error? p = some e) :
    f.report r p = (if r.json then (Report.failureJson? p e).toList else []) ∧
    f.halt? r p = (if isNameless r p then some .nameless else none) ∧ f.changed? r p = none := by
  cases f with
  | unread obstacle =>
    cases he
    exact ⟨rfl, rfl, rfl⟩
  | failed failure =>
    cases failure with
    | severed pass => cases he
    | parse line message =>
      cases he
      exact ⟨rfl, rfl, rfl⟩
    | invalid pass line message =>
      cases he
      exact ⟨rfl, rfl, rfl⟩
  | made o => cases he

def write? (r : Request) (p : Path) (f : Fate) : Option Text :=
  if r.write then (f.changed? r p).map Outcome.code else none

end Fate

namespace Session

open Fate

/-- A session after a file that has come to `f`. -/
def after (s : Session) (r : Request) (p : Path) (f : Fate) : Session where
  disk := match f.write? r p with
    | some c => s.disk.write p c
    | none => s.disk
  out := s.out ++ f.report r p
  err := s.err ++ f.complaint r p
  writes := s.writes ++ ((f.write? r p).map (p, ·)).toList
  pending := s.pending + if !r.write && (f.changed? r p).isSome then 1 else 0
  written := s.written + if (f.write? r p).isSome then 1 else 0
  failed := s.failed + if (f.error? p).isSome then 1 else 0
  halt := f.halt? r p

theorem outcome_eq (r : Request) (d : Disk) (p : Path) : outcome r d p =
    match ofFile r d p with
    | .made o => some (.ok o)
    | f => (f.error? p).map .error := by
  rw [outcome, ofFile]
  cases d.read p with
  | error e => rfl
  | ok text =>
    simp only
    cases transform (r.options p) text with
    | error e =>
      cases e with
      | parse line complaint => rfl
      | invalid pass line complaint => rfl
      | severed pass => rfl
    | ok o => rfl

theorem fail_eq {s : Session} {f : Fate} (h : s.halt = none) (he : f.error? p = some e)
    (r : Request) : s.fail r p e = s.after r p f := by
  obtain ⟨hreport, hhalt, hchange⟩ := fields_of_error r he
  rw [fail, after, hreport, complaint, hhalt, write?, hchange, he, isNameless, Report.failureJson?,
    Report.object?]
  cases r.json with
  | false => simp [h]
  | true =>
    cases p.bytes.toString? with
    | none => simp [print]
    | some name => simp [print, h]

theorem tell_eq {s : Session} (h : s.halt = none) (r : Request) (p : Path) (o : Outcome) :
    s.tell r p o = { s with
      out := s.out ++ (made o).report r p
      err := s.err ++
        if isNameless r p then ["error: path contains invalid UTF-8 characters"] else []
      halt := if isNameless r p then some .nameless else none } := by
  rw [tell, isNameless, report, Report.json?, Report.object?]
  cases r.json with
  | false =>
    cases o.modified with
    | false =>
      cases s
      cases h
      simp
    | true => simp [h]
  | true =>
    cases p.bytes.toString? with
    | none => simp [print]
    | some name => simp [print, h]

theorem handle_eq {s : Session} (h : s.halt = none) (r : Request) (p : Path) :
    s.handle r p = s.after r p (ofFile r s.disk p) := by
  rw [handle, outcome_eq]
  cases ofFile r s.disk p with
  | unread e => exact fail_eq h rfl r
  | failed e =>
    cases e with
    | severed pass =>
      simp [after, write?, changed?, report, complaint, error?, halt?]
    | parse line message => exact fail_eq h rfl r
    | invalid pass line message => exact fail_eq h rfl r
  | made o =>
    simp only [tell_eq h]
    cases hname : isNameless r p <;> cases hwrite : r.write <;> cases hmodified : o.modified <;>
      simp [after, keep, write?, changed?, complaint, error?, halt?, hname, hwrite, hmodified]

/-- A file that cannot be read, or whose text cannot be transformed. -/
def Fails (r : Request) (d : Disk) (p : Path) : Prop :=
  (∃ e, d.read p = .error e) ∨ ∃ text e, d.read p = .ok text ∧
    transform (r.options p) text = .error e ∧ ∀ pass, e ≠ .severed pass

def Rewrites (r : Request) (d : Disk) (p : Path) (o : Outcome) : Prop :=
  ∃ text, d.read p = .ok text ∧ transform (r.options p) text = .ok o ∧ o.modified = true

/-- A file whose text would be cut inside a character. -/
def Severs (r : Request) (d : Disk) (p : Path) : Prop :=
  ∃ text pass, d.read p = .ok text ∧ transform (r.options p) text = .error (.severed pass)

/-- A file that the command stops at. -/
def Halts (r : Request) (d : Disk) (p : Path) : Prop :=
  Severs r d p ∨ r.json = true ∧ p.bytes.toString? = none

theorem fails_iff : Fails r d p ↔ ∃ e, (ofFile r d p).error? p = some e := by
  rw [Fails, ofFile]
  cases d.read p with
  | error e => simp [error?]
  | ok text =>
    cases h : transform (r.options p) text with
    | error e => cases e <;> simp [h, error?]
    | ok o => simp [h, error?]

theorem rewrites_iff : Rewrites r d p o ↔ ofFile r d p = .made o ∧ o.modified = true := by
  rw [Rewrites, ofFile]
  cases d.read p with
  | error e => simp
  | ok text =>
    cases h : transform (r.options p) text with
    | error e => simp [h]
    | ok o' => simp [h]

theorem severs_iff : Severs r d p ↔ (ofFile r d p).halt? r p = some .severed := by
  have hname : (if isNameless r p then some Halt.nameless else none) ≠ some .severed := by
    split <;> simp
  rw [Severs, ofFile]
  cases d.read p with
  | error e => simp [halt?, hname]
  | ok text =>
    cases h : transform (r.options p) text with
    | error e => cases e <;> simp [h, halt?, hname]
    | ok o => simp [h, halt?, hname]

theorem halts_iff : Halts r d p ↔ ((ofFile r d p).halt? r p).isSome = true := by
  have hname : isNameless r p = true ↔ r.json = true ∧ p.bytes.toString? = none := by
    rw [isNameless, Bool.and_eq_true, Option.isNone_iff_eq_none]
  rw [Halts, severs_iff, ← hname]
  cases ofFile r d p with
  | unread e => cases h : isNameless r p <;> simp [halt?, h]
  | failed e => cases e <;> cases h : isNameless r p <;> simp [halt?, h]
  | made o => cases h : isNameless r p <;> simp [halt?, h]

instance (r : Request) (d : Disk) (p : Path) : Decidable (Fails r d p) :=
  decidable_of_iff (((ofFile r d p).error? p).isSome = true) <| by
    rw [fails_iff, Option.isSome_iff_exists]

instance (r : Request) (d : Disk) (p : Path) (o : Outcome) : Decidable (Rewrites r d p o) :=
  decidable_of_iff _ rewrites_iff.symm

instance (r : Request) (d : Disk) (p : Path) : Decidable (Severs r d p) :=
  decidable_of_iff _ severs_iff.symm

instance (r : Request) (d : Disk) (p : Path) : Decidable (Halts r d p) :=
  decidable_of_iff _ halts_iff.symm

theorem Rewrites.unique (h : Rewrites r d p o) (h' : Rewrites r d p o') : o' = o := by
  have heq := (rewrites_iff.1 h).1.symm.trans (rewrites_iff.1 h').1
  cases heq
  rfl

theorem Rewrites.not_fails (h : Rewrites r d p o) : ¬Fails r d p := by
  intro hfails
  obtain ⟨e, herror⟩ := fails_iff.1 hfails
  rw [(rewrites_iff.1 h).1] at herror
  cases herror

theorem ofFile_congr {d d' : Disk} (h : d'.read p = d.read p) : ofFile r d' p = ofFile r d p := by
  rw [ofFile, ofFile, h]

/-- The changes of a file are pending or written, unless the command stops at it. -/
theorem changed?_eq_some_iff :
    (ofFile r d p).changed? r p = some o ↔ Rewrites r d p o ∧ ¬Halts r d p := by
  rw [rewrites_iff, halts_iff]
  cases ofFile r d p with
  | unread e => simp [changed?]
  | failed e => simp [changed?]
  | made o' =>
    have hname : ((made o').halt? r p).isSome = isNameless r p := by
      cases h : isNameless r p <;> simp [halt?, h]
    rw [changed?, hname]
    constructor
    · intro h
      split at h
      next hboth =>
        rw [Bool.and_eq_true, Bool.not_eq_true'] at hboth
        cases h
        exact ⟨⟨rfl, hboth.1⟩, Bool.eq_false_iff.1 hboth.2⟩
      next => cases h
    · rintro ⟨⟨heq, hmodified⟩, hgoes⟩
      cases heq
      rw [hmodified, Bool.eq_false_iff.2 hgoes]
      rfl

section One

variable {s : Session} (h : s.halt = none)

include h

theorem failed_handle : 0 < (s.handle r p).failed ↔ 0 < s.failed ∨ Fails r s.disk p := by
  rw [handle_eq h, fails_iff, ← Option.isSome_iff_exists]
  cases herror : ((ofFile r s.disk p).error? p).isSome <;> simp [after, herror]

theorem pending_handle (hp : ¬Halts r s.disk p) :
    0 < (s.handle r p).pending ↔ 0 < s.pending ∨ r.write = false ∧ ∃ o, Rewrites r s.disk p o := by
  have hchange : ((ofFile r s.disk p).changed? r p).isSome = true ↔ ∃ o, Rewrites r s.disk p o := by
    simp only [Option.isSome_iff_exists, changed?_eq_some_iff, hp, not_false_eq_true, and_true]
  rw [handle_eq h, ← hchange]
  cases hwrite : r.write <;> cases hsome : ((ofFile r s.disk p).changed? r p).isSome <;>
    simp [after, hwrite, hsome]

theorem disk_handle (hwrite : r.write = true) (hp : ¬Halts r s.disk p)
    (hrewrites : Rewrites r s.disk p o) : (s.handle r p).disk = s.disk.write p o.code := by
  have hchange := changed?_eq_some_iff.2 ⟨hrewrites, hp⟩
  rw [handle_eq h, after, write?, if_pos hwrite, hchange]
  rfl

theorem disk_handle_eq (hp : r.write = true → ∀ o, Rewrites r s.disk p o → Halts r s.disk p) :
    (s.handle r p).disk = s.disk := by
  have hnone : (ofFile r s.disk p).write? r p = none := by
    rw [write?]
    split
    next hwrite =>
      rw [Option.map_eq_none_iff, Option.eq_none_iff_forall_ne_some]
      intro o ho
      obtain ⟨hrewrites, hgoes⟩ := changed?_eq_some_iff.1 ho
      exact hgoes (hp hwrite o hrewrites)
    next => rfl
  rw [handle_eq h, after, hnone]

theorem halt_handle : (s.handle r p).halt = (ofFile r s.disk p).halt? r p := by
  rw [handle_eq h, after]

theorem halt_handle_eq_none (hp : ¬Halts r s.disk p) : (s.handle r p).halt = none := by
  rw [halt_handle h, ← Option.not_isSome_iff_eq_none]
  exact fun hsome => hp (halts_iff.2 hsome)

theorem status_handle (hp : Halts r s.disk p) :
    (s.handle r p).status = if Severs r s.disk p then 101 else 2 := by
  have hstops := halts_iff.1 hp
  rw [status, halt_handle h]
  simp only [severs_iff]
  cases hcase : (ofFile r s.disk p).halt? r p with
  | none =>
    rw [hcase] at hstops
    cases hstops
  | some reason =>
    cases reason with
    | severed => rfl
    | nameless => rfl

end One

/-- What a disk has become after some of its files have been handled. -/
structure Written (r : Request) (d : Disk) (done : List Path) (d' : Disk) : Prop where
  alike : d.Alike d'
  unwritten : r.write = false → d' = d
  rewritten : r.write = true → ∀ p ∈ done, ∀ o, Rewrites r d p o →
    ∃ x, d.place? p = some x ∧ d'.root.look x = some (some o.code)
  kept : ∀ x, (r.write = true → ∀ p ∈ done, ∀ o, Rewrites r d p o → d.place? p ≠ some x) →
    d'.root.look x = d.root.look x

theorem Written.read (h : Written r d done d') (hp : ∀ q ∈ done, d.Distinct q p) :
    d'.read p = d.read p := by
  apply Disk.read_congr (h.alike.place p)
  intro x hx
  apply h.kept
  intro _ q hq _ _ hplace
  exact hp q hq x hplace hx

theorem Written.write (h : Written r d done d') (hp : ∀ q ∈ done, d.Distinct q p)
    (hwrite : r.write = true) (hrewrites : Rewrites r d p o) :
    Written r d (done ++ [p]) (d'.write p o.code) := by
  obtain ⟨text, htext, -⟩ := id hrewrites
  obtain ⟨x, hx, -⟩ := Disk.exists_place_of_read htext
  have hread : d'.read p = .ok text := (h.read hp).trans htext
  have hlook := Disk.look_write hread ((h.alike.place? p).trans hx) o.code
  constructor
  case alike => exact h.alike.trans (Disk.alike_write hread o.code)
  case unwritten =>
    intro hnot
    cases hwrite.symm.trans hnot
  case rewritten =>
    intro _ q hq o' hq'
    obtain hq | hq := List.mem_append.1 hq
    · obtain ⟨y, hy, hcode⟩ := h.rewritten hwrite q hq o' hq'
      have hne : y ≠ x := fun heq => hp q hq x (heq ▸ hy) hx
      exact ⟨y, hy, by rw [hlook, if_neg hne, hcode]⟩
    · cases List.mem_singleton.1 hq
      exact ⟨x, hx, by rw [hlook, if_pos rfl, hrewrites.unique hq']⟩
  case kept =>
    intro y hy
    have hne : y ≠ x := fun heq => hy hwrite p (by simp) o hrewrites (heq ▸ hx)
    rw [hlook, if_neg hne]
    apply h.kept
    intro hwrite q hq
    exact hy hwrite q (List.mem_append_left _ hq)

theorem Written.skip (h : Written r d done d') (hp : r.write = true → ∀ o, ¬Rewrites r d p o) :
    Written r d (done ++ [p]) d' := by
  constructor
  case alike => exact h.alike
  case unwritten => exact h.unwritten
  case rewritten =>
    intro hwrite q hq o hq'
    obtain hq | hq := List.mem_append.1 hq
    · exact h.rewritten hwrite q hq o hq'
    · cases List.mem_singleton.1 hq
      exact absurd hq' (hp hwrite o)
  case kept =>
    intro x hx
    apply h.kept
    intro hwrite q hq
    exact hx hwrite q (List.mem_append_left _ hq)

structure After (r : Request) (d : Disk) (done : List Path) (s : Session) : Prop where
  disk : Written r d done s.disk
  failed : 0 < s.failed ↔ ∃ p ∈ done, Fails r d p
  pending : 0 < s.pending ↔ r.write = false ∧ ∃ p ∈ done, ∃ o, Rewrites r d p o
  going : s.halt = none

theorem After.start (r : Request) (d : Disk) : After r d [] { disk := d } where
  disk := ⟨.refl d, fun _ => rfl, by simp, fun _ _ => rfl⟩
  failed := by simp
  pending := by simp
  going := rfl

theorem After.halts_iff (h : After r d done s) (hp : ∀ q ∈ done, d.Distinct q p) :
    Halts r s.disk p ↔ Halts r d p := by
  rw [Session.halts_iff, Session.halts_iff, ofFile_congr (h.disk.read hp)]

theorem After.handle (h : After r d done s) (hp : ∀ q ∈ done, d.Distinct q p)
    (hgoes : ¬Halts r d p) : After r d (done ++ [p]) (s.handle r p) := by
  have hread := h.disk.read hp
  have hfails : Fails r s.disk p ↔ Fails r d p := by rw [fails_iff, fails_iff, ofFile_congr hread]
  have hrewrites (o : Outcome) : Rewrites r s.disk p o ↔ Rewrites r d p o := by
    rw [rewrites_iff, rewrites_iff, ofFile_congr hread]
  have hgo : ¬Halts r s.disk p := fun hhalts => hgoes ((h.halts_iff hp).1 hhalts)
  constructor
  case disk =>
    by_cases hchanges : r.write = true ∧ ∃ o, Rewrites r d p o
    · obtain ⟨hwrite, o, hchanges⟩ := hchanges
      rw [disk_handle h.going hwrite hgo ((hrewrites o).2 hchanges)]
      exact h.disk.write hp hwrite hchanges
    · have hskip : r.write = true → ∀ o, ¬Rewrites r d p o :=
        fun hwrite o h => hchanges ⟨hwrite, o, h⟩
      rw [disk_handle_eq h.going]
      · exact h.disk.skip hskip
      · intro hwrite o hchange
        exact absurd ((hrewrites o).1 hchange) (hskip hwrite o)
  case failed =>
    rw [failed_handle h.going, h.failed, hfails]
    simp [or_and_right, exists_or]
  case pending =>
    rw [pending_handle h.going hgo, h.pending]
    simp [hrewrites, or_and_right, exists_or, and_or_left]
  case going => exact halt_handle_eq_none h.going hgo

/-- Either all files are handled, or those before the first one that the command stops at. -/
theorem After.handleAll (h : After r d done s) (hfiles : (done ++ files).Pairwise d.Distinct) :
    ((∀ p ∈ files, ¬Halts r d p) ∧ After r d (done ++ files) (s.handleAll r files)) ∨
    ∃ before p rest s', files = before ++ p :: rest ∧ (∀ q ∈ before, ¬Halts r d q) ∧ Halts r d p ∧
      After r d (done ++ before) s' ∧ (∀ q ∈ done ++ before, d.Distinct q p) ∧
      s.handleAll r files = s'.handle r p := by
  induction files generalizing done s with
  | nil =>
    refine .inl ⟨nofun, ?_⟩
    rw [List.append_nil]
    exact h
  | cons p files ih =>
    have hp : ∀ q ∈ done, d.Distinct q p := by
      intro q hq
      exact (List.pairwise_append.1 hfiles).2.2 q hq p List.mem_cons_self
    rw [Session.handleAll]
    by_cases hhalts : Halts r d p
    · have hstop : (s.handle r p).halt.isSome = true := by
        rw [halt_handle h.going, ← Session.halts_iff]
        exact (h.halts_iff hp).2 hhalts
      refine .inr ⟨[], p, files, s, rfl, nofun, hhalts, ?_, ?_, if_pos hstop⟩
      · rw [List.append_nil]
        exact h
      · rw [List.append_nil]
        exact hp
    · have hnext := h.handle hp hhalts
      have hgo : ¬(s.handle r p).halt.isSome = true := by
        rw [hnext.going]
        exact Bool.false_ne_true
      rw [if_neg hgo]
      rw [List.append_cons] at hfiles ⊢
      obtain ⟨hrest, hall⟩ | ⟨before, q, rest, s', rfl, hbefore, hq, hafter, hdistinct, heq⟩ :=
        ih hnext hfiles
      · exact .inl ⟨List.forall_mem_cons.2 ⟨hhalts, hrest⟩, hall⟩
      · rw [List.append_assoc] at hafter hdistinct
        exact .inr ⟨p :: before, q, rest, s', rfl, List.forall_mem_cons.2 ⟨hhalts, hbefore⟩, hq,
          hafter, hdistinct, heq⟩

theorem status_iff {s : Session} (h : s.halt = none) :
    (s.status = 2 ↔ 0 < s.failed) ∧ (s.status = 1 ↔ ¬0 < s.failed ∧ 0 < s.pending) ∧
      (s.status = 0 ↔ ¬0 < s.failed ∧ ¬0 < s.pending) := by
  rw [status, h]
  by_cases hfailed : 0 < s.failed
  · simp [hfailed]
  · by_cases hpending : 0 < s.pending
    · simp [hfailed, hpending]
    · simp [hfailed, hpending]

theorem disk_run (r : Request) (d : Disk) :
    (run r d).disk = (handleAll r { disk := d } (r.files d)).disk := by
  simp only [run]
  split <;> rfl

theorem status_run (r : Request) (d : Disk) :
    (run r d).status = (handleAll r { disk := d } (r.files d)).status := by
  simp only [run]
  split <;> rfl

end Session

/-- The files of a request before the first one that the command stops at. -/
def Request.handled (r : Request) (d : Disk) : List Path :=
  (r.files d).takeWhile fun p => ¬Session.Halts r d p

theorem Request.handled_eq {r : Request} {d : Disk} (h : ∀ p ∈ r.files d, ¬Session.Halts r d p) :
    r.handled d = r.files d := by
  have hall := @List.takeWhile_append_of_pos _ _ _ [] fun p hp => decide_eq_true (h p hp)
  rwa [List.takeWhile_nil, List.append_nil] at hall

theorem Request.handled_eq_before {r : Request} {d : Disk}
    (hfiles : r.files d = before ++ p :: rest) (hbefore : ∀ q ∈ before, ¬Session.Halts r d q)
    (hp : Session.Halts r d p) : r.handled d = before := by
  rw [handled, hfiles, List.takeWhile_append_of_pos fun q hq => decide_eq_true (hbefore q hq),
    List.takeWhile_cons_of_neg (by simpa using hp), List.append_nil]

namespace Session

theorem run_cases (h : (r.files d).Pairwise d.Distinct) :
    ((∀ p ∈ r.files d, ¬Halts r d p) ∧
      After r d (r.files d) (handleAll r { disk := d } (r.files d))) ∨
    ∃ before p rest s, r.files d = before ++ p :: rest ∧ (∀ q ∈ before, ¬Halts r d q) ∧
      Halts r d p ∧ After r d before s ∧ (∀ q ∈ before, d.Distinct q p) ∧
      handleAll r { disk := d } (r.files d) = s.handle r p :=
  (After.start r d).handleAll h

theorem written_run (h : (r.files d).Pairwise d.Distinct) :
    Written r d (r.handled d) (run r d).disk := by
  rw [disk_run]
  obtain ⟨hgo, hall⟩ | ⟨before, p, rest, s, hfiles, hbefore, hp, hafter, hdistinct, heq⟩ :=
    run_cases h
  · rw [Request.handled_eq hgo]
    exact hall.disk
  · have hhalts := (hafter.halts_iff hdistinct).2 hp
    rw [Request.handled_eq_before hfiles hbefore hp, heq,
      disk_handle_eq hafter.going fun _ _ _ => hhalts]
    exact hafter.disk

/--
Where no two selected paths lead to the same place, every file before the first one that the command
stops at is rewritten from its own original text if it is selected and has changes, and every other
file is kept, whatever fails. If the command stops nowhere, the status tells the failures, or else
the changes not written. It stops at a text that would be cut inside a character, and at a path that
is no text if it is to be told in JSON.
-/
theorem disk_and_status_run (r : Request) (d : Disk) (h : (r.files d).Pairwise d.Distinct) :
    (r.write = false → (run r d).disk = d) ∧
    (r.write = true → ∀ p ∈ r.handled d, ∀ o, Rewrites r d p o →
      ∃ x, d.place? p = some x ∧ (run r d).disk.root.look x = some (some o.code)) ∧
    (∀ x, (∀ p ∈ r.handled d, ∀ o, Rewrites r d p o → d.place? p ≠ some x) →
      (run r d).disk.root.look x = d.root.look x) ∧
    (∀ p, (run r d).disk.place? p = d.place? p) ∧
    ((∀ p ∈ r.files d, ¬Halts r d p) → r.handled d = r.files d ∧
      ((run r d).status = 2 ↔ ∃ p ∈ r.files d, Fails r d p) ∧
      ((run r d).status = 1 ↔
        (¬∃ p ∈ r.files d, Fails r d p) ∧ r.write = false ∧
          ∃ p ∈ r.files d, ∃ o, Rewrites r d p o) ∧
      ((run r d).status = 0 ↔
        (¬∃ p ∈ r.files d, Fails r d p) ∧
          ¬(r.write = false ∧ ∃ p ∈ r.files d, ∃ o, Rewrites r d p o))) ∧
    (∀ p rest, r.files d = r.handled d ++ p :: rest →
      Halts r d p ∧ (run r d).status = if Severs r d p then 101 else 2) := by
  have hwritten := written_run h
  refine ⟨hwritten.unwritten, hwritten.rewritten, fun x hx => hwritten.kept x fun _ => hx,
    hwritten.alike.place?, ?_, ?_⟩
  · intro hgo
    refine ⟨Request.handled_eq hgo, ?_⟩
    obtain ⟨-, hall⟩ | ⟨before, p, rest, s, hfiles, -, hp, -⟩ := run_cases h
    · rw [status_run, ← hall.pending, ← hall.failed]
      exact status_iff hall.going
    · exact absurd hp (hgo p (hfiles ▸ List.mem_append_right _ List.mem_cons_self))
  · intro p rest hsplit
    obtain ⟨hgo, -⟩ | ⟨before, q, others, s, hfiles, hbefore, hq, hafter, hdistinct, heq⟩ :=
      run_cases h
    · rw [Request.handled_eq hgo] at hsplit
      have hlength := congrArg List.length hsplit
      simp at hlength
    · rw [Request.handled_eq_before hfiles hbefore hq, hfiles] at hsplit
      obtain ⟨rfl, -⟩ := List.cons.inj (List.append_cancel_left hsplit)
      refine ⟨hq, ?_⟩
      rw [status_run, heq, status_handle hafter.going ((hafter.halts_iff hdistinct).2 hq)]
      simp only [severs_iff, ofFile_congr (hafter.disk.read hdistinct)]

def textFile (name content : String) : Entry := .file (Text.ofString name) (Text.ofString content)

def mixed : Disk :=
  { root := .directory [] [textFile "a.js" "var a = 1;\n", textFile "b.js" "var = ;\n",
      .file (Text.ofString "c.js") [255], textFile "d.txt" "var d = 1;\n"] }

def writeAll : Request := { paths := [.ofString "."], write := true }

theorem disk_and_status_run_mixed :
    Request.ofArguments {} (["--write", "."].map Text.ofString) = .run writeAll ∧
    writeAll.files mixed = ["./a.js", "./b.js", "./c.js"].map Path.ofString ∧
    (writeAll.files mixed).Pairwise mixed.Distinct ∧
    (run writeAll mixed).disk.root.look [Text.ofString "a.js"] =
      some (some (Text.ofString "const a = 1;\n")) ∧
    (run writeAll mixed).disk.root.look [Text.ofString "c.js"] = some (some [255]) ∧
    (run writeAll mixed).status = 2 := by
  have hfiles : writeAll.files mixed = ["./a.js", "./b.js", "./c.js"].map Path.ofString := by
    decide +kernel
  have hdistinct : (writeAll.files mixed).Pairwise mixed.Distinct := by
    rw [hfiles]
    decide +kernel
  have hgo : ∀ p ∈ writeAll.files mixed, ¬Halts writeAll mixed p := by
    rw [hfiles]
    decide +kernel
  have ha :
      Rewrites writeAll mixed (.ofString "./a.js")
        ⟨Text.ofString "const a = 1;\n", [⟨.varToConst, 1⟩]⟩ := by
    decide +kernel
  have hc : Fails writeAll mixed (.ofString "./c.js") := by decide +kernel
  obtain ⟨-, hrewritten, hkept, -, hstatus, -⟩ := disk_and_status_run writeAll mixed hdistinct
  obtain ⟨hhandled, htwo, -⟩ := hstatus hgo
  rw [hhandled, hfiles] at hrewritten hkept
  rw [hfiles] at htwo
  refine ⟨by decide +kernel, hfiles, hdistinct, ?_, ?_, ?_⟩
  · have hplace : mixed.place? (.ofString "./a.js") = some [Text.ofString "a.js"] := by
      decide +kernel
    obtain ⟨x, hx, hcode⟩ := hrewritten rfl (.ofString "./a.js") (by simp) _ ha
    cases hx.symm.trans hplace
    exact hcode
  · apply hkept
    intro p hp o hrewrites hplace
    simp only [List.map_cons, List.map_nil, List.mem_cons, List.not_mem_nil, or_false] at hp
    obtain rfl | rfl | rfl := hp
    · exact absurd hplace (by decide +kernel)
    · exact absurd hplace (by decide +kernel)
    · exact hrewrites.not_fails hc
  · exact htwo.2 ⟨.ofString "./c.js", by simp, hc⟩

def marked : Disk :=
  { root := .directory [] [textFile "a.js" "\ufeff// café\r\nvar x = 1;\n",
    textFile "b.js" "var y = 1;\n"] }

def writeBoth : Request := { paths := ["a.js", "b.js"].map Path.ofString, write := true }

/-- The command stops at the first file, and leaves the second one as it is. -/
theorem run_stops_marked :
    Request.ofArguments {} (["--write", "a.js", "b.js"].map Text.ofString) = .run writeBoth ∧
    (writeBoth.files marked).Pairwise marked.Distinct ∧
    (∃ o, Rewrites writeBoth marked (.ofString "b.js") o) ∧
    Path.ofString "b.js" ∈ writeBoth.files marked ∧
    (run writeBoth marked).disk.root.look [Text.ofString "b.js"] =
      some (some (Text.ofString "var y = 1;\n")) ∧
    (run writeBoth marked).status = 101 := by
  refine ⟨by decide +kernel, by decide +kernel, ?_, by decide +kernel, by decide +kernel,
    by decide +kernel⟩
  exact ⟨⟨Text.ofString "const y = 1;\n", [⟨.varToConst, 1⟩]⟩, by decide +kernel⟩

end Session

end Uplift
