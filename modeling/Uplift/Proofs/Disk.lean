import Uplift.Disk

namespace Uplift

set_option autoImplicit true

namespace Entry

def content? : Entry → Option Text
  | file _ c => some c
  | directory _ _ => none

/-- What stands at a place: nothing, a directory, or a file with its content. -/
def look (e : Entry) (place : List Text) : Option (Option Text) := (e.find? place).map content?

theorem eq_of_find?_file (h : (file n c).find? place = some e) : e = file n c := by
  cases place with
  | nil =>
    cases h
    rfl
  | cons s rest => cases h

theorem look_directory (n : Text) (entries : List Entry) (s : Text) (rest : List Text) :
    (directory n entries).look (s :: rest) = (entries.find? (·.name == s)).bind (·.look rest) := by
  rw [look, find?, entry?]
  cases entries.find? (·.name == s) with
  | none => rfl
  | some e => rfl

theorem find?_put (new : Entry) (entries : List Entry) (s : Text) :
    (put new entries).find? (·.name == s) =
      if new.name = s then some new else entries.find? (·.name == s) := by
  induction entries with
  | nil =>
    rw [put, List.find?_singleton]
    simp only [beq_iff_eq, List.find?_nil]
  | cons e rest ih =>
    by_cases hsame : e.name = new.name
    · rw [put, if_pos hsame, List.find?_cons, List.find?_cons, hsame]
      by_cases hs : new.name = s
      · simp only [hs, beq_self_eq_true, if_true]
      · simp only [beq_eq_false_iff_ne.2 hs, hs, if_false]
    · rw [put, if_neg hsame, List.find?_cons, List.find?_cons, ih]
      by_cases hs : e.name = s
      · have hnew : new.name ≠ s := by
          intro hnew
          exact hsame (hs.trans hnew.symm)
        simp only [hs, beq_self_eq_true, hnew, if_false]
      · simp only [beq_eq_false_iff_ne.2 hs]

theorem name_write (c : Text) (place : List Text) (e : Entry) :
    (write c place e).name = e.name := by
  cases place with
  | nil => rfl
  | cons s rest =>
    cases e with
    | file n old => cases rest <;> rfl
    | directory n entries => cases rest <;> rfl

theorem look_put (he : entries.find? (·.name == s) = some e) (hname : e'.name = s)
    (hlook : ∀ q, e'.look q = if q = rest then some (some new) else e.look q) (q : List Text) :
    (directory n (put e' entries)).look q =
      if q = s :: rest then some (some new) else (directory n entries).look q := by
  cases q with
  | nil => rfl
  | cons k q =>
    rw [look_directory, look_directory, find?_put, hname]
    by_cases hk : s = k
    · subst k
      rw [if_pos rfl, he, Option.bind_some, Option.bind_some, hlook]
      simp only [List.cons.injEq, true_and]
    · have hne : k :: q ≠ s :: rest := fun heq => hk (List.cons.inj heq).1.symm
      rw [if_neg hk, if_neg hne]

theorem look_write (h : (directory n entries).look place = some (some old)) (new : Text)
    (q : List Text) :
    ((directory n entries).write new place).look q =
      if q = place then some (some new) else (directory n entries).look q := by
  induction place generalizing n entries q with
  | nil => cases h
  | cons s rest ih =>
    rw [look_directory, Option.bind_eq_some_iff] at h
    obtain ⟨e, he, hlook⟩ := h
    cases rest with
    | nil =>
      cases e with
      | directory m inner => cases hlook
      | file m c =>
        apply look_put he rfl
        intro q
        cases q with
        | nil => rfl
        | cons k q => rfl
    | cons k rest =>
      cases e with
      | file m c => cases hlook
      | directory m inner =>
        have hname : (directory m inner).name = s := by simpa using List.find?_some he
        have hwrite : (directory n entries).write new (s :: k :: rest) =
            directory n (put ((directory m inner).write new (k :: rest)) entries) := by
          rw [write, he, Option.getD_some]
          exact List.cons_ne_nil k rest
        rw [hwrite]
        apply look_put he
        · rw [name_write]
          exact hname
        · exact ih hlook

end Entry

theorem Path.split_ne_nil (cs : Text) : split cs ≠ [] := by
  cases cs with
  | nil => exact List.cons_ne_nil _ _
  | cons c cs =>
    rw [split]
    split
    · exact List.cons_ne_nil _ _
    · split
      · exact List.cons_ne_nil _ _
      · exact List.cons_ne_nil _ _

theorem Path.segments_ne_nil (p : Path) : p.segments ≠ [] := split_ne_nil p.bytes

namespace Disk

/-- The place that a path leads to, if it leads anywhere. -/
def place? (d : Disk) (p : Path) : Option (List Text) := (d.place p).toOption

/-- Two disks with the same directories, and files at the same places. -/
structure Alike (d d' : Disk) : Prop where
  working : d'.working = d.working
  kinds : ∀ q, (d'.root.look q).map Option.isSome = (d.root.look q).map Option.isSome

theorem Alike.refl (d : Disk) : d.Alike d := ⟨rfl, fun _ => rfl⟩

theorem Alike.trans (h : Alike d d') (h' : Alike d' d'') : d.Alike d'' :=
  ⟨h'.working.trans h.working, fun q => (h'.kinds q).trans (h.kinds q)⟩

theorem follow_congr {root root' : Entry}
    (h : ∀ q, (root'.look q).map Option.isSome = (root.look q).map Option.isSome)
    (place segments : List Text) : follow root' place segments = follow root place segments := by
  induction segments generalizing place with
  | nil => rfl
  | cons s rest ih =>
    have hnext : (root'.find? (place ++ [s])).isSome = (root.find? (place ++ [s])).isSome := by
      have hkinds := congrArg Option.isSome (h (place ++ [s]))
      simpa only [Entry.look, Option.isSome_map] using hkinds
    have hkinds := h place
    rw [Entry.look, Entry.look] at hkinds
    rw [follow, follow, hnext]
    simp only [ih]
    cases hfound : root.find? place with
    | none =>
      cases hfound' : root'.find? place with
      | none => rfl
      | some e' => simp [hfound, hfound'] at hkinds
    | some e =>
      cases hfound' : root'.find? place with
      | none => simp [hfound, hfound'] at hkinds
      | some e' =>
        cases e <;> cases e' <;> simp [hfound, hfound', Entry.content?] at hkinds ⊢

theorem Alike.place (h : Alike d d') (p : Path) : d'.place p = d.place p := by
  rw [Disk.place, Disk.place, h.working]
  exact follow_congr h.kinds _ _

theorem place?_eq_some_iff {d : Disk} : d.place? p = some q ↔ d.place p = .ok q := by
  rw [place?]
  cases d.place p with
  | error e =>
    constructor
    · intro h
      cases h
    · intro h
      cases h
  | ok x =>
    constructor
    · intro h
      cases h
      rfl
    · intro h
      cases h
      rfl

theorem Alike.place? (h : Alike d d') (p : Path) : d'.place? p = d.place? p := by
  rw [Disk.place?, Disk.place?, h.place]

theorem exists_directory_of_place {d : Disk} (h : d.place? p = some q) :
    ∃ n entries, d.root = .directory n entries := by
  obtain ⟨s, rest, hsegments⟩ := List.exists_cons_of_ne_nil p.segments_ne_nil
  rw [place?_eq_some_iff, place, hsegments, follow] at h
  cases hroot : d.root with
  | directory n entries => exact ⟨n, entries, rfl⟩
  | file n c =>
    rw [hroot] at h
    split at h
    next => cases h
    next => cases h
    next m entries hfound => cases Entry.eq_of_find?_file hfound

def textOf : Option (Option Text) → Except Obstacle Text
  | none => .error .notFound
  | some none => .error .isDirectory
  | some (some c) => if (Text.decode? c).isSome then .ok c else .error .notText

theorem read_eq_textOf {d : Disk} (h : d.place p = .ok q) : d.read p = textOf (d.root.look q) := by
  rw [read, entry, h, Entry.look]
  simp only [bind, Except.bind]
  cases d.root.find? q with
  | none => rfl
  | some e =>
    cases e with
    | file n c => rfl
    | directory n entries => rfl

theorem read_eq_error {d : Disk} (h : d.place p = .error o) : d.read p = .error o := by
  rw [read, entry, h]
  rfl

theorem exists_place_of_read {d : Disk} (h : d.read p = .ok text) :
    ∃ q, d.place? p = some q ∧ d.root.look q = some (some text) := by
  cases hplace : d.place p with
  | error o =>
    rw [read_eq_error hplace] at h
    cases h
  | ok q =>
    rw [read_eq_textOf hplace] at h
    refine ⟨q, place?_eq_some_iff.2 hplace, ?_⟩
    cases hlook : d.root.look q with
    | none =>
      rw [hlook] at h
      cases h
    | some c? =>
      cases c? with
      | none =>
        rw [hlook] at h
        cases h
      | some c =>
        rw [hlook, textOf] at h
        split at h
        · cases h
          rfl
        · cases h

theorem read_congr {d d' : Disk} (hplace : d'.place p = d.place p)
    (hlook : ∀ q, d.place? p = some q → d'.root.look q = d.root.look q) : d'.read p = d.read p := by
  cases h : d.place p with
  | error o => rw [read_eq_error h, read_eq_error (hplace.trans h)]
  | ok q => rw [read_eq_textOf h, read_eq_textOf (hplace.trans h), hlook q (place?_eq_some_iff.2 h)]

/-- Writing a file that is there changes its content and nothing else. -/
theorem look_write {d : Disk} (hread : d.read p = .ok text) (hplace : d.place? p = some x)
    (new : Text) (q : List Text) :
    (d.write p new).root.look q = if q = x then some (some new) else d.root.look q := by
  obtain ⟨x', hplace', hlook⟩ := exists_place_of_read hread
  cases hplace.symm.trans hplace'
  obtain ⟨n, entries, hroot⟩ := exists_directory_of_place hplace
  rw [write, place?_eq_some_iff.1 hplace]
  rw [hroot] at hlook ⊢
  exact Entry.look_write hlook new q

theorem alike_write {d : Disk} (hread : d.read p = .ok text) (new : Text) :
    d.Alike (d.write p new) := by
  obtain ⟨x, hplace, hlook⟩ := exists_place_of_read hread
  constructor
  · rw [write, place?_eq_some_iff.1 hplace]
  · intro q
    rw [look_write hread hplace]
    split
    next hq =>
      rw [hq, hlook]
      rfl
    next => rfl

end Disk

end Uplift
