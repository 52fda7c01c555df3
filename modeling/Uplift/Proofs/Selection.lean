import Mathlib.Data.List.Nodup
import Uplift.Proofs.Disk
import Uplift.Proofs.Encoding

namespace Uplift

set_option autoImplicit true

namespace Path

/-- The path to which a way down from a directory leads. -/
def below (p : Path) (way : List Text) : Path := way.foldl join p

def isName (s : Text) : Bool := s != [] && s != dot && s != dots && !s.contains slash

/-- The segments behind which the name of an entry is put. -/
def front (p : Path) : List Text :=
  if p.bytes.getLast? = some slash then p.segments.dropLast else p.segments

end Path

namespace Entry

/-- A tree in which the entries of a directory have names, no two the same one. -/
inductive WellNamed : Entry → Prop
  | file (n : Text) (c : Text) : WellNamed (file n c)
  | directory {entries : List Entry} (n : Text) (hnames : ∀ e ∈ entries, Path.isName e.name = true)
      (hdistinct : (entries.map name).Nodup) (hinner : ∀ e ∈ entries, WellNamed e) :
        WellNamed (directory n entries)

theorem find?_name_iff {entries : List Entry} (h : (entries.map name).Nodup) :
    entries.find? (·.name == s) = some e ↔ e ∈ entries ∧ e.name = s := by
  constructor
  · intro hfound
    exact ⟨List.mem_of_find?_eq_some hfound, by simpa using List.find?_some hfound⟩
  · rintro ⟨he, rfl⟩
    cases hfound : entries.find? (·.name == e.name) with
    | none => simpa using List.find?_eq_none.1 hfound e he
    | some f =>
      have hname : f.name = e.name := by simpa using List.find?_some hfound
      rw [List.inj_on_of_nodup_map h (List.mem_of_find?_eq_some hfound) he hname]

theorem find?_directory (n : Text) (entries : List Entry) (s : Text) (rest : List Text) :
    (directory n entries).find? (s :: rest) = (entries.find? (·.name == s)).bind (·.find? rest) :=
  rfl

theorem find?_append (e : Entry) (way rest : List Text) :
    e.find? (way ++ rest) = (e.find? way).bind (·.find? rest) := by
  induction way generalizing e with
  | nil => rfl
  | cons s way ih =>
    cases e with
    | file n c => rfl
    | directory n entries =>
      rw [List.cons_append, find?_directory, find?_directory]
      cases entries.find? (·.name == s) with
      | none => rfl
      | some f => exact ih f

theorem WellNamed.find? (h : WellNamed e) (hfound : e.find? way = some f) : WellNamed f := by
  induction way generalizing e with
  | nil =>
    cases hfound
    exact h
  | cons s way ih =>
    cases h with
    | file n c => cases hfound
    | directory n _ hdistinct hinner =>
      rw [find?_directory, Option.bind_eq_some_iff] at hfound
      obtain ⟨g, hg, hfound⟩ := hfound
      exact ih (hinner g ((find?_name_iff hdistinct).1 hg).1) hfound

theorem mem_sources_file : p ∈ sources base (file n c) ↔ isSource n = true ∧ p = base.join n := by
  rw [sources]
  split
  next h => simp [h]
  next h => simp [h]

theorem mem_sources_directory :
    p ∈ sources base (directory n entries) ↔ isSkipped n = false ∧
    p ∈ sourcesIn (base.join n) entries := by
  rw [sources]
  split
  next h => simp [h]
  next h => simp [h]

theorem sourcesIn_eq_flatMap (base : Path) (entries : List Entry) :
    sourcesIn base entries = entries.flatMap (sources base) := by
  induction entries with
  | nil => rfl
  | cons e rest ih => rw [sourcesIn, ih, List.flatMap_cons]

theorem mem_sourcesIn : p ∈ sourcesIn base entries ↔ ∃ e ∈ entries, p ∈ sources base e := by
  rw [sourcesIn_eq_flatMap, List.mem_flatMap]

/-- A way down to a source file that leads through no skipped directory. -/
structure Offers (e : Entry) (way : List Text) (name : Text) : Prop where
  there : ∃ c, e.look (way ++ [name]) = some (some c)
  source : isSource name = true
  clear : ∀ s ∈ way, isSkipped s = false

theorem look_eq_some_iff (h : (entries.map name).Nodup) :
    (directory n entries).look (s :: rest) = some x ↔ ∃ e ∈ entries, e.name = s ∧
      e.look rest = some x := by
  rw [look_directory, Option.bind_eq_some_iff]
  simp only [find?_name_iff h, and_assoc]

theorem offers_nil (h : (entries.map name).Nodup) :
    (directory n entries).Offers [] s ↔ isSource s = true ∧ ∃ c, file s c ∈ entries := by
  constructor
  · rintro ⟨⟨c, hthere⟩, hsource, -⟩
    obtain ⟨e, he, rfl, hlook⟩ := (look_eq_some_iff h).1 hthere
    cases e with
    | file s c => exact ⟨hsource, c, he⟩
    | directory s inner => cases hlook
  · rintro ⟨hsource, c, he⟩
    exact ⟨⟨c, (look_eq_some_iff h).2 ⟨_, he, rfl, rfl⟩⟩, hsource, by simp⟩

theorem offers_cons (h : (entries.map name).Nodup) :
    (directory n entries).Offers (k :: way) s ↔
      isSkipped k = false ∧ ∃ inner, directory k inner ∈ entries ∧
        (directory k inner).Offers way s := by
  constructor
  · rintro ⟨⟨c, hthere⟩, hsource, hopen⟩
    obtain ⟨hk, hway⟩ := List.forall_mem_cons.1 hopen
    obtain ⟨e, he, rfl, hlook⟩ := (look_eq_some_iff h).1 hthere
    cases e with
    | file k c => cases way <;> cases hlook
    | directory k inner => exact ⟨hk, inner, he, ⟨c, hlook⟩, hsource, hway⟩
  · rintro ⟨hk, inner, he, ⟨c, hlook⟩, hsource, hway⟩
    exact ⟨⟨c, (look_eq_some_iff h).2 ⟨_, he, rfl, hlook⟩⟩, hsource,
      List.forall_mem_cons.2 ⟨hk, hway⟩⟩

theorem WellNamed.mem_sourcesIn_iff (h : WellNamed e) (he : e = .directory n entries) :
    p ∈ sourcesIn base entries ↔ ∃ way name, e.Offers way name ∧
      p = base.below (way ++ [name]) := by
  induction h generalizing n entries base p with
  | file => cases he
  | directory _ _ hdistinct _ ih =>
    cases he
    rw [mem_sourcesIn]
    constructor
    · rintro ⟨f, hf, hp⟩
      cases f with
      | file s c =>
        obtain ⟨hsource, rfl⟩ := mem_sources_file.1 hp
        exact ⟨[], s, (offers_nil hdistinct).2 ⟨hsource, c, hf⟩, rfl⟩
      | directory k inner =>
        obtain ⟨hopen, hp⟩ := mem_sources_directory.1 hp
        obtain ⟨way, s, hoffers, rfl⟩ := (ih _ hf rfl).1 hp
        exact ⟨k :: way, s, (offers_cons hdistinct).2 ⟨hopen, inner, hf, hoffers⟩, rfl⟩
    · rintro ⟨way, s, hoffers, rfl⟩
      cases way with
      | nil =>
        obtain ⟨hsource, c, hf⟩ := (offers_nil hdistinct).1 hoffers
        exact ⟨_, hf, mem_sources_file.2 ⟨hsource, rfl⟩⟩
      | cons k way =>
        obtain ⟨hopen, inner, hf, hoffers⟩ := (offers_cons hdistinct).1 hoffers
        exact ⟨_, hf, mem_sources_directory.2 ⟨hopen, (ih _ hf rfl).2 ⟨way, s, hoffers, rfl⟩⟩⟩

theorem WellNamed.exists_below (h : WellNamed e) (hname : Path.isName e.name = true)
    (hp : p ∈ sources base e) :
    ∃ way, (∀ s ∈ e.name :: way, Path.isName s = true) ∧ p = base.below (e.name :: way) := by
  induction h generalizing base with
  | file n c => exact ⟨[], by simpa using hname, (mem_sources_file.1 hp).2⟩
  | directory n hnames _ _ ih =>
    obtain ⟨f, hf, hp⟩ := mem_sourcesIn.1 (mem_sources_directory.1 hp).2
    obtain ⟨way, hway, rfl⟩ := ih f hf (hnames f hf) hp
    exact ⟨f.name :: way, List.forall_mem_cons.2 ⟨hname, hway⟩, rfl⟩

end Entry

namespace Disk

theorem entry_eq_ok_iff {d : Disk} :
    d.entry p = .ok e ↔ ∃ x, d.place p = .ok x ∧ d.root.find? x = some e := by
  rw [entry]
  cases d.place p with
  | error o => simp [bind, Except.bind]
  | ok x =>
    cases hfound : d.root.find? x with
    | none => simp [bind, Except.bind, hfound, throw, throwThe, MonadExceptOf.throw]
    | some f => simp [bind, Except.bind, hfound, pure, Except.pure]

theorem select_eq_sourcesIn {d : Disk} (hdir : d.entry dir = .ok (.directory n entries)) :
    d.select dir = Entry.sourcesIn dir entries := by
  rw [select, hdir]

end Disk

end Uplift
