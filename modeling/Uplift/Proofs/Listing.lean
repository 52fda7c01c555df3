import Mathlib.Data.List.Lex
import Mathlib.Data.Prod.Lex
import Uplift.Proofs.Selection
import Uplift.Proofs.Session

namespace Uplift

set_option autoImplicit true

namespace Path

theorem map_toNat_lt_iff {t u : Text} : t.map UInt8.toNat < u.map UInt8.toNat ↔ t < u := by
  induction t generalizing u with
  | nil => cases u <;> simp
  | cons a t ih =>
    cases u with
    | nil => simp
    | cons b u =>
      rw [List.map_cons, List.map_cons, List.cons_lt_cons_iff, List.cons_lt_cons_iff, ih,
        UInt8.lt_iff_toNat_lt, UInt8.toNat_inj]

def Component.key (c : Component) : Nat ×ₗ List Nat := toLex (c.rank, c.bytes.map UInt8.toNat)

theorem Component.key_injective : Function.Injective Component.key := by
  intro a b h
  obtain ⟨hrank, hmap⟩ := Prod.mk.inj (toLex_inj.1 h)
  have hbytes := List.map_injective_iff.2 (fun _ _ => UInt8.toNat_inj.1) hmap
  cases a <;> cases b <;> simp_all [rank, bytes]

theorem Component.precedes_iff {a b : Component} : a.precedes b = true ↔ a.key < b.key := by
  simp [precedes, key, Prod.Lex.toLex_lt_toLex, map_toNat_lt_iff]

theorem listPrecedes_iff {as bs : List Component} :
    listPrecedes as bs = true ↔ as.map Component.key < bs.map Component.key := by
  induction as generalizing bs with
  | nil =>
    cases bs with
    | nil => simp [listPrecedes]
    | cons b bs => simp [listPrecedes]
  | cons a as ih =>
    cases bs with
    | nil => simp [listPrecedes]
    | cons b bs =>
      rw [listPrecedes, List.map_cons, List.map_cons, List.cons_lt_cons_iff, Bool.or_eq_true,
        Bool.and_eq_true, Component.precedes_iff, ih, decide_eq_true_iff,
        Component.key_injective.eq_iff]

def key (p : Path) : List (Nat ×ₗ List Nat) := p.components.map Component.key

theorem precedes_iff {p q : Path} : p.precedes q = true ↔ p.key < q.key := listPrecedes_iff

theorem same_iff {p q : Path} : p.same q = true ↔ p.key = q.key := by
  rw [same, decide_eq_true_iff, key, key, (List.map_injective_iff.2 Component.key_injective).eq_iff]

theorem insert_perm (p : Path) (ps : List Path) : (insert p ps).Perm (p :: ps) := by
  induction ps with
  | nil => exact .refl _
  | cons q ps ih =>
    rw [insert]
    split
    · exact (ih.cons q).trans (.swap p q ps)
    · exact .refl _

theorem sorted_perm (ps : List Path) : (sorted ps).Perm ps := by
  induction ps with
  | nil => exact .refl _
  | cons p ps ih => exact (insert_perm p (sorted ps)).trans (ih.cons p)

theorem insert_pairwise (h : ps.Pairwise fun p q => p.key ≤ q.key) :
    (insert p ps).Pairwise fun p q => p.key ≤ q.key := by
  induction ps with
  | nil => exact List.pairwise_singleton _ _
  | cons q ps ih =>
    obtain ⟨hq, hps⟩ := List.pairwise_cons.1 h
    rw [insert]
    split
    next hqp =>
      apply List.Pairwise.cons _ (ih hps)
      intro x hx
      rcases List.mem_cons.1 ((insert_perm p ps).subset hx) with rfl | hx
      · exact (precedes_iff.1 hqp).le
      · exact hq x hx
    next hqp =>
      have hpq : p.key ≤ q.key := not_lt.1 fun hlt => hqp (precedes_iff.2 hlt)
      apply List.Pairwise.cons _ h
      intro x hx
      rcases List.mem_cons.1 hx with rfl | hx
      · exact hpq
      · exact hpq.trans (hq x hx)

theorem sorted_pairwise (ps : List Path) : (sorted ps).Pairwise fun p q => p.key ≤ q.key := by
  induction ps with
  | nil => exact .nil
  | cons p ps ih => exact insert_pairwise ih

theorem deduplicated_cons (p : Path) (ps : List Path) :
    (deduplicated ps = [] ∧ deduplicated (p :: ps) = [p]) ∨
    ∃ q rest, deduplicated ps = q :: rest ∧
      (p.key = q.key ∧ deduplicated (p :: ps) = p :: rest ∨
        p.key ≠ q.key ∧ deduplicated (p :: ps) = p :: q :: rest) := by
  rw [deduplicated]
  cases hrest : deduplicated ps with
  | nil => exact .inl ⟨rfl, rfl⟩
  | cons q rest =>
    refine .inr ⟨q, rest, rfl, ?_⟩
    by_cases hsame : p.key = q.key
    · exact .inl ⟨hsame, if_pos (same_iff.2 hsame)⟩
    · exact .inr ⟨hsame, if_neg fun h => hsame (same_iff.1 h)⟩

theorem deduplicated_subset (ps : List Path) : deduplicated ps ⊆ ps := by
  induction ps with
  | nil => exact List.Subset.refl _
  | cons p ps ih =>
    obtain ⟨-, heq⟩ | ⟨q, rest, hrest, ⟨-, heq⟩ | ⟨-, heq⟩⟩ := deduplicated_cons p ps
    · rw [heq]
      exact List.cons_subset_cons p (List.nil_subset ps)
    · rw [hrest] at ih
      rw [heq]
      exact List.cons_subset_cons p fun x hx => ih (List.mem_cons_of_mem q hx)
    · rw [hrest] at ih
      rw [heq]
      exact List.cons_subset_cons p ih

theorem exists_mem_deduplicated (h : p ∈ ps) : ∃ q ∈ deduplicated ps, q.key = p.key := by
  induction ps with
  | nil => cases h
  | cons x ps ih =>
    obtain ⟨hnil, heq⟩ | ⟨y, rest, hrest, ⟨hkey, heq⟩ | ⟨-, heq⟩⟩ := deduplicated_cons x ps
    · rw [heq]
      rcases List.mem_cons.1 h with rfl | h
      · exact ⟨p, List.mem_cons_self, rfl⟩
      · obtain ⟨q, hq, -⟩ := ih h
        rw [hnil] at hq
        cases hq
    · rw [heq]
      rcases List.mem_cons.1 h with rfl | h
      · exact ⟨p, List.mem_cons_self, rfl⟩
      · obtain ⟨q, hq, hpq⟩ := ih h
        rw [hrest] at hq
        rcases List.mem_cons.1 hq with rfl | hq
        · exact ⟨x, List.mem_cons_self, hkey.trans hpq⟩
        · exact ⟨q, List.mem_cons_of_mem x hq, hpq⟩
    · rw [heq]
      rcases List.mem_cons.1 h with rfl | h
      · exact ⟨p, List.mem_cons_self, rfl⟩
      · obtain ⟨q, hq, hpq⟩ := ih h
        rw [hrest] at hq
        exact ⟨q, List.mem_cons_of_mem x hq, hpq⟩

theorem deduplicated_pairwise (h : ps.Pairwise fun p q => p.key ≤ q.key) :
    (deduplicated ps).Pairwise fun p q => p.key < q.key := by
  induction ps with
  | nil => exact .nil
  | cons p ps ih =>
    obtain ⟨hp, hps⟩ := List.pairwise_cons.1 h
    have hinner := ih hps
    obtain ⟨-, heq⟩ | ⟨q, rest, hrest, hcases⟩ := deduplicated_cons p ps
    · rw [heq]
      exact List.pairwise_singleton _ _
    · have hq : q ∈ ps := deduplicated_subset ps (hrest ▸ List.mem_cons_self)
      rw [hrest] at hinner
      obtain ⟨hbehind, hlater⟩ := List.pairwise_cons.1 hinner
      obtain ⟨hkey, heq⟩ | ⟨hkey, heq⟩ := hcases
      · rw [heq]
        apply List.Pairwise.cons _ hlater
        intro x hx
        rw [hkey]
        exact hbehind x hx
      · have hlt : p.key < q.key := lt_of_le_of_ne (hp q hq) hkey
        rw [heq]
        apply List.Pairwise.cons _ hinner
        intro x hx
        rcases List.mem_cons.1 hx with rfl | hx
        · exact hlt
        · exact hlt.trans (hbehind x hx)

/-- Paths of a list that have the same components are written alike. -/
def SpelledAlike (ps : List Path) : Prop := ∀ p ∈ ps, ∀ q ∈ ps, p.same q = true → p = q

instance (ps : List Path) : Decidable (SpelledAlike ps) :=
  inferInstanceAs (Decidable (∀ p ∈ ps, ∀ q ∈ ps, _))

def ordered (ps : List Path) : List Path := deduplicated (sorted ps)

theorem ordered_pairwise (ps : List Path) : (ordered ps).Pairwise fun p q => p.key < q.key :=
  deduplicated_pairwise (sorted_pairwise ps)

theorem nodup_ordered (ps : List Path) : (ordered ps).Nodup := by
  apply (ordered_pairwise ps).imp
  rintro p q hlt rfl
  exact lt_irrefl _ hlt

theorem mem_ordered (h : SpelledAlike ps) : p ∈ ordered ps ↔ p ∈ ps := by
  rw [← (sorted_perm ps).mem_iff]
  constructor
  · intro hp
    exact deduplicated_subset _ hp
  · intro hp
    obtain ⟨q, hq, hkey⟩ := exists_mem_deduplicated hp
    have hmem (x : Path) (hx : x ∈ sorted ps) : x ∈ ps := (sorted_perm ps).subset hx
    rw [← h q (hmem q (deduplicated_subset _ hq)) p (hmem p hp) (same_iff.2 hkey)]
    exact hq

theorem SpelledAlike.of_subset (h : SpelledAlike ps) (hsub : qs ⊆ ps) : SpelledAlike qs :=
  fun p hp q hq => h p (hsub hp) q (hsub hq)

theorem ordered_congr (h : SpelledAlike ps) (hmem : ∀ p, p ∈ qs ↔ p ∈ ps) :
    ordered qs = ordered ps := by
  have hqs : SpelledAlike qs := h.of_subset fun p hp => (hmem p).1 hp
  apply List.Perm.eq_of_pairwise _ (ordered_pairwise qs) (ordered_pairwise ps)
  · rw [List.perm_ext_iff_of_nodup (nodup_ordered qs) (nodup_ordered ps)]
    intro p
    rw [mem_ordered hqs, mem_ordered h, hmem]
  · intro p q _ _ hpq hqp
    exact absurd hqp (lt_asymm hpq)

end Path

namespace Entry

/-- The same tree with the entries of its directories in other orders. -/
inductive Relisted : Entry → Entry → Prop
  | file (n : Text) (c : Text) : Relisted (file n c) (file n c)
  | directory {entries entries' : List Entry} (n : Text) (f : Entry → Entry)
      (hentries : ∀ e ∈ entries, Relisted e (f e)) (horder : (entries.map f).Perm entries') :
      Relisted (directory n entries) (directory n entries')

theorem Relisted.name (h : Relisted e e') : e'.name = e.name := by
  cases h with
  | file => rfl
  | directory => rfl

theorem map_name_of_relisted {entries : List Entry} (h : ∀ e ∈ entries, Relisted e (f e)) :
    (entries.map f).map name = entries.map name := by
  rw [List.map_map]
  apply List.map_congr_left
  intro e he
  exact (h e he).name

theorem WellNamed.relisted (h : WellNamed e) (hlisted : Relisted e e') : WellNamed e' := by
  induction hlisted with
  | file n c => exact .file n c
  | directory n f hentries horder ih =>
    cases h with
    | directory n hnames hdistinct hinner =>
      apply WellNamed.directory
      · intro g hg
        obtain ⟨e, he, rfl⟩ := List.mem_map.1 (horder.mem_iff.2 hg)
        rw [(hentries e he).name]
        exact hnames e he
      · rw [← (horder.map Entry.name).nodup_iff, map_name_of_relisted hentries]
        exact hdistinct
      · intro g hg
        obtain ⟨e, he, rfl⟩ := List.mem_map.1 (horder.mem_iff.2 hg)
        exact ih e he (hinner e he)

theorem WellNamed.look_relisted (h : WellNamed e) (hlisted : Relisted e e') (place : List Text) :
    e'.look place = e.look place := by
  induction hlisted generalizing place with
  | file => rfl
  | @directory entries entries' n f hentries horder ih =>
    have hnamed' := h.relisted (.directory n f hentries horder)
    cases place with
    | nil => rfl
    | cons s rest =>
      cases h with
      | directory n _ hdistinct hinner =>
        cases hnamed' with
        | directory n _ hdistinct' _ =>
          apply Option.ext
          intro x
          rw [look_eq_some_iff hdistinct', look_eq_some_iff hdistinct]
          constructor
          · rintro ⟨g, hg, rfl, hx⟩
            obtain ⟨e, he, rfl⟩ := List.mem_map.1 (horder.mem_iff.2 hg)
            rw [ih e he (hinner e he)] at hx
            exact ⟨e, he, (hentries e he).name.symm, hx⟩
          · rintro ⟨e, he, rfl, hx⟩
            rw [← ih e he (hinner e he)] at hx
            exact ⟨f e, horder.mem_iff.1 (List.mem_map_of_mem he), (hentries e he).name, hx⟩

theorem look_append (e : Entry) (way rest : List Text) :
    e.look (way ++ rest) = (e.find? way).bind (·.look rest) := by
  rw [look, find?_append, Option.map_bind]
  rfl

theorem Offers.congr (h : Offers e way s) (hlook : ∀ q, e'.look q = e.look q) :
    Offers e' way s := by
  obtain ⟨⟨c, hthere⟩, hsource, hclear⟩ := h
  exact ⟨⟨c, (hlook _).trans hthere⟩, hsource, hclear⟩

end Entry

namespace Disk

structure Same (d d' : Disk) : Prop where
  working : d'.working = d.working
  look : ∀ q, d'.root.look q = d.root.look q

theorem Same.symm (h : Same d d') : Same d' d := ⟨h.working.symm, fun q => (h.look q).symm⟩

theorem Same.alike (h : Same d d') : d.Alike d' := ⟨h.working, fun q => by rw [h.look]⟩

theorem Same.read (h : Same d d') (p : Path) : d'.read p = d.read p :=
  read_congr (h.alike.place p) fun q _ => h.look q

theorem Same.write (h : Same d d') (hread : d.read p = .ok text) (new : Text) :
    (d.write p new).Same (d'.write p new) := by
  have hread' : d'.read p = .ok text := (h.read p).trans hread
  obtain ⟨x, hplace, -⟩ := exists_place_of_read hread
  constructor
  · rw [(alike_write hread' new).working, (alike_write hread new).working, h.working]
  · intro q
    rw [look_write hread' ((h.alike.place? p).trans hplace), look_write hread hplace, h.look]

theorem Same.entry (h : Same d d') (hentry : d.entry p = .ok e) :
    ∃ e', d'.entry p = .ok e' ∧ ∀ q, e'.look q = e.look q := by
  obtain ⟨x, hplace, hx⟩ := entry_eq_ok_iff.1 hentry
  have hlook (q : List Text) : (d'.root.find? x).bind (·.look q) = e.look q := by
    rw [← Entry.look_append, h.look, Entry.look_append, hx, Option.bind_some]
  cases hx' : d'.root.find? x with
  | none =>
    have hnone := hlook []
    rw [hx'] at hnone
    cases hnone
  | some e' =>
    rw [hx'] at hlook
    exact ⟨e', entry_eq_ok_iff.2 ⟨x, (h.alike.place p).trans hplace, hx'⟩, hlook⟩

theorem Same.directory (h : Same d d') (hentry : d.entry p = .ok (.directory n entries)) :
    ∃ n' entries', d'.entry p = .ok (.directory n' entries') ∧
      ∀ q, (Entry.directory n' entries').look q = (Entry.directory n entries).look q := by
  obtain ⟨e', hentry', hlook⟩ := h.entry hentry
  cases e' with
  | file n' c => cases hlook []
  | directory n' entries' => exact ⟨n', entries', hentry', hlook⟩

theorem wellNamed_of_entry {d : Disk} (h : d.root.WellNamed) (hentry : d.entry p = .ok e) :
    e.WellNamed := by
  obtain ⟨x, -, hx⟩ := entry_eq_ok_iff.1 hentry
  exact h.find? hx

theorem select_eq_singleton {d : Disk} (h : ∀ n entries, d.entry p ≠ .ok (.directory n entries)) :
    d.select p = [p] := by
  rw [select]
  split
  next n entries hentry => exact absurd hentry (h n entries)
  next => rfl

theorem Same.mem_select (h : Same d d') (hnamed : d.root.WellNamed) (hnamed' : d'.root.WellNamed)
    (hp : p ∈ d.select a) : p ∈ d'.select a := by
  by_cases hdir : ∃ n entries, d.entry a = .ok (.directory n entries)
  · obtain ⟨n, entries, hentry⟩ := hdir
    obtain ⟨n', entries', hentry', hlook⟩ := h.directory hentry
    rw [select_eq_sourcesIn hentry, (wellNamed_of_entry hnamed hentry).mem_sourcesIn_iff rfl] at hp
    rw [select_eq_sourcesIn hentry', (wellNamed_of_entry hnamed' hentry').mem_sourcesIn_iff rfl]
    obtain ⟨way, name, hoffers, rfl⟩ := hp
    exact ⟨way, name, hoffers.congr hlook, rfl⟩
  · have hdir' : ∀ n entries, d'.entry a ≠ .ok (.directory n entries) := by
      intro n entries hentry
      obtain ⟨n', entries', hentry', -⟩ := h.symm.directory hentry
      exact hdir ⟨n', entries', hentry'⟩
    rw [select_eq_singleton fun n entries hentry => hdir ⟨n, entries, hentry⟩] at hp
    rw [select_eq_singleton hdir']
    exact hp

end Disk

def Request.over (r : Request) (paths : List Path) : Request := { r with paths := paths }

namespace Session

open Fate

def on (s : Session) (d : Disk) : Session := { s with disk := d }

theorem exists_read_of_write? (h : (ofFile r d p).write? r p = some c) :
    ∃ text, d.read p = .ok text := by
  rw [write?] at h
  split at h
  next =>
    obtain ⟨o, ho, -⟩ := Option.map_eq_some_iff.1 h
    obtain ⟨⟨text, hread, -⟩, -⟩ := changed?_eq_some_iff.1 ho
    exact ⟨text, hread⟩
  next => cases h

/-- Handling a file does the same on a disk that holds the same. -/
theorem handle_on {s : Session} (h : s.disk.Same d) (hgo : s.halt = none) (r : Request) (p : Path) :
    ∃ d', (s.on d).handle r p = (s.handle r p).on d' ∧ (s.handle r p).disk.Same d' := by
  have hfate : ofFile r (s.on d).disk p = ofFile r s.disk p := ofFile_congr (h.read p)
  rw [handle_eq (s := s.on d) hgo, handle_eq hgo, hfate]
  cases hwrite : (ofFile r s.disk p).write? r p with
  | none =>
    refine ⟨d, ?_, ?_⟩
    · simp only [after, on, hwrite]
    · simp only [after, hwrite]
      exact h
  | some c =>
    obtain ⟨text, hread⟩ := exists_read_of_write? hwrite
    refine ⟨d.write p c, ?_, ?_⟩
    · simp only [after, on, hwrite]
    · simp only [after, hwrite]
      exact h.write hread c

theorem handleAll_on {s : Session} (h : s.disk.Same d) (hgo : s.halt = none) (r : Request)
    (files : List Path) :
    ∃ d', (s.on d).handleAll r files = (s.handleAll r files).on d' ∧
      (s.handleAll r files).disk.Same d' := by
  induction files generalizing s d with
  | nil => exact ⟨d, rfl, h⟩
  | cons p files ih =>
    obtain ⟨d', heq, hsame⟩ := handle_on h hgo r p
    have hhalt : ((s.handle r p).on d').halt = (s.handle r p).halt := rfl
    simp only [handleAll, heq, hhalt]
    split
    next => exact ⟨d', rfl, hsame⟩
    next hnot => exact ih hsame (Option.not_isSome_iff_eq_none.1 hnot)

theorem handleAll_over (r : Request) (paths : List Path) (s : Session) (files : List Path) :
    s.handleAll (r.over paths) files = s.handleAll r files := by
  have hhandle (s : Session) (p : Path) : s.handle (r.over paths) p = s.handle r p := rfl
  induction files generalizing s with
  | nil => rfl
  | cons p files ih => rw [handleAll, handleAll, hhandle, ih]

theorem run_on {paths : List Path} (h : d.Same d') (hfiles : (r.over paths).files d' = r.files d) :
    ∃ d'', run (r.over paths) d' = (run r d).on d'' ∧ (run r d).disk.Same d'' := by
  have hstart : (Session.mk d [] [] [] 0 0 0 none).disk.Same d' := h
  obtain ⟨d'', heq, hsame⟩ := handleAll_on hstart rfl r (r.files d)
  have hall : handleAll (r.over paths) { disk := d' } (r.files d) =
      (handleAll r { disk := d } (r.files d)).on d'' := by
    rw [← heq, handleAll_over]
    rfl
  have hjson : (r.over paths).json = r.json := rfl
  have hhalt : ((handleAll r { disk := d } (r.files d)).on d'').halt =
      (handleAll r { disk := d } (r.files d)).halt := rfl
  refine ⟨d'', ?_, ?_⟩
  · simp only [run, hfiles, hall, hjson, hhalt]
    split <;> rfl
  · simp only [run]
    split
    · exact hsame
    · exact hsame

/-- A file whose turn it is, with the disk as it is then. -/
structure Turn where
  path : Path
  disk : Disk

def Turn.fate (r : Request) (t : Turn) : Fate := ofFile r t.disk t.path

def Turn.next (r : Request) (t : Turn) : Disk :=
  match (t.fate r).write? r t.path with
  | some c => t.disk.write t.path c
  | none => t.disk

/-- The turns of some files, one after the other, up to one that the command stops at. -/
def turns (r : Request) (d : Disk) : List Path → List Turn
  | [] => []
  | p :: rest => ⟨p, d⟩ :: if Halts r d p then [] else turns r (Turn.next r ⟨p, d⟩) rest

theorem turns_prefix (r : Request) (d : Disk) (files : List Path) :
    (turns r d files).map Turn.path <+: files := by
  induction files generalizing d with
  | nil => exact List.prefix_refl _
  | cons p files ih =>
    rw [turns, List.map_cons, List.cons_prefix_cons]
    refine ⟨rfl, ?_⟩
    split
    · exact List.nil_prefix
    · exact ih _

theorem map_path_turns (h : ∀ t ∈ turns r d files, ¬Halts r t.disk t.path) :
    (turns r d files).map Turn.path = files := by
  induction files generalizing d with
  | nil => rfl
  | cons p files ih =>
    have hp : ¬Halts r d p := h ⟨p, d⟩ List.mem_cons_self
    rw [turns, if_neg hp] at h ⊢
    rw [List.map_cons, ih fun t ht => h t (List.mem_cons_of_mem _ ht)]

/--
Each turn adds its report and its complaint, its write and its failure, and nothing else happens,
but for some lines at the end.
-/
structure Tells (r : Request) (before : Session) (ts : List Turn) (last : List String)
    (s : Session) : Prop where
  out : s.out = before.out ++ ts.flatMap fun t => (t.fate r).report r t.path
  err : s.err = before.err ++ (ts.flatMap fun t => (t.fate r).complaint r t.path) ++ last
  writes : s.writes =
    before.writes ++ ts.filterMap fun t => ((t.fate r).write? r t.path).map (t.path, ·)
  disk : s.disk = (ts.getLast?.map (Turn.next r)).getD before.disk
  failed : s.failed = before.failed + ts.countP fun t => ((t.fate r).error? t.path).isSome
  written : s.written = before.written + ts.countP fun t => ((t.fate r).write? r t.path).isSome
  pending : s.pending =
    before.pending + ts.countP fun t => !r.write && ((t.fate r).changed? r t.path).isSome
  halt : s.halt = ts.getLast?.bind fun t => (t.fate r).halt? r t.path

theorem tells_handle {s : Session} (h : s.halt = none) (r : Request) (p : Path) :
    Tells r s [⟨p, s.disk⟩] [] (s.handle r p) := by
  rw [handle_eq h]
  constructor
  case writes => cases hwrite : (ofFile r s.disk p).write? r p <;> simp [after, Turn.fate, hwrite]
  case disk => rfl
  all_goals simp [after, Turn.fate, List.countP_cons]

theorem Tells.cons (h : Tells r s [t] [] s') (hgo : s'.halt = none) (h' : Tells r s' ts last s'') :
    Tells r s (t :: ts) last s'' := by
  constructor
  case out => rw [h'.out, h.out, List.flatMap_singleton, List.append_assoc, List.flatMap_cons]
  case err =>
    rw [h'.err, h.err, List.flatMap_singleton, List.append_nil, List.append_assoc s.err,
      List.flatMap_cons]
  case writes =>
    rw [h'.writes, h.writes, List.append_assoc, ← List.filterMap_append, List.singleton_append]
  case disk =>
    have hdisk := h.disk
    have hdisk' := h'.disk
    cases ts with
    | nil => exact hdisk'.trans hdisk
    | cons u ts => simpa [List.getLast?_cons] using hdisk'
  case failed =>
    rw [h'.failed, h.failed, Nat.add_assoc, ← List.countP_append, List.singleton_append]
  case written =>
    rw [h'.written, h.written, Nat.add_assoc, ← List.countP_append, List.singleton_append]
  case pending =>
    rw [h'.pending, h.pending, Nat.add_assoc, ← List.countP_append, List.singleton_append]
  case halt =>
    have hhalt := h.halt
    have hhalt' := h'.halt
    cases ts with
    | nil => exact hhalt'.trans (hgo.symm.trans hhalt)
    | cons u ts => simpa [List.getLast?_cons] using hhalt'

theorem tells_handleAll {s : Session} (h : s.halt = none) (r : Request) (files : List Path) :
    Tells r s (turns r s.disk files) [] (s.handleAll r files) := by
  induction files generalizing s with
  | nil =>
    constructor
    case halt => exact h
    all_goals simp [turns, handleAll]
  | cons p files ih =>
    have hp := tells_handle h r p
    have hhalt := halt_handle (r := r) (p := p) h
    rw [turns, handleAll]
    by_cases hhalts : Halts r s.disk p
    · rw [if_pos hhalts, if_pos (hhalt ▸ halts_iff.1 hhalts)]
      exact hp
    · have hgo := halt_handle_eq_none h hhalts
      have hnot : ¬(s.handle r p).halt.isSome = true := by
        rw [hgo]
        exact Bool.false_ne_true
      rw [if_neg hhalts, if_neg hnot]
      have hrest := ih hgo
      rw [hp.disk] at hrest
      exact hp.cons hgo hrest

end Session

def Request.turns (r : Request) (d : Disk) : List Session.Turn := Session.turns r d (r.files d)

theorem Session.tells_run (r : Request) (d : Disk) : Tells r { disk := d } (r.turns d)
    (if r.json || (run r d).halt.isSome then [] else [(run r d).summary r (r.files d).length])
      (run r d) := by
  have hall := tells_handleAll (s := { disk := d }) rfl r (r.files d)
  cases hlast : r.json || (handleAll r { disk := d } (r.files d)).halt.isSome with
  | true =>
    have hrun : run r d = handleAll r { disk := d } (r.files d) := by
      simp only [run, hlast, if_true]
    rw [hrun, if_pos hlast]
    exact hall
  | false =>
    have hnot := Bool.eq_false_iff.1 hlast
    have hrun : run r d = { handleAll r { disk := d } (r.files d) with
        err := (handleAll r { disk := d } (r.files d)).err ++
          [(handleAll r { disk := d } (r.files d)).summary r (r.files d).length] } := by
      rw [run]
      exact if_neg hnot
    rw [hrun, if_neg hnot]
    refine { hall with err := ?_ }
    rw [hall.err, List.append_nil]
    rfl

theorem Request.files_relisted {r : Request} {paths : List Path} (h : d.Same d')
    (hnamed : d.root.WellNamed) (hnamed' : d'.root.WellNamed)
    (hspelled : Path.SpelledAlike (r.paths.flatMap d.select))
    (hpaths : ∀ p, p ∈ paths ↔ p ∈ r.paths) : (r.over paths).files d' = r.files d := by
  apply Path.ordered_congr hspelled
  intro p
  rw [List.mem_flatMap, List.mem_flatMap]
  constructor
  · rintro ⟨a, ha, hp⟩
    exact ⟨a, (hpaths a).1 ha, h.symm.mem_select hnamed' hnamed hp⟩
  · rintro ⟨a, ha, hp⟩
    exact ⟨a, (hpaths a).2 ha, h.mem_select hnamed hnamed' hp⟩

theorem Request.count_files {r : Request} {d : Disk}
    (hspelled : Path.SpelledAlike (r.paths.flatMap d.select)) (p : Path) :
    (r.files d).count p = if ∃ a ∈ r.paths, p ∈ d.select a then 1 else 0 := by
  have hmem : p ∈ r.files d ↔ ∃ a ∈ r.paths, p ∈ d.select a := by
    rw [← List.mem_flatMap]
    exact Path.mem_ordered hspelled
  split
  next h => exact List.count_eq_one_of_mem (Path.nodup_ordered _) (hmem.2 h)
  next h => exact List.count_eq_zero_of_not_mem fun hp => h (hmem.1 hp)

namespace Session

/--
A command does the same for paths in another order, given more or less often, on a disk whose
directories are listed in other orders: its reports, its status and what it leaves at every place,
as long as selected paths with the same components are written alike. The files are the selected
paths, each once. They have their turns in order: each is read and transformed on the disk as it is
then, reported and written once, and nothing else is done. Every file has its turn, unless the
command stops at one before it.
-/
theorem run_relisted (r : Request) (d d' : Disk) (paths : List Path) (hnamed : d.root.WellNamed)
    (hspelled : Path.SpelledAlike (r.paths.flatMap d.select))
    (hpaths : ∀ p, p ∈ paths ↔ p ∈ r.paths) (hworking : d'.working = d.working)
    (hroot : d.root.Relisted d'.root) :
    (run (r.over paths) d').out = (run r d).out ∧
    (run (r.over paths) d').err = (run r d).err ∧
    (run (r.over paths) d').status = (run r d).status ∧
    (∀ x, (run (r.over paths) d').disk.root.look x = (run r d).disk.root.look x) ∧
    (r.over paths).files d' = r.files d ∧
    (∀ p, (r.files d).count p = if ∃ a ∈ r.paths, p ∈ d.select a then 1 else 0) ∧
    Tells r { disk := d } (r.turns d)
      (if r.json || (run r d).halt.isSome then [] else [(run r d).summary r (r.files d).length])
        (run r d) ∧
    (r.turns d).map Turn.path <+: r.files d ∧
    ((∀ t ∈ r.turns d, ¬Halts r t.disk t.path) → (r.turns d).map Turn.path = r.files d) := by
  have hsame : d.Same d' := ⟨hworking, hnamed.look_relisted hroot⟩
  have hfiles := Request.files_relisted hsame hnamed (hnamed.relisted hroot) hspelled hpaths
  obtain ⟨d'', hrun, hlook⟩ := run_on hsame hfiles
  rw [hrun]
  exact ⟨rfl, rfl, rfl, hlook.look, hfiles, Request.count_files hspelled, tells_run r d,
    turns_prefix r d _, map_path_turns⟩

def first : Entry := textFile "a.js" "var a = 1;\n"

def second : Entry := textFile "b.js" "let b = 1;\n"

def shelf : Disk := { root := .directory [] [.directory (Text.ofString "src") [first, second]] }

def shelfAgain : Disk :=
  { root := .directory [] [.directory (Text.ofString "src") [second, first]] }

def tidy : Request :=
  { paths := ["src", "src/b.js"].map Path.ofString, write := true, json := true }

def tidyAgain : List Path := ["src/b.js", "src", "src"].map Path.ofString

theorem wellNamed_shelf : shelf.root.WellNamed := by
  have hinner : (Entry.directory (Text.ofString "src") [first, second]).WellNamed := by
    apply Entry.WellNamed.directory
    · decide
    · decide
    · exact List.forall_mem_cons.2 ⟨.file _ _, List.forall_mem_singleton.2 (.file _ _)⟩
  apply Entry.WellNamed.directory
  · decide
  · decide
  · exact List.forall_mem_singleton.2 hinner

theorem relisted_shelf : shelf.root.Relisted shelfAgain.root := by
  have hinner : (Entry.directory (Text.ofString "src") [first, second]).Relisted
      (.directory (Text.ofString "src") [second, first]) := by
    apply Entry.Relisted.directory (Text.ofString "src") id
    · exact List.forall_mem_cons.2 ⟨.file _ _, List.forall_mem_singleton.2 (.file _ _)⟩
    · exact .swap _ _ _
  apply Entry.Relisted.directory [] fun _ => .directory (Text.ofString "src") [second, first]
  · exact List.forall_mem_singleton.2 hinner
  · exact .refl _

theorem run_relisted_shelf :
    shelf.root.WellNamed ∧ Path.SpelledAlike (tidy.paths.flatMap shelf.select) ∧
    (∀ p, p ∈ tidyAgain ↔ p ∈ tidy.paths) ∧ shelf.root.Relisted shelfAgain.root ∧
    tidy.files shelf = ["src/a.js", "src/b.js"].map Path.ofString ∧
    (run (tidy.over tidyAgain) shelfAgain).out = (run tidy shelf).out ∧
    (run tidy shelf).writes = [(.ofString "src/a.js", Text.ofString "const a = 1;\n")] ∧
    ∀ x, (run (tidy.over tidyAgain) shelfAgain).disk.root.look x =
      (run tidy shelf).disk.root.look x := by
  have hselected : tidy.paths.flatMap shelf.select =
      ["src/a.js", "src/b.js", "src/b.js"].map Path.ofString := by decide +kernel
  have hspelled : Path.SpelledAlike (tidy.paths.flatMap shelf.select) := by
    rw [hselected]
    decide
  have hpaths : ∀ p, p ∈ tidyAgain ↔ p ∈ tidy.paths := by
    intro p
    simp [tidyAgain, tidy, or_comm]
  have hfiles : tidy.files shelf = ["src/a.js", "src/b.js"].map Path.ofString := by decide +kernel
  obtain ⟨hout, -, -, hlook, -, -, htells, -⟩ :=
    run_relisted tidy shelf shelfAgain tidyAgain wellNamed_shelf hspelled hpaths rfl relisted_shelf
  have hwrites :
      (run tidy shelf).writes = [(.ofString "src/a.js", Text.ofString "const a = 1;\n")] :=
    htells.writes.trans (by decide +kernel)
  exact ⟨wellNamed_shelf, hspelled, hpaths, relisted_shelf, hfiles, hout, hwrites, hlook⟩

/-- A selected file that comes behind one that the command stops at has no turn. -/
theorem no_turn_marked :
    Path.ofString "b.js" ∈ writeBoth.files marked ∧
    (writeBoth.turns marked).map Turn.path = [.ofString "a.js"] ∧
    (run writeBoth marked).out = [] ∧ (run writeBoth marked).err = [] := by
  decide +kernel

end Session

end Uplift
