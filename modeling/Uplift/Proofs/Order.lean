import Mathlib.Data.List.Nodup
import Uplift.Proofs.Frame
import Uplift.Proofs.Laminar

namespace Uplift

set_option autoImplicit true

namespace Edit

theorem Before.range_eq {e f : Edit} (h : e.Before f) (h' : f.Before e) : e.range = f.range := by
  by_cases hne : e.range = f.range
  · exact hne
  · exact absurd (h.precedes hne) h'

theorem sorted_eq_of_perm (hperm : edits.Perm edits') (hdistinct : (edits.map Edit.range).Nodup) :
    sorted edits = sorted edits' := by
  have hsorted : (sorted edits).Perm (sorted edits') :=
    (sorted_perm edits).trans (hperm.trans (sorted_perm edits').symm)
  apply List.Perm.eq_of_pairwise _ (sorted_before edits) (sorted_before edits') hsorted
  intro e f he hf hef hfe
  have hmem : e ∈ edits := (sorted_perm edits).mem_iff.1 he
  have hmem' : f ∈ edits := hperm.mem_iff.2 ((sorted_perm edits').mem_iff.1 hf)
  exact List.inj_on_of_nodup_map hdistinct hmem hmem' (hef.range_eq hfe)

end Edit

theorem Pass.nodup_ranges (pass : Pass) {p : Program} (hp : p.WellFormed) :
    ((pass.edits p).map Edit.range).Nodup :=
  List.pairwise_map.2 (pass.collects hp).laminar.distinct

namespace Document

/--
Edits of distinct ranges, which may nest or cross, make the same text with the same origins and
answer the same lines in every order. The edits that a pass collects from a well formed program have
distinct ranges.
-/
theorem apply_perm (d : Document) {edits edits' : List Edit} (hperm : edits.Perm edits') :
    ((edits.map Edit.range).Nodup → d.apply edits = d.apply edits') ∧
    ∀ (pass : Pass) (p : Program), p.WellFormed → edits = pass.edits p →
      d.apply edits = d.apply edits' := by
  have happly (hdistinct : (edits.map Edit.range).Nodup) : d.apply edits = d.apply edits' := by
    rw [apply, apply, Edit.sorted_eq_of_perm hperm hdistinct, hperm.isEmpty_eq]
  constructor
  · exact happly
  · intro pass p hp hedits
    apply happly
    rw [hedits]
    exact pass.nodup_ranges hp

theorem apply_perm_crossing :
    (ofText (Text.ofString "abcdefghij")).apply (crossingEdits.take 3) =
      (ofText (Text.ofString "abcdefghij")).apply (crossingEdits.take 3).reverse ∧
    ∃ p ∈ (Program.parse .tsx (Text.ofString "x = Math.pow(Math.pow(a, b), c);\n")).toOption,
      p.WellFormed ∧ (Pass.edits .mathPowToExponent p).length = 2 ∧
      (ofText p.text).apply (Pass.edits .mathPowToExponent p) =
        (ofText p.text).apply (Pass.edits .mathPowToExponent p).reverse := by
  have hparsed :
      ∃ p ∈ (Program.parse .tsx (Text.ofString "x = Math.pow(Math.pow(a, b), c);\n")).toOption,
      p.WellFormed ∧ (Pass.edits .mathPowToExponent p).length = 2 := by
    decide +kernel
  constructor
  · exact (apply_perm _ (List.reverse_perm _).symm).1 (by decide)
  · obtain ⟨p, hparse, hp, hlength⟩ := hparsed
    exact ⟨p, hparse, hp, hlength,
      (apply_perm _ (List.reverse_perm _).symm).2 .mathPowToExponent p hp rfl⟩

-- Of two edits of one range the first that is given takes effect.
example : ((ofText [97]).apply [⟨⟨0, 1⟩, [.fresh [98]]⟩, ⟨⟨0, 1⟩, [.fresh [99]]⟩]).1.text ≠
    ((ofText [97]).apply [⟨⟨0, 1⟩, [.fresh [99]]⟩, ⟨⟨0, 1⟩, [.fresh [98]]⟩]).1.text := by
  decide

end Document

end Uplift
