import Uplift.Proofs.Concatenation
import Uplift.Proofs.Made

namespace Uplift.ArrayConcat

set_option autoImplicit true

open Edit Concatenation

def isPair (high low : Nat) : Bool := 0xD800 ≤ high && high < 0xDC00 && 0xDC00 ≤ low && low < 0xE000

/-- The characters of a string, which are the items that it is spread into. -/
def characters : List Nat → List (List Nat)
  | [] => []
  | [u] => [[u]]
  | u :: v :: rest =>
    if isPair u v then [u, v] :: characters rest else [u] :: characters (v :: rest)

theorem flatten_characters (s : List Nat) : (characters s).flatten = s := by
  induction s using characters.induct with
  | case1 => rfl
  | case2 u => rfl
  | case3 u v rest hpair ih =>
    rw [characters, if_pos hpair, List.flatten_cons, ih]
    rfl
  | case4 u v rest hpair ih =>
    rw [characters, if_neg hpair, List.flatten_cons, ih]
    rfl

/--
Values that can be added and spread. Of what they are spread into, only the items of strings are
known.
-/
structure Spreading (V : Type) extends Addition V where
  items : V → List V
  items_string : ∀ s, items (string s) = (characters s).map string

theorem Spreading.items_eq_singleton_iff (S : Spreading V) (s : List Nat) :
    S.items (S.string s) = [S.string s] ↔ (characters s).length = 1 := by
  rw [S.items_string]
  constructor
  · intro h
    have hlength := congrArg List.length h
    rwa [List.length_map] at hlength
  · intro h
    obtain ⟨c, hc⟩ := List.length_eq_one_iff.1 h
    have hs := flatten_characters s
    rw [hc, List.flatten_singleton] at hs
    rw [hc, hs, List.map_singleton]

theorem isSingle_iff_of_isString (h : isString n = true) :
    isSingle n = true ↔ n.bare.kind ≠ .binary "+" := by
  induction n using isString.induct with
  | case1 span e ih =>
    rw [isString] at h
    exact ih h
  | case2 span cs => exact iff_of_true rfl Kind.noConfusion
  | case3 span cs => exact iff_of_true rfl Kind.noConfusion
  | case4 span a b iha ihb => exact iff_of_false Bool.noConfusion fun hsum => hsum rfl
  | case5 n hparen hstring htemplate hsum =>
    rw [isString] at h
    · cases h
    · exact hparen
    · exact hstring
    · exact htemplate
    · exact hsum

theorem elementSegments_of_isString (h : isString n = true) :
    elementSegments n =
      [.string (if n.bare.kind = .binary "+" then ", ..." else ", "), .reused n.span] := by
  have hsingle := isSingle_iff_of_isString h
  rw [elementSegments]
  by_cases hsum : n.bare.kind = .binary "+"
  · rw [if_pos hsum, if_neg fun hs => hsingle.1 hs hsum]
  · rw [if_neg hsum, if_pos (hsingle.2 hsum)]

/--
An argument that is a string is written as a spread just if it is a sum, parentheses aside. It then
stays one element only if it is one character.
-/
theorem spread_iff_sum_of_mem_edits {p : Program} {e : Edit} (he : e ∈ edits p) (S : Spreading V)
    (operand : Node → V) :
    ∃ call ∈ p.tree.subtrees, ∃ receiver arguments,
      call.methodCall? = some (receiver, "concat", arguments) ∧
      e =
        laid call.span ([.string "[...", .reused receiver.span] ++
          arguments.children.flatMap elementSegments ++
        [.string "]"]) ∧
      ∀ a ∈ arguments.children, isString a = true →
        elementSegments a =
          [.string (if a.bare.kind = .binary "+" then ", ..." else ", "), .reused a.span] ∧
        ∃ s, S.value p.text operand a = S.string s ∧
          (S.items (S.string s) = [S.string s] ↔ (characters s).length = 1) := by
  obtain ⟨call, hcall, he⟩ := List.mem_filterMap.1 he
  obtain ⟨receiver, arguments, hmethod, _, _, hlaid⟩ := edit?_eq_some he
  refine ⟨call, hcall, receiver, arguments, hmethod, hlaid, ?_⟩
  intro a _ hstring
  exact ⟨elementSegments_of_isString hstring, _, value_of_isString hstring,
    S.items_eq_singleton_iff _⟩

def Spreading.strings : Spreading (List Nat) where
  string := id
  form := id
  add := (· ++ ·)
  form_string := fun _ => rfl
  string_add := fun _ _ => rfl
  add_string := fun _ _ => rfl
  items := characters
  items_string := fun _ => (List.map_id _).symm

theorem spread_iff_sum_of_mem_edits_mixed :
    ∃ p ∈ (Program.parse .tsx (Text.ofString "x = [a].concat(('b'), ('c' + d));\n")).toOption,
      ∃ e ∈ edits p, ∃ call ∈ p.tree.subtrees, ∃ receiver arguments,
        call.methodCall? = some (receiver, "concat", arguments) ∧
        ∃ plain sum, arguments.children = [plain, sum] ∧ isString plain = true ∧
          isString sum = true ∧ elementSegments plain = [.string ", ", .reused plain.span] ∧
          elementSegments sum = [.string ", ...", .reused sum.span] ∧
          ∃ s, Spreading.strings.value p.text (fun _ => [100]) sum = s ∧
            Spreading.strings.items s ≠ [s] := by
  have hparse :
      ∃ p ∈ (Program.parse .tsx (Text.ofString "x = [a].concat(('b'), ('c' + d));\n")).toOption,
        (edits p).length = 1 ∧ ∀ n ∈ p.tree.subtrees, ∀ c ∈ n.methodCall?,
        c.2.2.children.map (fun a =>
          (isString a, a.bare.kind, Spreading.strings.value p.text (fun _ => [100]) a)) =
        [(true, .string, [98]), (true, .binary "+", [99, 100])] := by
    decide +kernel
  obtain ⟨p, hp, hone, harguments⟩ := hparse
  obtain ⟨e, he⟩ := List.exists_mem_of_length_pos (hone ▸ Nat.one_pos)
  obtain ⟨call, hcall, receiver, arguments, hmethod, _, hstrings⟩ :=
    spread_iff_sum_of_mem_edits he Spreading.strings fun _ => [100]
  obtain ⟨plain, _, hlist, hplain, htail⟩ :=
    List.map_eq_cons_iff.1 (harguments call hcall _ hmethod)
  obtain ⟨sum, _, rfl, hsum, hnil⟩ := List.map_eq_cons_iff.1 htail
  rw [List.map_eq_nil_iff] at hnil
  subst hnil
  simp only [Prod.mk.injEq] at hplain hsum hlist
  obtain ⟨hfirst, _⟩ := hstrings plain (hlist ▸ List.mem_cons_self) hplain.1
  obtain ⟨hsecond, s, hs, hitems⟩ :=
    hstrings sum (hlist ▸ List.mem_cons_of_mem _ List.mem_cons_self) hsum.1
  rw [hplain.2.1] at hfirst
  rw [hsum.2.1] at hsecond
  refine ⟨p, hp, e, he, call, hcall, receiver, arguments, hmethod, plain, sum, hlist, hplain.1,
    hsum.1, hfirst, hsecond, s, hs, ?_⟩
  have hvalue : s = [99, 100] := hs.symm.trans hsum.2.2
  intro hone
  have hlength := hitems.1 hone
  rw [hvalue] at hlength
  cases hlength

/-- A sum that is a string is spread into its characters. -/
theorem spreads_string_sum :
    ∃ p ∈ (Program.parse .tsx (Text.ofString "x = [a].concat('b' + c);\n")).toOption,
      ∃ q ∈ (Program.parse .tsx ((Document.ofText p.text).apply (edits p)).1.text).toOption,
        ∃ n ∈ q.tree.subtrees, n.kind = .spread ∧ isString (n.child 0) = true := by
  decide +kernel

end Uplift.ArrayConcat
