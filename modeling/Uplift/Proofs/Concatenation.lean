import Mathlib.Data.List.Forall2
import Uplift.Concatenation
import Uplift.Token.Quoted

namespace Uplift

set_option autoImplicit true

namespace Concatenation

/-- The code units of a quoted text; none if an escape in it is refused. -/
def units (rules : Quoted.Rules) (body : List Char) : List Nat :=
  (Quoted.value rules body).toOption.getD []

/-- Values that can be added. Only sums with a string on one side are known. -/
structure Addition (V : Type) where
  string : List Nat → V
  form : V → List Nat
  add : V → V → V
  form_string : ∀ s, form (string s) = s
  string_add : ∀ s v, add (string s) v = string (s ++ form v)
  add_string : ∀ v s, add v (string s) = string (form v ++ s)

namespace Addition

mutual

/--
The value of an expression, given those of the operands that are neither strings, templates nor
sums.
-/
def value (A : Addition V) (source : Text) (operand : Node → V) : Node → V
  | .mk .paren _ [e] => value A source operand e
  | .mk .string span _ => A.string (units .string (quotedBody (source.slice span)))
  | .mk .template _ children => A.string (templateUnits A source operand children)
  | .mk (.binary "+") _ [a, b] => A.add (value A source operand a) (value A source operand b)
  | n => operand n

def templateUnits (A : Addition V) (source : Text) (operand : Node → V) : List Node → List Nat
  | [] => []
  | .mk (.quasi raw) _ _ :: rest =>
    units .template raw.toList ++ templateUnits A source operand rest
  | e :: rest => A.form (value A source operand e) ++ templateUnits A source operand rest

end

/-- What a node contributes to a string when it is taken as the given part. -/
def meaning (A : Addition V) (source : Text) (operand : Node → V) : Node × Part → List Nat
  | (n, .literal _) => units .string (quotedBody (source.slice n.span))
  | (_, .quasi text) => units .template text
  | (n, .hole _) => A.form (A.value source operand n)

end Addition

/--
The part that is made of a node: a string or a stretch of a template in `all` is text, a hole of
such a template stays a hole, and so does an operand that need not be a string.
-/
inductive Gives (source : Text) (all : List Node) : Node → Part → Prop where
  | literal (h : templateText? (quotedBody (source.slice span)) = some text) :
    Gives source all (.mk .string span cs) (.literal text)
  | quasi (h : .mk .template span cs ∈ all) (hn : .mk (.quasi raw) span' cs' ∈ cs) :
    Gives source all (.mk (.quasi raw) span' cs') (.quasi raw.toList)
  | hole (h : .mk .template span cs ∈ all) (hn : n ∈ cs) : Gives source all n (.hole n.span)
  | operand (h : isString n = false) : Gives source all n (.hole n.span)

abbrev Form := ∀ V : Type, Addition V → (Node → V) → List Nat

/-- Nodes taken from `ns` in order, with the parts `ps` made of them, mean `s` together. -/
def Splits (source : Text) (all ns : List Node) (ps : List Part) (s : Form) : Prop :=
  ∃ pieces : List (Node × Part), pieces.map Prod.snd = ps ∧
    (∀ x ∈ pieces, Gives source all x.1 x.2) ∧ (pieces.map Prod.fst).Sublist ns ∧
    ∀ V A operand, pieces.flatMap (A.meaning source operand) = s V A operand

theorem subtrees_mk (k : Kind) (span : Range) (cs : List Node) :
    (Node.mk k span cs).subtrees = .mk k span cs :: Node.walkAll (fun _ => true) cs := by
  rw [Node.subtrees, Node.walk, if_pos rfl]

theorem singleton_sublist_subtrees (n : Node) : [n].Sublist n.subtrees := by
  obtain ⟨k, span, cs⟩ := n
  rw [subtrees_mk]
  exact (List.nil_sublist _).cons_cons _

section Splits

variable {source : Text} {all : List Node}

theorem Splits.nil : Splits source all [] [] fun _ _ _ => [] :=
  ⟨[], rfl, fun _ h => (nomatch h), .slnil, fun _ _ _ => rfl⟩

theorem Splits.single (h : Gives source all n p) :
    Splits source all n.subtrees [p] fun _ A operand => A.meaning source operand (n, p) := by
  refine ⟨[(n, p)], rfl, ?_, singleton_sublist_subtrees n, ?_⟩
  · intro x hx
    rw [List.mem_singleton] at hx
    subst x
    exact h
  · intro V A operand
    rw [List.flatMap_cons, List.flatMap_nil, List.append_nil]

theorem Splits.append (h : Splits source all ns ps s) (h' : Splits source all ns' ps' s') :
    Splits source all (ns ++ ns') (ps ++ ps') fun V A operand =>
      s V A operand ++ s' V A operand := by
  obtain ⟨pieces, rfl, hg, hn, hs⟩ := h
  obtain ⟨pieces', rfl, hg', hn', hs'⟩ := h'
  refine ⟨pieces ++ pieces', List.map_append, ?_, ?_, ?_⟩
  · intro x hx
    exact (List.mem_append.1 hx).elim (hg x) (hg' x)
  · rw [List.map_append]
    exact hn.append hn'
  · intro V A operand
    rw [List.flatMap_append, hs, hs']

theorem Splits.mono (h : Splits source all ns ps s) (hn : ns.Sublist ns') :
    Splits source all ns' ps s := by
  obtain ⟨pieces, hp, hg, hns, hs⟩ := h
  exact ⟨pieces, hp, hg, hns.trans hn, hs⟩

theorem Splits.congr (h : Splits source all ns ps s)
    (hs : ∀ V A operand, s V A operand = s' V A operand) : Splits source all ns ps s' := by
  obtain ⟨pieces, hp, hg, hns, hm⟩ := h
  exact ⟨pieces, hp, hg, hns, fun V A operand => (hm V A operand).trans (hs V A operand)⟩

theorem Splits.template (h : .mk .template span children ∈ all) (hcs : ∀ n ∈ cs, n ∈ children) :
    Splits source all (Node.walkAll (fun _ => true) cs) (templateParts cs)
      fun _ A operand => A.templateUnits source operand cs := by
  induction cs using templateParts.induct with
  | case1 =>
    refine Splits.nil.congr fun V A operand => ?_
    rw [Addition.templateUnits]
  | case2 raw span' cs' rest ih =>
    have hquasi := hcs _ List.mem_cons_self
    have hrest := ih fun n hn => hcs n (List.mem_cons_of_mem _ hn)
    rw [Node.walkAll, templateParts]
    refine ((Splits.single (.quasi h hquasi)).append hrest).congr fun V A operand => ?_
    rw [Addition.templateUnits]
    rfl
  | case3 e rest hquasi ih =>
    have he := hcs e List.mem_cons_self
    have hrest := ih fun n hn => hcs n (List.mem_cons_of_mem _ hn)
    rw [Node.walkAll, templateParts]
    · refine ((Splits.single (.hole h he)).append hrest).congr fun V A operand => ?_
      rw [Addition.templateUnits]
      · rfl
      · exact hquasi
    · exact hquasi

end Splits

section Values

variable {A : Addition V} {source : Text} {operand : Node → V}

theorem value_of_isString (h : isString n = true) :
    A.value source operand n = A.string (A.form (A.value source operand n)) := by
  induction n using isString.induct with
  | case1 span e ih =>
    rw [Addition.value]
    exact ih h
  | case2 => rw [Addition.value, A.form_string]
  | case3 => rw [Addition.value, A.form_string]
  | case4 span a b iha ihb =>
    rw [Addition.value]
    rw [isString, Bool.or_eq_true] at h
    rcases h with h | h
    · rw [iha h, A.string_add, A.form_string]
    · rw [ihb h, A.add_string, A.form_string]
  | case5 n hparen hstring htemplate hsum =>
    rw [isString] at h
    · cases h
    · exact hparen
    · exact hstring
    · exact htemplate
    · exact hsum

end Values

theorem flatten_eq_ok (h : flatten source left right = .ok t) :
    ∃ ps qs, parts? source left = some ps ∧ parts? source right = some qs ∧
      (ps ++ qs).any Part.isLiteral = true ∧ t = (ps ++ qs).foldl add {} := by
  rw [flatten] at h
  split at h
  next ps qs hl hr =>
    split at h
    next hany =>
      cases h
      exact ⟨ps, qs, hl, hr, hany, rfl⟩
    next => cases h
  next => cases h

theorem length_quasis (t : Template) : t.quasis.length = t.holes.length + 1 := by
  rw [Template.quasis, Template.holes, List.length_append, List.length_map, List.length_map,
    List.length_singleton]

def Part.text : Part → List Char
  | .literal text => text
  | .quasi text => text
  | .hole _ => []

def Part.hole? : Part → Option Range
  | .hole range => some range
  | _ => none

/-- The texts between two holes, and before the first and behind the last one. -/
def runs (ps : List Part) : List (List (List Char)) :=
  (ps.splitOnP fun q => q.hole?.isSome).map (List.map Part.text)

/-- A dollar sign that ends a text and is not escaped there. -/
def OpenDollar (text before : List Char) : Prop :=
  text = before ++ ['$'] ∧ (before.reverse.takeWhile (· = '\\')).length % 2 = 0

/--
Texts written one after the other. Only where an open dollar sign would meet a brace, a backslash is
put before it.
-/
inductive Merges : List (List Char) → List Char → Prop where
  | nil : Merges [] []
  | plain (h : Merges texts text) (hseam : more.head? = some '\x7b' →
      ∀ before, ¬OpenDollar text before) :
    Merges (texts ++ [more]) (text ++ more)
  | guarded (h : Merges texts text) (hopen : OpenDollar text before) :
    Merges (texts ++ ['\x7b' :: more]) (before ++ '\\' :: '$' :: '\x7b' :: more)

theorem endsOpen_iff : Template.endsOpen text = true ↔ ∃ before, OpenDollar text before := by
  rw [Template.endsOpen]
  constructor
  · intro h
    split at h
    next before hreverse =>
      refine ⟨before.reverse, ?_, ?_⟩
      · rw [← text.reverse_reverse, hreverse, List.reverse_cons]
      · rw [List.reverse_reverse]
        exact of_decide_eq_true h
    next => cases h
  · rintro ⟨before, rfl, heven⟩
    rw [List.reverse_append]
    exact decide_eq_true heven

theorem Merges.join (h : Merges texts text) (more : List Char) :
    Merges (texts ++ [more]) (Template.join text more) := by
  rw [Template.join]
  split
  next hmeets =>
    obtain ⟨hbrace, hends⟩ := Bool.and_eq_true_iff.1 hmeets
    obtain ⟨before, hopen⟩ := endsOpen_iff.1 hends
    cases more with
    | nil => cases hbrace
    | cons c more =>
      cases Option.some.inj (of_decide_eq_true hbrace)
      rw [hopen.1, List.dropLast_concat]
      exact .guarded h hopen
  next hmeets =>
    refine .plain h fun hbrace before hopen => hmeets ?_
    rw [endsOpen_iff.2 ⟨before, hopen⟩, hbrace]
    rfl

end Concatenation

namespace Template

open Concatenation

theorem holes_add (t : Template) (q : Part) : (add t q).holes = t.holes ++ q.hole?.toList := by
  cases q with
  | literal text => exact (List.append_nil _).symm
  | quasi text => exact (List.append_nil _).symm
  | hole range =>
    rw [add, addHole, holes, holes, List.map_append]
    rfl

theorem holes_foldl_add (t : Template) (ps : List Part) :
    (ps.foldl add t).holes = t.holes ++ ps.filterMap Part.hole? := by
  induction ps generalizing t with
  | nil => exact (List.append_nil _).symm
  | cons q ps ih =>
    rw [List.foldl_cons, ih, holes_add, List.append_assoc, List.filterMap_cons]
    cases q.hole? with
    | none => rfl
    | some range => rfl

end Template

namespace Concatenation

end Concatenation

end Uplift
