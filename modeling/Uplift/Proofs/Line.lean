import Mathlib.Data.Nat.Count
import Uplift.Text.Line

namespace Uplift.LineIndex

set_option autoImplicit true

def Parts (a : Array Nat) (x lo hi : Nat) : Prop :=
  (∀ i, i < lo → a[i]?.getD 0 < x) ∧ ∀ i, hi ≤ i → i < a.size → x < a[i]?.getD 0

def Increasing (a : Array Nat) : Prop := ∀ i j, i < j → j < a.size → a[i]?.getD 0 < a[j]?.getD 0

/--
The right answers to a search of `a` for `x` are the places that hold `x` and, if there are none,
the place that parts the lesser entries from the greater ones.
-/
inductive Sought.Right (a : Array Nat) (x : Nat) : Sought → Prop where
  | found (h : a[place]? = some x) : Right a x (.found place)
  | absent (hle : place ≤ a.size) (h : Parts a x place place) : Right a x (.absent place)

theorem Parts.raise (hp : Parts a x lo hi) (hs : Increasing a) (hsize : mid < a.size)
    (hless : a[mid]?.getD 0 < x) : Parts a x (mid + 1) hi := by
  constructor
  · intro i hi
    rcases Nat.eq_or_lt_of_le (Nat.le_of_lt_succ hi) with rfl | hlt
    · exact hless
    · exact Nat.lt_trans (hs i mid hlt hsize) hless
  · exact hp.2

theorem Parts.lower (hp : Parts a x lo hi) (hs : Increasing a) (hgreater : x < a[mid]?.getD 0) :
    Parts a x lo mid := by
  constructor
  · exact hp.1
  · intro i hi hsize
    rcases Nat.eq_or_lt_of_le hi with rfl | hlt
    · exact hgreater
    · exact Nat.lt_trans hgreater (hs mid i hlt hsize)

theorem Parts.meet (hp : Parts a x lo hi) (hlo : lo ≤ hi) (hhi : hi ≤ lo) (hsize : hi ≤ a.size) :
    Sought.Right a x (.absent lo) := by
  obtain rfl := Nat.le_antisymm hlo hhi
  exact .absent hsize hp

/-- Bisection narrows the bounds that part the entries until they meet or an entry is found. -/
theorem Parts.bisect (hp : Parts a x lo hi) (hs : Increasing a) (hlo : lo ≤ hi) (hhi : hi ≤ a.size)
    (hf : hi - lo ≤ fuel) : (LineIndex.bisect a x fuel lo hi).Right a x := by
  induction fuel generalizing lo hi with
  | zero => exact hp.meet hlo (by omega) hhi
  | succ fuel ih =>
    rw [LineIndex.bisect]
    split
    next hlt =>
      have hmid : lo ≤ (lo + hi) / 2 ∧ (lo + hi) / 2 < hi := by omega
      have hsize : (lo + hi) / 2 < a.size := Nat.lt_of_lt_of_le hmid.2 hhi
      simp only
      split
      next heq =>
        apply Sought.Right.found
        rw [Array.getElem?_eq_getElem hsize, Option.getD_some] at heq
        rw [Array.getElem?_eq_getElem hsize, heq]
      next hne =>
        split
        next hless => exact ih (hp.raise hs hsize hless) (by omega) hhi (by omega)
        next hge => exact ih (hp.lower hs (by omega)) hmid.1 (by omega) (by omega)
    next hge => exact hp.meet hlo (Nat.le_of_not_lt hge) hhi

theorem Parts.getElem?_ne (h : Parts a x place place) (i : Nat) : a[i]? ≠ some x := by
  intro hi
  obtain ⟨hlt, -⟩ := Array.getElem?_eq_some_iff.1 hi
  have hentry : a[i]?.getD 0 = x := by rw [hi, Option.getD_some]
  rcases Nat.lt_or_ge i place with hless | hge
  · exact Nat.ne_of_lt (h.1 i hless) hentry
  · exact Nat.ne_of_gt (h.2 i hge hlt) hentry

theorem countP_le_eq {l : List Nat} (hr : r ≤ l.length)
    (hlow : ∀ i, i < r → l.toArray[i]?.getD 0 ≤ x)
    (hhigh : ∀ i, r ≤ i → i < l.toArray.size → x < l.toArray[i]?.getD 0) :
    l.countP (· ≤ x) = r := by
  have htake : (l.take r).countP (· ≤ x) = (l.take r).length := by
    rw [List.countP_eq_length]
    intro y hy
    obtain ⟨i, hi, rfl⟩ := List.mem_iff_getElem.1 hy
    rw [List.length_take] at hi
    have h := hlow i (by omega)
    rw [List.getElem?_toArray, List.getElem?_eq_getElem (by omega), Option.getD_some] at h
    simpa only [List.getElem_take, decide_eq_true_eq] using h
  have hdrop : (l.drop r).countP (· ≤ x) = 0 := by
    rw [List.countP_eq_zero]
    intro y hy
    obtain ⟨i, hi, rfl⟩ := List.mem_iff_getElem.1 hy
    rw [List.length_drop] at hi
    have h := hhigh (r + i) (by omega) (by rw [List.size_toArray]; omega)
    rw [List.getElem?_toArray, List.getElem?_eq_getElem (by omega), Option.getD_some] at h
    simpa only [List.getElem_drop, decide_eq_true_eq, Nat.not_le] using h
  calc l.countP (· ≤ x)
      = (l.take r).countP (· ≤ x) + (l.drop r).countP (· ≤ x) := by
        rw [← List.countP_append, List.take_append_drop]
    _ = r := by rw [htake, hdrop, List.length_take]; omega

namespace Sought

theorem Right.countP_of_found {l : List Nat} (h : Right l.toArray x (.found place))
    (hs : Increasing l.toArray) : l.countP (· ≤ x) = place + 1 := by
  cases h with
  | found h =>
    obtain ⟨hlt, -⟩ := Array.getElem?_eq_some_iff.1 h
    have hentry : l.toArray[place]?.getD 0 = x := by rw [h, Option.getD_some]
    apply countP_le_eq hlt
    · intro i hi
      rcases Nat.eq_or_lt_of_le (Nat.le_of_lt_succ hi) with rfl | hi
      · exact Nat.le_of_eq hentry
      · exact hentry ▸ Nat.le_of_lt (hs i place hi hlt)
    · intro i hi hsize
      exact hentry ▸ hs place i hi hsize

theorem Right.countP_of_absent {l : List Nat} (h : Right l.toArray x (.absent place)) :
    l.countP (· ≤ x) = place := by
  cases h with
  | absent hle hp => exact countP_le_eq hle (fun i hi => Nat.le_of_lt (hp.1 i hi)) hp.2

theorem Right.unique {l : List Nat} (hs : Increasing l.toArray) (h : Right l.toArray x s)
    (h' : Right l.toArray x s') : s = s' := by
  cases h with
  | found hi =>
    cases h' with
    | found hi' =>
      have hcount := (Right.found hi).countP_of_found hs
      have hcount' := (Right.found hi').countP_of_found hs
      exact congrArg Sought.found (Nat.succ.inj (hcount.symm.trans hcount'))
    | absent _ hp' => exact absurd hi (hp'.getElem?_ne _)
  | absent hle hp =>
    cases h' with
    | found hi' => exact absurd hi' (hp.getElem?_ne _)
    | absent hle' hp' =>
      have hcount := (Right.absent hle hp).countP_of_absent
      have hcount' := (Right.absent hle' hp').countP_of_absent
      exact congrArg Sought.absent (hcount.symm.trans hcount')

end Sought

theorem lt_of_mem_startsAfter (h : p ∈ startsAfter offset t) : offset < p := by
  induction t generalizing offset with
  | nil => cases h
  | cons b t ih =>
    rw [startsAfter] at h
    split at h
    next =>
      rcases List.mem_cons.1 h with rfl | h
      · exact Nat.lt_succ_self _
      · exact Nat.lt_of_succ_lt (ih h)
    next => exact Nat.lt_of_succ_lt (ih h)

theorem pairwise_startsAfter (offset : Nat) (t : Text) :
    (startsAfter offset t).Pairwise (· < ·) := by
  induction t generalizing offset with
  | nil => exact .nil
  | cons b t ih =>
    rw [startsAfter]
    split
    next =>
      exact .cons (fun p hp => lt_of_mem_startsAfter hp) (ih _)
    next => exact ih _

@[simp] theorem length_startsAfter (offset : Nat) (t : Text) :
    (startsAfter offset t).length = t.count Text.newline := by
  induction t generalizing offset with
  | nil => rfl
  | cons b t ih =>
    rw [startsAfter, List.count_cons]
    by_cases hb : b = Text.newline
    · simp only [hb, ↓reduceIte, List.length_cons, ih, beq_self_eq_true]
    · simp only [hb, ↓reduceIte, ih, beq_iff_eq, Nat.add_zero]

theorem countP_startsAfter (offset k : Nat) (t : Text) :
    (startsAfter offset t).countP (· ≤ offset + k) = (t.take k).count Text.newline := by
  induction t generalizing offset k with
  | nil => simp only [startsAfter, List.countP_nil, List.take_nil, List.count_nil]
  | cons b t ih =>
    cases k with
    | zero =>
      rw [List.take_zero, List.count_nil, List.countP_eq_zero]
      intro p hp
      have hlt := lt_of_mem_startsAfter hp
      simp only [decide_eq_true_eq]
      omega
    | succ k =>
      have he : offset + (k + 1) = offset + 1 + k := by omega
      rw [startsAfter, List.take_succ_cons, List.count_cons, he, ← ih (offset + 1) k]
      by_cases hb : b = Text.newline
      · have hle : offset + 1 ≤ offset + 1 + k := Nat.le_add_right _ _
        simp only [hb, ↓reduceIte, List.countP_cons, hle, decide_true, beq_self_eq_true]
      · simp only [hb, ↓reduceIte, beq_iff_eq, Nat.add_zero]

@[simp] theorem size_ofText (t : Text) : (ofText t).size = t.count Text.newline + 1 := by
  simp only [size, ofText, List.size_toArray, List.length_cons, length_startsAfter]

theorem increasing_starts (t : Text) : Increasing (0 :: startsAfter 0 t).toArray := by
  intro i j hij hj
  have hpw : (0 :: startsAfter 0 t).Pairwise (· < ·) :=
    .cons (fun p hp => lt_of_mem_startsAfter hp) (pairwise_startsAfter 0 t)
  rw [List.size_toArray] at hj
  rw [List.getElem?_toArray, List.getElem?_toArray, List.getElem?_eq_getElem hj,
    List.getElem?_eq_getElem (Nat.lt_trans hij hj)]
  exact List.pairwise_iff_getElem.1 hpw i j _ hj hij

/-- The lines that start at an offset or before it are one more than the newlines before it. -/
theorem countP_starts (t : Text) (offset : Nat) :
    (0 :: startsAfter 0 t).countP (· ≤ offset) = (t.take offset).count Text.newline + 1 := by
  rw [List.countP_cons, ← countP_startsAfter 0 offset t, Nat.zero_add]
  simp only [Nat.zero_le, decide_true, ↓reduceIte]

theorem right_search (t : Text) (offset : Nat) :
    ((ofText t).search offset).Right (ofText t).starts offset := by
  have hstart : Parts (ofText t).starts offset 0 (ofText t).size := by
    constructor
    · intro i hi
      exact absurd hi (Nat.not_lt_zero i)
    · intro i hi hi'
      exact absurd hi' (Nat.not_lt_of_ge hi)
  exact hstart.bisect (increasing_starts t) (Nat.zero_le _) (Nat.le_refl _) (Nat.sub_le _ 0)

theorem right_iff_search_eq (t : Text) (offset : Nat) :
    answer.Right (ofText t).starts offset ↔ (ofText t).search offset = answer := by
  constructor
  · intro h
    exact (right_search t offset).unique (increasing_starts t) h
  · rintro rfl
    exact right_search t offset

theorem eq_of_search_found (h : (ofText t).search offset = .found line) :
    line = (t.take offset).count Text.newline := by
  have hcount := ((right_iff_search_eq t offset).2 h).countP_of_found (increasing_starts t)
  rw [countP_starts] at hcount
  omega

theorem eq_of_search_absent (h : (ofText t).search offset = .absent next) :
    next = (t.take offset).count Text.newline + 1 := by
  rw [← countP_starts]
  exact ((right_iff_search_eq t offset).2 h).countP_of_absent.symm

@[simp] theorem lineOf_ofText (t : Text) (offset : Nat) :
    (ofText t).lineOf offset = (t.take offset).count Text.newline := by
  rw [lineOf]
  split
  next line h => exact eq_of_search_found h
  next next h => rw [eq_of_search_absent h, Nat.add_sub_cancel]

theorem count_take (t : Text) (b : UInt8) (n : Nat) :
    (t.take n).count b = Nat.count (fun p => t[p]? = some b) n := by
  induction n with
  | zero => rw [List.take_zero, List.count_nil, Nat.count_zero]
  | succ n ih =>
    rw [List.take_add_one, List.count_append, ih, Nat.count_succ]
    congr 1
    cases t[n]? with
    | none => rfl
    | some c =>
      simp only [Option.toList_some, List.count_singleton, beq_iff_eq, Option.some.injEq]

/--
The line that holds an offset, also one past the end, is the number of newlines at the positions
below it. It is one of the lines of the text, and never comes before the line of an earlier offset.
The search for the offset gives the one right answer, and where no line starts at the offset, the
place it gives is not the first, so that one can be taken off.
-/
theorem lineOf_eq_count_below (t : Text) (offset : Nat) :
    (ofText t).lineOf offset = Nat.count (fun p => t[p]? = some Text.newline) offset ∧
    (ofText t).lineOf offset < (ofText t).size ∧
    (∀ later, offset ≤ later → (ofText t).lineOf offset ≤ (ofText t).lineOf later) ∧
    (∀ answer, answer.Right (ofText t).starts offset ↔ (ofText t).search offset = answer) ∧
    ∀ next, (ofText t).search offset = .absent next → 0 < next := by
  have hcount (o : Nat) :
      (ofText t).lineOf o = Nat.count (fun p => t[p]? = some Text.newline) o := by
    rw [lineOf_ofText, count_take]
  refine ⟨hcount offset, ?_, ?_, fun answer => right_iff_search_eq t offset, ?_⟩
  · rw [lineOf_ofText, size_ofText]
    exact Nat.lt_succ_of_le ((List.take_sublist offset t).count_le _)
  · intro later hle
    rw [hcount, hcount]
    exact Nat.count_monotone _ hle
  · intro next h
    rw [eq_of_search_absent h]
    exact Nat.succ_pos _

theorem lineOf_eq_count_below_blank :
    (ofText (Text.ofString "a\n\nb\n")).search 4 = .absent 3 ∧ 0 < 3 ∧
    (ofText (Text.ofString "a\n\nb\n")).lineOf 4 = 2 ∧
    (ofText (Text.ofString "a\n\nb\n")).lineOf 4 ≤ (ofText (Text.ofString "a\n\nb\n")).lineOf 100 ∧
    (ofText (Text.ofString "a\n\nb\n")).lineOf 100 = 3 := by
  obtain ⟨hline, -, hmono, -, hnext⟩ := lineOf_eq_count_below (Text.ofString "a\n\nb\n") 4
  obtain ⟨hlast, -⟩ := lineOf_eq_count_below (Text.ofString "a\n\nb\n") 100
  have hsearch : (ofText (Text.ofString "a\n\nb\n")).search 4 = .absent 3 := by decide
  exact ⟨hsearch, hnext 3 hsearch, hline.trans (by decide), hmono 100 (by decide),
    hlast.trans (by decide)⟩

end Uplift.LineIndex
