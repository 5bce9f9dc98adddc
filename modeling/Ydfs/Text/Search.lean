import Mathlib.Data.List.Infix

/-!
# Words in a text

The places of a text at which a word occurs (`Occurs`), and the first of them (`find`).  Two words
that cannot overlap (`Apart`) are found one after the other.  `replace` puts another word in the place
of each that is found from the left; a word that cannot overlap itself is replaced wherever it occurs
(`occurrences`).
-/

namespace Search

variable {α : Type} {v w x y : List α} {i k n : ℕ}

/-- The word `w` begins at place `k` of the text `x`. -/
def Occurs (w x : List α) (k : ℕ) : Prop := w <+: x.drop k

theorem occurs_append (x w y : List α) : Occurs w (x ++ w ++ y) x.length := by
  simp [Occurs]

theorem Occurs.within (h : Occurs w x k) : w <:+: x :=
  h.isInfix.trans (List.drop_suffix k x).isInfix

theorem infix_iff_occurs : w <:+: x ↔ ∃ k, Occurs w x k := by
  constructor
  · rintro ⟨s, t, rfl⟩
    exact ⟨s.length, occurs_append s w t⟩
  · rintro ⟨k, h⟩
    exact h.within

/-- An occurrence ends before the text does. -/
theorem Occurs.le (h : Occurs w x k) (ne : w ≠ []) : k + w.length ≤ x.length := by
  have fits := h.length_le
  have pos := List.length_pos_iff.2 ne
  rw [List.length_drop] at fits
  omega

theorem Occurs.shorten (h : Occurs w x k) (hv : v <+: w) : Occurs v x k := hv.trans h

/-- An occurrence cuts the text in three. -/
theorem Occurs.split (h : Occurs w x k) : x.take k ++ w ++ x.drop (k + w.length) = x := by
  obtain ⟨t, ht⟩ := h
  have rest : x.drop (k + w.length) = t := by
    rw [← List.drop_drop, ← ht, List.drop_left]
  rw [rest, List.append_assoc, ht, List.take_append_drop]

/-- What lies before the end of the first part does not depend on the second. -/
theorem occurs_append_left (h : k + w.length ≤ x.length) :
    Occurs w (x ++ y) k ↔ Occurs w x k := by
  have cut : (x ++ y).drop k = x.drop k ++ y := List.drop_append_of_le_length (by omega)
  rw [Occurs, Occurs, cut]
  constructor
  · intro hw
    exact List.prefix_of_prefix_length_le hw (List.prefix_append _ _) (by rw [List.length_drop]; omega)
  · intro hw
    exact hw.trans (List.prefix_append _ _)

theorem occurs_append_right (h : x.length ≤ k) :
    Occurs w (x ++ y) k ↔ Occurs w y (k - x.length) := by
  rw [Occurs, Occurs, List.drop_append, List.drop_eq_nil_of_le h, List.nil_append]

theorem occurs_take : Occurs w (x.take n) k ↔ Occurs w x k ∧ w.length ≤ n - k := by
  rw [Occurs, List.drop_take, List.prefix_take_iff, Occurs]

/-- In a text with a first letter a word occurs there, or in the rest. -/
theorem occurs_cons_succ {a : α} : Occurs w (a :: x) (k + 1) ↔ Occurs w x k := by
  simp [Occurs]

/-- A word without the letter `a` lies before or behind an `a` of the text. -/
theorem infix_append_cons_iff {a : α} (free : a ∉ w) :
    w <:+: x ++ a :: y ↔ w <:+: x ∨ w <:+: y := by
  constructor
  · rintro ⟨s, t, whole⟩
    rcases List.append_eq_append_iff.1 whole with ⟨c, rfl, -⟩ | ⟨c, middle, rest⟩
    · exact .inl ⟨s, c, rfl⟩
    cases c with
    | nil => exact .inl ⟨s, [], by simpa using middle⟩
    | cons b c =>
      obtain ⟨rfl, rfl⟩ := List.cons.inj rest
      rcases List.append_eq_append_iff.1 middle with ⟨d, -, rfl⟩ | ⟨d, -, tail⟩
      · exact absurd (List.mem_append_right d List.mem_cons_self) free
      cases d with
      | nil =>
        rw [List.nil_append] at tail
        exact absurd (tail ▸ List.mem_cons_self) free
      | cons b d =>
        obtain ⟨rfl, rfl⟩ := List.cons.inj tail
        exact .inr ⟨d, t, rfl⟩
  · rintro (h | h)
    · exact List.infix_append_of_infix_left h
    · exact List.infix_append_of_infix_right (h.trans (List.infix_cons_iff.2 (.inr List.infix_rfl)))

/-- No end of `v` agrees with `w` as far as both go. -/
def Apart (v w : List α) : Prop := ∀ j < v.length, ¬ (v.drop j <+: w ∨ w <+: v.drop j)

instance [DecidableEq α] (v w : List α) : Decidable (Apart v w) :=
  inferInstanceAs (Decidable (∀ j < v.length, ¬ (v.drop j <+: w ∨ w <+: v.drop j)))

theorem Apart.tail {a : α} (h : Apart (a :: v) w) : Apart v w := fun j hj =>
  h (j + 1) (by simpa using hj)

theorem Apart.not_prefix_append (h : Apart v w) (ne : v ≠ []) (x : List α) : ¬ w <+: v ++ x :=
  fun begun => h 0 (List.length_pos_iff.2 ne)
    (List.prefix_or_prefix_of_prefix (List.prefix_append v x) begun)

/-- Words that are apart do not overlap. -/
theorem Apart.le (apart : Apart v w) (hv : Occurs v x i) (hw : Occurs w x k) (le : i ≤ k) :
    i + v.length ≤ k := by
  by_contra inside
  have tail : v.drop (k - i) <+: x.drop k := by
    have dropped := List.IsPrefix.drop hv (k - i)
    rwa [List.drop_drop, Nat.add_sub_cancel' le] at dropped
  exact apart (k - i) (by omega) (List.prefix_or_prefix_of_prefix tail hw)

/-- A word that has the letter `a` at its end only lies before or after an `a` of the text. -/
theorem Occurs.of_terminator {a : α} (h : Occurs v (x ++ a :: y) k) (apart : Apart v.dropLast [a]) :
    Occurs v (x ++ [a]) k ∨ x.length < k ∧ Occurs v y (k - (x.length + 1)) := by
  have split : x ++ a :: y = x ++ [a] ++ y := by simp
  by_cases le : k ≤ x.length
  · have letter : Occurs [a] (x ++ a :: y) x.length := by
      rw [split]
      exact occurs_append x [a] y
    have before := apart.le (h.shorten (List.dropLast_prefix v)) letter le
    rw [split, occurs_append_left (by simp at before ⊢; omega)] at h
    exact .inl h
  · rw [split, occurs_append_right (by simp; omega)] at h
    exact .inr ⟨by omega, by simpa using h⟩

variable [DecidableEq α]

/-- The first place at which a word occurs. -/
def find (w : List α) : List α → Option ℕ
  | [] => if w = [] then some 0 else none
  | a :: x => if w <+: a :: x then some 0 else (find w x).map (· + 1)

theorem Occurs.of_find (h : find w x = some k) : Occurs w x k := by
  induction x generalizing k with
  | nil =>
    simp only [find, Option.ite_none_right_eq_some, Option.some.injEq] at h
    simp [Occurs, h.1]
  | cons a x ih =>
    simp only [find] at h
    split_ifs at h with here
    · cases h
      exact here
    · obtain ⟨j, hj, rfl⟩ := Option.map_eq_some_iff.1 h
      exact occurs_cons_succ.2 (ih hj)

/-- A word that occurs is found, and not later than there. -/
theorem find_of_occurs (ne : w ≠ []) (hi : Occurs w x i) : ∃ k ≤ i, find w x = some k := by
  induction x generalizing i with
  | nil => exact absurd (List.prefix_nil.1 (by simpa [Occurs] using hi)) ne
  | cons a x ih =>
    by_cases here : w <+: a :: x
    · exact ⟨0, Nat.zero_le i, by simp [find, here]⟩
    · cases i with
      | zero => exact absurd hi here
      | succ i =>
        obtain ⟨k, hk, hfind⟩ := ih (occurs_cons_succ.1 hi)
        exact ⟨k + 1, by omega, by simp [find, here, hfind]⟩

/-- A word that is in a text is found. -/
theorem find_of_infix (ne : w ≠ []) (h : w <:+: x) : ∃ k, find w x = some k := by
  obtain ⟨i, hi⟩ := infix_iff_occurs.1 h
  obtain ⟨k, -, found⟩ := find_of_occurs ne hi
  exact ⟨k, found⟩

theorem le_of_find (ne : w ≠ []) (h : find w x = some k) (hi : Occurs w x i) : k ≤ i := by
  obtain ⟨j, hj, hfind⟩ := find_of_occurs ne hi
  rw [h, Option.some.injEq] at hfind
  omega

theorem find_eq_some (ne : w ≠ []) (hk : Occurs w x k) (first : ∀ i, Occurs w x i → k ≤ i) :
    find w x = some k := by
  obtain ⟨j, hj, hfind⟩ := find_of_occurs ne hk
  have := first j (.of_find hfind)
  rw [hfind, Option.some.injEq]
  omega

theorem find_eq_none (ne : w ≠ []) : find w x = none ↔ ¬ w <:+: x := by
  rw [infix_iff_occurs, not_exists]
  constructor
  · intro none i hi
    obtain ⟨k, -, hfind⟩ := find_of_occurs ne hi
    rw [none] at hfind
    cases hfind
  · intro nowhere
    by_contra found
    obtain ⟨k, hk⟩ := Option.ne_none_iff_exists'.1 found
    exact nowhere k (.of_find hk)

/-- A word that has the letter `a` at its end only, after a part that has no place for it. -/
theorem find_append_terminator {a : α} (ne : w ≠ []) (apart : Apart w.dropLast [a])
    (free : ¬ w <:+: x ++ [a]) :
    find w (x ++ a :: y) = (find w y).map (· + (x.length + 1)) := by
  have split : x ++ a :: y = x ++ [a] ++ y := by simp
  have later {i : ℕ} (hi : Occurs w (x ++ a :: y) i) :
      x.length < i ∧ Occurs w y (i - (x.length + 1)) :=
    (hi.of_terminator apart).resolve_left fun before => free before.within
  cases hy : find w y with
  | none =>
    rw [find_eq_none ne, infix_iff_occurs] at hy
    rw [Option.map_none, find_eq_none ne, infix_iff_occurs]
    exact fun ⟨i, hi⟩ => hy ⟨_, (later hi).2⟩
  | some k =>
    refine find_eq_some ne ?_ fun i hi => ?_
    · rw [split, occurs_append_right (by simp)]
      simpa using Occurs.of_find hy
    · obtain ⟨lt, hi⟩ := later hi
      have := le_of_find ne hy hi
      dsimp only
      omega

/-! ### Replacing a word -/

/-- `replace`, with the number of letters left of an occurrence that has been replaced. -/
def replaceFrom (w v : List α) : ℕ → List α → List α
  | _, [] => []
  | n + 1, _ :: x => replaceFrom w v n x
  | 0, a :: x => if w <+: a :: x then v ++ replaceFrom w v (w.length - 1) x else
      a :: replaceFrom w v 0 x

/-- The text with `v` in the place of the occurrences of `w` that are met from the left. -/
def replace (w v x : List α) : List α := replaceFrom w v 0 x

theorem replace_of_free (free : ¬ w <:+: x) : replace w v x = x := by
  induction x with
  | nil => rfl
  | cons a x ih =>
    have here : ¬ w <+: a :: x := fun h => free h.isInfix
    have rest := ih fun h => free (h.trans (List.suffix_cons a x).isInfix)
    rw [replace] at rest ⊢
    rw [replaceFrom, if_neg here, rest]

theorem length_replaceFrom_le (short : v.length < w.length) (n : ℕ) :
    (replaceFrom w v n x).length ≤ x.length - n := by
  induction x generalizing n with
  | nil => simp [replaceFrom]
  | cons a x ih =>
    cases n with
    | zero =>
      rw [replaceFrom]
      split_ifs with here
      · have fits := here.length_le
        have rest := ih (w.length - 1)
        simp only [List.length_append, List.length_cons] at fits ⊢
        omega
      · have rest := ih 0
        simp only [List.length_cons]
        omega
    | succ n =>
      have rest := ih n
      simp only [replaceFrom, List.length_cons]
      omega

theorem length_replace_le (short : v.length < w.length) : (replace w v x).length ≤ x.length :=
  length_replaceFrom_le short 0

/-- A shorter word in the place of a longer one makes the text shorter. -/
theorem length_replace_lt (short : v.length < w.length) (h : w <:+: x) :
    (replace w v x).length < x.length := by
  induction x with
  | nil =>
    rw [List.infix_nil.1 h] at short
    exact absurd short (by simp)
  | cons a x ih =>
    rw [replace, replaceFrom]
    split_ifs with here
    · have fits := here.length_le
      have rest := length_replaceFrom_le (x := x) short (w.length - 1)
      simp only [List.length_append, List.length_cons] at fits ⊢
      omega
    · have rest := ih ((List.infix_cons_iff.1 h).resolve_left here)
      simpa [replace] using rest

theorem replaceFrom_eq (w v : List α) (n : ℕ) (x : List α) :
    replaceFrom w v n x = replace w v (x.drop n) := by
  induction x generalizing n with
  | nil => cases n <;> rfl
  | cons a x ih =>
    cases n with
    | zero => rfl
    | succ n => rw [replaceFrom, ih, List.drop_succ_cons]

theorem replace_cons_of_not {a : α} (h : ¬ w <+: a :: x) :
    replace w v (a :: x) = a :: replace w v x := by
  rw [replace, replaceFrom, if_neg h, replace]

theorem replace_append (ne : w ≠ []) (v x : List α) : replace w v (w ++ x) = v ++ replace w v x := by
  obtain ⟨a, t, rfl⟩ := List.exists_cons_of_ne_nil ne
  have here : a :: t <+: a :: (t ++ x) := List.prefix_append (a :: t) x
  rw [List.cons_append, replace, replaceFrom, if_pos here, replaceFrom_eq, List.length_cons,
    Nat.add_sub_cancel, List.drop_left]

/-- A text from the left: at each place there is one of the words, or the next letter. -/
theorem scan_induction {P : List α → Prop} (words : List (List α)) (ne : [] ∉ words) (nil : P [])
    (letter : ∀ a x, (∀ w ∈ words, ¬ w <+: a :: x) → P x → P (a :: x))
    (word : ∀ w ∈ words, ∀ x, P x → P (w ++ x)) (x : List α) : P x := by
  induction length : x.length using Nat.strong_induction_on generalizing x with
  | _ n ih =>
    cases x with
    | nil => exact nil
    | cons a x =>
      by_cases here : ∃ w ∈ words, w <+: a :: x
      · obtain ⟨w, mem, y, split⟩ := here
        have pos := List.length_pos_iff.2 fun empty => ne (empty ▸ mem)
        have shorter : y.length < n := by
          rw [← length, ← split, List.length_append]
          omega
        rw [← split]
        exact word w mem y (ih y.length shorter y rfl)
      · push Not at here
        have shorter : x.length < n := by
          rw [← length, List.length_cons]
          omega
        exact letter a x here (ih x.length shorter x rfl)

/-- A word in its own place changes nothing. -/
theorem replace_self (ne : w ≠ []) (x : List α) : replace w w x = x := by
  induction x using scan_induction [w] (by simpa using ne.symm) with
  | nil => rfl
  | letter a x free ih => rw [replace_cons_of_not (free w (by simp)), ih]
  | word u mem x ih =>
    obtain rfl := List.mem_singleton.1 mem
    rw [replace_append ne, ih]

/-- The number of the places at which a word occurs. -/
def occurrences (w x : List α) : ℕ := x.tails.countP fun rest => w <+: rest

theorem occurrences_nil (ne : w ≠ []) : occurrences w [] = 0 := by
  simp [occurrences, ne]

theorem occurrences_cons_of_not {a : α} (h : ¬ w <+: a :: x) :
    occurrences w (a :: x) = occurrences w x := by
  rw [occurrences, List.tails_cons, List.countP_cons_of_neg (by simpa using h), occurrences]

theorem occurrences_cons_of_begins {a : α} (h : w <+: a :: x) :
    occurrences w (a :: x) = occurrences w x + 1 := by
  rw [occurrences, List.tails_cons, List.countP_cons_of_pos (by simpa using h), occurrences]

/-- A word that does not overlap with what is before occurs only behind it. -/
theorem Apart.occurrences_append (h : Apart v w) (x : List α) :
    occurrences w (v ++ x) = occurrences w x := by
  induction v with
  | nil => rfl
  | cons a v ih =>
    have here : ¬ w <+: a :: (v ++ x) := h.not_prefix_append (by simp) x
    rw [List.cons_append, occurrences_cons_of_not here, ih h.tail]

/-- A word that does not overlap with itself. -/
def Whole (w : List α) : Prop := w ≠ [] ∧ Apart w.tail w

theorem Whole.occurrences_append (h : Whole w) (x : List α) :
    occurrences w (w ++ x) = occurrences w x + 1 := by
  obtain ⟨ne, apart⟩ := h
  obtain ⟨a, t, rfl⟩ := List.exists_cons_of_ne_nil ne
  have here : a :: t <+: a :: (t ++ x) := List.prefix_append (a :: t) x
  rw [List.cons_append, occurrences_cons_of_begins here]
  exact congrArg (· + 1) (apart.occurrences_append x)

/-- Every occurrence is replaced. -/
theorem Whole.length_replace (h : Whole w) (v x : List α) :
    (replace w v x).length + occurrences w x * w.length =
      x.length + occurrences w x * v.length := by
  induction x using scan_induction [w] (by simpa using h.1.symm) with
  | nil => simp [occurrences_nil h.1, replace, replaceFrom]
  | letter a x free ih =>
    have here := free w (by simp)
    rw [replace_cons_of_not here, occurrences_cons_of_not here, List.length_cons, List.length_cons]
    omega
  | word u mem x ih =>
    obtain rfl := List.mem_singleton.1 mem
    rw [replace_append h.1, h.occurrences_append, List.length_append, List.length_append, Nat.add_mul,
      Nat.add_mul, Nat.one_mul, Nat.one_mul]
    omega

end Search
