import Mathlib.Data.List.Basic
import Mathlib.Data.List.Infix

/-!
# Cutting a text

`split` cuts a text at each occurrence of a word that is met from the left, and `words` takes the parts
between the letters of a certain kind, without the empty ones.
-/

namespace Splitting

variable {α : Type}

/-! ### Words -/

section Words

variable {p : α → Bool} {a : α} {u x : List α}

/-- The parts between the letters for which `p` holds, but for the empty ones. -/
def words (p : α → Bool) (x : List α) : List (List α) := (x.splitOnP p).filter fun u => !u.isEmpty

theorem eq_false_of_mem_splitOnP (h : u ∈ x.splitOnP p) : ∀ a ∈ u, p a = false := by
  induction x generalizing u with
  | nil =>
    rw [List.splitOnP_nil, List.mem_singleton] at h
    simp [h]
  | cons b x ih =>
    rw [List.splitOnP_cons_eq_if_modifyHead] at h
    split_ifs at h with separator
    · rcases List.mem_cons.1 h with rfl | h
      · simp
      · exact ih h
    · cases pieces : x.splitOnP p with
      | nil => exact absurd pieces (List.splitOnP_ne_nil p x)
      | cons first rest =>
        rw [pieces, List.modifyHead_cons] at h
        rw [pieces] at ih
        rcases List.mem_cons.1 h with rfl | h
        · rw [List.forall_mem_cons]
          exact ⟨by simpa using separator, ih List.mem_cons_self⟩
        · exact ih (List.mem_cons_of_mem _ h)

theorem eq_false_of_mem_words (h : u ∈ words p x) : ∀ a ∈ u, p a = false :=
  eq_false_of_mem_splitOnP (List.mem_filter.1 h).1

/-- A word behind a separator is the last one. -/
theorem getLast?_words (sep : p a = true) (ne : u ≠ []) (free : ∀ b ∈ u, p b = false) (x : List α) :
    (words p (x ++ a :: u)).getLast? = some u := by
  have whole : u.splitOnP p = [u] := List.splitOnP_eq_singleton free
  have some_ : [u].filter (fun u => !u.isEmpty) = [u] := by simp [ne]
  rw [words, List.splitOnP_append_cons _ _ sep, whole, List.filter_append, some_,
    List.getLast?_append, List.getLast?_singleton, Option.some_or]

theorem words_append_cons (sep : p a = true) (x u : List α) :
    words p (x ++ a :: u) = words p x ++ words p u := by
  rw [words, List.splitOnP_append_cons _ _ sep, List.filter_append]
  rfl

/-- A text with a letter that is no separator has a word. -/
theorem words_ne_nil (mem : a ∈ x) (solid : p a = false) : words p x ≠ [] := by
  induction x with
  | nil => cases mem
  | cons b x ih =>
    rw [words, List.splitOnP_cons_eq_if_modifyHead]
    split_ifs with separator
    · have inside : a ∈ x := by
        rcases List.mem_cons.1 mem with rfl | inside
        · rw [solid] at separator
          cases separator
        · exact inside
      exact ih inside
    · cases pieces : x.splitOnP p with
      | nil => exact absurd pieces (List.splitOnP_ne_nil p x)
      | cons first rest => simp

end Words

/-! ### Cutting at a word -/

variable [DecidableEq α]

/-- `split`, with the number of letters left of an occurrence at which the text has been cut. -/
def splitFrom (w : List α) : ℕ → List α → List (List α)
  | _, [] => [[]]
  | n + 1, _ :: x => splitFrom w n x
  | 0, a :: x =>
    if w <+: a :: x then [] :: splitFrom w (w.length - 1) x
    else (splitFrom w 0 x).modifyHead (a :: ·)

/-- Cut the text at each occurrence of the word that is met from the left. -/
def split (w x : List α) : List (List α) := splitFrom w 0 x

variable {s l x : List α} {a : α} {ls : List (List α)}

theorem splitFrom_eq (w : List α) (n : ℕ) (x : List α) : splitFrom w n x = split w (x.drop n) := by
  induction x generalizing n with
  | nil => cases n <;> rfl
  | cons b x ih =>
    cases n with
    | zero => rfl
    | succ n => rw [splitFrom, ih, List.drop_succ_cons]

/-- A line up to the first separator, which has the letter `a` at its end only. -/
theorem split_append (hs : a ∉ s) (hl : a ∉ l) (x : List α) :
    split (s ++ [a]) (l ++ (s ++ [a]) ++ x) = l :: split (s ++ [a]) x := by
  induction l with
  | nil =>
    obtain ⟨b, t, word⟩ := List.exists_cons_of_ne_nil (show s ++ [a] ≠ [] by simp)
    have here : b :: t <+: b :: (t ++ x) := List.prefix_append (b :: t) x
    rw [List.nil_append, word, List.cons_append, split, splitFrom, if_pos here, splitFrom_eq,
      List.length_cons, Nat.add_sub_cancel, List.drop_left]
  | cons b l ih =>
    have later : ¬ s ++ [a] <+: b :: (l ++ (s ++ [a]) ++ x) := by
      rintro ⟨t, ht⟩
      have same : s ++ a :: t = (b :: l ++ s) ++ a :: x := by simpa using ht
      have free : a ∉ b :: l ++ s := by
        rw [List.mem_append, not_or]
        exact ⟨hl, hs⟩
      have first := congrArg (List.idxOf a) same
      rw [List.idxOf_append_of_notMem hs, List.idxOf_append_of_notMem free, List.idxOf_cons_self,
        List.idxOf_cons_self, List.length_append, List.length_cons] at first
      omega
    rw [List.mem_cons, not_or] at hl
    rw [List.cons_append, List.cons_append, split, splitFrom, if_neg later, ← split, ih hl.2]
    rfl

theorem split_of_free (hl : a ∉ l) : split (s ++ [a]) l = [l] := by
  induction l with
  | nil => rfl
  | cons b l ih =>
    have nowhere : ¬ s ++ [a] <+: b :: l := fun h => hl (h.subset (by simp))
    rw [List.mem_cons, not_or] at hl
    rw [split, splitFrom, if_neg nowhere, ← split, ih hl.2]
    rfl

/-- Lines that are put together with a separator come apart again. -/
theorem split_intercalate (hs : a ∉ s) (ne : ls ≠ []) (free : ∀ l ∈ ls, a ∉ l) :
    split (s ++ [a]) ((s ++ [a]).intercalate ls) = ls := by
  induction ls with
  | nil => exact absurd rfl ne
  | cons l ls ih =>
    rw [List.forall_mem_cons] at free
    cases ls with
    | nil => rw [List.intercalate_singleton, split_of_free free.1]
    | cons l' ls =>
      rw [List.intercalate_cons_cons, split_append hs free.1, ih (by simp) free.2]

end Splitting
