import Mathlib.Data.Int.Notation
import Mathlib.Data.List.Basic

/-!
# Shuffling

A list is put in another order by swapping each item, from the last one on, with an item before it.
-/

namespace Shuffle

variable {α : Type*} {l : List α}

/-- Two items are swapped. -/
def swap (l : List α) (i j : ℕ) : List α :=
  match l[i]?, l[j]? with
  | some a, some b => (l.set i b).set j a
  | _, _ => l

theorem swap_perm (l : List α) (i j : ℕ) : (swap l i j).Perm l := by
  rw [swap]
  split
  next a b there there' =>
    obtain ⟨less, rfl⟩ := List.getElem?_eq_some_iff.1 there
    obtain ⟨less', rfl⟩ := List.getElem?_eq_some_iff.1 there'
    exact List.set_set_perm less less'
  next => exact List.Perm.refl l

/-- The items up to `i` are shuffled; `randrange` gives a number below a bound, in each turn another
one. -/
def shuffleTo (randrange : ℕ → ℕ → ℕ) : ℕ → List α → List α
  | 0, l => l
  | i + 1, l => shuffleTo randrange i (swap l (i + 1) (randrange i (i + 2)))

/-- `random.shuffle` -/
def shuffle (randrange : ℕ → ℕ → ℕ) (l : List α) : List α := shuffleTo randrange (l.length - 1) l

theorem shuffle_perm (randrange : ℕ → ℕ → ℕ) (l : List α) : (shuffle randrange l).Perm l := by
  have all : ∀ i (l : List α), (shuffleTo randrange i l).Perm l := by
    intro i
    induction i with
    | zero => exact fun l => List.Perm.refl l
    | succ i ih => exact fun l => (ih _).trans (swap_perm l _ _)
  exact all _ l

end Shuffle
