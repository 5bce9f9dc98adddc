import Mathlib.Data.Int.Notation
import Mathlib.Data.List.Basic
import Mathlib.Tactic.SplitIfs

/-!
# Positions in a sequence, as Python counts them

An item, a slice and the search for an item, by positions that count from the end where they are
negative.  A bound of a slice is taken into the sequence; an item outside of it is not there.  What is
read at the place of a part is that part (`slice_append`, `index_append`).
-/

namespace Slices

variable {α : Type*} {pre mid post : List α} {a : α}

/-- The number of items before a bound of a slice. -/
def bound (x : List α) (i : ℤ) : ℕ := if i < 0 then x.length - i.natAbs else min i.toNat x.length

/-- `x[i]` -/
def item (x : List α) (i : ℤ) : Option α :=
  if i < 0 then if i.natAbs ≤ x.length then x[x.length - i.natAbs]? else none else x[i.toNat]?

/-- `x[i:j]` -/
def slice (x : List α) (i j : ℤ) : List α := (x.take (bound x j)).drop (bound x i)

/-- `x.index(a, i)` -/
def index [DecidableEq α] (x : List α) (a : α) (i : ℤ) : Option ℕ :=
  if a ∈ x.drop (bound x i) then some (bound x i + (x.drop (bound x i)).idxOf a) else none

theorem bound_natCast (x : List α) (k : ℕ) : bound x k = min k x.length := by
  have nonneg : ¬ (k : ℤ) < 0 := by omega
  simp [bound, nonneg]

theorem item_natCast (x : List α) (k : ℕ) : item x k = x[k]? := by
  have nonneg : ¬ (k : ℤ) < 0 := by omega
  simp [item, nonneg]

theorem item_append (pre post : List α) (a : α) : item (pre ++ a :: post) pre.length = some a := by
  simp [item_natCast]

theorem slice_natCast (x : List α) (i j : ℕ) : slice x i j = (x.take j).drop i := by
  rw [slice, bound_natCast, bound_natCast, ← List.take_take, List.take_length]
  by_cases short : i ≤ x.length
  · rw [Nat.min_eq_left short]
  · rw [List.drop_eq_nil_of_le (by simp; omega), List.drop_eq_nil_of_le (by simp; omega)]

theorem slice_append (pre mid post : List α) :
    slice (pre ++ (mid ++ post)) pre.length (pre.length + mid.length) = mid := by
  have upper : bound (pre ++ (mid ++ post)) (pre.length + mid.length) =
      pre.length + mid.length := by
    rw [← Int.natCast_add, bound_natCast]
    simp
  rw [slice, upper, bound_natCast]
  simp [List.take_append]

theorem index_append [DecidableEq α] (free : a ∉ mid) (pre post : List α) :
    index (pre ++ (mid ++ a :: post)) a pre.length = some (pre.length + mid.length) := by
  have lower : bound (pre ++ (mid ++ a :: post)) pre.length = pre.length := by
    rw [bound_natCast]
    simp
  rw [index, lower, List.drop_left, if_pos (by simp), List.idxOf_append_of_notMem free]
  simp

theorem index_eq_some [DecidableEq α] {x : List α} {i : ℤ} {k : ℕ} (h : index x a i = some k) :
    bound x i ≤ k ∧ k < x.length ∧ x[k]? = some a := by
  rw [index] at h
  split_ifs at h with mem
  obtain rfl := Option.some.inj h
  have short := List.idxOf_lt_length_of_mem mem
  rw [List.length_drop] at short
  refine ⟨Nat.le_add_right .., by omega, ?_⟩
  rw [← List.getElem?_drop]
  exact List.getElem?_idxOf mem

end Slices
