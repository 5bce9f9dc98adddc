import Mathlib.Algebra.Order.Field.Basic
import Mathlib.Data.Rat.Floor

/-!
# Rounded arithmetic

Of a rounding to floating point numbers only this is used: it is monotone, and it keeps 0 and 1.  Sums
from the left of numbers that are at least 0 are monotone then, and a part over the whole stays between
0 and 1, with a rounding after every operation.
-/

namespace Rounded

/-- A rounding. -/
structure Rounding where
  round : ℚ → ℚ
  mono : Monotone round
  zero : round 0 = 0
  one : round 1 = 1

namespace Rounding

/-- No rounding. -/
def exact : Rounding := ⟨id, monotone_id, rfl, rfl⟩

variable (r : Rounding) {a b x y : ℚ} {xs ys : List ℚ}

/-- A sum from the left, beginning with 0. -/
def sum (xs : List ℚ) : ℚ := xs.foldl (fun acc x => r.round (acc + x)) 0

theorem nonneg (h : 0 ≤ x) : 0 ≤ r.round x := by
  rw [← r.zero]
  exact r.mono h

theorem le_one (h : x ≤ 1) : r.round x ≤ 1 := by
  rw [← r.one]
  exact r.mono h

/-- The first list is at least 0 and below the second. -/
def Below (xs ys : List ℚ) : Prop := List.Forall₂ (fun x y => 0 ≤ x ∧ x ≤ y) xs ys

theorem foldl_mono (below : Below xs ys) (nonneg : 0 ≤ a) (le : a ≤ b) :
    0 ≤ xs.foldl (fun acc x => r.round (acc + x)) a ∧
      xs.foldl (fun acc x => r.round (acc + x)) a ≤ ys.foldl (fun acc x => r.round (acc + x)) b := by
  induction below generalizing a b with
  | nil => exact ⟨nonneg, le⟩
  | cons head tail ih =>
    rw [List.foldl_cons, List.foldl_cons]
    apply ih
    · exact r.nonneg (add_nonneg nonneg head.1)
    · exact r.mono (add_le_add le head.2)

theorem sum_mono (below : Below xs ys) : 0 ≤ r.sum xs ∧ r.sum xs ≤ r.sum ys :=
  r.foldl_mono below le_rfl le_rfl

/-- A part of the whole. -/
theorem quotient_mem (nonneg : 0 ≤ x) (le : x ≤ y) :
    0 ≤ r.round (x / y) ∧ r.round (x / y) ≤ 1 :=
  ⟨r.nonneg (div_nonneg nonneg (nonneg.trans le)), r.le_one (div_le_one_of_le₀ le (nonneg.trans le))⟩

end Rounding

end Rounded
