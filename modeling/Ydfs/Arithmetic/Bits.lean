import Mathlib.Algebra.Group.Nat.Defs
import Mathlib.Data.Nat.Bitwise

/-!
# Numbers as bits

The bits of a number, the highest one first, and the number that is written so.  Lists of bits can be cut
into groups of one length in one way only.
-/

namespace Bits

variable {t : List Bool}

/-- The lowest `k` bits of a number, the highest of them first -/
def bits : ℕ → ℕ → List Bool
  | 0, _ => []
  | k + 1, x => x.testBit k :: bits k x

/-- The number that is written by these bits -/
def value : List Bool → ℕ
  | [] => 0
  | b :: t => b.toNat * 2 ^ t.length + value t

@[simp]
theorem length_bits (k x : ℕ) : (bits k x).length = k := by
  induction k with
  | zero => rfl
  | succ k ih => rw [bits, List.length_cons, ih]

theorem value_bits (k x : ℕ) : value (bits k x) = x % 2 ^ k := by
  induction k with
  | zero => rw [Nat.pow_zero, Nat.mod_one]; rfl
  | succ k ih =>
    rw [bits, value, length_bits, ih, Nat.toNat_testBit, Nat.mod_pow_succ, Nat.add_comm, Nat.mul_comm]

/-- Groups of one length, one behind the other -/
def groups (l : List Bool) (size n : ℕ) : List (List Bool) :=
  (List.range n).map fun k => (l.drop (size * k)).take size

theorem range'_eq (size n : ℕ) : List.range' 0 n size = (List.range n).map (size * ·) := by
  induction n with
  | zero => rfl
  | succ n ih =>
    rw [List.range'_concat, ih, List.range_succ, List.map_append, List.map_singleton, Nat.zero_add]

theorem groups_append {size : ℕ} {L : List (List Bool)} (all : ∀ t ∈ L, t.length = size)
    (rest : List Bool) : groups (L.flatten ++ rest) size L.length = L := by
  induction L with
  | nil => rfl
  | cons t L ih =>
    have len := all t List.mem_cons_self
    have tail := ih fun t mem => all t (List.mem_cons_of_mem _ mem)
    rw [groups] at tail ⊢
    rw [List.length_cons, List.range_succ_eq_map, List.map_cons, List.map_map, List.flatten_cons,
      List.append_assoc, Nat.mul_zero, List.drop_zero, ← len, List.take_left]
    rw [← len] at tail
    congr 1
    refine Eq.trans (List.map_congr_left fun k _ => ?_) tail
    rw [Function.comp_apply, Nat.mul_succ, Nat.add_comm, List.drop_length_add_append]

/-- The groups are determined by the list. -/
theorem groups_flatten {size : ℕ} {L : List (List Bool)} (all : ∀ t ∈ L, t.length = size) :
    groups L.flatten size L.length = L := by
  have same := groups_append all []
  rwa [List.append_nil] at same

theorem length_flatten {size : ℕ} {L : List (List Bool)} (all : ∀ t ∈ L, t.length = size) :
    L.flatten.length = size * L.length := by
  induction L with
  | nil => rfl
  | cons t L ih =>
    rw [List.flatten_cons, List.length_append, all t List.mem_cons_self,
      ih fun t mem => all t (List.mem_cons_of_mem _ mem), List.length_cons, Nat.mul_succ, Nat.add_comm]

theorem flatten_injective {size : ℕ} (pos : 0 < size) {L L' : List (List Bool)}
    (all : ∀ t ∈ L, t.length = size) (all' : ∀ t ∈ L', t.length = size)
    (same : L.flatten = L'.flatten) : L = L' := by
  have count : L.length = L'.length := by
    refine Nat.eq_of_mul_eq_mul_left pos ?_
    rw [← length_flatten all, same, length_flatten all']
  rw [← groups_flatten all, same, count, groups_flatten all']

theorem flatten_groups (l : List Bool) (size n : ℕ) : (groups l size n).flatten = l.take (size * n) := by
  induction n with
  | zero => rfl
  | succ n ih =>
    rw [groups] at ih ⊢
    rw [List.range_succ, List.map_append, List.flatten_append, ih, Nat.mul_succ, List.take_add]
    simp

theorem length_of_mem_groups {l : List Bool} {size n : ℕ} (fits : size * n ≤ l.length)
    (mem : t ∈ groups l size n) : t.length = size := by
  obtain ⟨k, less, rfl⟩ := List.mem_map.1 mem
  have room : size * (k + 1) ≤ size * n := Nat.mul_le_mul_left _ (List.mem_range.1 less)
  rw [Nat.mul_succ] at room
  rw [List.length_take, List.length_drop]
  omega

end Bits
