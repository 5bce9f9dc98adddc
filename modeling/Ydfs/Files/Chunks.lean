import Mathlib.Data.Seq.Basic

/-!
# Reading in pieces

A file or device is a sequence that may be endless.  It is read in pieces of one size, at most so many
of them, up to the first one that is empty (`pieces`).  Together the pieces are the beginning of the
sequence (`flatten_pieces`).
-/

namespace Chunks

open Stream'

variable {α : Type} {size limit m n : ℕ} {s : Seq α}

/-- The pieces that at most `limit` reads return, without the empty one at the end. -/
def pieces (size : ℕ) : ℕ → Seq α → List (List α)
  | 0, _ => []
  | limit + 1, s =>
    if s.take size = [] then [] else s.take size :: pieces size limit (s.drop size)

/-! ### The beginning of a sequence -/

theorem take_add (s : Seq α) (m n : ℕ) : s.take (m + n) = s.take m ++ (s.drop m).take n := by
  rw [← List.take_append_drop m (s.take (m + n)), Seq.take_drop, Nat.add_sub_cancel_left]
  congr 1
  apply List.ext_getElem?
  intro i
  rw [List.getElem?_take, Seq.getElem?_take, Seq.getElem?_take]
  split_ifs <;> first | rfl | omega

theorem take_ofList (l : List α) (n : ℕ) : (Seq.ofList l).take n = l.take n := by
  apply List.ext_getElem?
  intro i
  rw [Seq.getElem?_take, Seq.ofList_get?, List.getElem?_take]

theorem drop_ofList (l : List α) (n : ℕ) : (Seq.ofList l).drop n = Seq.ofList (l.drop n) := by
  apply Seq.ext
  intro i
  rw [Seq.drop_get?, Seq.ofList_get?, Seq.ofList_get?, List.getElem?_drop]

/-- A longer beginning is the same if the sequence has ended. -/
theorem take_eq_take_iff (more : m < n) : s.take n = s.take m ↔ s.get? m = none := by
  constructor
  · intro same
    have here := congrArg (fun l : List α => l[m]?) same
    simpa [Seq.getElem?_take, more] using here
  · intro ended
    apply List.ext_getElem?
    intro i
    rw [Seq.getElem?_take, Seq.getElem?_take]
    by_cases early : i < m
    · rw [if_pos early, if_pos (early.trans more)]
    · rw [if_neg early, Seq.le_stable s (Nat.le_of_not_lt early) ended, ite_self]

/-- Where a read returns nothing the sequence is at its end, -/
theorem take_eq_nil_iff (pos : 0 < size) : s.take size = [] ↔ s.get? 0 = none := by
  rw [← take_eq_take_iff pos, Seq.take_zero]

/-- and every other read returns nothing. -/
theorem take_eq_nil (pos : 0 < size) (ended : s.take size = []) (n : ℕ) : s.take n = [] := by
  cases n with
  | zero => exact Seq.take_zero
  | succ n => exact (take_eq_nil_iff n.succ_pos).2 ((take_eq_nil_iff pos).1 ended)

/-! ### The pieces -/

theorem flatten_pieces (pos : 0 < size) (limit : ℕ) (s : Seq α) :
    (pieces size limit s).flatten = s.take (limit * size) := by
  induction limit generalizing s with
  | zero => rw [pieces, List.flatten_nil, Nat.zero_mul, Seq.take_zero]
  | succ limit ih =>
    rw [pieces]
    split_ifs with ended
    · rw [List.flatten_nil, take_eq_nil pos ended]
    · rw [List.flatten_cons, ih, Nat.succ_mul, Nat.add_comm, take_add]

/-- As many pieces as it takes, if there are enough reads. -/
theorem length_pieces (pos : 0 < size) (l : List α) (enough : l.length ≤ limit * size) :
    (pieces size limit (Seq.ofList l)).length = (l.length + size - 1) / size := by
  induction limit generalizing l with
  | zero =>
    have none : l.length = 0 := by omega
    rw [pieces, List.length_nil, none, Nat.zero_add, Nat.div_eq_of_lt (by omega)]
  | succ limit ih =>
    rw [pieces, take_ofList, drop_ofList]
    split_ifs with ended
    · have none : l.length = 0 := by
        rw [List.take_eq_nil_iff] at ended
        obtain zero | rfl := ended
        · omega
        · rfl
      rw [List.length_nil, none, Nat.zero_add, Nat.div_eq_of_lt (by omega)]
    · have some : 0 < l.length := by
        apply List.length_pos_iff.2
        rintro rfl
        exact ended List.take_nil
      rw [Nat.succ_mul] at enough
      rw [List.length_cons, ih _ (by rw [List.length_drop]; omega), List.length_drop]
      by_cases last : l.length ≤ size
      · rw [Nat.sub_eq_zero_of_le last, Nat.zero_add, Nat.div_eq_of_lt (by omega)]
        symm
        apply Nat.div_eq_of_lt_le <;> omega
      · rw [← Nat.add_div_right _ pos]
        congr 1
        omega

end Chunks
