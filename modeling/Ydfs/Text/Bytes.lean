import Mathlib.Data.Int.Notation
import Mathlib.Data.List.Basic

/-!
# Text as bytes

A string of bytes is a text of characters below 256.
-/

/-- Whether all characters of a text are bytes -/
def Bytes (s : List Char) : Prop := ∀ c ∈ s, c.toNat < 256

theorem toNat_ofNat {n : ℕ} (small : n < 256) : (Char.ofNat n).toNat = n := by
  rw [Char.ofNat, dif_pos (Or.inl (by omega))]
  rfl

theorem bytes_append {s t : List Char} : Bytes (s ++ t) ↔ Bytes s ∧ Bytes t :=
  List.forall_mem_append

theorem bytes_cons {c : Char} {s : List Char} : Bytes (c :: s) ↔ c.toNat < 256 ∧ Bytes s :=
  List.forall_mem_cons
