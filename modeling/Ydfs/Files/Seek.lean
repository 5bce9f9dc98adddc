import Mathlib.Data.Int.Notation
import Mathlib.Data.List.Basic
import Mathlib.Tactic.SplitIfs

/-!
# Reading and writing at a position

A file is read and written from any position.  What is written behind the end is preceded by filler up
to there; a byte that was there and is not written over stays (`getElem?_writeAt`).
-/

namespace FileSeek

variable {α : Type*} {content chunk : List α} {fill : α} {start j : ℕ}

/-- `seek` and `read`; a negative size is for all up to the end. -/
def readAt (content : List α) (start : ℕ) (size : ℤ) : List α :=
  if size < 0 then content.drop start else (content.drop start).take size.toNat

/-- `seek` and `write` -/
def writeAt (fill : α) (content : List α) (start : ℕ) (chunk : List α) : List α :=
  if chunk.isEmpty then content
  else content.take start ++ List.replicate (start - content.length) fill ++ chunk ++
    content.drop (start + chunk.length)

/-- Bytes written over what is known of the positions of a device. -/
def overwrite (known : ℕ → Option α) (start : ℕ) (chunk : List α) (k : ℕ) : Option α :=
  if start ≤ k ∧ k < start + chunk.length then chunk[k - start]? else known k

theorem readAt_natCast (content : List α) (start size : ℕ) :
    readAt content start size = (content.drop start).take size := by
  have nonneg : ¬ (size : ℤ) < 0 := by omega
  simp [readAt, nonneg]

theorem getElem?_writeAt_mid (low : start ≤ j) (high : j < start + chunk.length) :
    (writeAt fill content start chunk)[j]? = chunk[j - start]? := by
  have some : ¬ chunk.isEmpty := by
    rw [List.isEmpty_iff]
    rintro rfl
    simp at high
    omega
  have before : (content.take start ++ List.replicate (start - content.length) fill).length =
      start := by
    simp
    omega
  rw [writeAt, if_neg some, List.getElem?_append_left (by rw [List.length_append, before]; omega),
    List.getElem?_append_right (by omega), before]

/-- A byte that is not written over stays. -/
theorem getElem?_writeAt {a : α} (outside : j < start ∨ start + chunk.length ≤ j)
    (there : content[j]? = some a) : (writeAt fill content start chunk)[j]? = some a := by
  have short := (List.getElem?_eq_some_iff.1 there).1
  rw [writeAt]
  split_ifs
  · exact there
  · rcases outside with low | high
    · rw [List.append_assoc, List.append_assoc, List.getElem?_append_left (by simp; omega),
        List.getElem?_take_of_lt low, there]
    · have before : (content.take start ++ List.replicate (start - content.length) fill ++
          chunk).length = start + chunk.length := by
        simp
        omega
      rw [List.getElem?_append_right (by omega), before, List.getElem?_drop,
        Nat.add_sub_cancel' high, there]

/-- A file grows up to the end of what is written, if at all. -/
theorem length_writeAt_le {m : ℕ} (content_le : content.length ≤ m)
    (chunk_le : start + chunk.length ≤ m) : (writeAt fill content start chunk).length ≤ m := by
  rw [writeAt]
  split_ifs
  · exact content_le
  · simp only [List.length_append, List.length_take, List.length_replicate, List.length_drop]
    omega

end FileSeek
