import Ydfs.Text.Search

/-!
# Reading into one buffer

A stream has a position and a buffer that every read fills from the front.  A read near the end of
the file is short, and behind what it has read the buffer keeps what was there.  Where the positions
go up by one the old part is the last byte of the file over and over: the buffer is a window on the
file with its last byte repeated (`read_window`).  A word that does not end in two equal letters is
seen in the window only where it occurs (`window_eq_iff`).
-/

namespace FileStream

open Search

variable {α : Type} {content : List α} {size i : ℕ}

/-- The position of the next read, and what the buffer holds. -/
structure Stream (α : Type) where
  pos : ℕ
  buffer : List α

/-- Read up to `size` bytes; what is not read stays in the buffer. -/
def read (content : List α) (size : ℕ) (s : Stream α) : ℕ × Stream α :=
  let data := (content.drop s.pos).take size
  (data.length, ⟨s.pos + data.length, data ++ s.buffer.drop data.length⟩)

variable {s : Stream α}

theorem read_eq_zero (pos : 0 < size) : (read content size s).1 = 0 ↔ content.length ≤ s.pos := by
  simp only [read, List.length_take, List.length_drop]
  omega

theorem read_pos (inside : s.pos ≤ content.length) :
    (read content size s).2.pos = min content.length (s.pos + size) := by
  simp only [read, List.length_take, List.length_drop]
  omega

/-- The buffer after a read: what has been read, then what was there. -/
theorem read_buffer :
    (read content size s).2.buffer.take size =
      (content.drop s.pos).take size ++ (s.buffer.take size).drop (content.length - s.pos) := by
  simp only [read, List.take_append, List.take_take, Nat.min_self, List.length_take,
    List.length_drop]
  congr 1
  rw [List.drop_take]
  by_cases short : content.length - s.pos ≤ size
  · rw [Nat.min_eq_right short]
  · rw [Nat.min_eq_left (by omega), Nat.sub_self, Nat.sub_eq_zero_of_le (by omega), List.take_zero,
      List.take_zero]

/-- A read that is not short fills the buffer. -/
theorem read_full (inside : s.pos + size ≤ content.length) :
    (read content size s).2.buffer.take size = (content.drop s.pos).take size := by
  have filled : (s.buffer.take size).drop (content.length - s.pos) = [] := by
    rw [List.drop_eq_nil_iff, List.length_take]
    omega
  rw [read_buffer, filled, List.append_nil]

/-! ### Positions that go up by one -/

/-- What is seen from a place of the file, were its last byte repeated. -/
def window (content : List α) (last : α) (size i : ℕ) : List α :=
  ((content ++ List.replicate size last).drop i).take size

variable {last : α}

theorem window_of_le (inside : i + size ≤ content.length) :
    window content last size i = (content.drop i).take size := by
  rw [window, List.drop_append_of_le_length (by omega), List.take_append_of_le_length]
  rw [List.length_drop]
  omega

/-- In a short window all that is not of the file is its last byte. -/
theorem window_of_lt (short : content.length < i + size) (inside : i ≤ content.length) :
    window content last size i =
      content.drop i ++ List.replicate (i + size - content.length) last := by
  rw [window, List.drop_append_of_le_length inside, List.take_append, List.length_drop,
    List.take_of_length_le (by rw [List.length_drop]; omega), List.take_replicate]
  congr 2
  omega

theorem drop_getLast (ends : content.getLast? = some last) :
    content.drop (content.length - 1) = [last] := by
  obtain ⟨front, rfl⟩ := List.getLast?_eq_some_iff.1 ends
  simp

/-- Behind the last byte of the file a window has only copies of it. -/
theorem drop_window (inside : i < content.length) (ends : content.getLast? = some last) :
    (window content last size i).drop (content.length - (i + 1)) =
      List.replicate (size - (content.length - (i + 1))) last := by
  have start : i + (content.length - (i + 1)) = content.length - 1 := by omega
  rw [window, List.drop_take, List.drop_drop, start,
    List.drop_append_of_le_length (Nat.sub_le _ _), drop_getLast ends, List.singleton_append,
    ← List.replicate_succ, List.take_replicate]
  congr 1
  omega

/-- Each read shows the next window. -/
theorem read_window (inside : s.pos < content.length) (ends : content.getLast? = some last)
    (before : s.pos + size ≤ content.length ∨
      ∃ i, s.pos = i + 1 ∧ s.buffer.take size = window content last size i) :
    (read content size s).2.buffer.take size = window content last size s.pos := by
  by_cases full : s.pos + size ≤ content.length
  · rw [read_full full, window_of_le full]
  · obtain ⟨i, next, before⟩ := before.resolve_left full
    rw [read_buffer, before, next, drop_window (by omega) ends, window_of_lt (by omega) (by omega),
      List.take_of_length_le (by rw [List.length_drop]; omega)]
    congr 2
    omega

/-- A word is seen where it occurs, and nowhere else unless it ends in two equal letters. -/
theorem window_eq_iff {w : List α} {a b : α} (ne : a ≠ b) (tail : [a, b] <:+ w)
    (inside : i < content.length) (ends : content.getLast? = some last) :
    window content last w.length i = w ↔ Occurs w content i := by
  obtain ⟨front, rfl⟩ := tail
  constructor
  · intro seen
    by_cases full : i + (front ++ [a, b]).length ≤ content.length
    · rw [window_of_le full] at seen
      exact List.prefix_iff_eq_take.2 seen.symm
    · exfalso
      have copies : (window content last (front ++ [a, b]).length i).drop
          (content.length - (i + 1)) = _ := drop_window inside ends
      rw [seen] at copies
      rw [List.length_append, List.length_cons, List.length_singleton] at copies full
      set k := content.length - (i + 1)
      have two := congrArg (List.drop (front.length - k)) copies
      rw [List.drop_drop, Nat.add_sub_cancel' (by omega), List.drop_left, List.drop_replicate] at two
      have count : front.length + (1 + 1) - k - (front.length - k) = 2 := by omega
      rw [count] at two
      obtain ⟨rfl, rfl⟩ : a = last ∧ b = last := by simpa using two
      exact ne rfl
  · intro here
    rw [window_of_le (here.le (by simp))]
    exact (List.prefix_iff_eq_take.1 here).symm

end FileStream
