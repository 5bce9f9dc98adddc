import Mathlib.Data.List.Nodup
import Mathlib.Data.List.TakeWhile
import Mathlib.Logic.Function.Basic
import Ydfs.Files.Seek
import Ydfs.Text.Slices
import Ydfs.Wubi.MetalinkParts

/-!
# The files of a torrent as one

A `Storage` keeps the data of a torrent, which is one sequence of bytes, in the files that the torrent
names, one behind the other.  Every position is a byte of one of the files, if that file is so long
already (`cell`).  A read gives the bytes at its positions, over all the files it touches
(`read_cell`), and a write puts its bytes there and leaves all others that are in a file as they are
(`cell_write`).
-/

namespace Ydfs.BitTorrent

open FileSeek Slices
open Wubi.Sax (Text)

/-! ### The model of the source -/

/-- The first position of a file in the data, the position behind its last one, and its path. -/
abbrev Range := ℕ × ℕ × Text

/-- A `Storage` and the files on the disk. -/
structure Storage where
  ranges : List Range
  total_length : ℕ
  tops : Text → ℕ
  disk : Text → Option Text

namespace Storage

/-- The first loop of `Storage.__init__`: the ranges from `total` on, and an empty file that is not
there yet is made. -/
def layOut : List (Text × ℕ) → ℕ → (Text → Option Text) → List Range × ℕ × (Text → Option Text)
  | [], total, disk => ([], total, disk)
  | (file, length) :: files, total, disk =>
    if length ≠ 0 then
      let rest := layOut files (total + length) disk
      ((total, total + length, file) :: rest.1, rest.2)
    else
      layOut files total (if (disk file).isSome then disk else Function.update disk file (some []))

/-- The last loop of `Storage.__init__`: the files are opened; one that is too long is cut, one that is
not there is made. -/
def openFiles : List (Text × ℕ) → (Text → ℕ) → (Text → Option Text) → (Text → ℕ) × (Text → Option Text)
  | [], tops, disk => (tops, disk)
  | (file, length) :: files, tops, disk =>
    match disk file with
    | some data =>
      openFiles files (Function.update tops file data.length)
        (if length < data.length then Function.update disk file (some (data.take length)) else disk)
    | none => openFiles files tops (Function.update disk file (some []))

/-- `Storage.__init__` -/
def init (files : List (Text × ℕ)) (disk : Text → Option Text) : Storage :=
  let (ranges, total, disk) := layOut files 0 disk
  let (tops, disk) := openFiles files (fun _ => 0) disk
  ⟨ranges, total, tops, disk⟩

/-- `bisect_right` of ascending numbers -/
def bisectRight (l : List ℕ) (x : ℕ) : ℕ := (l.takeWhile (· ≤ x)).length

/-- `Storage._intervals`, for a storage with ranges: without one the index of the first is out of range. -/
def intervals (st : Storage) (pos amount : ℕ) : List (Text × ℕ × ℕ) :=
  let stop := pos + amount
  let p := bisectRight (st.ranges.map (·.1)) pos - 1
  ((st.ranges.drop p).takeWhile (·.1 < stop)).map fun r =>
    (r.2.2, max pos r.1 - r.1, min r.2.1 stop - r.1)

/-- `Storage.was_preallocated` -/
def was_preallocated (st : Storage) (pos length : ℕ) : Bool :=
  (st.intervals pos length).all fun i => i.2.2 ≤ st.tops i.1

/-- What an open file holds. -/
def content (st : Storage) (file : Text) : Text := (st.disk file).getD []

/-- `Storage.read` -/
def read (st : Storage) (pos amount : ℕ) : Text :=
  (st.intervals pos amount).flatMap fun i =>
    readAt (st.content i.1) i.2.1 ((i.2.2 : ℤ) - i.2.1)

/-- What is in a file, changed. -/
def put (st : Storage) (file data : Text) : Storage :=
  { st with disk := Function.update st.disk file (some data) }

/-- One turn of the loop of `Storage.write`. -/
def writeInterval (s : Text) (i : Text × ℕ × ℕ) (st : Storage) (total : ℤ) : Storage :=
  st.put i.1 (writeAt '\x00' (st.content i.1) i.2.1 (slice s total (total + i.2.2 - i.2.1)))

/-- The loop of `Storage.write` -/
def writeIntervals (s : Text) : List (Text × ℕ × ℕ) → Storage → ℤ → Storage
  | [], st, _ => st
  | i :: rest, st, total =>
    writeIntervals s rest (writeInterval s i st total) (total + (i.2.2 - i.2.1))

/-- `Storage.write` -/
def write (st : Storage) (pos : ℕ) (s : Text) : Storage :=
  writeIntervals s (st.intervals pos s.length) st 0

/-! ### Positions -/

/-- The ranges are one behind the other from `b` to `t`, and none is empty. -/
def Contiguous (b : ℕ) : List Range → ℕ → Prop
  | [], t => b = t
  | r :: rs, t => r.1 = b ∧ b < r.2.1 ∧ Contiguous r.2.1 rs t

/-- Each position is in one file only, and the files are open and not too long. -/
structure Whole (st : Storage) : Prop where
  contiguous : Contiguous 0 st.ranges st.total_length
  nodup : (st.ranges.map (·.2.2)).Nodup
  fits : ∀ r ∈ st.ranges, (st.content r.2.2).length ≤ r.2.1 - r.1

/-- The byte at a position, if it is in its file. -/
def cell (st : Storage) (k : ℕ) : Option Char :=
  (st.ranges.find? fun r => r.1 ≤ k ∧ k < r.2.1).bind fun r => (st.content r.2.2)[k - r.1]?

theorem Contiguous.le {b t : ℕ} {rs : List Range} (h : Contiguous b rs t) : b ≤ t := by
  induction rs generalizing b with
  | nil => exact le_of_eq h
  | cons r rs ih => exact h.2.1.le.trans (ih h.2.2)

theorem Contiguous.bounds {b t : ℕ} {rs : List Range} (h : Contiguous b rs t) {r : Range}
    (mem : r ∈ rs) : b ≤ r.1 ∧ r.1 < r.2.1 ∧ r.2.1 ≤ t := by
  induction rs generalizing b with
  | nil => cases mem
  | cons q rs ih =>
    obtain ⟨rfl, low, rest⟩ := h
    rcases List.mem_cons.1 mem with rfl | mem
    · exact ⟨le_rfl, low, rest.le⟩
    · obtain ⟨above, inside, below⟩ := ih rest mem
      exact ⟨low.le.trans above, inside, below⟩

/-- A position up to the end is in a range. -/
theorem Contiguous.exists {b t k : ℕ} {rs : List Range} (h : Contiguous b rs t) (low : b ≤ k)
    (high : k < t) : ∃ r ∈ rs, r.1 ≤ k ∧ k < r.2.1 := by
  induction rs generalizing b with
  | nil => exact absurd (h ▸ high) (Nat.not_lt.2 low)
  | cons r rs ih =>
    obtain ⟨rfl, -, rest⟩ := h
    by_cases inside : k < r.2.1
    · exact ⟨r, List.mem_cons_self, low, inside⟩
    · obtain ⟨q, mem, bounds⟩ := ih rest (Nat.not_lt.1 inside)
      exact ⟨q, List.mem_cons_of_mem r mem, bounds⟩

/-- What comes before a range ends before it. -/
theorem Contiguous.before {b t : ℕ} {before rs : List Range} {r q : Range}
    (h : Contiguous b (before ++ r :: rs) t) (mem : q ∈ before) : q.2.1 ≤ r.1 := by
  induction before generalizing b with
  | nil => cases mem
  | cons p before ih =>
    obtain ⟨rfl, -, rest⟩ := h
    rcases List.mem_cons.1 mem with rfl | mem
    · exact (rest.bounds (by simp)).1
    · exact ih rest mem

theorem Contiguous.find {b t k : ℕ} {rs : List Range} (h : Contiguous b rs t) {r : Range}
    (mem : r ∈ rs) (low : r.1 ≤ k) (high : k < r.2.1) :
    rs.find? (fun r => r.1 ≤ k ∧ k < r.2.1) = some r := by
  induction rs generalizing b with
  | nil => cases mem
  | cons q rs ih =>
    obtain ⟨rfl, -, rest⟩ := h
    rcases List.mem_cons.1 mem with rfl | mem
    · exact List.find?_cons_of_pos (by simp [low, high])
    · have := (rest.bounds mem).1
      rw [List.find?_cons_of_neg (by simp; omega)]
      exact ih rest mem

/-- The ranges that `_intervals` begins with. -/
theorem Contiguous.drop {b t pos : ℕ} {rs : List Range} (h : Contiguous b rs t) (low : b ≤ pos)
    (high : pos ≤ t) (ne : rs ≠ []) :
    ∃ r rest, rs.drop (bisectRight (rs.map (·.1)) pos - 1) = r :: rest ∧
      Contiguous r.1 (r :: rest) t ∧ r.1 ≤ pos ∧ pos ≤ r.2.1 := by
  induction rs generalizing b with
  | nil => exact absurd rfl ne
  | cons r rs ih =>
    obtain ⟨rfl, room, rest⟩ := h
    have first : bisectRight ((r :: rs).map (·.1)) pos = bisectRight (rs.map (·.1)) pos + 1 := by
      simp [bisectRight, low]
    cases rs with
    | nil =>
      refine ⟨r, [], by rw [first]; rfl, ⟨rfl, room, rest⟩, low, ?_⟩
      exact high.trans_eq (Eq.symm rest)
    | cons q rs =>
      by_cases next : r.2.1 ≤ pos
      · have more : 0 < bisectRight ((q :: rs).map (·.1)) pos := by
          simp [bisectRight, rest.1, next]
        obtain ⟨r', rest', same, found⟩ := ih rest next (by simp)
        refine ⟨r', rest', ?_, found⟩
        rw [first, Nat.add_sub_cancel, ← same]
        obtain ⟨n, count⟩ := Nat.exists_eq_add_of_lt more
        rw [count]
        simp
      · have none : bisectRight ((q :: rs).map (·.1)) pos = 0 := by
          simp [bisectRight, rest.1, next]
        exact ⟨r, q :: rs, by rw [first, none]; rfl, ⟨rfl, room, rest⟩, low, by omega⟩

theorem cell_eq {st : Storage} (whole : st.Whole) {r : Range} (mem : r ∈ st.ranges) {k : ℕ}
    (low : r.1 ≤ k) (high : k < r.2.1) : st.cell k = (st.content r.2.2)[k - r.1]? := by
  rw [cell, whole.contiguous.find mem low high]
  rfl

/-! ### Reading -/

/-- The part of a range that an interval is for. -/
def interval (pos stop : ℕ) (r : Range) : Text × ℕ × ℕ :=
  (r.2.2, max pos r.1 - r.1, min r.2.1 stop - r.1)

/-- A read from ranges on gives the bytes at its positions, if all are in the files. -/
theorem read_ranges {b t pos stop : ℕ} {rs : List Range} (content : Text → Text)
    {at_ : ℕ → Option Char} (contiguous : Contiguous b rs t) (order : pos ≤ stop) (inside : stop ≤ t)
    (first : ∀ r ∈ rs.head?, pos ≤ r.2.1)
    (same : ∀ r ∈ rs, ∀ k, r.1 ≤ k → k < r.2.1 → at_ k = (content r.2.2)[k - r.1]?)
    (there : ∀ k, pos ≤ k → k < stop → (at_ k).isSome) :
    (((rs.takeWhile (·.1 < stop)).map (interval pos stop)).flatMap fun i =>
      readAt (content i.1) i.2.1 ((i.2.2 : ℤ) - i.2.1)).map some =
        (List.range' (max pos b) (stop - max pos b)).map at_ := by
  induction rs generalizing b with
  | nil =>
    have : b = t := contiguous
    have none : stop - max pos b = 0 := by omega
    rw [none]
    rfl
  | cons r rs ih =>
    obtain ⟨rfl, room, rest⟩ := contiguous
    have reach : pos ≤ r.2.1 := first r rfl
    by_cases more : r.1 < stop
    · have size : ((min r.2.1 stop - r.1 : ℕ) : ℤ) - (max pos r.1 - r.1 : ℕ) =
          (min r.2.1 stop - max pos r.1 : ℕ) := by omega
      have next : ∀ q ∈ rs.head?, pos ≤ q.2.1 := by
        intro q mem
        have := rest.bounds (List.mem_of_mem_head? mem)
        omega
      have tail := ih rest next (fun q mem => same q (List.mem_cons_of_mem r mem))
      have here : (readAt (content r.2.2) (max pos r.1 - r.1)
          (min r.2.1 stop - max pos r.1 : ℕ)).map some =
            (List.range' (max pos r.1) (min r.2.1 stop - max pos r.1)).map at_ := by
        apply List.ext_getElem?
        intro j
        rw [readAt_natCast, List.getElem?_map, List.getElem?_map, List.getElem?_take]
        by_cases short : j < min r.2.1 stop - max pos r.1
        · have place := same r List.mem_cons_self (max pos r.1 + j) (by omega) (by omega)
          have full := there (max pos r.1 + j) (by omega) (by omega)
          rw [show max pos r.1 + j - r.1 = max pos r.1 - r.1 + j by omega] at place
          obtain ⟨c, char⟩ := Option.isSome_iff_exists.1 full
          rw [if_pos short, List.getElem?_drop, ← place, List.getElem?_range' short, char,
            Option.map_some, Option.map_some, Nat.one_mul, char]
        · rw [if_neg short, List.getElem?_eq_none (by simp; omega)]
          rfl
      rw [List.takeWhile_cons_of_pos (by simpa using more), List.map_cons, List.flatMap_cons,
        List.map_append, tail]
      simp only [interval]
      rw [size, here, ← List.map_append]
      congr 1
      rw [show max pos r.2.1 = r.2.1 by omega]
      by_cases last : stop ≤ r.2.1
      · rw [show stop - r.2.1 = 0 by omega, Nat.min_eq_right last]
        simp
      · have glue := List.range'_append_1 (s := max pos r.1) (m := r.2.1 - max pos r.1)
          (n := stop - r.2.1)
        rw [show max pos r.1 + (r.2.1 - max pos r.1) = r.2.1 by omega,
          show r.2.1 - max pos r.1 + (stop - r.2.1) = stop - max pos r.1 by omega] at glue
        rw [Nat.min_eq_left (by omega), glue]
    · rw [List.takeWhile_cons_of_neg (by simpa using more), show stop - max pos r.1 = 0 by omega]
      rfl

/-- A read gives the bytes at its positions. -/
theorem read_cell {st : Storage} (whole : st.Whole) (pos amount : ℕ)
    (inside : pos + amount ≤ st.total_length)
    (there : ∀ k, pos ≤ k → k < pos + amount → (st.cell k).isSome) :
    (st.read pos amount).map some = (List.range' pos amount).map st.cell := by
  by_cases ne : st.ranges = []
  · have none : 0 = st.total_length := by simpa [ne, Contiguous] using whole.contiguous
    obtain rfl : amount = 0 := by omega
    simp [read, intervals, ne]
  · obtain ⟨r, rest, cut, contiguous, low, high⟩ :=
      whole.contiguous.drop (Nat.zero_le pos) (by omega) ne
    have sub : ∀ q ∈ r :: rest, q ∈ st.ranges := fun q mem => List.mem_of_mem_drop (cut ▸ mem)
    have go := read_ranges st.content contiguous (Nat.le_add_right pos amount) inside
      (by simpa using high) (fun q mem k => cell_eq whole (sub q mem)) there
    rw [Nat.max_eq_left low, Nat.add_sub_cancel_left] at go
    rw [← go, read, intervals, cut]
    rfl

/-! ### Writing -/

theorem content_put (st : Storage) (file data g : Text) :
    (st.put file data).content g = if g = file then data else st.content g := by
  simp only [content, put, Function.update_apply]
  split_ifs <;> rfl

/-- What a write to ranges from `pos` to `stop` has done. -/
structure Written (rs : List Range) (pos stop : ℕ) (s : Text) (st st' : Storage) : Prop where
  ranges : st'.ranges = st.ranges
  total_length : st'.total_length = st.total_length
  tops : st'.tops = st.tops
  frame : ∀ file, file ∉ rs.map (·.2.2) → st'.content file = st.content file
  inside : ∀ r ∈ rs, ∀ k, r.1 ≤ k → k < r.2.1 → pos ≤ k → k < stop →
    (st'.content r.2.2)[k - r.1]? = s[k - pos]?
  outside : ∀ r ∈ rs, ∀ k a, r.1 ≤ k → k < pos ∨ stop ≤ k →
    (st.content r.2.2)[k - r.1]? = some a → (st'.content r.2.2)[k - r.1]? = some a
  fits : ∀ r ∈ rs, (st.content r.2.2).length ≤ r.2.1 - r.1 →
    (st'.content r.2.2).length ≤ r.2.1 - r.1

/-- The part of what is written that goes to a range. -/
theorem slice_interval (s : Text) (pos low high : ℕ) (order : max pos low ≤ min high (pos + s.length)) :
    ∃ chunk, slice s ((max pos low : ℕ) - pos) ((max pos low : ℕ) - pos +
        (min high (pos + s.length) - low : ℕ) - (max pos low - low : ℕ)) = chunk ∧
      chunk.length = min high (pos + s.length) - max pos low ∧
      ∀ k, max pos low ≤ k → k < min high (pos + s.length) → chunk[k - max pos low]? = s[k - pos]? := by
  have first : ((max pos low : ℕ) : ℤ) - pos = (max pos low - pos : ℕ) := by omega
  have last : ((max pos low : ℕ) : ℤ) - pos + (min high (pos + s.length) - low : ℕ) -
      (max pos low - low : ℕ) = (min high (pos + s.length) - pos : ℕ) := by omega
  refine ⟨(s.take (min high (pos + s.length) - pos)).drop (max pos low - pos), ?_, ?_, ?_⟩
  · rw [last, first, slice_natCast]
  · rw [List.length_drop, List.length_take]
    omega
  · intro k above below
    rw [List.getElem?_drop, List.getElem?_take_of_lt (by omega)]
    congr 1
    omega

theorem write_ranges {b t pos stop : ℕ} {rs : List Range} {s : Text}
    (contiguous : Contiguous b rs t) (nodup : (rs.map (·.2.2)).Nodup) (size : pos + s.length = stop)
    (first : ∀ r ∈ rs.head?, pos ≤ r.2.1) (st : Storage) :
    Written rs pos stop s st
      (writeIntervals s ((rs.takeWhile (·.1 < stop)).map (interval pos stop)) st
        ((max pos b : ℕ) - pos)) := by
  induction rs generalizing b st with
  | nil => exact ⟨rfl, rfl, rfl, fun _ _ => rfl, nofun, nofun, nofun⟩
  | cons r rs ih =>
    obtain ⟨rfl, room, rest⟩ := contiguous
    rw [List.map_cons, List.nodup_cons] at nodup
    have reach : pos ≤ r.2.1 := first r rfl
    by_cases more : r.1 < stop
    · obtain ⟨chunk, cut, long, same⟩ := slice_interval s pos r.1 r.2.1
        (by omega)
      rw [size] at cut long same
      have next : ∀ q ∈ rs.head?, pos ≤ q.2.1 := by
        intro q mem
        have := rest.bounds (List.mem_of_mem_head? mem)
        omega
      have one : writeInterval s (interval pos stop r) st ((max pos r.1 : ℕ) - pos) =
          st.put r.2.2 (writeAt '\x00' (st.content r.2.2) (max pos r.1 - r.1) chunk) := by
        simp only [writeInterval, interval, cut]
      have total : writeIntervals s ((rs.takeWhile (·.1 < stop)).map (interval pos stop))
          (writeInterval s (interval pos stop r) st ((max pos r.1 : ℕ) - pos))
          ((max pos r.1 : ℕ) - pos + (((interval pos stop r).2.2 : ℤ) - (interval pos stop r).2.1)) =
            writeIntervals s ((rs.takeWhile (·.1 < stop)).map (interval pos stop))
              (writeInterval s (interval pos stop r) st ((max pos r.1 : ℕ) - pos))
              ((max pos r.2.1 : ℕ) - pos) := by
        by_cases last : stop ≤ r.2.1
        · have none : rs.takeWhile (·.1 < stop) = [] := by
            cases rs with
            | nil => rfl
            | cons q rs => exact List.takeWhile_cons_of_neg (by simpa [rest.1] using last)
          rw [none]
          rfl
        · congr 1
          simp only [interval]
          omega
      rw [List.takeWhile_cons_of_pos (by simpa using more), List.map_cons, writeIntervals, total, one]
      have tail := ih rest nodup.2 next
        (st.put r.2.2 (writeAt '\x00' (st.content r.2.2) (max pos r.1 - r.1) chunk))
      have here := tail.frame r.2.2 nodup.1
      rw [content_put, if_pos rfl] at here
      have others : ∀ q ∈ rs, (st.put r.2.2
          (writeAt '\x00' (st.content r.2.2) (max pos r.1 - r.1) chunk)).content q.2.2 =
            st.content q.2.2 := by
        intro q mem
        rw [content_put, if_neg]
        rintro same
        exact nodup.1 (same ▸ List.mem_map_of_mem mem)
      refine ⟨tail.ranges, tail.total_length, tail.tops, fun file new => ?_,
        fun q mem k low high above below => ?_, fun q mem k a low out there => ?_,
        fun q mem fits => ?_⟩
      · rw [List.map_cons, List.mem_cons, not_or] at new
        rw [tail.frame file new.2, content_put, if_neg new.1]
      · rcases List.mem_cons.1 mem with rfl | mem
        · rw [here, getElem?_writeAt_mid (by omega) (by omega), ← same k (by omega) (by omega)]
          congr 1
          omega
        · exact tail.inside q mem k low high above below
      · rcases List.mem_cons.1 mem with rfl | mem
        · rw [here]
          exact getElem?_writeAt (by omega) there
        · exact tail.outside q mem k a low out (by rw [others q mem]; exact there)
      · rcases List.mem_cons.1 mem with rfl | mem
        · rw [here]
          exact length_writeAt_le fits (by omega)
        · exact tail.fits q mem (by rw [others q mem]; exact fits)
    · have none : (r :: rs).takeWhile (·.1 < stop) = [] :=
        List.takeWhile_cons_of_neg (by simpa using more)
      rw [none]
      refine ⟨rfl, rfl, rfl, fun _ _ => rfl, fun q mem k low _ _ high => ?_,
        fun _ _ _ _ _ _ there => there, fun _ _ fits => fits⟩
      have : r.1 ≤ q.1 := by
        rcases List.mem_cons.1 mem with rfl | mem
        · exact le_rfl
        · have := rest.bounds mem
          omega
      omega

/-- A write to positions that the torrent has is a write to the ranges from one of them on. -/
theorem write_written {st : Storage} (whole : st.Whole) {pos : ℕ} {s : Text}
    (inside : pos + s.length ≤ st.total_length) :
    ∃ before rs, st.ranges = before ++ rs ∧ (∀ r ∈ before, r.2.1 ≤ pos) ∧
      Written rs pos (pos + s.length) s st (st.write pos s) := by
  by_cases ne : st.ranges = []
  · refine ⟨[], [], ne, nofun, ?_⟩
    rw [write, intervals, ne]
    exact ⟨rfl, rfl, rfl, fun _ _ => rfl, nofun, nofun, nofun⟩
  · obtain ⟨r, rest, cut, contiguous, low, high⟩ :=
      whole.contiguous.drop (Nat.zero_le pos) (by omega) ne
    have split := List.take_append_drop (bisectRight (st.ranges.map (·.1)) pos - 1) st.ranges
    rw [cut] at split
    refine ⟨_, _, split.symm, fun q mem => ?_, ?_⟩
    · have before := whole.contiguous
      rw [← split] at before
      exact (before.before mem).trans low
    · have nodup := whole.nodup
      rw [← split, List.map_append] at nodup
      have go := write_ranges (s := s) contiguous (List.nodup_append.1 nodup).2.1 rfl (by simpa using high) st
      rw [Nat.max_eq_left low, Int.sub_self] at go
      rw [write, intervals, cut]
      exact go

theorem write_whole {st : Storage} (whole : st.Whole) {pos : ℕ} {s : Text}
    (inside : pos + s.length ≤ st.total_length) :
    (st.write pos s).Whole ∧ (st.write pos s).total_length = st.total_length ∧
      (st.write pos s).ranges = st.ranges ∧ (st.write pos s).tops = st.tops := by
  obtain ⟨before, rs, split, -, written⟩ := write_written whole inside
  refine ⟨⟨?_, ?_, fun r mem => ?_⟩, written.total_length, written.ranges, written.tops⟩
  · rw [written.ranges, written.total_length]
    exact whole.contiguous
  · rw [written.ranges]
    exact whole.nodup
  · rw [written.ranges] at mem
    have fits := whole.fits r mem
    by_cases late : r.2.2 ∈ rs.map (·.2.2)
    · obtain ⟨q, later, same⟩ := List.mem_map.1 late
      have : q = r := List.inj_on_of_nodup_map whole.nodup
        (split ▸ List.mem_append_right before later) mem same
      exact written.fits r (this ▸ later) fits
    · rw [written.frame _ late]
      exact fits

/-- The bytes of a write are at its positions. -/
theorem cell_write_inside {st : Storage} (whole : st.Whole) {pos : ℕ} {s : Text}
    (inside : pos + s.length ≤ st.total_length) {k : ℕ} (low : pos ≤ k) (high : k < pos + s.length) :
    (st.write pos s).cell k = s[k - pos]? := by
  obtain ⟨before, rs, split, early, written⟩ := write_written whole inside
  obtain ⟨whole', -, ranges, -⟩ := write_whole whole inside
  obtain ⟨r, mem, above, below⟩ := whole.contiguous.exists (Nat.zero_le k) (by omega)
  rw [cell_eq whole' (ranges ▸ mem) above below]
  rcases List.mem_append.1 (split ▸ mem) with old | new
  · have := early r old
    omega
  · exact written.inside r new k above below low high

/-- A byte at another position is not changed. -/
theorem cell_write_outside {st : Storage} (whole : st.Whole) {pos : ℕ} {s : Text}
    (inside : pos + s.length ≤ st.total_length) {k : ℕ} (out : k < pos ∨ pos + s.length ≤ k)
    {c : Char} (there : st.cell k = some c) : (st.write pos s).cell k = some c := by
  obtain ⟨before, rs, split, -, written⟩ := write_written whole inside
  obtain ⟨whole', -, ranges, -⟩ := write_whole whole inside
  have total : k < st.total_length := by
    rw [cell] at there
    obtain ⟨r, found, -⟩ := Option.bind_eq_some_iff.1 there
    have bounds := whole.contiguous.bounds (List.mem_of_find?_eq_some found)
    have := List.find?_some found
    simp only [decide_eq_true_eq] at this
    omega
  obtain ⟨r, mem, above, below⟩ := whole.contiguous.exists (Nat.zero_le k) total
  rw [cell_eq whole mem above below] at there
  rw [cell_eq whole' (ranges ▸ mem) above below]
  by_cases late : r.2.2 ∈ rs.map (·.2.2)
  · obtain ⟨q, later, same⟩ := List.mem_map.1 late
    have : q = r := List.inj_on_of_nodup_map whole.nodup
      (split ▸ List.mem_append_right before later) mem same
    exact written.outside r (this ▸ later) k c above out there
  · rw [written.frame _ late, there]

/-! ### The files at the beginning -/

theorem layOut_contiguous (files : List (Text × ℕ)) (total : ℕ) (disk : Text → Option Text) :
    Contiguous total (layOut files total disk).1 (layOut files total disk).2.1 := by
  induction files generalizing total disk with
  | nil => rfl
  | cons f files ih =>
    rw [layOut]
    split
    · exact ⟨rfl, by dsimp only; omega, ih ..⟩
    · exact ih ..

/-- A range is for a file of its length. -/
theorem mem_layOut {files : List (Text × ℕ)} {total : ℕ} {disk : Text → Option Text} {r : Range}
    (mem : r ∈ (layOut files total disk).1) : (r.2.2, r.2.1 - r.1) ∈ files := by
  induction files generalizing total disk with
  | nil => cases mem
  | cons f files ih =>
    rw [layOut] at mem
    split at mem
    · rcases List.mem_cons.1 mem with rfl | mem
      · simp
      · exact List.mem_cons_of_mem f (ih mem)
    · exact List.mem_cons_of_mem f (ih mem)

theorem layOut_sublist (files : List (Text × ℕ)) (total : ℕ) (disk : Text → Option Text) :
    ((layOut files total disk).1.map (·.2.2)).Sublist (files.map (·.1)) := by
  induction files generalizing total disk with
  | nil => exact List.Sublist.refl _
  | cons f files ih =>
    rw [layOut]
    split
    · exact (ih ..).cons_cons f.1
    · exact (ih ..).cons f.1

theorem openFiles_frame {files : List (Text × ℕ)} (tops : Text → ℕ) (disk : Text → Option Text)
    {file : Text} (new : file ∉ files.map (·.1)) :
    (openFiles files tops disk).1 file = tops file ∧ (openFiles files tops disk).2 file = disk file := by
  induction files generalizing tops disk with
  | nil => exact ⟨rfl, rfl⟩
  | cons f files ih =>
    rw [List.map_cons, List.mem_cons, not_or] at new
    rw [openFiles]
    split
    · rw [(ih _ _ new.2).1, (ih _ _ new.2).2, Function.update_of_ne new.1]
      refine ⟨rfl, ?_⟩
      split_ifs
      · exact Function.update_of_ne new.1 ..
      · rfl
    · rw [(ih _ _ new.2).1, (ih _ _ new.2).2, Function.update_of_ne new.1]
      exact ⟨rfl, rfl⟩

/-- An open file is what was there up to the length, or is empty. -/
theorem openFiles_mem {files : List (Text × ℕ)} (tops : Text → ℕ) (disk : Text → Option Text)
    (nodup : (files.map (·.1)).Nodup) {f : Text × ℕ} (mem : f ∈ files) (none : tops f.1 = 0) :
    (openFiles files tops disk).1 f.1 = ((disk f.1).getD []).length ∧
      (openFiles files tops disk).2 f.1 = some (((disk f.1).getD []).take f.2) := by
  induction files generalizing tops disk with
  | nil => cases mem
  | cons g files ih =>
    rw [List.map_cons, List.nodup_cons] at nodup
    rcases List.mem_cons.1 mem with rfl | mem
    · rw [openFiles]
      split
      · next data there =>
        obtain ⟨top, kept⟩ := openFiles_frame (Function.update tops f.1 data.length)
          (if f.2 < data.length then Function.update disk f.1 (some (data.take f.2)) else disk)
          nodup.1
        rw [top, kept, Function.update_self, there]
        refine ⟨rfl, ?_⟩
        split_ifs with long
        · exact Function.update_self ..
        · rw [there, Option.getD_some, List.take_of_length_le (by omega)]
      · next there =>
        obtain ⟨top, kept⟩ := openFiles_frame tops (Function.update disk f.1 (some [])) nodup.1
        rw [top, kept, Function.update_self, there, none]
        exact ⟨rfl, by simp⟩
    · have other : f.1 ≠ g.1 := fun same => nodup.1 (same ▸ List.mem_map_of_mem mem)
      rw [openFiles]
      split
      · next data there =>
        obtain ⟨top, kept⟩ := ih (Function.update tops g.1 data.length)
          (if g.2 < data.length then Function.update disk g.1 (some (data.take g.2)) else disk)
          nodup.2 mem (by rw [Function.update_of_ne other, none])
        have same : (if g.2 < data.length then Function.update disk g.1 (some (data.take g.2))
            else disk) f.1 = disk f.1 := by
          split_ifs
          · exact Function.update_of_ne other ..
          · rfl
        rw [top, kept, same]
        exact ⟨rfl, rfl⟩
      · obtain ⟨top, kept⟩ := ih tops (Function.update disk g.1 (some [])) nodup.2 mem none
        rw [top, kept, Function.update_of_ne other]
        exact ⟨rfl, rfl⟩

/-- A file that is in a range is not touched by the first loop. -/
theorem layOut_disk {files : List (Text × ℕ)} {total : ℕ} {disk : Text → Option Text} {f : Text × ℕ}
    (nodup : (files.map (·.1)).Nodup) (mem : f ∈ files) (some : f.2 ≠ 0) :
    (layOut files total disk).2.2 f.1 = disk f.1 := by
  have frame : ∀ (files : List (Text × ℕ)) (total : ℕ) (disk : Text → Option Text),
      (∀ g ∈ files, g.1 = f.1 → g.2 ≠ 0) → (layOut files total disk).2.2 f.1 = disk f.1 := by
    intro files
    induction files with
    | nil => exact fun _ _ _ => rfl
    | cons g files ih =>
      intro total disk ne
      have rest : ∀ h ∈ files, h.1 = f.1 → h.2 ≠ 0 := fun h mem => ne h (List.mem_cons_of_mem g mem)
      rw [layOut]
      split
      · exact ih _ _ rest
      · next empty =>
        rw [ih _ _ rest]
        split_ifs
        · rfl
        · refine Function.update_of_ne (fun same => ?_) ..
          exact empty (ne g List.mem_cons_self same.symm)
  refine frame files total disk fun g mem' same => ?_
  rw [List.inj_on_of_nodup_map nodup mem' mem same]
  exact some

section Init

variable {files : List (Text × ℕ)} {disk : Text → Option Text}

/-- The file of a range is as long as the one that was there, up to its length. -/
theorem init_content (nodup : (files.map (·.1)).Nodup) {r : Range} (mem : r ∈ (init files disk).ranges) :
    (init files disk).content r.2.2 = ((disk r.2.2).getD []).take (r.2.1 - r.1) ∧
      (init files disk).tops r.2.2 = ((disk r.2.2).getD []).length := by
  have file := mem_layOut mem
  have some : r.2.1 - r.1 ≠ 0 := by
    have := (layOut_contiguous files 0 disk).bounds mem
    omega
  obtain ⟨top, kept⟩ := openFiles_mem (fun _ => 0) (layOut files 0 disk).2.2 nodup file rfl
  rw [layOut_disk nodup file some] at top kept
  exact ⟨congrArg (fun d => Option.getD d []) kept, top⟩

/-- The storage that a torrent begins with. -/
theorem init_whole (disk : Text → Option Text) (nodup : (files.map (·.1)).Nodup) : (init files disk).Whole where
  contiguous := layOut_contiguous files 0 disk
  nodup := (layOut_sublist files 0 disk).nodup nodup
  fits r mem := by
    rw [(init_content nodup mem).1, List.length_take]
    exact Nat.min_le_left ..

theorem init_cell (nodup : (files.map (·.1)).Nodup) {r : Range} (mem : r ∈ (init files disk).ranges)
    {k : ℕ} (low : r.1 ≤ k) (high : k < r.2.1) :
    (init files disk).cell k = ((disk r.2.2).getD [])[k - r.1]? := by
  rw [cell_eq (init_whole disk nodup) mem low high, (init_content nodup mem).1,
    List.getElem?_take_of_lt (by omega)]

theorem Contiguous.mem_takeWhile {b t stop : ℕ} {rs : List Range} (h : Contiguous b rs t) {r : Range}
    (mem : r ∈ rs) (before : r.1 < stop) : r ∈ rs.takeWhile (·.1 < stop) := by
  induction rs generalizing b with
  | nil => cases mem
  | cons q rs ih =>
    have first : q.1 < stop := by
      rcases List.mem_cons.1 mem with rfl | mem
      · exact before
      · have := h.2.2.bounds mem
        have := h.2.1
        have := h.1
        omega
    rw [List.takeWhile_cons_of_pos (by simpa using first)]
    rcases List.mem_cons.1 mem with rfl | mem
    · exact List.mem_cons_self
    · exact List.mem_cons_of_mem q (ih h.2.2 mem)

/-- What was preallocated is in the files. -/
theorem init_preallocated (nodup : (files.map (·.1)).Nodup) {pos length : ℕ}
    (inside : pos + length ≤ (init files disk).total_length)
    (pre : (init files disk).was_preallocated pos length) {k : ℕ} (low : pos ≤ k)
    (high : k < pos + length) : ((init files disk).cell k).isSome := by
  have whole := init_whole disk nodup
  obtain ⟨r, mem, above, below⟩ := whole.contiguous.exists (Nat.zero_le k) (by omega)
  obtain ⟨q, rest, cut, contiguous, start, -⟩ := whole.contiguous.drop (Nat.zero_le pos) (by omega)
    (List.ne_nil_of_mem mem)
  have split := List.take_append_drop
    (bisectRight ((init files disk).ranges.map (·.1)) pos - 1) (init files disk).ranges
  rw [cut] at split
  have late : r ∈ q :: rest := by
    rcases List.mem_append.1 (split ▸ mem) with old | new
    · have order := whole.contiguous
      rw [← split] at order
      have := order.before old
      omega
    · exact new
  have here := List.all_eq_true.1 pre (interval pos (pos + length) r) (by
    rw [intervals, cut]
    exact List.mem_map_of_mem (contiguous.mem_takeWhile late (by omega)))
  have top : min r.2.1 (pos + length) - r.1 ≤ (init files disk).tops r.2.2 := of_decide_eq_true here
  rw [(init_content nodup mem).2] at top
  rw [init_cell nodup mem above below, List.getElem?_eq_getElem (by omega), Option.isSome_some]

end Init

/-! ### One sequence of bytes -/

/-- What is known of the bytes is in the files. -/
def Holds (st : Storage) (known : ℕ → Option Char) : Prop :=
  ∀ k c, known k = some c → st.cell k = some c

theorem Holds.write {st : Storage} {known : ℕ → Option Char} (holds : st.Holds known)
    (whole : st.Whole) {pos : ℕ} {s : Text} (inside : pos + s.length ≤ st.total_length) :
    (st.write pos s).Holds (overwrite known pos s) := by
  intro k c here
  rw [overwrite] at here
  split_ifs at here with within
  · rw [cell_write_inside whole inside within.1 within.2, here]
  · exact cell_write_outside whole inside (by omega) (holds k c here)

theorem Holds.read {st : Storage} {known : ℕ → Option Char} (holds : st.Holds known)
    (whole : st.Whole) {pos amount : ℕ} (inside : pos + amount ≤ st.total_length)
    (there : ∀ k, pos ≤ k → k < pos + amount → (known k).isSome) :
    (st.read pos amount).map some = (List.range' pos amount).map known := by
  have same : ∀ k, pos ≤ k → k < pos + amount → st.cell k = known k := by
    intro k low high
    obtain ⟨c, here⟩ := Option.isSome_iff_exists.1 (there k low high)
    rw [here, holds k c here]
  rw [read_cell whole pos amount inside fun k low high => by rw [same k low high]; exact there k low high]
  refine List.map_congr_left fun k mem => ?_
  rw [List.mem_range'_1] at mem
  exact same k mem.1 mem.2

/-- Writes, one after the other. -/
def writes (st : Storage) (ws : List (ℕ × Text)) : Storage :=
  ws.foldl (fun st w => st.write w.1 w.2) st

/-- After any writes a read gives what was written last at each of its positions.  A storage without
ranges is not read or written: the code fails there. -/
theorem read_writes {st : Storage} (whole : st.Whole) (_ranges : st.ranges ≠ [])
    {ws : List (ℕ × Text)}
    (inside : ∀ w ∈ ws, w.1 + w.2.length ≤ st.total_length) {pos amount : ℕ}
    (within : pos + amount ≤ st.total_length)
    (there : ∀ k, pos ≤ k → k < pos + amount →
      ((ws.foldl (fun known w => overwrite known w.1 w.2) st.cell) k).isSome) :
    ((st.writes ws).read pos amount).map some =
      (List.range' pos amount).map (ws.foldl (fun known w => overwrite known w.1 w.2) st.cell) := by
  have run : ∀ (ws : List (ℕ × Text)) (st' : Storage) (known : ℕ → Option Char), st'.Whole →
      st'.total_length = st.total_length → (∀ w ∈ ws, w.1 + w.2.length ≤ st.total_length) →
      st'.Holds known → (st'.writes ws).Whole ∧ (st'.writes ws).total_length = st.total_length ∧
        (st'.writes ws).Holds (ws.foldl (fun known w => overwrite known w.1 w.2) known) := by
    intro ws
    induction ws with
    | nil => exact fun st' known whole total _ holds => ⟨whole, total, holds⟩
    | cons w ws ih =>
      intro st' known whole total inside holds
      have first := total ▸ inside w List.mem_cons_self
      obtain ⟨whole', total', -⟩ := write_whole whole first
      exact ih _ _ whole' (total'.trans total) (fun v mem => inside v (List.mem_cons_of_mem w mem))
        (holds.write whole first)
  obtain ⟨whole', total, holds⟩ := run ws st st.cell whole rfl inside fun _ _ h => h
  exact holds.read whole' (total ▸ within) there

/-- A write over the ends of files, and another one over it -/
theorem read_writes_over :
    let st := init [("a".toList, 5), ("2".toList, 4), ("c".toList, 3)] fun _ => none
    let ws := [(3, "pqrstuvw".toList), (3, "abcdef".toList)]
    ((st.writes ws).read 3 7).map some = "abcdefv".toList.map some :=
  (read_writes (init_whole _ (by decide)) (by decide) (by decide) (by decide) (by decide)).trans
    (by decide)

end Storage

end Ydfs.BitTorrent
