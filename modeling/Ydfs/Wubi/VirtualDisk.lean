import Mathlib.Algebra.BigOperators.Group.Finset.Basic
import Mathlib.Algebra.Order.BigOperators.Group.Finset

/-!
# The file of a virtual disk

`create_virtual_disk` makes a file of the size of the disk without clearing it, and then clears its
beginning and its end with `zero_file`.  Each `WriteFile` may write less than it is asked to, and
`zero_file` goes on until all is written: it reports a write that fails, and tries again.  What it
writes are characters `0`, not zero bytes.
-/

namespace Ydfs.Wubi.VirtualDisk

open Finset (range)

/-! ### Files of Windows -/

/-- An open file.  Behind its valid data it reads as zero bytes, whatever is stored there. -/
structure File where
  size : ℕ
  pos : ℕ
  valid : ℕ
  stored : ℕ → UInt8
  writes : List (ℕ × ℕ) := []

/-- What is read from a file. -/
def File.contents (f : File) (i : ℕ) : UInt8 := if i < f.valid then f.stored i else 0

/-- Bytes written at the file pointer; the offset and the length are kept for the record. -/
def File.write (f : File) (data : List UInt8) : File where
  size := if data = [] then f.size else max f.size (f.pos + data.length)
  pos := f.pos + data.length
  valid := if data = [] then f.valid else max f.valid (f.pos + data.length)
  stored i := if f.pos ≤ i ∧ i < f.pos + data.length then data.getD (i - f.pos) 0 else f.contents i
  writes := (f.pos, data.length) :: f.writes

/-- An open file, or `INVALID_HANDLE_VALUE`. -/
abbrev Handle := Option File

/-- How a `WriteFile` turns out: its result, and the most it writes. -/
structure Outcome where
  result : Bool
  limit : ℕ

/-- `WriteFile`: the number of bytes written, and the file. -/
def writeFile (o : Outcome) (handle : Handle) (buf : List UInt8) (bytesToWrite : ℕ) : ℕ × Handle :=
  match handle with
  | none => (0, none)
  | some file =>
    let data := (buf.take bytesToWrite).take o.limit
    (data.length, some (file.write data))

/-- `LARGE_INTEGER.QuadPart` -/
def quadPart (n : ℤ) : ℤ := n.bmod (2 ^ 64)

/-- `SetFilePointerEx` from the beginning of the file; it fails for a negative position. -/
def setFilePointerEx (succeeds : Bool) (filePos : ℤ) (handle : Handle) : Handle :=
  handle.map fun file =>
    if succeeds ∧ 0 ≤ quadPart filePos then { file with pos := (quadPart filePos).toNat } else file

def setEndOfFile (succeeds : Bool) (handle : Handle) : Handle :=
  handle.map fun file =>
    if succeeds then { file with size := file.pos, valid := min file.valid file.pos } else file

/-- `SetFileValidData`: what is stored is read. -/
def setFileValidData (succeeds : Bool) (filePos : ℤ) (handle : Handle) : Handle :=
  handle.map fun file =>
    if succeeds then { file with valid := (quadPart filePos).toNat } else file

/-! ### `zero_file` -/

def bufSize : ℕ := 1000

/-- `"0"*buf_size` -/
def writeBuf : List UInt8 := List.replicate bufSize 0x30

/-- The state of the loop; `reported` once `WriteFile() failed!` has been logged. -/
structure Clearing where
  handle : Handle
  bytesCleared : ℕ := 0
  calls : ℕ := 0
  reported : Bool := false

def clearChunk (outcomes : ℕ → Outcome) (clearBytes : ℕ) (s : Clearing) : Clearing :=
  let bytesToWrite :=
    if bufSize > clearBytes - s.bytesCleared then clearBytes - s.bytesCleared else bufSize
  let o := outcomes s.calls
  let written := writeFile o s.handle writeBuf bytesToWrite
  { handle := written.2
    bytesCleared := s.bytesCleared + written.1
    calls := s.calls + 1
    reported := s.reported || !o.result || written.1 == 0 }

/-- The loop, which is given up after `fuel` rounds. -/
def clearLoop (outcomes : ℕ → Outcome) (clearBytes : ℕ) : ℕ → Clearing → Option Clearing
  | 0, s => if s.bytesCleared < clearBytes then none else some s
  | fuel + 1, s =>
    if s.bytesCleared < clearBytes then
      clearLoop outcomes clearBytes fuel (clearChunk outcomes clearBytes s)
    else some s

def zeroFile (outcomes : ℕ → Outcome) (fuel : ℕ) (handle : Handle) (clearBytes : ℕ) :
    Option Clearing :=
  clearLoop outcomes clearBytes fuel { handle }

/-! ### `create_virtual_disk` -/

/-- Which calls succeed, in their order, and how the writes turn out. -/
structure Calls where
  createFile : Bool
  seekEnd : Bool
  setEndOfFile : Bool
  setFileValidData : Bool
  seekBeginning : Bool
  writesAtBeginning : ℕ → Outcome
  seekTail : Bool
  writesAtTail : ℕ → Outcome

def clearBytes : ℕ := 1000000

/-- `create_virtual_disk` on a drive that has stored `stored` where the file will be: the file, if one
is made.  A call that fails is logged, and the next one is made. -/
def createVirtualDisk (calls : Calls) (stored : ℕ → UInt8) (fuel : ℕ) (sizeMb : ℤ) :
    Option Handle :=
  if sizeMb < 1 then some none
  else do
    let handle : Handle := if calls.createFile then some ⟨0, 0, 0, stored, []⟩ else none
    let filePos := sizeMb * 1024 * 1024
    let handle := setFilePointerEx calls.seekEnd filePos handle
    let handle := setEndOfFile calls.setEndOfFile handle
    let handle := setFileValidData calls.setFileValidData filePos handle
    let handle := setFilePointerEx calls.seekBeginning 0 handle
    let cleared ← zeroFile calls.writesAtBeginning fuel handle clearBytes
    let filePos := sizeMb * 1024 * 1024 - clearBytes
    let handle := setFilePointerEx calls.seekTail filePos cleared.handle
    let cleared ← zeroFile calls.writesAtTail fuel handle clearBytes
    return cleared.handle

variable {start file : File} {outcomes : ℕ → Outcome} {m c k n fuel total : ℕ} {s s' : Clearing}

/-! ### What a write changes -/

theorem contents_write (f : File) (data : List UInt8) (i : ℕ) :
    (f.write data).contents i =
      if f.pos ≤ i ∧ i < f.pos + data.length then data.getD (i - f.pos) 0 else f.contents i := by
  by_cases inside : f.pos ≤ i ∧ i < f.pos + data.length
  · have ne : data ≠ [] := by
      rintro rfl
      rw [List.length_nil] at inside
      omega
    have valid : i < max f.valid (f.pos + data.length) := by omega
    simp only [File.contents, File.write, if_neg ne, if_pos valid, if_pos inside]
  · simp only [File.contents, File.write, if_neg inside]
    split_ifs <;> first | rfl | omega

/-- Where the file pointer is makes no difference to what is read. -/
theorem contents_pos (f : File) (pos : ℕ) : File.contents { f with pos } = f.contents := rfl

/-- The file has been written to from its pointer on, for `c` bytes, with the character `0`. -/
structure Filled (start : File) (c : ℕ) (file : File) : Prop where
  pos : file.pos = start.pos + c
  size : start.pos + c ≤ start.size → file.size = start.size
  contents : ∀ i, file.contents i =
    if start.pos ≤ i ∧ i < start.pos + c then 0x30 else start.contents i
  writes : ∀ w ∈ file.writes, w ∈ start.writes ∨ start.pos ≤ w.1 ∧ w.1 + w.2 ≤ start.pos + c

theorem Filled.refl (start : File) : Filled start 0 start where
  pos := rfl
  size _ := rfl
  contents i := by rw [if_neg (by omega)]
  writes _ mem := .inl mem

theorem Filled.write (filled : Filled start c file) (m : ℕ) :
    Filled start (c + m) (file.write (List.replicate m 0x30)) where
  pos := by
    have here := filled.pos
    simp only [File.write, List.length_replicate]
    omega
  size inside := by
    have before := filled.size (by omega)
    have here := filled.pos
    simp only [File.write, List.length_replicate]
    split_ifs <;> omega
  contents i := by
    rw [contents_write, filled.contents, filled.pos, List.length_replicate]
    by_cases new : start.pos + c ≤ i ∧ i < start.pos + c + m
    · rw [if_pos new, if_pos (by omega), List.getD_eq_getElem?_getD,
        List.getElem?_replicate, if_pos (by omega), Option.getD_some]
    · rw [if_neg new]
      split_ifs <;> first | rfl | omega
  writes w mem := by
    have here := filled.pos
    simp only [File.write, List.length_replicate, List.mem_cons] at mem
    obtain rfl | mem := mem
    · exact .inr ⟨by dsimp only; omega, by dsimp only; omega⟩
    · exact (filled.writes w mem).imp_right fun within => ⟨within.1, by omega⟩

/-! ### `zero_file` goes on until all is written -/

/-- What `n` writes can write. -/
def written (outcomes : ℕ → Outcome) (n : ℕ) : ℕ := ∑ k ∈ range n, min (outcomes k).limit bufSize

theorem written_succ (n : ℕ) :
    written outcomes (n + 1) = written outcomes n + min (outcomes n).limit bufSize :=
  Finset.sum_range_succ _ n

/-- The loop after `k` rounds. -/
structure After (outcomes : ℕ → Outcome) (start : File) (total k : ℕ) (s : Clearing) : Prop where
  calls : s.calls = k
  bytesCleared : s.bytesCleared = min total (written outcomes k)
  filled : ∃ file, s.handle = some file ∧ Filled start s.bytesCleared file

theorem After.zero (outcomes : ℕ → Outcome) (start : File) (total : ℕ) :
    After outcomes start total 0 { handle := some start } :=
  ⟨rfl, (Nat.min_zero total).symm, start, rfl, Filled.refl start⟩

theorem After.clearChunk (after : After outcomes start total k s) (more : s.bytesCleared < total) :
    After outcomes start total (k + 1) (clearChunk outcomes total s) := by
  obtain ⟨rfl, bytesCleared, file, is, filled⟩ := after
  have asked : (if bufSize > total - s.bytesCleared then total - s.bytesCleared else bufSize) =
      min bufSize (total - s.bytesCleared) := by
    split_ifs <;> omega
  have data : (writeBuf.take (min bufSize (total - s.bytesCleared))).take (outcomes s.calls).limit =
      List.replicate (min (outcomes s.calls).limit (min bufSize (total - s.bytesCleared))) 0x30 := by
    simp [writeBuf, List.take_replicate]
  have next := filled.write
    (min (outcomes s.calls).limit (min bufSize (total - s.bytesCleared)))
  refine ⟨rfl, ?_, ?_⟩
  · simp only [VirtualDisk.clearChunk, asked, is, writeFile, data, List.length_replicate, written_succ]
    omega
  · simp only [VirtualDisk.clearChunk, asked, is, writeFile, data, List.length_replicate]
    exact ⟨_, rfl, next⟩

/-- When the loop ends, the writes have been enough, and all is written. -/
theorem After.of_ended (after : After outcomes start total k s)
    (ended : clearLoop outcomes total fuel s = some s') :
    ∃ n, After outcomes start total n s' ∧ total ≤ written outcomes n := by
  induction fuel generalizing k s with
  | zero =>
    rw [clearLoop] at ended
    split_ifs at ended with more
    obtain rfl := Option.some.inj ended
    have := after.bytesCleared
    exact ⟨k, after, by omega⟩
  | succ fuel ih =>
    rw [clearLoop] at ended
    split_ifs at ended with more
    · exact ih (after.clearChunk more) ended
    · obtain rfl := Option.some.inj ended
      have := after.bytesCleared
      exact ⟨k, after, by omega⟩

/-- When the writes are enough, the loop ends. -/
theorem After.ends (fuel : ℕ) (after : After outcomes start total k s)
    (enough : total ≤ written outcomes (k + fuel)) :
    ∃ s', clearLoop outcomes total fuel s = some s' := by
  induction fuel generalizing k s with
  | zero =>
    have := after.bytesCleared
    rw [Nat.add_zero] at enough
    exact ⟨s, by rw [clearLoop, if_neg (by omega)]⟩
  | succ fuel ih =>
    rw [clearLoop]
    split_ifs with more
    · exact ih (after.clearChunk more) (by rwa [Nat.succ_add_eq_add_succ])
    · exact ⟨s, rfl⟩

/-- `zero_file` ends, and has written as many bytes as were asked for or has reported a failure. -/
def Ends (outcomes : ℕ → Outcome) (start : File) (total : ℕ) : Prop :=
  ∃ fuel s, zeroFile outcomes fuel (some start) total = some s ∧
    ((s.bytesCleared = total ∧ ∃ file, s.handle = some file ∧ Filled start total file) ∨
      s.reported = true)

theorem Ends.enough (ends : Ends outcomes start total) : ∃ n, total ≤ written outcomes n := by
  obtain ⟨fuel, s, ended, -⟩ := ends
  obtain ⟨n, -, enough⟩ := (After.zero outcomes start total).of_ended ended
  exact ⟨n, enough⟩

theorem zeroFile_eq_some (start : File) (enough : total ≤ written outcomes n) :
    ∃ s file, zeroFile outcomes n (some start) total = some s ∧ s.bytesCleared = total ∧
      s.handle = some file ∧ Filled start total file := by
  have after := After.zero outcomes start total
  obtain ⟨s, ended⟩ := after.ends n (by rwa [Nat.zero_add])
  obtain ⟨k, ⟨-, bytesCleared, file, is, filled⟩, enough⟩ := after.of_ended ended
  rw [Nat.min_eq_left enough] at bytesCleared
  exact ⟨s, file, ended, bytesCleared, is, bytesCleared ▸ filled⟩

/-- `zero_file` ends exactly if the writes it gets are enough: if from some write on, before all is
written, every one writes nothing, it goes on for ever. -/
theorem zero_file_ends_iff (outcomes : ℕ → Outcome) (start : File) (total : ℕ) :
    Ends outcomes start total ↔
      ∃ n, total ≤ ∑ k ∈ range n, min (outcomes k).limit bufSize := by
  refine ⟨Ends.enough, fun ⟨n, enough⟩ => ?_⟩
  obtain ⟨s, file, ended, bytesCleared, is, filled⟩ := zeroFile_eq_some start enough
  exact ⟨n, s, ended, .inl ⟨bytesCleared, file, is, filled⟩⟩

/-- The disk is full, or the handle is not valid. -/
def failing (_ : ℕ) : Outcome := ⟨false, 0⟩

theorem not_zero_file_ends :
    ¬ ∀ (outcomes : ℕ → Outcome) (start : File) (total : ℕ), Ends outcomes start total := by
  intro ends
  obtain ⟨n, enough⟩ := (ends failing ⟨0, 0, 0, fun _ => 0, []⟩ clearBytes).enough
  simp [written, failing, clearBytes] at enough

/-! ### What is in the file -/

/-- All calls succeed, with full writes. -/
structure Calls.Succeed (calls : Calls) : Prop where
  createFile : calls.createFile = true
  seekEnd : calls.seekEnd = true
  setEndOfFile : calls.setEndOfFile = true
  setFileValidData : calls.setFileValidData = true
  seekBeginning : calls.seekBeginning = true
  fullAtBeginning : ∀ k, (calls.writesAtBeginning k).result = true ∧
    bufSize ≤ (calls.writesAtBeginning k).limit
  seekTail : calls.seekTail = true
  fullAtTail : ∀ k, (calls.writesAtTail k).result = true ∧ bufSize ≤ (calls.writesAtTail k).limit

/-- A blank disk: of its size, with zero bytes in the cleared regions, and no write went outside. -/
structure Blank (sizeMb : ℤ) (f : File) : Prop where
  size : (f.size : ℤ) = sizeMb * 2 ^ 20
  beginning : ∀ i < clearBytes, f.contents i = 0
  tail : ∀ i, f.size - clearBytes ≤ i → i < f.size → f.contents i = 0
  inside : ∀ w ∈ f.writes, w.1 + w.2 ≤ f.size

variable {calls : Calls} {stored : ℕ → UInt8} {sizeMb : ℤ}

theorem written_of_full (full : ∀ k, (outcomes k).result = true ∧ bufSize ≤ (outcomes k).limit)
    (n : ℕ) : written outcomes n = n * bufSize := by
  induction n with
  | zero => simp [written]
  | succ n ih => rw [written_succ, ih, Nat.min_eq_right (full n).2, Nat.succ_mul]

theorem quadPart_eq {n : ℤ} (low : 0 ≤ n) (high : n < 2 ^ 63) : quadPart n = n := by
  rw [quadPart, Int.bmod_eq_of_le] <;> omega

theorem zeroFile_filled (ended : zeroFile outcomes fuel (some start) total = some s) :
    ∃ file, s.handle = some file ∧ Filled start total file := by
  obtain ⟨n, ⟨-, bytesCleared, file, is, filled⟩, enough⟩ :=
    (After.zero outcomes start total).of_ended ended
  rw [Nat.min_eq_left enough] at bytesCleared
  exact ⟨file, is, bytesCleared ▸ filled⟩

/-- The file before the first write. -/
def extended (calls : Calls) (stored : ℕ → UInt8) (sizeMb : ℤ) : Handle :=
  setFilePointerEx calls.seekBeginning 0 (setFileValidData calls.setFileValidData
    (sizeMb * 1024 * 1024) (setEndOfFile calls.setEndOfFile (setFilePointerEx calls.seekEnd
      (sizeMb * 1024 * 1024) (if calls.createFile then some ⟨0, 0, 0, stored, []⟩ else none))))

/-- The calls, with the two fillings. -/
theorem createVirtualDisk_eq (pos : 1 ≤ sizeMb) :
    createVirtualDisk calls stored fuel sizeMb =
      (zeroFile calls.writesAtBeginning fuel (extended calls stored sizeMb) clearBytes).bind
        fun cleared => (zeroFile calls.writesAtTail fuel (setFilePointerEx calls.seekTail
          (sizeMb * 1024 * 1024 - clearBytes) cleared.handle) clearBytes).bind
            fun cleared => some cleared.handle := by
  rw [createVirtualDisk, if_neg (by omega)]
  rfl

/-- The file has its size, and what is stored there is read. -/
theorem extended_eq (succeed : calls.Succeed) :
    extended calls stored sizeMb = some ⟨(quadPart (sizeMb * 1024 * 1024)).toNat, 0,
      (quadPart (sizeMb * 1024 * 1024)).toNat, stored, []⟩ := by
  have zero : quadPart 0 = 0 := rfl
  simp only [extended, setFilePointerEx, setEndOfFile, setFileValidData, succeed.createFile,
    succeed.seekEnd, succeed.setEndOfFile, succeed.setFileValidData, succeed.seekBeginning, if_true,
    Option.map_some, zero, true_and, le_refl, Int.toNat_zero, Option.some.injEq]
  split_ifs with negative
  · rfl
  · rw [Int.toNat_of_nonpos (by omega)]

/-- The two fillings, with the file pointer set in between. -/
theorem created_cases (succeed : calls.Succeed) (pos : 1 ≤ sizeMb) {handle : Handle}
    (created : createVirtualDisk calls stored fuel sizeMb = some handle) :
    ∃ first file, Filled ⟨(quadPart (sizeMb * 1024 * 1024)).toNat, 0,
        (quadPart (sizeMb * 1024 * 1024)).toNat, stored, []⟩ clearBytes first ∧
      Filled (if 0 ≤ quadPart (sizeMb * 1024 * 1024 - clearBytes) then
        { first with pos := (quadPart (sizeMb * 1024 * 1024 - clearBytes)).toNat } else first)
          clearBytes file ∧ handle = some file := by
  rw [createVirtualDisk_eq pos, extended_eq succeed] at created
  obtain ⟨cleared, ended, created⟩ := Option.bind_eq_some_iff.1 created
  obtain ⟨cleared', ended', last⟩ := Option.bind_eq_some_iff.1 created
  obtain rfl := Option.some.inj last
  obtain ⟨first, is, filled⟩ := zeroFile_filled ended
  rw [is, setFilePointerEx, succeed.seekTail, Option.map_some] at ended'
  simp only [true_and] at ended'
  obtain ⟨file, is', filled'⟩ := zeroFile_filled ended'
  exact ⟨first, file, filled, filled', is'⟩

/-- The first byte that is written is a character. -/
theorem contents_zero (succeed : calls.Succeed) (pos : 1 ≤ sizeMb)
    (created : createVirtualDisk calls stored fuel sizeMb = some (some file)) :
    file.contents 0 = 0x30 := by
  obtain ⟨first, file, filled, filled', is⟩ := created_cases succeed pos created
  obtain rfl := Option.some.inj is
  have zero : first.contents 0 = 0x30 := by
    rw [filled.contents, if_pos ⟨le_rfl, show 0 < 0 + clearBytes by decide⟩]
  rw [filled'.contents]
  split_ifs <;> first | rfl | exact zero

theorem not_blank (succeed : calls.Succeed) (pos : 1 ≤ sizeMb)
    (created : createVirtualDisk calls stored fuel sizeMb = some (some file)) :
    ¬ Blank sizeMb file := by
  intro blank
  have zero := blank.beginning 0 (by decide)
  rw [contents_zero succeed pos created] at zero
  exact absurd zero (by decide)

/-- No virtual disk is blank: the regions are full of the character `0`. -/
theorem create_virtual_disk_not_blank (succeed : calls.Succeed) (stored : ℕ → UInt8)
    (pos : 1 ≤ sizeMb) :
    ¬ ∃ fuel file, createVirtualDisk calls stored fuel sizeMb = some (some file) ∧
      Blank sizeMb file :=
  fun ⟨_, _, created, blank⟩ => not_blank succeed pos created blank

/-- Windows does as it is asked. -/
def obedient : Calls where
  createFile := true
  seekEnd := true
  setEndOfFile := true
  setFileValidData := true
  seekBeginning := true
  writesAtBeginning _ := ⟨true, bufSize⟩
  seekTail := true
  writesAtTail _ := ⟨true, bufSize⟩

theorem obedient_succeed : obedient.Succeed :=
  ⟨rfl, rfl, rfl, rfl, rfl, fun _ => ⟨rfl, le_rfl⟩, rfl, fun _ => ⟨rfl, le_rfl⟩⟩

theorem create_virtual_disk_not_blank_256 :
    ¬ ∃ fuel file, createVirtualDisk obedient (fun _ => 0) fuel 256 = some (some file) ∧
      Blank 256 file :=
  create_virtual_disk_not_blank obedient_succeed (fun _ => 0) (by decide)

theorem not_create_virtual_disk_blank :
    ¬ ∀ (calls : Calls) (stored : ℕ → UInt8) (sizeMb : ℤ), calls.Succeed → 1 ≤ sizeMb →
      ∃ fuel file, createVirtualDisk calls stored fuel sizeMb = some (some file) ∧
        Blank sizeMb file := by
  intro blank
  obtain ⟨fuel, file, created, is⟩ := blank obedient (fun _ => 0) 256 obedient_succeed (by decide)
  exact not_blank obedient_succeed (by decide) created is

theorem enough_of_full (full : ∀ k, (outcomes k).result = true ∧ bufSize ≤ (outcomes k).limit) :
    clearBytes ≤ written outcomes 1000 := by
  rw [written_of_full full]
  decide

/-- With full writes a thousand rounds are enough for each filling. -/
theorem exists_created (succeed : calls.Succeed) (stored : ℕ → UInt8) (pos : 1 ≤ sizeMb) :
    ∃ handle, createVirtualDisk calls stored 1000 sizeMb = some handle := by
  rw [createVirtualDisk_eq pos, extended_eq succeed]
  obtain ⟨cleared, first, ended, -, is, -⟩ := zeroFile_eq_some _ (enough_of_full succeed.fullAtBeginning)
  rw [ended, Option.bind_some, is, setFilePointerEx, Option.map_some]
  obtain ⟨cleared', last, ended', -⟩ := zeroFile_eq_some _ (enough_of_full succeed.fullAtTail)
  rw [ended']
  exact ⟨_, rfl⟩

/-- Otherwise the file is as it should be: it has its size, the two regions are full of one character,
what is stored in between is kept, and no write goes outside. -/
theorem create_virtual_disk_fills (succeed : calls.Succeed) (stored : ℕ → UInt8) (pos : 1 ≤ sizeMb)
    (fits : sizeMb < 2 ^ 43) :
    ∃ fuel file, createVirtualDisk calls stored fuel sizeMb = some (some file) ∧
      (file.size : ℤ) = sizeMb * 2 ^ 20 ∧
      (∀ i < file.size, file.contents i =
        if i < clearBytes ∨ file.size - clearBytes ≤ i then 0x30 else stored i) ∧
      ∀ w ∈ file.writes, w.1 + w.2 ≤ file.size := by
  have clear : clearBytes = 1000000 := rfl
  have whole : quadPart (sizeMb * 1024 * 1024) = sizeMb * 1024 * 1024 :=
    quadPart_eq (by omega) (by omega)
  have tail : quadPart (sizeMb * 1024 * 1024 - clearBytes) = sizeMb * 1024 * 1024 - clearBytes :=
    quadPart_eq (by omega) (by omega)
  obtain ⟨handle, created⟩ := exists_created succeed stored pos
  obtain ⟨first, file, filled, filled', rfl⟩ := created_cases succeed pos created
  obtain ⟨size, is⟩ : ∃ size : ℕ, (size : ℤ) = sizeMb * 1024 * 1024 := ⟨_, Int.toNat_of_nonneg (by omega)⟩
  rw [whole, ← is, Int.toNat_natCast] at filled
  rw [tail, ← is, if_pos (by omega), show ((size : ℤ) - clearBytes).toNat = size - clearBytes by omega]
    at filled'
  have firstSize : first.size = size := filled.size (by dsimp only; omega)
  have fileSize : file.size = size := by
    rw [filled'.size (by dsimp only; omega), firstSize]
  refine ⟨1000, file, created, by omega, fun i inside => ?_, fun w mem => ?_⟩
  · have before : first.contents i = if i < clearBytes then 0x30 else stored i := by
      rw [filled.contents]
      simp only [Nat.zero_le, Nat.zero_add, true_and, File.contents]
      split_ifs <;> first | rfl | omega
    rw [filled'.contents, contents_pos, before]
    dsimp only
    split_ifs <;> first | rfl | omega
  · obtain old | new := filled'.writes w mem
    · have new := (filled.writes w old).resolve_left List.not_mem_nil
      dsimp only at new
      omega
    · dsimp only at new
      omega

end Ydfs.Wubi.VirtualDisk
