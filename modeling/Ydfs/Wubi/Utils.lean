import Ydfs.Files.Chunks

/-!
# Hashing and copying a file

`get_file_hash` and `copy_file` read a source in pieces of one MiB and tell their task how many they
have read; the task may answer that it is cancelled.  The first reads as many pieces as the size in
MiB says, and one more.  The second goes on to the end of the data: it compares the number of pieces
with a size in bytes.
-/

namespace Ydfs.Wubi.Utils

open Stream' Chunks

/-- A `str` of Python 2. -/
abbrev Str := List UInt8

/-- `1024**2` -/
def mebibyte : ℕ := 1024 ^ 2

theorem mebibyte_pos : 0 < mebibyte := by decide

/-! ### Hash objects -/

/-- An object of `hashlib`, by what it has been fed. -/
structure Hash where
  fed : Str := []

def Hash.update (hash : Hash) (data : Str) : Hash := ⟨hash.fed ++ data⟩

theorem Hash.update_nil (hash : Hash) : hash.update [] = hash :=
  congrArg Hash.mk (List.append_nil hash.fed)

theorem Hash.update_update (hash : Hash) (data data' : Str) :
    (hash.update data).update data' = hash.update (data ++ data') :=
  congrArg Hash.mk (List.append_assoc hash.fed data data')

/-! ### Tasks -/

/-- What a function tells its task. -/
inductive Call where
  | unit (unit : String)
  | size (size : ℕ)
  | setProgress (completed : ℕ)
  | finish
deriving DecidableEq

/-- The associated task, if there is one, by its answers to `set_progress`. -/
abbrev AssociatedTask := Option (ℕ → Bool)

/-- What a function returns, and what it has told its task. -/
structure Outcome (β : Type) where
  value : β
  calls : List Call

/-- Calls of a task that may be missing. -/
def tell (task : AssociatedTask) (calls : List Call) : List Call := if task.isSome then calls else []

/-- One call, and what comes after it. -/
def Outcome.after {β : Type} (o : Outcome β) (task : AssociatedTask) (call : Call) : Outcome β :=
  { o with calls := tell task [call] ++ o.calls }

/-- A call of `set_progress` has been answered with `True`. -/
def Stopped (task : AssociatedTask) (calls : List Call) : Prop :=
  ∃ answer ∈ task, ∃ k, .setProgress k ∈ calls ∧ answer k = true

/-! ### `get_file_hash` -/

/-- The reads that are left, and those that have been done. -/
def hashLoop (task : AssociatedTask) : ℕ → ℕ → Seq UInt8 → Hash → Outcome (Option Hash)
  | 0, _, _, hash => ⟨some hash, []⟩
  | reads + 1, dataRead, file, hash =>
    let data := file.take mebibyte
    let dataRead := dataRead + 1
    if data = [] then ⟨some hash, []⟩
    else if task.any (· dataRead) then ⟨none, [.setProgress dataRead]⟩
    else (hashLoop task reads dataRead (file.drop mebibyte) (hash.update data)).after task
      (.setProgress dataRead)

/-- `get_file_hash` of a file, or of a path where there is none. -/
def getFileHash (hexdigest : String → Str → List Char) (file : Option Str) (hashName : String)
    (task : AssociatedTask) : Outcome (Option (List Char)) :=
  match file with
  | none => ⟨none, []⟩
  | some content =>
    let fileSize := content.length / mebibyte
    let read := hashLoop task (fileSize + 1) 0 (Seq.ofList content) {}
    let calls := tell task [.unit "MB", .size fileSize] ++ read.calls
    match read.value with
    | none => ⟨none, calls⟩
    | some hash => ⟨some (hexdigest hashName hash.fed), calls ++ tell task [.finish]⟩

/-! ### `copy_file` -/

/-- What is copied: a regular file, or a mounted drive with the size of its file system and what can
be read from its raw device. -/
inductive Source where
  | file (content : Str)
  | drive (size : ℕ) (device : Seq UInt8)

def Source.fileSize : Source → ℕ
  | file content => content.length
  | drive size _ => size

/-- What the reads of `source_file` return. -/
def Source.bytes : Source → Seq UInt8
  | file content => Seq.ofList content
  | drive _ device => device

/-- The target, and whether the function has returned because of its task. -/
structure Copy where
  target : Str
  cancelled : Bool

def copyLoop (task : AssociatedTask) (fileSize dataRead : ℕ) (source : Seq UInt8) (target : Str) :
    Outcome Copy :=
  let data := source.take mebibyte
  if data = [] then ⟨⟨target, false⟩, []⟩
  else if task.any (· (dataRead + 1)) then ⟨⟨target, true⟩, [.setProgress (dataRead + 1)]⟩
  else if fileSize ≤ dataRead + 1 then
    ⟨⟨target ++ data, false⟩, tell task [.setProgress (dataRead + 1)]⟩
  else
    (copyLoop task fileSize (dataRead + 1) (source.drop mebibyte) (target ++ data)).after task
      (.setProgress (dataRead + 1))
termination_by fileSize - dataRead

def copyFile (source : Source) (task : AssociatedTask) : Outcome Copy :=
  let copied := copyLoop task source.fileSize 0 source.bytes []
  let calls := tell task [.size (source.fileSize / mebibyte), .unit "MB"] ++ copied.calls
  { copied with
    calls := if copied.value.cancelled then calls else calls ++ tell task [.finish] }

variable {task : AssociatedTask} {calls calls' : List Call} {call : Call} {β : Type}
  {o : Outcome β} {s : Seq UInt8} {reads dataRead : ℕ} {hash : Hash}

/-! ### What a task is told -/

theorem Stopped.mono (h : Stopped task calls) (sub : calls ⊆ calls') : Stopped task calls' := by
  obtain ⟨answer, is, k, told, stop⟩ := h
  exact ⟨answer, is, k, sub told, stop⟩

theorem stopped_of_any {k : ℕ} (h : task.any (· k) = true) : Stopped task [.setProgress k] := by
  cases task with
  | none => cases h
  | some answer => exact ⟨answer, rfl, k, List.mem_singleton_self _, h⟩

theorem Stopped.after (h : Stopped task o.calls) : Stopped task (o.after task call).calls :=
  h.mono (List.subset_append_right _ _)

/-- The calls of a loop that has read `n` pieces. -/
def progress (dataRead n : ℕ) : List Call := (List.range' (dataRead + 1) n).map .setProgress

theorem progress_succ (dataRead n : ℕ) :
    progress dataRead (n + 1) = .setProgress (dataRead + 1) :: progress (dataRead + 1) n := rfl

theorem tell_append (calls calls' : List Call) :
    tell task (calls ++ calls') = tell task calls ++ tell task calls' := by
  unfold tell
  split_ifs <;> rfl

/-- A piece that has been read is told, unless nobody listens. -/
theorem after_calls {n : ℕ} (calls : o.calls = tell task (progress (dataRead + 1) n)) :
    (o.after task (.setProgress (dataRead + 1))).calls = tell task (progress dataRead (n + 1)) := by
  rw [progress_succ, ← List.singleton_append, tell_append, ← calls]
  rfl

/-! ### All of a file is hashed -/

/-- Unless it is stopped, the loop feeds the hash with all that it reads, piece by piece. -/
theorem hashLoop_spec (task : AssociatedTask) (reads dataRead : ℕ) (s : Seq UInt8) (hash : Hash) :
    Stopped task (hashLoop task reads dataRead s hash).calls ∨
      (hashLoop task reads dataRead s hash).value =
          some (hash.update (pieces mebibyte reads s).flatten) ∧
        (hashLoop task reads dataRead s hash).calls =
          tell task (progress dataRead (pieces mebibyte reads s).length) := by
  induction reads generalizing dataRead s hash with
  | zero => exact .inr ⟨congrArg some hash.update_nil.symm, by simp [hashLoop, pieces, progress, tell]⟩
  | succ reads ih =>
    rw [hashLoop, pieces]
    split_ifs with ended stop
    · exact .inr ⟨congrArg some hash.update_nil.symm, by simp [progress, tell]⟩
    · exact .inl (stopped_of_any stop)
    · obtain stopped | ⟨value, calls⟩ := ih (dataRead + 1) (s.drop mebibyte)
        (hash.update (s.take mebibyte))
      · exact .inl stopped.after
      · refine .inr ⟨?_, after_calls calls⟩
        rw [List.flatten_cons, ← Hash.update_update]
        exact value

/-- The size in MiB, and one more, are enough reads. -/
theorem length_le_reads (n : ℕ) : n ≤ (n / mebibyte + 1) * mebibyte := by
  rw [Nat.mul_comm]
  exact (Nat.lt_mul_div_succ n mebibyte_pos).le

/-- The number of pieces of a file of `n` bytes. -/
def pieceCount (n : ℕ) : ℕ := (n + mebibyte - 1) / mebibyte

/-- What `get_file_hash` tells its task about a file of `n` bytes. -/
def hashCalls (n : ℕ) : List Call :=
  [.unit "MB", .size (n / mebibyte)] ++ progress 0 (pieceCount n) ++ [.finish]

variable {hexdigest : String → Str → List Char}

theorem getFileHash_spec (content : Str) (hashName : String) (task : AssociatedTask) :
    Stopped task (getFileHash hexdigest (some content) hashName task).calls ∨
      (getFileHash hexdigest (some content) hashName task).value =
          some (hexdigest hashName content) ∧
        (getFileHash hexdigest (some content) hashName task).calls =
          tell task (hashCalls content.length) := by
  have enough := length_le_reads content.length
  obtain stopped | ⟨value, calls⟩ :=
    hashLoop_spec task (content.length / mebibyte + 1) 0 (Seq.ofList content) {}
  · refine .inl (stopped.mono ?_)
    simp only [getFileHash]
    split
    · exact List.subset_append_right _ _
    · exact List.subset_append_of_subset_left _ (List.subset_append_right _ _)
  · rw [flatten_pieces mebibyte_pos, take_ofList, List.take_of_length_le enough] at value
    rw [length_pieces mebibyte_pos content enough] at calls
    refine .inr ⟨?_, ?_⟩
    · simp only [getFileHash, value]
      rfl
    · simp only [getFileHash, value, calls, hashCalls, tell_append, pieceCount]

/-- Unless its task is cancelled, `get_file_hash` hashes all bytes of the file in order. -/
theorem get_file_hash_reads_all (hexdigest : String → Str → List Char) (content : Str)
    (hashName : String) (task : AssociatedTask) :
    Stopped task (getFileHash hexdigest (some content) hashName task).calls ∨
      (getFileHash hexdigest (some content) hashName task).value =
        some (hexdigest hashName content) :=
  (getFileHash_spec content hashName task).imp_right And.left

/-! ### What is copied -/

/-- Unless it is stopped, the loop copies as many MiB as the size has bytes, or one. -/
theorem copyLoop_spec (task : AssociatedTask) (fileSize dataRead : ℕ) (s : Seq UInt8) (target : Str) :
    Stopped task (copyLoop task fileSize dataRead s target).calls ∨
      (copyLoop task fileSize dataRead s target).value =
          ⟨target ++ (pieces mebibyte (max 1 (fileSize - dataRead)) s).flatten, false⟩ ∧
        (copyLoop task fileSize dataRead s target).calls =
          tell task (progress dataRead
            (pieces mebibyte (max 1 (fileSize - dataRead)) s).length) := by
  fun_induction copyLoop task fileSize dataRead s target with
  | case1 dataRead s target data ended =>
    obtain ⟨reads, eq⟩ : ∃ reads, max 1 (fileSize - dataRead) = reads + 1 :=
      ⟨max 1 (fileSize - dataRead) - 1, by omega⟩
    rw [eq, pieces, if_pos ended]
    exact .inr ⟨by simp, by simp [progress, tell]⟩
  | case2 dataRead s target data more stop => exact .inl (stopped_of_any stop)
  | case3 dataRead s target data more go last =>
    have one : max 1 (fileSize - dataRead) = 1 := by omega
    rw [one, pieces, if_neg more, pieces]
    exact .inr ⟨by simp [data], rfl⟩
  | case4 dataRead s target data more go early ih =>
    have next : max 1 (fileSize - dataRead) = max 1 (fileSize - (dataRead + 1)) + 1 := by omega
    rw [next, pieces, if_neg more]
    obtain stopped | ⟨value, calls⟩ := ih
    · exact .inl stopped.after
    · refine .inr ⟨?_, after_calls calls⟩
      rw [List.flatten_cons, ← List.append_assoc]
      exact value

/-- What `copy_file` tells its task about a source that fits its size. -/
def copyCalls (fileSize n : ℕ) : List Call :=
  [.size (fileSize / mebibyte), .unit "MB"] ++ progress 0 n ++ [.finish]

theorem copyFile_spec (source : Source) (task : AssociatedTask) :
    Stopped task (copyFile source task).calls ∨
      (copyFile source task).value =
          ⟨source.bytes.take (max 1 source.fileSize * mebibyte), false⟩ ∧
        (copyFile source task).calls = tell task (copyCalls source.fileSize
          (pieces mebibyte (max 1 source.fileSize) source.bytes).length) := by
  obtain stopped | ⟨value, calls⟩ := copyLoop_spec task source.fileSize 0 source.bytes []
  · refine .inl (stopped.mono ?_)
    simp only [copyFile]
    split_ifs
    · exact List.subset_append_right _ _
    · exact List.subset_append_of_subset_left _ (List.subset_append_right _ _)
  · rw [Nat.sub_zero, flatten_pieces mebibyte_pos, List.nil_append] at value
    rw [Nat.sub_zero] at calls
    refine .inr ⟨value, ?_⟩
    simp only [copyFile, value, calls, copyCalls, tell_append, Bool.false_eq_true, if_false]

/-- Unless its task is cancelled, `copy_file` copies exactly as many bytes as the source has by its
size. -/
def CopiesMedium (source : Source) : Prop :=
  ∀ task, Stopped task (copyFile source task).calls ∨
    (copyFile source task).value.target = source.bytes.take source.fileSize

/-- Without a task nothing stops the copy. -/
theorem not_stopped_none (calls : List Call) : ¬ Stopped none calls := by
  rintro ⟨answer, ⟨⟩, -⟩

theorem fileSize_lt (source : Source) : source.fileSize < max 1 source.fileSize * mebibyte := by
  have pos : 1 < mebibyte := by decide
  have := Nat.mul_le_mul_left (max 1 source.fileSize) pos
  omega

theorem CopiesMedium.ended {source : Source} (copies : CopiesMedium source) :
    source.bytes.get? source.fileSize = none := by
  rw [← take_eq_take_iff (fileSize_lt source)]
  have target := (copies none).resolve_left (not_stopped_none _)
  rw [((copyFile_spec source none).resolve_left (not_stopped_none _)).1] at target
  exact target

theorem CopiesMedium.of_ended {source : Source} (ended : source.bytes.get? source.fileSize = none) :
    CopiesMedium source := by
  rw [← take_eq_take_iff (fileSize_lt source)] at ended
  intro task
  refine (copyFile_spec source task).imp_right fun ⟨value, _⟩ => ?_
  rw [value]
  exact ended

/-- All of a regular file is copied. -/
theorem CopiesMedium.file (content : Str) : CopiesMedium (.file content) := by
  apply CopiesMedium.of_ended
  rw [Source.bytes, Seq.ofList_get?]
  exact List.getElem?_eq_none le_rfl

/-- A medium is copied exactly if nothing can be read behind its end. -/
theorem copies_medium_iff (source : Source) :
    CopiesMedium source ↔ source.bytes.get? source.fileSize = none :=
  ⟨CopiesMedium.ended, CopiesMedium.of_ended⟩

/-- A CD of 700 MiB with a sector behind its file system. -/
def paddedDisc : Source :=
  .drive (700 * mebibyte) (Seq.ofList (List.replicate (700 * mebibyte + 2048) 0))

theorem not_copies_medium : ¬ ∀ source, CopiesMedium source := by
  intro copies
  have ended := (copies paddedDisc).ended
  rw [paddedDisc, Source.bytes, Source.fileSize, Seq.ofList_get?, List.getElem?_replicate,
    if_pos (by omega)] at ended
  cases ended

end Ydfs.Wubi.Utils
