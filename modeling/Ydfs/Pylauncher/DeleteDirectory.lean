import Mathlib.Data.List.Basic

/-!
# Deleting a directory

`_delete_directory` goes through what `FindFirstFile` and `FindNextFile` return, deletes files, calls
itself for directories, and removes the directory last.  The links `.` and `..` are passed over by the
first character of a name, and so is every other name that begins with a dot: the entry stays, and the
directory that holds it cannot be removed.
-/

namespace Ydfs.Pylauncher.DeleteDirectory

/-- The name of a file or a directory, none of the links to a directory and the one above it. -/
structure Name where
  chars : List Char
  proper : chars ≠ [] ∧ chars ≠ ['.'] ∧ chars ≠ ['.', '.']
deriving DecidableEq

/-- What is in a directory, in the order in which it is found. -/
inductive Entries where
  | nil
  | file (name : Name) (rest : Entries)
  | directory (name : Name) (inner : Entries) (rest : Entries)
deriving DecidableEq

/-- The names at any depth. -/
def Entries.names : Entries → List Name
  | nil => []
  | file name rest => name :: rest.names
  | directory name inner rest => name :: (inner.names ++ rest.names)

/-! ### The model of the source -/

/-- What `GetLastError` returns after a call that has failed. -/
structure ErrorCode where
  code : ℕ
  ne_zero : code ≠ 0
deriving DecidableEq

def errorNoMoreFiles : ErrorCode := ⟨18, by decide⟩

def errorDirNotEmpty : ErrorCode := ⟨145, by decide⟩

abbrev Path := List Name

/-- How the calls of Windows end, for each path; `none` is success.  A directory with something in it
is removed by none. -/
structure Calls where
  getFullPathName : Bool
  findFirstFile : Path → Bool
  findNextFile : Path → ErrorCode
  setFileAttributes : Path → Option ErrorCode
  deleteFile : Path → Option ErrorCode
  removeDirectory : Path → Option ErrorCode

/-- `cFileName[0] != '.'` does not hold. -/
def passedOver (cFileName : List Char) : Bool := cFileName.head? = some '.'

/-- What comes after the loop over a directory, which has returned an error or left something: the
error and what is left, which is nothing when the directory has been removed. -/
def finish (calls : Calls) (path : Path) :
    Option ErrorCode × Entries → Option ErrorCode × Option Entries
  | (some error, left) => (some error, some left)
  | (none, left) =>
    let dwError := calls.findNextFile path
    if dwError ≠ errorNoMoreFiles then (some dwError, some left)
    else
      match calls.setFileAttributes path with
      | some error => (some error, some left)
      | none =>
        match if left = .nil then calls.removeDirectory path else some errorDirNotEmpty with
        | some error => (some error, some left)
        | none => (none, none)

/-- `_delete_directory` around its loop; a directory that cannot be opened is left as it is. -/
def around (calls : Calls) (path : Path) (entries : Entries) (loop : Option ErrorCode × Entries) :
    Option ErrorCode × Option Entries :=
  if calls.findFirstFile path then finish calls path loop else (none, some entries)

/-- The loop of `_delete_directory`: the error with which it returns, and what is left. -/
def scan (calls : Calls) (path : Path) : Entries → Option ErrorCode × Entries
  | .nil => (none, .nil)
  | .file name rest =>
    if passedOver name.chars then
      let result := scan calls path rest
      (result.1, .file name result.2)
    else
      let filePath := path ++ [name]
      let deleted := calls.deleteFile filePath
      -- the error of `DeleteFile` is written over that of `SetFileAttributes`
      match deleted <|> calls.setFileAttributes filePath with
      | some error => (some error, if deleted.isNone then rest else .file name rest)
      | none => scan calls path rest
  | .directory name inner rest =>
    if passedOver name.chars then
      let result := scan calls path rest
      (result.1, .directory name inner result.2)
    else
      let filePath := path ++ [name]
      match around calls filePath inner (scan calls filePath inner) with
      | (some error, some left) => (some error, .directory name left rest)
      | (some error, none) => (some error, rest)
      | (none, some left) =>
        let result := scan calls path rest
        (result.1, .directory name left result.2)
      | (none, none) => scan calls path rest

/-- `_delete_directory` -/
def deleteDirectoryAt (calls : Calls) (path : Path) (entries : Entries) :
    Option ErrorCode × Option Entries :=
  around calls path entries (scan calls path entries)

/-- `delete_directory`: the error, and what is left. -/
def deleteDirectory (calls : Calls) (entries : Entries) : Option ErrorCode × Option Entries :=
  if calls.getFullPathName then deleteDirectoryAt calls [] entries
  else (some ⟨1, by decide⟩, some entries)

/-! ### What it is for -/

/-- All files and all empty directories can be deleted. -/
structure Calls.Succeed (calls : Calls) : Prop where
  getFullPathName : calls.getFullPathName = true
  findFirstFile : ∀ path, calls.findFirstFile path = true
  findNextFile : ∀ path, calls.findNextFile path = errorNoMoreFiles
  setFileAttributes : ∀ path, calls.setFileAttributes path = none
  deleteFile : ∀ path, calls.deleteFile path = none
  removeDirectory : ∀ path, calls.removeDirectory path = none

/-- `delete_directory` succeeds, and nothing is left. -/
def RemovesTree (entries : Entries) : Prop :=
  ∀ calls : Calls, calls.Succeed → deleteDirectory calls entries = (none, none)

/-- No entry at any depth has a name that begins with a dot. -/
def Undotted (entries : Entries) : Prop := ∀ name ∈ entries.names, passedOver name.chars = false

variable {calls : Calls} {path : Path} {entries inner rest : Entries} {name : Name}
  {loop : Option ErrorCode × Entries}

theorem undotted_nil : Undotted .nil := nofun

theorem undotted_file :
    Undotted (.file name rest) ↔ passedOver name.chars = false ∧ Undotted rest :=
  List.forall_mem_cons

theorem undotted_directory :
    Undotted (.directory name inner rest) ↔
      passedOver name.chars = false ∧ Undotted inner ∧ Undotted rest := by
  rw [Undotted, Entries.names, List.forall_mem_cons, List.forall_mem_append]
  rfl

/-- The links are passed over. -/
example : passedOver ['.'] = true ∧ passedOver ['.', '.'] = true := by decide

/-! ### The loop -/

/-- A directory is removed if its loop has left nothing in it; else there is an error. -/
theorem around_eq (succeed : calls.Succeed) (path : Path) (entries : Entries)
    (loop : Option ErrorCode × Entries) :
    around calls path entries loop =
      if loop = (none, .nil) then (none, none)
      else (some (loop.1.getD errorDirNotEmpty), some loop.2) := by
  obtain ⟨result, left⟩ := loop
  rw [around, if_pos (succeed.findFirstFile path)]
  cases result with
  | some error => simp [finish]
  | none =>
    by_cases clear : left = .nil
    · simp [finish, succeed.findNextFile, succeed.setFileAttributes, succeed.removeDirectory, clear]
    · simp [finish, succeed.findNextFile, succeed.setFileAttributes, clear]

/-- The loop leaves nothing exactly if it passes over nothing, at any depth. -/
theorem scan_eq_iff (succeed : calls.Succeed) (path : Path) (entries : Entries) :
    scan calls path entries = (none, .nil) ↔ Undotted entries := by
  induction entries generalizing path with
  | nil => simp [scan, undotted_nil]
  | file name rest ih =>
    rw [undotted_file, scan]
    by_cases dot : passedOver name.chars = true
    · simp [dot]
    · simp [dot, succeed.deleteFile, succeed.setFileAttributes, ih]
  | directory name inner rest ihInner ihRest =>
    rw [undotted_directory, scan]
    by_cases dot : passedOver name.chars = true
    · simp [dot]
    · simp only [if_neg dot, around_eq succeed]
      by_cases clear : scan calls (path ++ [name]) inner = (none, .nil)
      · have undotted := (ihInner _).1 clear
        rw [if_pos clear]
        simp [dot, undotted, ihRest]
      · have dotted : ¬ Undotted inner := fun undotted => clear ((ihInner _).2 undotted)
        rw [if_neg clear]
        simp [dotted]

theorem deleteDirectory_eq_iff (succeed : calls.Succeed) (entries : Entries) :
    deleteDirectory calls entries = (none, none) ↔ Undotted entries := by
  rw [deleteDirectory, if_pos succeed.getFullPathName, deleteDirectoryAt, around_eq succeed,
    ← scan_eq_iff succeed []]
  split_ifs with clear
  · simp [clear]
  · simp [clear]

/-- Windows does as it is asked. -/
def obliging : Calls where
  getFullPathName := true
  findFirstFile _ := true
  findNextFile _ := errorNoMoreFiles
  setFileAttributes _ := none
  deleteFile _ := none
  removeDirectory _ := none

theorem obliging_succeed : obliging.Succeed :=
  ⟨rfl, fun _ => rfl, fun _ => rfl, fun _ => rfl, fun _ => rfl, fun _ => rfl⟩

/-- `delete_directory` removes a tree exactly if no name in it begins with a dot. -/
theorem delete_directory_removes_tree_iff (entries : Entries) :
    RemovesTree entries ↔ Undotted entries := by
  constructor
  · intro removes
    exact (deleteDirectory_eq_iff obliging_succeed entries).1 (removes obliging obliging_succeed)
  · intro undotted calls succeed
    exact (deleteDirectory_eq_iff succeed entries).2 undotted

/-- A directory with the file `.svn`. -/
def dotFile : Entries := .file ⟨['.', 's', 'v', 'n'], by decide⟩ .nil

/-- The file stays, and the directory cannot be removed. -/
theorem not_delete_directory_removes_tree : ¬ ∀ entries, RemovesTree entries := by
  intro removes
  have undotted := (deleteDirectory_eq_iff obliging_succeed dotFile).1
    (removes dotFile obliging obliging_succeed)
  exact absurd (undotted _ (List.mem_singleton_self _)) (by decide)

end Ydfs.Pylauncher.DeleteDirectory
