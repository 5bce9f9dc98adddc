import Mathlib.Algebra.Group.Nat.Defs
import Ydfs.Files.Disk

/-!
# The two passes of the unpacker

Once the archive is open, `unpack` goes down the list of its entries to make the directories, and up the
list to write the files.  The first pass counts an unsigned index down while it is above 0, so that it
never looks at entry 0; for an archive without entries it begins at `2 ^ 32 - 1`.
-/

namespace Ydfs.Pylauncher.Extract

open FileDisk

variable {ν : Type}

abbrev Bytes := List UInt8

/-! ### The model of the source -/

/-- An entry of the archive, with what its part of a block decodes to. -/
structure FileItem (ν : Type) where
  name : List ν
  isDirectory : Bool
  data : Bytes
deriving DecidableEq

/-- The entries of an archive.  The directory of an entry is an entry too. -/
structure Database (ν : Type) where
  files : List (FileItem ν)
  numFiles : files.length < 2 ^ 32
  closed : ∀ f ∈ files, ∀ p, p ≠ [] → p <+: f.name → p ≠ f.name →
    ∃ d ∈ files, d.isDirectory = true ∧ d.name = p

/-- How the calls end that the system or the decoder could refuse: those for an entry by its index,
the writes by the number of bytes that are written. -/
structure Calls where
  openFileR : Bool
  szArchiveOpen : Bool
  createDirectory : ℕ → Bool
  szExtract : ℕ → Bool
  openFileW : ℕ → Bool
  writeFile : ℕ → ℕ
  closeFile : ℕ → Bool

/-- The index at which the first pass begins. -/
def firstIndex (db : Database ν) : UInt32 := UInt32.ofNat db.files.length - 1

variable [DecidableEq ν]

/-- The first pass from an index down to 1.  An index outside of the database is not defined. -/
def directoryPass (calls : Calls) (db : Database ν) : ℕ → Disk ν Bytes → Option (Disk ν Bytes)
  | 0, disk => some disk
  | i + 1, disk =>
    match db.files[i + 1]? with
    | none => none
    | some f =>
      if !f.isDirectory then directoryPass calls db i disk
      -- the message for a directory that cannot be made changes nothing
      else directoryPass calls db i
        (if calls.createDirectory (i + 1) then make f.name disk else disk)

/-- The second pass from an index up: whether all went well, and the disk. -/
def filePass (calls : Calls) (db : Database ν) (i : ℕ) (disk : Disk ν Bytes) :
    Option (Bool × Disk ν Bytes) :=
  if i < db.files.length then
    match db.files[i]? with
    | none => none
    | some f =>
      if f.isDirectory then filePass calls db (i + 1) disk
      else if !calls.szExtract i then some (false, disk)
      else
        match if calls.openFileW i then openFile f.name disk else none with
        | none => some (false, disk)
        | some disk =>
          let processedSize := min (calls.writeFile i) f.data.length
          let disk := put f.name (f.data.take processedSize) disk
          if processedSize ≠ f.data.length then some (false, disk)
          else if !calls.closeFile i then some (false, disk)
          else filePass calls db (i + 1) disk
  else some (true, disk)
termination_by db.files.length - i

/-- `unpack`: what it returns, and the disk. -/
def unpack (calls : Calls) (db : Database ν) (disk : Disk ν Bytes) : Option (ℕ × Disk ν Bytes) :=
  if !calls.openFileR || !calls.szArchiveOpen then some (1, disk)
  else do
    let disk ← directoryPass calls db (firstIndex db).toNat disk
    let (ok, disk) ← filePass calls db 0 disk
    return (if ok then 0 else 1, disk)

/-! ### What it is for -/

/-- Every call does what it is asked for. -/
structure Calls.Succeed (calls : Calls) (db : Database ν) : Prop where
  openFileR : calls.openFileR = true
  szArchiveOpen : calls.szArchiveOpen = true
  createDirectory : ∀ i, calls.createDirectory i = true
  szExtract : ∀ i, calls.szExtract i = true
  openFileW : ∀ i, calls.openFileW i = true
  writeFile : ∀ i, ∀ f ∈ db.files[i]?, f.data.length ≤ calls.writeFile i
  closeFile : ∀ i, calls.closeFile i = true

/-- What should be there for an entry. -/
def FileItem.node (f : FileItem ν) : Node Bytes := if f.isDirectory then .directory else .file f.data

/-- In an empty directory `unpack` succeeds, with no index outside of the database, and all entries
are there. -/
def ExtractsAll (db : Database ν) : Prop :=
  ∀ calls : Calls, calls.Succeed db → ∃ disk, unpack calls db empty = some (0, disk) ∧
    ∀ f ∈ db.files, disk f.name = some f.node

/-- The directories among the entries, the last one first. -/
def directories (files : List (FileItem ν)) : List (List ν) :=
  ((files.filter FileItem.isDirectory).map FileItem.name).reverse

/-- There is an entry; for each directory there are entries for it and for those above it that stand
in this order from the last one down, without the first one; and no name stands for two things. -/
structure Extractable (db : Database ν) : Prop where
  some_ : db.files ≠ []
  ordered : ∀ d ∈ db.files, d.isDirectory = true → (way d.name).Sublist (directories db.files.tail)
  apart : ∀ f ∈ db.files, f.isDirectory = false →
    f.name ≠ [] ∧ ∀ g ∈ db.files, g.name = f.name → g.node = f.node

variable {calls : Calls} {db : Database ν} {disk disk' : Disk ν Bytes} {f : FileItem ν} {i : ℕ}

/-! ### The first pass -/

omit [DecidableEq ν] in
theorem firstIndex_of_nil (none : db.files = []) : (firstIndex db).toNat = 2 ^ 32 - 1 := by
  rw [firstIndex, none]
  rfl

omit [DecidableEq ν] in
theorem firstIndex_of_ne_nil (some_ : db.files ≠ []) :
    (firstIndex db).toNat = db.files.length - 1 := by
  have pos := List.length_pos_iff.2 some_
  have small := db.numFiles
  have le : (1 : UInt32) ≤ UInt32.ofNat db.files.length := by
    rw [UInt32.le_iff_toNat_le, UInt32.toNat_ofNat_of_lt' small]
    exact pos
  rw [firstIndex, UInt32.toNat_sub_of_le _ _ le, UInt32.toNat_ofNat_of_lt' small]
  rfl

/-- Without entries the first pass looks behind the end of the database. -/
theorem directoryPass_of_nil (none : db.files = []) (disk : Disk ν Bytes) :
    directoryPass calls db (firstIndex db).toNat disk = Option.none := by
  rw [firstIndex_of_nil none]
  simp only [Nat.reducePow, Nat.add_one_sub_one]
  rw [directoryPass.eq_def]
  simp [none]

omit [DecidableEq ν] in
theorem directories_concat (files : List (FileItem ν)) (f : FileItem ν) :
    directories (files ++ [f]) = (if f.isDirectory then [f.name] else []) ++ directories files := by
  rw [directories, List.filter_append, List.map_append, List.reverse_append]
  cases is : f.isDirectory <;> simp [is, directories]

/-- The first pass makes the directories that it sees. -/
theorem directoryPass_eq (succeed : ∀ i, calls.createDirectory i = true) (h : i < db.files.length)
    (disk : Disk ν Bytes) :
    directoryPass calls db i disk =
      some (makeAll (directories (db.files.take (i + 1)).tail) disk) := by
  induction i generalizing disk with
  | zero =>
    have one : (db.files.take 1).tail = [] := by cases db.files <;> rfl
    rw [directoryPass, one]
    rfl
  | succ i ih =>
    obtain ⟨f, is⟩ : ∃ f, db.files[i + 1]? = some f := ⟨_, List.getElem?_eq_getElem h⟩
    have some_ : db.files.take (i + 1) ≠ [] := by
      rw [Ne, List.take_eq_nil_iff]
      rintro (zero | none)
      · cases zero
      · rw [none] at h
        cases h
    have cut : (db.files.take (i + 2)).tail = (db.files.take (i + 1)).tail ++ [f] := by
      rw [List.take_add_one, is, Option.toList_some, List.tail_append_of_ne_nil some_]
    rw [directoryPass, is, cut, directories_concat]
    simp only [ih (Nat.lt_of_succ_lt h)]
    cases kind : f.isDirectory with
    | false => simp
    | true => simp [succeed, makeAll]

/-! ### The second pass -/

/-- A file that has been opened and written makes no directory and takes the place of none. -/
theorem isDirectory_written (ok : Bool) {name : List ν} {content : Bytes}
    (h : (if ok then openFile name disk else none) = some disk') (p : List ν) :
    isDirectory (put name content disk') p = isDirectory disk p := by
  split_ifs at h
  obtain ⟨free, rfl⟩ := openFile_eq_some h
  have still : isDirectory (put name ∅ disk) name = false := by rw [isDirectory_put free, free]
  rw [isDirectory_put still, isDirectory_put free]

theorem isDirectory_filePass {ok : Bool} (h : filePass calls db i disk = some (ok, disk'))
    (p : List ν) : isDirectory disk' p = isDirectory disk p := by
  fun_induction filePass calls db i disk with
  | case1 => cases h
  | case2 i disk _ f _ _ ih => exact ih h
  | case3 | case4 | case8 => cases h; rfl
  | case5 i disk _ f _ _ _ opened found | case6 i disk _ f _ _ _ opened found =>
    rw [← (Prod.mk.inj (Option.some.inj h)).2]
    exact isDirectory_written _ found p
  | case7 i disk _ f _ _ _ opened found _ _ _ _ ih =>
    rw [ih h]
    exact isDirectory_written _ found p

/-- The path of the root or of an entry that is a directory. -/
def Named (db : Database ν) (p : List ν) : Prop :=
  p = [] ∨ ∃ d ∈ db.files, d.isDirectory = true ∧ d.name = p

/-- The directories of the database are there, and the files of its first `i` entries. -/
structure Written (db : Database ν) (i : ℕ) (disk : Disk ν Bytes) : Prop where
  directories : ∀ p, isDirectory disk p = true ↔ Named db p
  files : ∀ f ∈ db.files.take i, f.isDirectory = false → disk f.name = some (.file f.data)

omit [DecidableEq ν] in
/-- The directory of an entry is one of the database. -/
theorem named_dropLast (mem : f ∈ db.files) (some_ : f.name ≠ []) : Named db f.name.dropLast := by
  by_cases root : f.name.dropLast = []
  · exact .inl root
  · refine .inr (db.closed f mem _ root (List.dropLast_prefix _) fun same => ?_)
    have length := congrArg List.length same
    have pos := List.length_pos_iff.2 some_
    rw [List.length_dropLast] at length
    omega

/-- A file can be opened: its directory is there, and nothing else has its name. -/
theorem Written.openFile (written : Written db i disk) (extractable : Extractable db)
    (mem : f ∈ db.files) (kind : f.isDirectory = false) :
    openFile f.name disk = some (put f.name ∅ disk) := by
  obtain ⟨some_, apart⟩ := extractable.apart f mem kind
  have parent := (written.directories _).2 (named_dropLast mem some_)
  have free : isDirectory disk f.name = false := by
    rw [← Bool.not_eq_true, written.directories]
    rintro (root | ⟨d, memD, dir, same⟩)
    · exact some_ root
    · have node := apart d memD same
      rw [FileItem.node, FileItem.node, dir, kind] at node
      cases node
  rw [FileDisk.openFile, if_pos ⟨free, parent⟩]

omit [DecidableEq ν] in
theorem Written.directory (written : Written db i disk) (is : db.files[i]? = some f)
    (kind : f.isDirectory = true) : Written db (i + 1) disk := by
  refine ⟨written.directories, fun g mem file => ?_⟩
  rw [List.take_add_one, is, Option.toList_some, List.mem_append, List.mem_singleton] at mem
  rcases mem with mem | rfl
  · exact written.files g mem file
  · rw [kind] at file
    cases file

theorem Written.file (written : Written db i disk) (extractable : Extractable db)
    (is : db.files[i]? = some f) (kind : f.isDirectory = false) :
    Written db (i + 1) (put f.name f.data (put f.name ∅ disk)) := by
  have mem : f ∈ db.files := List.mem_of_getElem? is
  have kept (p : List ν) : isDirectory (put f.name f.data (put f.name ∅ disk)) p =
      isDirectory disk p :=
    isDirectory_written true (written.openFile extractable mem kind) p
  constructor
  · intro p
    rw [kept, written.directories]
  · intro g memG file
    by_cases same : g.name = f.name
    · have node := (extractable.apart f mem kind).2 g (List.mem_of_mem_take memG) same
      rw [FileItem.node, FileItem.node, file, kind] at node
      rw [same, put_self]
      simpa using node.symm
    · rw [put_of_ne same, put_of_ne same]
      rw [List.take_add_one, is, Option.toList_some, List.mem_append, List.mem_singleton] at memG
      rcases memG with memG | rfl
      · exact written.files g memG file
      · exact absurd rfl same

/-- If all calls succeed, all entries are written. -/
theorem filePass_eq (succeed : calls.Succeed db) (extractable : Extractable db)
    (written : Written db i disk) :
    ∃ disk', filePass calls db i disk = some (true, disk') ∧
      Written db db.files.length disk' := by
  fun_induction filePass calls db i disk with
  | case1 i disk more none => exact absurd (List.getElem?_eq_none_iff.1 none) (by omega)
  | case2 i disk _ f is kind ih => exact ih (written.directory is kind)
  | case3 i disk _ f is kind refused => simp [succeed.szExtract] at refused
  | case4 i disk _ f is kind _ none =>
    rw [dif_pos (succeed.openFileW i), written.openFile extractable (List.mem_of_getElem? is)
      (by simpa using kind)] at none
    cases none
  | case5 i disk _ f is kind _ opened found size written short =>
    exact absurd (Nat.min_eq_right (succeed.writeFile i f is)) short
  | case6 i disk _ f is kind _ opened found _ _ full refused => simp [succeed.closeFile] at refused
  | case7 i disk _ f is kind _ opened found size next full _ ih =>
    have file : f.isDirectory = false := by simpa using kind
    rw [dif_pos (succeed.openFileW i),
      written.openFile extractable (List.mem_of_getElem? is) file] at found
    have all : f.data.take size = f.data := List.take_of_length_le (not_not.1 full).ge
    refine ih ?_
    show Written db (i + 1) (put f.name (f.data.take size) opened)
    rw [← Option.some.inj found, all]
    exact written.file extractable is file
  | case8 i disk done =>
    refine ⟨disk, rfl, written.directories, fun f mem file => written.files f ?_ file⟩
    rwa [List.take_of_length_le (not_lt.1 done), ← List.take_length (l := db.files)]

/-! ### Both passes -/

omit [DecidableEq ν] in
theorem Written.all (written : Written db db.files.length disk) (mem : f ∈ db.files) :
    disk f.name = some f.node := by
  rw [FileItem.node]
  cases kind : f.isDirectory with
  | true => exact isDirectory_iff.1 ((written.directories _).2 (.inr ⟨f, mem, kind, rfl⟩))
  | false => exact written.files f (by rwa [List.take_length]) kind

/-- The first pass over a database with entries. -/
theorem directoryPass_eq_makeAll (succeed : ∀ i, calls.createDirectory i = true)
    (some_ : db.files ≠ []) (disk : Disk ν Bytes) :
    directoryPass calls db (firstIndex db).toNat disk =
      some (makeAll (directories db.files.tail) disk) := by
  have pos := List.length_pos_iff.2 some_
  have all : db.files.take (db.files.length - 1 + 1) = db.files :=
    List.take_of_length_le (by omega)
  rw [firstIndex_of_ne_nil some_, directoryPass_eq succeed (by omega), all]

omit [DecidableEq ν] in
theorem mem_directories {files : List (FileItem ν)} {p : List ν} (mem : p ∈ directories files) :
    ∃ d ∈ files, d.isDirectory = true ∧ d.name = p := by
  simpa [directories, and_assoc] using mem

/-- The first pass makes all directories. -/
theorem Extractable.written (extractable : Extractable db) :
    Written db 0 (makeAll (directories db.files.tail) empty) := by
  refine ⟨fun p => ?_, by simp⟩
  rw [isDirectory_makeAll]
  constructor
  · intro ordered
    rcases List.eq_nil_or_concat' p with rfl | ⟨q, a, rfl⟩
    · exact .inl rfl
    · have last : q ++ [a] ∈ way (q ++ [a]) := by simp [way_concat]
      obtain ⟨d, mem, named⟩ := mem_directories (ordered.subset last)
      exact .inr ⟨d, List.mem_of_mem_tail mem, named⟩
  · rintro (rfl | ⟨d, mem, dir, rfl⟩)
    · exact List.nil_sublist _
    · exact extractable.ordered d mem dir

theorem Extractable.extracts (extractable : Extractable db) : ExtractsAll db := by
  intro calls succeed
  obtain ⟨disk, extracted, written⟩ := filePass_eq succeed extractable extractable.written
  refine ⟨disk, ?_, fun f mem => written.all mem⟩
  rw [unpack, succeed.openFileR, succeed.szArchiveOpen,
    directoryPass_eq_makeAll succeed.createDirectory extractable.some_]
  simp [extracted]

/-- A system and a decoder that do all that they are asked for. -/
def obliging (db : Database ν) : Calls where
  openFileR := true
  szArchiveOpen := true
  createDirectory _ := true
  szExtract _ := true
  openFileW _ := true
  writeFile i := (db.files[i]?.map fun f => f.data.length).getD 0
  closeFile _ := true

omit [DecidableEq ν] in
theorem obliging_succeed (db : Database ν) : (obliging db).Succeed db where
  openFileR := rfl
  szArchiveOpen := rfl
  createDirectory _ := rfl
  szExtract _ := rfl
  openFileW _ := rfl
  writeFile i f is := by
    rw [Option.mem_def] at is
    simp [obliging, is]
  closeFile _ := rfl

/-- What the passes have done if `unpack` has succeeded. -/
theorem passes_of_unpack (h : unpack calls db disk = some (0, disk')) :
    ∃ made, directoryPass calls db (firstIndex db).toNat disk = some made ∧
      filePass calls db 0 made = some (true, disk') := by
  rw [unpack] at h
  split_ifs at h
  · cases h
  cases first : directoryPass calls db (firstIndex db).toNat disk with
  | none => simp [first] at h
  | some made =>
    rw [first] at h
    cases second : filePass calls db 0 made with
    | none => simp [second] at h
    | some result =>
      obtain ⟨ok, written⟩ := result
      cases ok with
      | false => simp [second] at h
      | true =>
        have same : written = disk' := by simpa [second] using h
        exact ⟨made, rfl, by rw [← same, second]⟩

theorem ExtractsAll.extractable (extracts : ExtractsAll db) : Extractable db := by
  obtain ⟨disk, unpacked, all⟩ := extracts (obliging db) (obliging_succeed db)
  obtain ⟨made, first, second⟩ := passes_of_unpack unpacked
  have some_ : db.files ≠ [] := by
    intro none
    rw [directoryPass_of_nil none] at first
    cases first
  have still := isDirectory_filePass second
  rw [directoryPass_eq_makeAll (fun _ => rfl) some_] at first
  obtain rfl := Option.some.inj first
  refine ⟨some_, fun d mem dir => ?_, fun f mem file => ⟨fun root => ?_, fun g memG same => ?_⟩⟩
  · have there := all d mem
    rw [FileItem.node, dir, if_pos rfl, ← isDirectory_iff, still, isDirectory_makeAll] at there
    exact there
  · have there := all f mem
    have kept : isDirectory disk [] = true := by
      rw [still, isDirectory_makeAll]
      exact List.nil_sublist _
    rw [root, isDirectory_iff.1 kept, FileItem.node, file] at there
    cases there
  · have there := all g memG
    rw [same, all f mem] at there
    exact (Option.some.inj there).symm

/-- `unpack` extracts all exactly if the archive has entries, the directories stand in its list in the
order in which they can be made, and none is entry 0. -/
theorem unpack_extracts_all_iff (db : Database ν) : ExtractsAll db ↔ Extractable db :=
  ⟨ExtractsAll.extractable, Extractable.extracts⟩

/-- An archive without entries. -/
def emptyDatabase : Database String := ⟨[], by decide, by simp⟩

/-- The first pass reads behind the end of the empty list. -/
theorem not_unpack_extracts_all : ¬ ∀ db : Database String, ExtractsAll db := by
  intro extracts
  exact (extracts emptyDatabase).extractable.some_ rfl

end Ydfs.Pylauncher.Extract
