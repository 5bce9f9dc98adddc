import Mathlib.Data.List.Infix
import Mathlib.Logic.Function.Basic

/-!
# Directories and files on a disk

A disk says for every path what is there.  A directory can be made where nothing is, and a file can be
opened for writing where no directory is, if the parent is a directory (`mkdir`, `openFile`).  A list of
directories is made in order, one that cannot be made being passed over (`makeAll`): on an empty disk
there is a directory then if its path grows along the list (`isDirectory_makeAll`).
-/

namespace FileDisk

variable {ν κ : Type*}

/-- What is at a path. -/
inductive Node (κ : Type*) where
  | directory
  | file (content : κ)
deriving DecidableEq

/-- The contents of a disk, by the path from its root. -/
abbrev Disk (ν κ : Type*) := List ν → Option (Node κ)

/-- The path is that of a directory. -/
def isDirectory (disk : Disk ν κ) (p : List ν) : Bool :=
  match disk p with
  | some .directory => true
  | _ => false

theorem isDirectory_iff {disk : Disk ν κ} {p : List ν} :
    isDirectory disk p = true ↔ disk p = some .directory := by
  unfold isDirectory
  split
  · rename_i is
    simp [is]
  · rename_i other
    simpa using other

/-- A disk with nothing but the root. -/
def empty : Disk ν κ := fun p => if p.isEmpty then some .directory else none

theorem isDirectory_empty {p : List ν} : isDirectory (empty : Disk ν κ) p = true ↔ p = [] := by
  rw [isDirectory_iff, empty]
  cases p <;> simp

/-- There are no files. -/
def Bare (disk : Disk ν κ) : Prop := ∀ p content, disk p ≠ some (.file content)

theorem Bare.empty : Bare (empty : Disk ν κ) := by
  intro p content
  rw [FileDisk.empty]
  split_ifs <;> simp

/-- The directories on the way to a path, from the root down, with the path itself. -/
def way (p : List ν) : List (List ν) := p.inits.tail

theorem way_nil : way ([] : List ν) = [] := rfl

theorem way_concat (p : List ν) (a : ν) : way (p ++ [a]) = way p ++ [p ++ [a]] := by
  have some_ : p.inits ≠ [] := by
    intro none
    have length := List.length_inits p
    rw [none] at length
    cases length
  rw [way, List.inits_append, List.tail_append_of_ne_nil some_]
  simp [way]

/-- A list that ends in an element, in one that ends in another. -/
theorem concat_sublist_concat {α : Type*} {l m : List α} {a b : α} :
    (l ++ [a]).Sublist (m ++ [b]) ↔ (l ++ [a]).Sublist m ∨ a = b ∧ l.Sublist m := by
  rw [← List.reverse_sublist, ← @List.reverse_sublist _ (l ++ [a]) m, ← @List.reverse_sublist _ l m]
  simp only [List.reverse_append, List.reverse_singleton, List.singleton_append,
    List.sublist_cons_iff, List.cons_eq_cons]
  simp

variable [DecidableEq ν]

/-- Make a directory, if that can be done. -/
def mkdir (p : List ν) (disk : Disk ν κ) : Option (Disk ν κ) :=
  if (disk p).isNone ∧ isDirectory disk p.dropLast then
    some (Function.update disk p (some .directory))
  else none

/-- Put a content into a file. -/
def put (p : List ν) (content : κ) (disk : Disk ν κ) : Disk ν κ :=
  Function.update disk p (some (.file content))

/-- Make an empty file or empty one that is there, if that can be done. -/
def openFile [EmptyCollection κ] (p : List ν) (disk : Disk ν κ) : Option (Disk ν κ) :=
  if isDirectory disk p = false ∧ isDirectory disk p.dropLast then some (put p ∅ disk) else none

variable {disk disk' : Disk ν κ} {p q : List ν} {content : κ}

/-! ### Files -/

theorem put_self : put p content disk p = some (.file content) := Function.update_self ..

theorem put_of_ne (h : q ≠ p) : put p content disk q = disk q := Function.update_of_ne h ..

/-- A file takes the place of no directory and makes none. -/
theorem isDirectory_put (h : isDirectory disk p = false) (q : List ν) :
    isDirectory (put p content disk) q = isDirectory disk q := by
  by_cases same : q = p
  · rw [same, h, isDirectory, put_self]
  · rw [isDirectory, put_of_ne same]
    rfl

theorem openFile_eq_some [EmptyCollection κ] (h : openFile p disk = some disk') :
    isDirectory disk p = false ∧ disk' = put p ∅ disk := by
  rw [openFile] at h
  split_ifs at h with can
  exact ⟨can.1, (Option.some.inj h).symm⟩

/-! ### Directories -/

/-- Make a directory, or pass over it. -/
def make (p : List ν) (disk : Disk ν κ) : Disk ν κ := (mkdir p disk).getD disk

/-- Make directories in order. -/
def makeAll (ps : List (List ν)) (disk : Disk ν κ) : Disk ν κ := ps.foldl (fun d p => make p d) disk

theorem makeAll_concat (ps : List (List ν)) (disk : Disk ν κ) :
    makeAll (ps ++ [p]) disk = make p (makeAll ps disk) := List.foldl_concat ..

theorem make_eq_self_or (disk : Disk ν κ) (p : List ν) :
    make p disk = disk ∨ make p disk = Function.update disk p (some .directory) := by
  rw [make, mkdir]
  split_ifs
  · exact .inr rfl
  · exact .inl rfl

theorem Bare.make (bare : Bare disk) (p : List ν) : Bare (make p disk) := by
  intro q content
  rcases make_eq_self_or disk p with same | made
  · rw [same]
    exact bare q content
  · rw [made]
    by_cases here : q = p
    · rw [here, Function.update_self]
      exact nofun
    · rw [Function.update_of_ne here]
      exact bare q content

theorem Bare.makeAll (bare : Bare disk) (ps : List (List ν)) : Bare (makeAll ps disk) := by
  induction ps generalizing disk with
  | nil => exact bare
  | cons p ps ih => exact ih (bare.make p)

/-- One directory more, if its parent is there. -/
theorem isDirectory_make (bare : Bare disk) (p q : List ν) :
    isDirectory (make p disk) q = true ↔
      isDirectory disk q = true ∨ q = p ∧ isDirectory disk p.dropLast = true := by
  rw [make, mkdir]
  cases is : disk p with
  | none =>
    by_cases parent : isDirectory disk p.dropLast = true
    · rw [if_pos ⟨rfl, parent⟩, Option.getD_some, isDirectory_iff]
      by_cases here : q = p
      · simp [here, parent]
      · simp [here, isDirectory_iff]
    · simp [parent]
  | some node =>
    cases node with
    | file content => exact absurd is (bare p content)
    | directory =>
      have here : isDirectory disk p = true := isDirectory_iff.2 is
      simp only [Option.isNone_some, Bool.false_eq_true, false_and, if_false, Option.getD_none]
      constructor
      · exact .inl
      · rintro (h | ⟨rfl, -⟩)
        · exact h
        · exact here

/-- All directories on the way to a path are made if no file stands there. -/
theorem makeAll_way (root : isDirectory disk [] = true)
    (free : ∀ q, q <+: p → disk q = none ∨ disk q = some .directory) (q : List ν) :
    makeAll (way p) disk q = if q <+: p then some .directory else disk q := by
  induction p using List.reverseRecOn generalizing q with
  | nil =>
    rw [way_nil, makeAll, List.foldl_nil]
    split_ifs with here
    · rw [List.prefix_nil.1 here]
      exact isDirectory_iff.1 root
    · rfl
  | append_singleton p a ih =>
    have before := ih fun q hq => free q (hq.trans (List.prefix_append p [a]))
    have parent : makeAll (way p) disk p = some .directory := by
      rw [before, if_pos List.prefix_rfl]
    have here : makeAll (way p) disk (p ++ [a]) = disk (p ++ [a]) := by
      rw [before, if_neg]
      intro longer
      have length := longer.length_le
      rw [List.length_append, List.length_singleton] at length
      omega
    rw [way_concat, makeAll_concat, make, mkdir, here, List.dropLast_concat, isDirectory, parent]
    simp only [List.prefix_concat_iff]
    rcases free (p ++ [a]) List.prefix_rfl with none | directory
    · by_cases same : q = p ++ [a]
      · simp [none, same]
      · simp [none, same, before]
    · by_cases same : q = p ++ [a]
      · simp [directory, same, here]
      · simp [directory, same, before]

/-- On an empty disk a directory is there in the end if those on the way to it come in order. -/
theorem isDirectory_makeAll (ps : List (List ν)) (p : List ν) :
    isDirectory (makeAll ps (empty : Disk ν κ)) p = true ↔ (way p).Sublist ps := by
  induction ps using List.reverseRecOn generalizing p with
  | nil =>
    rw [makeAll, List.foldl_nil, isDirectory_empty, List.sublist_nil]
    rcases List.eq_nil_or_concat' p with rfl | ⟨p, a, rfl⟩
    · simp [way_nil]
    · simp [way_concat]
  | append_singleton ps q ih =>
    rw [makeAll_concat, isDirectory_make (Bare.empty.makeAll ps), ih, ih]
    rcases List.eq_nil_or_concat' p with rfl | ⟨p, a, rfl⟩
    · simp [way_nil]
    · rw [way_concat, concat_sublist_concat, and_congr_right]
      rintro rfl
      rw [List.dropLast_concat]

end FileDisk
