import Ydfs.Wubi.BootIni
import Ydfs.Wubi.Utils

/-!
# Looking up a checksum

`check_file` takes the checksum of a file from a list that `md5sum` has written: a line is the digest,
a blank, a blank or a star, and the path.  `find_line_in_file` does not read the lines so.  It takes the
first one whose text ends in the path and a newline, whatever is before the path, and the last line of
the list may have no newline.
-/

namespace Ydfs.Wubi.CheckFile

open Lines Utils
open Win32 (Text isSpace)

/-! ### The model of the source -/

/-- `line.split()[0]`, if the line has a word. -/
def firstWord (line : Text) : Option Text :=
  let word := (line.dropWhile isSpace).takeWhile fun c => !isSpace c
  if word = [] then none else some word

/-- `find_line_in_file` of a file, or of a path where there is none.  The text is not empty. -/
def findLineInFile (file : Option Text) (text : Text) (endswith : Bool) : Option Text :=
  match file with
  | none => none
  | some content =>
    let text := if endswith ∧ text.getLast? ≠ some '\n' then text ++ ['\n'] else text
    ((readlines '\n' content).find? fun line =>
      (endswith ∧ text <:+ line) ∨ (¬ endswith ∧ text <+: line)).map List.dropLast

/-- What `check_file` raises. -/
inductive Error where
  | cannotFindMd5 (relpath : Text)
  | indexError
deriving DecidableEq

/-- The name of the hash, by the number of the hexadecimal digits. -/
def hashName (referenceHash : Text) : String :=
  let hashLen := referenceHash.length * 4
  if hashLen = 160 then "sha1"
  else if hashLen ∈ [224, 256, 384, 512] then "sha" ++ toString hashLen
  else "md5"

/-- `relpath.replace("\\", "/")` -/
def slashed (relpath : Text) : Text := relpath.map fun c => if c = '\\' then '/' else c

/-- The path as the list has it. -/
def dotted (relpath : Text) : Text := "./".toList ++ slashed relpath

/-- `check_file`: whether the digest in the list is the one of the file. -/
def checkFile (hexdigest : String → Str → Text) (file : Option Str) (relpath : Text)
    (md5sums : Option Text) (task : AssociatedTask) : Utils.Outcome (Except Error Bool) :=
  match findLineInFile md5sums (dotted relpath) true with
  | none => ⟨.error (.cannotFindMd5 (slashed relpath)), []⟩
  | some md5line =>
    if md5line = [] then ⟨.error (.cannotFindMd5 (slashed relpath)), []⟩
    else
      match firstWord md5line with
      | none => ⟨.error .indexError, []⟩
      | some referenceHash =>
        let hashFile := getFileHash hexdigest file (hashName referenceHash) task
        ⟨.ok (hashFile.value = some referenceHash), hashFile.calls⟩

/-! ### The list -/

/-- A line of the list. -/
structure Entry where
  digest : Text
  path : Text
deriving DecidableEq

/-- What a line says, if it is one that `md5sum` writes. -/
def entry (line : Text) : Option Entry :=
  let digest := line.takeWhile fun c => !isSpace c
  match line.dropWhile fun c => !isSpace c with
  | ' ' :: mark :: path =>
    if digest ≠ [] ∧ (mark = ' ' ∨ mark = '*') then some ⟨digest, path⟩ else none
  | _ => none

/-- The line is one for this path. -/
def lists (path line : Text) : Bool := (entry line).any fun e => e.path = path

/-- The line of the list that is for this path. -/
def listed (md5sums path : Text) : Option Text := (lines '\n' md5sums).find? (lists path)

/-- `check_file` compares with the line that is for the path.  It says that the file is not listed if
there is none, and else, unless it is cancelled, whether the digest is that of the file. -/
def UsesRightLine (md5sums relpath : Text) : Prop :=
  findLineInFile (some md5sums) (dotted relpath) true = listed md5sums (dotted relpath) ∧
    ∀ (hexdigest : String → Str → Text) (content : Str) (task : AssociatedTask),
      let checked := checkFile hexdigest (some content) relpath (some md5sums) task
      match (listed md5sums (dotted relpath)).bind entry with
      | none => checked.value = .error (.cannotFindMd5 (slashed relpath))
      | some e => Stopped task checked.calls ∨
          checked.value = .ok (hexdigest (hashName e.digest) content = e.digest)

/-- The path without a newline at its end. -/
def ending (path : Text) : Text := if path.getLast? = some '\n' then path.dropLast else path

/-- A line with a newline whose text ends in the path is for the path, or comes after one that is; and
a last line without a newline is for the path only if one with a newline is. -/
structure Unmistakable (md5sums path : Text) : Prop where
  ended : ∀ before line rest, terminated '\n' md5sums = before ++ line :: rest →
    ending path <:+ line → lists path line = true ∨ ∃ l ∈ before, lists path l = true
  last : ∀ line ∈ (md5sums.splitOn '\n').getLast?, lists path line = true →
    ∃ l ∈ terminated '\n' md5sums, lists path l = true

variable {md5sums path line : Text} {e : Entry}

/-! ### Lines of the list -/

theorem entry_eq_some (h : entry line = some e) :
    ∃ mark, line = e.digest ++ ' ' :: mark :: e.path ∧ e.digest ≠ [] ∧
      ∀ c ∈ e.digest, isSpace c = false := by
  rw [entry] at h
  split at h
  · rename_i mark path rest
    split_ifs at h with shape
    obtain rfl := Option.some.inj h
    refine ⟨mark, ?_, shape.1, ?_⟩
    · rw [← rest]
      exact List.takeWhile_append_dropWhile.symm
    · intro c mem
      simpa using List.mem_takeWhile_imp mem
  · cases h

theorem firstWord_of_entry (h : entry line = some e) : firstWord line = some e.digest := by
  obtain ⟨mark, rfl, ne, word⟩ := entry_eq_some h
  obtain ⟨c, digest, is⟩ := List.exists_cons_of_ne_nil ne
  have first : isSpace c = false := word c (by simp [is])
  have start : (e.digest ++ ' ' :: mark :: e.path).dropWhile isSpace =
      e.digest ++ ' ' :: mark :: e.path := by
    rw [is, List.cons_append, List.dropWhile_cons_of_neg (by simp [first])]
  have cut : (e.digest ++ ' ' :: mark :: e.path).takeWhile (fun c => !isSpace c) = e.digest := by
    rw [List.takeWhile_append_of_pos (by simpa using word), List.takeWhile_cons_of_neg (by decide),
      List.append_nil]
  rw [firstWord, start, cut, if_neg ne]

theorem exists_entry (h : lists path line = true) : ∃ e, entry line = some e ∧ e.path = path := by
  cases is : entry line with
  | none => rw [lists, is] at h; cases h
  | some e =>
    rw [lists, is, Option.any_some] at h
    exact ⟨e, rfl, of_decide_eq_true h⟩

theorem lists_nil (path : Text) : lists path [] = false := rfl

/-- A line for the path ends in it. -/
theorem ending_suffix_of_lists (free : '\n' ∉ line) (h : lists path line = true) :
    ending path <:+ line := by
  obtain ⟨e, is, rfl⟩ := exists_entry h
  obtain ⟨mark, eq, -⟩ := entry_eq_some is
  have suffix : e.path <:+ line := ⟨e.digest ++ [' ', mark], by simp [eq]⟩
  have noNewline : e.path.getLast? ≠ some '\n' := fun last =>
    free (suffix.subset (List.mem_of_getLast? last))
  rwa [ending, if_neg noNewline]

/-! ### The search -/

/-- What is looked for. -/
theorem ending_append (path : Text) :
    (if path.getLast? ≠ some '\n' then path ++ ['\n'] else path) = ending path ++ ['\n'] := by
  rw [ending]
  by_cases last : path.getLast? = some '\n'
  · obtain ⟨y, rfl⟩ := List.getLast?_eq_some_iff.1 last
    simp
  · rw [if_pos last, if_neg last]

/-- Only lines with a newline are found. -/
theorem findLineInFile_eq (md5sums path : Text) :
    findLineInFile (some md5sums) path true =
      (terminated '\n' md5sums).find? fun line => ending path <:+ line := by
  obtain ⟨ls, last, rfl, free, hlast⟩ := exists_eq_unlines_append '\n' md5sums
  have cut (line : Text) : ending path ++ ['\n'] <:+ line ++ ['\n'] ↔ ending path <:+ line :=
    List.suffix_append_self_iff
  have noLast : (readlines '\n' last).find? (fun line => ending path ++ ['\n'] <:+ line) = none := by
    refine List.find?_eq_none.2 fun line mem suffix => hlast ?_
    rw [readlines_of_free hlast] at mem
    split_ifs at mem
    · cases mem
    · rw [← List.mem_singleton.1 mem]
      exact (of_decide_eq_true suffix).subset (by simp)
  simp only [findLineInFile, true_and, ending_append, not_true_eq_false, false_and, or_false,
    terminated_unlines_append free hlast, readlines_unlines_append free, List.find?_append, noLast,
    Option.or_none, List.find?_map, Option.map_map]
  have undo : (List.dropLast ∘ fun l : Text => l ++ ['\n']) = id := by
    funext l
    simp
  have looks : ((fun line => decide (ending path ++ ['\n'] <:+ line)) ∘ fun l : Text => l ++ ['\n']) =
      fun line => decide (ending path <:+ line) := by
    funext line
    simp [cut]
  rw [undo, looks, Option.map_id, id]

/-- The line that is found is the right one exactly if the list has no line before it that only looks
like one for the path, and one for the path has a newline. -/
theorem findLineInFile_eq_listed_iff (md5sums path : Text) :
    findLineInFile (some md5sums) path true = listed md5sums path ↔ Unmistakable md5sums path := by
  rw [findLineInFile_eq, listed]
  obtain ⟨ls, last, rfl, free, hlast⟩ := exists_eq_unlines_append '\n' md5sums
  have narrow : ∀ line ∈ ls, lists path line = true → decide (ending path <:+ line) = true :=
    fun line mem is => decide_eq_true (ending_suffix_of_lists (free line mem) is)
  rw [lines_unlines_append free hlast, terminated_unlines_append free hlast,
    find?_eq_find?_append_iff narrow]
  have end_ : (∀ line ∈ (if last = [] then [] else [last]), lists path line = true →
      ∃ l ∈ ls, lists path l = true) ↔
      (lists path last = true → ∃ l ∈ ls, lists path l = true) := by
    by_cases none : last = []
    · simp [none, lists_nil]
    · simp [none]
  rw [end_]
  constructor
  · rintro ⟨ended, atEnd⟩
    constructor
    · rw [terminated_unlines_append free hlast]
      intro before line rest split suffix
      exact ended before line rest split (decide_eq_true suffix)
    · rw [terminated_unlines_append free hlast, splitOn_unlines_append free hlast]
      rintro line is listedLast
      obtain rfl : last = line := by simpa using is
      exact atEnd listedLast
  · rintro ⟨ended, atEnd⟩
    rw [terminated_unlines_append free hlast] at ended atEnd
    rw [splitOn_unlines_append free hlast] at atEnd
    exact ⟨fun before line rest split suffix =>
      ended before line rest split (of_decide_eq_true suffix), atEnd last (by simp)⟩

-- A line whose path only ends in the one that is looked for is taken for it.
example : findLineInFile (some "a  ./old./x\nb  ./x\n".toList) "./x".toList true =
    some "a  ./old./x".toList := by decide

/-! ### The answer -/

/-- With the right line the answer is right. -/
theorem checkFile_of_right {relpath : Text}
    (right : findLineInFile (some md5sums) (dotted relpath) true = listed md5sums (dotted relpath))
    (hexdigest : String → Str → Text) (content : Str) (task : AssociatedTask) :
    match (listed md5sums (dotted relpath)).bind entry with
    | none => (checkFile hexdigest (some content) relpath (some md5sums) task).value =
        .error (.cannotFindMd5 (slashed relpath))
    | some e =>
        Stopped task (checkFile hexdigest (some content) relpath (some md5sums) task).calls ∨
          (checkFile hexdigest (some content) relpath (some md5sums) task).value =
            .ok (hexdigest (hashName e.digest) content = e.digest) := by
  cases is : listed md5sums (dotted relpath) with
  | none =>
    rw [is] at right
    simp only [checkFile, right, Option.bind_none]
  | some line =>
    rw [is] at right
    have named : lists (dotted relpath) line = true := List.find?_some is
    obtain ⟨e, parsed, -⟩ := exists_entry named
    have some_ : line ≠ [] := by
      rintro rfl
      cases named
    simp only [checkFile, right, Option.bind_some, parsed, if_neg some_, firstWord_of_entry parsed]
    refine (getFileHash_spec content (hashName e.digest) task).imp_right fun ⟨value, _⟩ => ?_
    rw [value]
    simp

/-- `check_file` uses the line for the path exactly if the list is one in which it cannot be
mistaken. -/
theorem check_file_uses_right_line_iff (md5sums relpath : Text) :
    UsesRightLine md5sums relpath ↔ Unmistakable md5sums (dotted relpath) := by
  rw [← findLineInFile_eq_listed_iff]
  exact and_iff_left_of_imp checkFile_of_right

/-- A list whose last line has no newline. -/
def unendedList : Text := "900150983cd24fb0d6963f7d28e17f72  ./casper/vmlinuz".toList

/-- The file is in the list, and is not found. -/
theorem not_check_file_uses_right_line :
    ¬ ∀ md5sums relpath, UsesRightLine md5sums relpath := by
  intro right
  obtain ⟨found, -⟩ := right unendedList "casper/vmlinuz".toList
  have here : listed unendedList (dotted "casper/vmlinuz".toList) = some unendedList := by decide
  have lost : findLineInFile (some unendedList) (dotted "casper/vmlinuz".toList) true = none := by
    decide
  rw [here, lost] at found
  cases found

end Ydfs.Wubi.CheckFile
