import Ydfs.Text.Split
import Ydfs.Wubi.Paths

/-!
# The listing of an ISO

`get_iso_file_names` reads the table that 7z prints of an ISO.  The rows are between two rulers, and a
row has the name behind columns of a fixed width.  The code takes the last word of the row instead, so
that of a name with a blank only the end is left.
-/

namespace Ydfs.Wubi.IsoFileNames

open Splitting NtPath
open Win32 (Text isSpace)

/-! ### The model of the source -/

/-- `os.linesep` -/
def linesep : Text := ['\r'] ++ ['\n']

/-- A line that begins or ends the table. -/
def isRuler (line : Text) : Bool := "---".toList <+: line

/-- The loop over the lines: the ones behind the first ruler, up to the next one. -/
def tableLines : Bool → List Text → List Text
  | _, [] => []
  | start, line :: lines =>
    if isRuler line then
      if start then [] else tableLines true lines
    else if start then line :: tableLines start lines
    else tableLines start lines

/-- `os.path.normpath(x[-1])` of the words of a line, if there are any. -/
def lastName (line : Text) : Option Text := (words isSpace line).getLast?.map normpath

/-- What Python raises for a line without words. -/
inductive IndexError where
  | indexError
deriving DecidableEq

/-- What `get_iso_file_names` returns, and the entry of the cache for the path. -/
structure Result where
  value : Except IndexError (Option (List Text))
  cached : Option (Option (List Text))

/-- `get_iso_file_names`, with the entry of the cache and the output of 7z, unless the command fails. -/
def getIsoFileNames (cached : Option (Option (List Text))) (output : Option Text) : Result :=
  match cached with
  | some names => ⟨.ok names, some names⟩
  | none =>
    let output := output.getD []
    if output = [] then ⟨.ok (some []), some none⟩
    else
      let lines := tableLines false (split linesep output)
      if lines = [] then ⟨.ok (some []), some none⟩
      else
        match lines.mapM lastName with
        | none => ⟨.error .indexError, some none⟩
        | some names => ⟨.ok (some names), some (some names)⟩

/-! ### The table -/

/-- The name of a file in an ISO, with the directories above it. -/
structure Name where
  text : Text
  ne : text ≠ []
  line : '\n' ∉ text
  up : ['.', '.'] ∉ components text

/-- A row: the date, the attributes and the sizes, as far as they are given, two blanks and the name. -/
structure Row where
  columns : Text
  name : Name
  line : '\n' ∉ columns
  ruler : isRuler (columns ++ "  ".toList) = false

def Row.text (row : Row) : Text := row.columns ++ "  ".toList ++ row.name.text

/-- The listing of an ISO, with what stands around the table. -/
structure Listing where
  before : List Text
  ruler : Text
  rows : List Row
  ruler' : Text
  after : List Text
  before_rulers : ∀ line ∈ before, isRuler line = false
  rulers : isRuler ruler = true ∧ isRuler ruler' = true
  free : ∀ line ∈ before ++ ruler :: ruler' :: after, '\n' ∉ line

def Listing.lines (listing : Listing) : List Text :=
  listing.before ++ listing.ruler :: (listing.rows.map Row.text ++ listing.ruler' :: listing.after)

def Listing.text (listing : Listing) : Text := linesep.intercalate listing.lines

/-- The names of the listing come out in order, in their normal form. -/
def Decodes (listing : Listing) : Prop :=
  (getIsoFileNames none (some listing.text)).value =
    .ok (some (listing.rows.map fun row => normpath row.name.text))

variable {row : Row} {listing : Listing}

/-! ### Rows -/

theorem isRuler_text (row : Row) : isRuler row.text = false := by
  refine decide_eq_false fun begun => ?_
  cases columns : row.columns with
  | nil =>
    rw [Row.text, columns] at begun
    exact absurd (List.cons_prefix_cons.1 begun).1 (by decide)
  | cons a rest =>
    have short : "---".toList <+: row.columns ++ "  ".toList := by
      refine List.prefix_of_prefix_length_le begun (List.prefix_append _ row.name.text) ?_
      simp [columns]
    have no := row.ruler
    rw [isRuler, decide_eq_true short] at no
    cases no

/-- The last word of a row is the name, unless there is a blank in it. -/
theorem lastName_of_free (free : ∀ c ∈ row.name.text, isSpace c = false) :
    lastName row.text = some (normpath row.name.text) := by
  have split : row.text = (row.columns ++ [' ']) ++ ' ' :: row.name.text := by
    simp [Row.text]
  rw [lastName, split, getLast?_words (by decide) row.name.ne free, Option.map_some]

/-- A blank is in the name that is read, too, if it is the right one. -/
theorem free_of_lastName (h : lastName row.text = some (normpath row.name.text)) :
    ∀ c ∈ row.name.text, isSpace c = false := by
  intro c mem
  by_contra blank
  rw [Bool.not_eq_false] at blank
  obtain ⟨word, last, same⟩ := Option.map_eq_some_iff.1 h
  have others : c ≠ '/' ∧ c ≠ '\\' ∧ c ≠ '.' := by
    refine ⟨?_, ?_, ?_⟩ <;> rintro rfl <;> cases blank
  obtain ⟨slash, backslash, dot⟩ := others
  have kept : c ∈ normpath word := by
    rw [same]
    exact mem_normpath row.name.up mem slash backslash dot
  rcases mem_of_mem_normpath kept with inside | is | is
  · have free := eq_false_of_mem_words (List.mem_of_getLast? last) c inside
    rw [blank] at free
    cases free
  · exact backslash is
  · exact dot is

theorem lastName_iff : lastName row.text = some (normpath row.name.text) ↔
    ∀ c ∈ row.name.text, isSpace c = false :=
  ⟨free_of_lastName, lastName_of_free⟩

/-! ### The lines of the listing -/

theorem free_of_mem_lines (listing : Listing) : ∀ line ∈ listing.lines, '\n' ∉ line := by
  intro line mem
  have around : line ∈ listing.before ++ listing.ruler :: listing.ruler' :: listing.after ∨
      line ∈ listing.rows.map Row.text := by
    simp only [Listing.lines, List.mem_append, List.mem_cons] at mem ⊢
    tauto
  rcases around with outside | inside
  · exact listing.free line outside
  · obtain ⟨row, -, rfl⟩ := List.mem_map.1 inside
    rw [Row.text, List.mem_append, List.mem_append, not_or, not_or]
    exact ⟨⟨row.line, by decide⟩, row.name.line⟩

theorem split_text (listing : Listing) : split linesep listing.text = listing.lines :=
  split_intercalate (by decide) (by simp [Listing.lines]) (free_of_mem_lines listing)

theorem text_ne_nil (listing : Listing) : listing.text ≠ [] := by
  intro empty
  have one : listing.lines = [[]] := by
    rw [← split_text, empty]
    rfl
  have length := congrArg List.length one
  simp only [Listing.lines, List.length_append, List.length_cons, List.length_nil] at length
  omega

theorem tableLines_rows (rows : List Row) {ruler : Text} (h : isRuler ruler = true)
    (after : List Text) :
    tableLines true (rows.map Row.text ++ ruler :: after) = rows.map Row.text := by
  induction rows with
  | nil => simp [tableLines, h]
  | cons row rows ih => simp [tableLines, isRuler_text, ih]

theorem tableLines_before {before : List Text} (h : ∀ line ∈ before, isRuler line = false)
    (lines : List Text) : tableLines false (before ++ lines) = tableLines false lines := by
  induction before with
  | nil => rfl
  | cons line before ih =>
    rw [List.forall_mem_cons] at h
    simp [tableLines, h.1, ih h.2]

/-- The loop takes the rows. -/
theorem tableLines_lines (listing : Listing) :
    tableLines false listing.lines = listing.rows.map Row.text := by
  rw [Listing.lines, tableLines_before listing.before_rulers, tableLines, if_pos listing.rulers.1,
    if_neg (by simp), tableLines_rows _ listing.rulers.2]

theorem mapM_eq_some_iff {α β : Type} {f : α → Option β} {g : α → β} {l : List α} :
    l.mapM f = some (l.map g) ↔ ∀ a ∈ l, f a = some (g a) := by
  induction l with
  | nil => simp
  | cons a l ih =>
    rw [List.forall_mem_cons, ← ih, List.mapM_cons]
    cases f a with
    | none => simp
    | some b => cases l.mapM f <;> simp

/-- The names of a listing are read exactly if there is no blank in them. -/
theorem iso_file_names_decoded_iff (listing : Listing) :
    Decodes listing ↔ ∀ row ∈ listing.rows, ∀ c ∈ row.name.text, isSpace c = false := by
  have each : (listing.rows.map Row.text).mapM lastName =
      some (listing.rows.map fun row => normpath row.name.text) ↔
      ∀ row ∈ listing.rows, ∀ c ∈ row.name.text, isSpace c = false := by
    rw [List.mapM_map, mapM_eq_some_iff]
    simp only [Function.comp_apply, lastName_iff]
  unfold Decodes getIsoFileNames
  simp only [Option.getD_some, text_ne_nil, if_false, split_text, tableLines_lines]
  rw [← each]
  by_cases empty : listing.rows = []
  · simp [empty]
  · rw [if_neg (by simpa using empty)]
    cases (listing.rows.map Row.text).mapM lastName <;> simp

/-- The listing of an ISO with one file, whose name has a blank. -/
def blankListing : Listing where
  before := [[], "Listing archive: a.iso".toList, []]
  ruler := "------------------- ----- ------------ ------------  ------------------------".toList
  rows := [
    { columns := "2011-09-20 14:00:00 ....A            5            5".toList
      name := ⟨"a b".toList, by decide, by decide, by decide⟩
      line := by decide
      ruler := by decide }]
  ruler' := "------------------- ----- ------------ ------------  ------------------------".toList
  after := [[]]
  before_rulers := by decide
  rulers := by decide
  free := by decide

/-- Of its name only the end is read. -/
theorem not_iso_file_names_decoded : ¬ ∀ listing, Decodes listing := by
  intro decodes
  have read := decodes blankListing
  unfold Decodes getIsoFileNames at read
  simp only [Option.getD_some, text_ne_nil, if_false, split_text, tableLines_lines] at read
  exact absurd read (by decide)

end Ydfs.Wubi.IsoFileNames
