import Mathlib.Data.List.DropRight
import Ydfs.Text.Lines

/-!
# boot.ini

`modify_bootini` looks through the section `[operating systems]` and puts the line of Wubi's boot
loader in the place of an old one, or before the first blank line; `undo_bootini` removes the line by
its beginning.  A content is the text that Python reads and writes in text mode.
-/

namespace Ydfs.Wubi.Win32

open Lines

/-- A text, or one line of it. -/
abbrev Text := List Char

/-- The files of a drive that the boot loader tasks read or write: contents that may be missing, and
whether the copies from winboot are there. -/
structure Drive where
  bootini : Option Text
  configsys : Option Text
  wubildr : Bool
  wubildrMbr : Bool
  wubildrExe : Bool
deriving DecidableEq

/-! ### Strings of Python -/

/-- `str.isspace` of one character. -/
def isSpace (c : Char) : Bool := c ∈ [' ', '\t', '\n', '\r', '\x0b', '\x0c']

/-- `str.lstrip`. -/
def lstrip (line : Text) : Text := line.dropWhile isSpace

/-- `str.strip`. -/
def strip (line : Text) : Text := (lstrip line).rdropWhile isSpace

/-- `str.lower`. -/
def lower (line : Text) : Text := line.map Char.toLower

theorem prefix_strip_lstrip (line : Text) : strip line <+: lstrip line := List.rdropWhile_prefix _ _

theorem lower_mono {line line' : Text} (h : line <+: line') : lower line <+: lower line' :=
  h.map _

/-- A line whose own beginning is not blank has lost nothing at its beginning. -/
theorem lstrip_eq_self {c : Char} {head line : Text}
    (lowered : ∀ a : Char, isSpace a = true → a.toLower ≠ c) (h : c :: head <+: lower line) :
    lstrip line = line := by
  cases line with
  | nil => rfl
  | cons a line =>
    have ha : a.toLower = c := by
      obtain ⟨rest, hrest⟩ := h
      simp only [lower, List.map_cons, List.cons_append, List.cons.injEq] at hrest
      exact hrest.1.symm
    have hspace : isSpace a = false := by
      by_contra hspace
      exact lowered a (by simpa using hspace) ha
    simp [lstrip, hspace]

/-! ### The model of the source -/

/-- The beginning of `boot_line`. -/
def bootHead : Text := "C:\\wubildr.mbr = \"".toList

/-- `boot_line` of a distro's name. -/
def bootLine (name : Text) : Text := bootHead ++ name ++ ['"']

/-- `old_line`: what the line of an earlier installation starts with. -/
def oldLine (name : Text) : Text :=
  lower (strip ((bootLine name).take ((bootLine name).idxOf '=')))

/-- The header of the section of boot.ini that lists the systems. -/
def operatingSystems : Text := "[operating systems]".toList

/-- `is_section` once a line has been looked at. -/
def nextSection (section? : Bool) (line : Text) : Bool :=
  if lower (strip line) = operatingSystems then true
  else if ['['] <+: strip line then false
  else section?

/-- The loop of `modify_bootini`, which ends with the first change. -/
def editLines (name : Text) : Bool → List Text → List Text
  | _, [] => []
  | section?, line :: rest =>
    let section? := nextSection section? line
    if section? ∧ oldLine name <+: lower (strip line) then bootLine name :: rest
    else if section? ∧ strip line = [] then bootLine name :: line :: rest
    else line :: editLines name section? rest

/-- The content that `modify_bootini` writes; there is none for an empty one, which has no last
character (`content[-1]`). -/
def modifyContent (name content : Text) : Option Text :=
  match content.getLast? with
  | none => none
  | some c =>
    let content := if c ≠ '\n' then content ++ ['\n'] else content
    some (['\n'].intercalate (editLines name false (content.splitOn '\n')))

/-- `modify_bootini`. -/
def modifyBootini (name : Text) (drive : Drive) : Option Drive :=
  match drive.bootini with
  | none => some drive
  | some content => do
    let content ← modifyContent name content
    return { drive with bootini := some content, wubildr := true, wubildrMbr := true }

/-- `remove_line_in_file`. -/
def removeLine (rmLine : Text) (ignoreCase : Bool) (content : Text) : Text :=
  let rmLine := if ignoreCase then lower rmLine else rmLine
  ((readlines '\n' content).map fun line =>
    if rmLine <+: (if ignoreCase then lower line else line) then [] else line).flatten

/-- `undo_bootini`. -/
def undoBootini (drive : Drive) : Drive :=
  { drive with bootini := drive.bootini.map (removeLine "c:\\wubildr.mbr".toList true) }

/-! ### The line of the boot loader -/

/-- What the lines of the boot loader start with in lower case. -/
def loader : Text := "c:\\wubildr.mbr".toList

theorem oldLine_eq (name : Text) : oldLine name = loader := by
  have cut : (bootLine name).take ((bootLine name).idxOf '=') = "C:\\wubildr.mbr ".toList := rfl
  rw [oldLine, cut]
  decide

/-- The line of the boot loader has no blanks at its ends. -/
theorem strip_bootLine (name : Text) : strip (bootLine name) = bootLine name := by
  have left : lstrip (bootLine name) = bootLine name := rfl
  unfold strip
  rw [left]
  unfold bootLine
  exact List.rdropWhile_concat_neg _ _ _ (by decide)

theorem loader_prefix_bootLine (name : Text) : loader <+: lower (bootLine name) := by
  have head : loader <+: lower bootHead := by decide
  refine head.trans (lower_mono ?_)
  unfold bootLine
  rw [List.append_assoc]
  exact List.prefix_append _ _

theorem newline_not_mem_bootLine {name : Text} (free : '\n' ∉ name) : '\n' ∉ bootLine name := by
  have head : '\n' ∉ bootHead := by decide
  simp [bootLine, head, free]

/-- Only a line with a bracket at its beginning changes the section. -/
theorem nextSection_of_no_bracket {line : Text} (section? : Bool)
    (h : ¬ ['['] <+: lower (strip line)) : nextSection section? line = section? := by
  have header : lower (strip line) ≠ operatingSystems := by
    intro eq
    rw [eq] at h
    exact h (by decide)
  have bracket : ¬ ['['] <+: strip line := fun hb => h (lower_mono hb)
  unfold nextSection
  rw [if_neg header, if_neg bracket]

theorem nextSection_of_loader {line : Text} (section? : Bool) (h : loader <+: lower (strip line)) :
    nextSection section? line = section? := by
  refine nextSection_of_no_bracket section? fun hb => ?_
  have agree := List.prefix_of_prefix_length_le hb h (by decide)
  exact absurd agree (by decide)

theorem nextSection_of_blank {line : Text} (section? : Bool) (h : strip line = []) :
    nextSection section? line = section? :=
  nextSection_of_no_bracket section? (by rw [h]; decide)

/-- A line of the boot loader is one already before the blanks at its end are taken away. -/
theorem loader_prefix_lstrip {line : Text} (h : loader <+: lower (strip line)) :
    loader <+: lower (lstrip line) :=
  h.trans (lower_mono (prefix_strip_lstrip line))

/-- The lines that `undo_bootini` removes are lines of the boot loader. -/
theorem loader_prefix_of_lower {line : Text} (h : loader <+: lower line) :
    loader <+: lower (lstrip line) := by
  have blank (a : Char) (ha : isSpace a = true) : a.toLower ≠ 'c' := by
    simp only [isSpace, decide_eq_true_eq, List.mem_cons, List.not_mem_nil, or_false] at ha
    rcases ha with rfl | rfl | rfl | rfl | rfl | rfl <;> decide
  rw [@lstrip_eq_self 'c' ":\\wubildr.mbr".toList line blank h]
  exact h

/-! ### What `modify_bootini` changes -/

/-- One line of the boot loader is new or replaces an old one; all other lines are kept in order. -/
inductive Edited (new : Text) : List Text → List Text → Prop
  | same (lines : List Text) : Edited new lines lines
  | inserted (before after : List Text) : Edited new (before ++ after) (before ++ new :: after)
  | replaced (before : List Text) {old : Text} (h : loader <+: lower (lstrip old))
      (after : List Text) : Edited new (before ++ old :: after) (before ++ new :: after)

theorem Edited.cons {new : Text} {ls ls' : List Text} (line : Text) (h : Edited new ls ls') :
    Edited new (line :: ls) (line :: ls') := by
  cases h with
  | same => exact .same _
  | inserted before after => exact .inserted (line :: before) after
  | replaced before old after => exact .replaced (line :: before) old after

/-- In the section the line goes before a blank line. -/
theorem editLines_blank (name : Text) : editLines name true [[]] = [bootLine name, []] := by
  have stays : nextSection true [] = true := nextSection_of_blank true rfl
  have blank : strip [] = [] := rfl
  have old : ¬ oldLine name <+: lower [] := by
    rw [oldLine_eq]
    decide
  simp [editLines, stays, blank, old]

/-- The loop over the pieces of a content that ends with a newline. -/
theorem editLines_spec (name : Text) (section? : Bool) (ls : List Text) :
    ∃ ls', editLines name section? (ls ++ [[]]) = ls' ++ [[]] ∧ Edited (bootLine name) ls ls' := by
  induction ls generalizing section? with
  | nil =>
    cases section? with
    | false => exact ⟨[], rfl, .same []⟩
    | true => exact ⟨[bootLine name], editLines_blank name, .inserted [] []⟩
  | cons line ls ih =>
    simp only [List.cons_append, editLines]
    split_ifs with hold hblank
    · have old : loader <+: lower (strip line) := oldLine_eq name ▸ hold.2
      exact ⟨bootLine name :: ls, rfl, .replaced [] (loader_prefix_lstrip old) ls⟩
    · exact ⟨bootLine name :: line :: ls, rfl, .inserted [] (line :: ls)⟩
    · obtain ⟨ls', heq, hedit⟩ := ih (nextSection section? line)
      exact ⟨line :: ls', by rw [heq, List.cons_append], hedit.cons line⟩

/-- The loop finds the line that it has put in. -/
theorem editLines_idem (name : Text) (section? : Bool) (ls : List Text) :
    editLines name section? (editLines name section? ls) = editLines name section? ls := by
  have found (rest : List Text) :
      editLines name true (bootLine name :: rest) = bootLine name :: rest := by
    have old : loader <+: lower (strip (bootLine name)) := by
      rw [strip_bootLine]
      exact loader_prefix_bootLine name
    simp [editLines, oldLine_eq, nextSection_of_loader true old, old]
  induction ls generalizing section? with
  | nil => rfl
  | cons line ls ih =>
    simp only [editLines]
    split_ifs with hold hblank
    · obtain ⟨inside, old⟩ := hold
      rw [nextSection_of_loader section? (oldLine_eq name ▸ old)] at inside
      rw [inside, found]
    · obtain ⟨inside, blank⟩ := hblank
      rw [nextSection_of_blank section? blank] at inside
      rw [inside, found]
    · simp only [editLines, hold, hblank, if_false, ih]

theorem Edited.ne_nil {new : Text} {ls ls' : List Text} (h : Edited new ls ls') (ne : ls ≠ []) :
    ls' ≠ [] := by
  cases h with
  | same => exact ne
  | inserted before after => simp
  | replaced before old after => simp

theorem Edited.forall_mem {p : Text → Prop} {new : Text} {ls ls' : List Text}
    (h : Edited new ls ls') (hnew : p new) (hls : ∀ l ∈ ls, p l) : ∀ l ∈ ls', p l := by
  cases h with
  | same => exact hls
  | inserted before after =>
    simp only [List.forall_mem_append, List.forall_mem_cons] at hls ⊢
    exact ⟨hls.1, hnew, hls.2⟩
  | replaced before old after =>
    simp only [List.forall_mem_append, List.forall_mem_cons] at hls ⊢
    exact ⟨hls.1, hnew, hls.2.2⟩

/-! ### The round trip -/

/-- The lines of a content as the loop leaves them. -/
def editedLines (name : Text) (ls : List Text) : List Text :=
  (editLines name false (ls ++ [[]])).dropLast

theorem editLines_append_nil (name : Text) (ls : List Text) :
    editLines name false (ls ++ [[]]) = editedLines name ls ++ [[]] := by
  obtain ⟨ls', heq, -⟩ := editLines_spec name false ls
  rw [editedLines, heq, List.dropLast_concat]

theorem edited_editedLines (name : Text) (ls : List Text) :
    Edited (bootLine name) ls (editedLines name ls) := by
  obtain ⟨ls', heq, hedit⟩ := editLines_spec name false ls
  rw [editedLines, heq, List.dropLast_concat]
  exact hedit

theorem editedLines_idem (name : Text) (ls : List Text) :
    editedLines name (editedLines name ls) = editedLines name ls := by
  rw [editedLines, ← editLines_append_nil, editLines_idem, editLines_append_nil,
    List.dropLast_concat]

/-- What `modify_bootini` writes, in terms of lines. -/
theorem modifyContent_eq (name : Text) {content : Text} (ne : content ≠ []) :
    modifyContent name content =
      some (unlines '\n' (editedLines name (lines '\n' content))) := by
  have terminated (text : Text) (last : text.getLast? = some '\n') :
      ['\n'].intercalate (editLines name false (text.splitOn '\n')) =
        unlines '\n' (editedLines name (lines '\n' text)) := by
    rw [splitOn_of_terminated last, editLines_append_nil, intercalate_append_nil]
  obtain ⟨c, hc⟩ : ∃ c, content.getLast? = some c := ⟨_, List.getLast?_eq_some_getLast ne⟩
  by_cases hn : c = '\n'
  · simp [modifyContent, hc, hn, terminated content (hn ▸ hc)]
  · have last : content.getLast? ≠ some '\n' := by simp [hc, hn]
    have written := terminated (content ++ ['\n']) (by simp)
    rw [lines_append_terminator ne last] at written
    simp [modifyContent, hc, hn, written]

theorem newline_not_mem_editedLines {name : Text} (free : '\n' ∉ name) (content : Text) :
    ∀ l ∈ editedLines name (lines '\n' content), '\n' ∉ l :=
  (edited_editedLines name _).forall_mem (newline_not_mem_bootLine free)
    fun _ => not_mem_of_mem_lines

/-- A content that is not empty has lines, and keeps some. -/
theorem unlines_editedLines_ne_nil (name : Text) {content : Text} (ne : content ≠ []) :
    unlines '\n' (editedLines name (lines '\n' content)) ≠ [] := by
  have kept : editedLines name (lines '\n' content) ≠ [] :=
    (edited_editedLines name _).ne_nil (lines_ne_nil ne)
  obtain ⟨l, ls, hls⟩ := List.exists_cons_of_ne_nil kept
  simp [hls]

/-- `undo_bootini` on a text of lines. -/
theorem removeLine_unlines {ls : List Text} (free : ∀ l ∈ ls, '\n' ∉ l) :
    removeLine loader true (unlines '\n' ls) =
      unlines '\n' (ls.filter fun l => ¬ loader <+: lower l) := by
  have lowered : lower loader = loader := by decide
  have cut (l : Text) : loader <+: lower (l ++ ['\n']) ↔ loader <+: lower l := by
    have split : lower (l ++ ['\n']) = lower l ++ ['\n'] := by
      rw [lower, List.map_append]
      rfl
    rw [split, List.prefix_concat_iff]
    refine or_iff_right fun whole => ?_
    have mem : '\n' ∈ loader := by simp [whole]
    exact absurd mem (by decide)
  simp only [removeLine, if_true, lowered, readlines_unlines free, List.map_map]
  induction ls with
  | nil => rfl
  | cons l ls ih =>
    have rest := ih fun m hm => free m (List.mem_cons_of_mem _ hm)
    by_cases h : loader <+: lower l <;> simp [cut, h, rest]

/-- What was inserted is removed, if there was no line of the boot loader before. -/
theorem Edited.filter_eq {new : Text} {ls ls' : List Text} (h : Edited new ls ls')
    (hnew : loader <+: lower new) (clean : ∀ l ∈ ls, ¬ loader <+: lower (lstrip l)) :
    (ls'.filter fun l => ¬ loader <+: lower l) = ls := by
  have keep : ∀ ms : List Text, (∀ l ∈ ms, ¬ loader <+: lower (lstrip l)) →
      (ms.filter fun l => ¬ loader <+: lower l) = ms := by
    intro ms clean
    refine List.filter_eq_self.2 fun l hl => ?_
    simpa using fun starts => clean l hl (loader_prefix_of_lower starts)
  cases h with
  | same => exact keep ls clean
  | inserted before after =>
    simp only [List.forall_mem_append] at clean
    rw [List.filter_append, List.filter_cons_of_neg (by simpa using hnew), keep before clean.1,
      keep after clean.2]
  | replaced before old after => exact absurd old (clean _ (by simp))

/-- The second run of `modify_bootini` writes what the first has written. -/
theorem modifyContent_idem {name content content' : Text} (free : '\n' ∉ name)
    (h : modifyContent name content = some content') : modifyContent name content' = some content' := by
  have ne : content ≠ [] := by
    rintro rfl
    cases h
  rw [modifyContent_eq name ne, Option.some.injEq] at h
  subst h
  rw [modifyContent_eq name (unlines_editedLines_ne_nil name ne),
    lines_unlines (newline_not_mem_editedLines free content), editedLines_idem]

/-- The round trip of boot.ini: `undo_bootini` gives back what `modify_bootini` has found if no line
was one of the boot loader; all other lines are kept, and a second `modify_bootini` changes nothing. -/
theorem bootini_round_trip (name : Text) (free : '\n' ∉ name) :
    (∀ (drive : Drive) (content : Text), drive.bootini = some content →
      content.getLast? = some '\n' →
      (∀ line ∈ lines '\n' content, ¬ loader <+: lower (lstrip line)) →
      ∃ drive', modifyBootini name drive = some drive' ∧
        (undoBootini drive').bootini = some content) ∧
    ∀ (drive : Drive) (content : Text), drive.bootini = some content → content ≠ [] →
      ∃ drive' content', modifyBootini name drive = some drive' ∧
        drive'.bootini = some content' ∧
        Edited (bootLine name) (lines '\n' content) (lines '\n' content') ∧
        modifyBootini name drive' = some drive' := by
  constructor
  · intro drive content file last clean
    have ne : content ≠ [] := by
      rintro rfl
      cases last
    have modified := modifyContent_eq name ne
    have removed := removeLine_unlines (newline_not_mem_editedLines free content)
    rw [(edited_editedLines name _).filter_eq (loader_prefix_bootLine name) clean,
      unlines_lines last] at removed
    refine ⟨_, by simp only [modifyBootini, file, modified]; rfl, ?_⟩
    simp only [undoBootini, Option.map_some, Option.some.injEq]
    exact removed
  · intro drive content file ne
    have modified := modifyContent_eq name ne
    have again := modifyContent_idem free modified
    refine ⟨_, _, by simp only [modifyBootini, file, modified]; rfl, rfl, ?_, ?_⟩
    · rw [lines_unlines (newline_not_mem_editedLines free content)]
      exact edited_editedLines name _
    · simp only [modifyBootini, again]
      rfl

example : modifyContent "Ubuntu".toList "[operating systems]\nC:\\ = \"DOS\"\n\n[x]\n".toList =
    some "[operating systems]\nC:\\ = \"DOS\"\nC:\\wubildr.mbr = \"Ubuntu\"\n\n[x]\n".toList := by
  decide

/-- A boot.ini whose section ends with a blank line. -/
def sampleContent : Text :=
  "[boot loader]\ntimeout=30\n[operating systems]\nC:\\=\"Windows\"\n\n".toList

/-- A drive with the boot.ini of the sample. -/
def sampleDrive : Drive := ⟨some sampleContent, none, false, false, false⟩

theorem bootini_round_trip_sample :
    (∃ drive', modifyBootini "Ubuntu".toList sampleDrive = some drive' ∧
      (undoBootini drive').bootini = some sampleContent) ∧
    ∃ drive' content', modifyBootini "Ubuntu".toList sampleDrive = some drive' ∧
      drive'.bootini = some content' ∧
      Edited (bootLine "Ubuntu".toList) (lines '\n' sampleContent) (lines '\n' content') ∧
      modifyBootini "Ubuntu".toList drive' = some drive' := by
  obtain ⟨undone, kept⟩ := bootini_round_trip "Ubuntu".toList (by decide)
  exact ⟨undone sampleDrive sampleContent rfl (by decide) (by decide),
    kept sampleDrive sampleContent rfl (by decide)⟩

end Ydfs.Wubi.Win32
