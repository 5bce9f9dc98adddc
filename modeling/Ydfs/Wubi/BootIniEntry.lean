import Ydfs.Wubi.BootIni

/-!
# The entry of the boot loader

`modify_bootini` stops at the first line of a section `[operating systems]` that begins like an entry
of Wubi's boot loader, or that is blank.  A section that has no such line gets no entry, and an entry
behind the blank line stays where it is.
-/

namespace Ydfs.Wubi.Win32

open Lines

/-- The name of a distro, one line of isolist.ini. -/
structure DistroName where
  text : Text
  line : '\n' ∉ text

/-! ### Sections -/

/-- The lines as the loop gets them: behind the last newline there is an empty one. -/
def pieces (content : Text) : List Text := lines '\n' content ++ [[]]

/-- A line that begins a section. -/
def opens (line : Text) : Bool := ['['] <+: strip line

/-- The lines of every section `[operating systems]`. -/
def systems : List Text → List (List Text)
  | [] => []
  | line :: rest =>
    if lower (strip line) = operatingSystems then
      rest.takeWhile (fun line => !opens line) :: systems rest
    else systems rest

/-- An entry for `c:\wubildr.mbr`, by what is before its first `=`. -/
def isEntry (line : Text) : Bool := lower (strip (line.takeWhile (· ≠ '='))) = loader

/-- A line of the section at which the loop stops. -/
def stops (line : Text) : Bool := loader <+: lower (strip line) ∨ strip line = []

/-- `modify_bootini` does not fail, and then every section has one entry of the boot loader, with the
name of the distro. -/
def RegisteredOnce (name : DistroName) (drive : Drive) : Prop :=
  ∃ drive', modifyBootini name.text drive = some drive' ∧
    ∀ content ∈ drive'.bootini, ∀ part ∈ systems (pieces content),
      part.filter isEntry = [bootLine name.text]

/-- The first section has a line at which the loop stops, and no entry behind the first such line;
every other section has its entry already. -/
def OneLeft (name : Text) : List (List Text) → Prop
  | [] => True
  | first :: others =>
    ((first.dropWhile fun line => !stops line) ≠ [] ∧
      ∀ line ∈ (first.dropWhile fun line => !stops line).tail, isEntry line = false) ∧
    ∀ part ∈ others, part.filter isEntry = [bootLine name]

/-- The contents that `modify_bootini` can deal with. -/
def Ready (name : DistroName) (content : Text) : Prop :=
  content ≠ [] ∧ OneLeft name.text (systems (pieces content))

variable {name : Text} {line : Text} {ls : List Text}

/-! ### Lines -/

/-- What ends in a letter that stays is not dropped from the right. -/
theorem prefix_rdropWhile {α : Type} {p : α → Bool} {y : List α} {a : α} (stays : p a = false)
    (t : List α) : y ++ [a] <+: (y ++ [a] ++ t).rdropWhile p := by
  induction t using List.reverseRecOn with
  | nil =>
    have kept : (y ++ [a]).rdropWhile p = y ++ [a] :=
      List.rdropWhile_concat_neg _ _ _ (by simp [stays])
    exact ⟨[], by rw [List.append_nil, kept]⟩
  | append_singleton t b ih =>
    rw [← List.append_assoc]
    by_cases drop : p b = true
    · rw [List.rdropWhile_concat_pos _ _ _ drop]
      exact ih
    · rw [List.rdropWhile_concat_neg _ _ _ drop, List.append_assoc]
      exact List.prefix_append _ _

/-- The beginning of a line that begins with the name of the boot loader is not stripped. -/
theorem loader_prefix_strip (h : loader <+: lower (lstrip line)) : loader <+: lower (strip line) := by
  have solid (a : Char) (ha : a.toLower = 'r') : isSpace a = false := by
    by_contra blank
    simp only [Bool.not_eq_false, isSpace, decide_eq_true_eq, List.mem_cons, List.not_mem_nil,
      or_false] at blank
    rcases blank with rfl | rfl | rfl | rfl | rfl | rfl <;> exact absurd ha (by decide)
  obtain ⟨head, ⟨t, split⟩, lowered⟩ := List.prefix_map_iff.1 h
  have cut : loader = "c:\\wubildr.mb".toList ++ ['r'] := by decide
  obtain ⟨y, last, rfl, -, ends⟩ := List.map_eq_append_iff.1 (lowered.symm.trans cut)
  obtain ⟨a, rfl, ha⟩ := List.map_eq_singleton_iff.1 ends
  rw [lowered, strip, ← split]
  exact lower_mono (prefix_rdropWhile (solid a ha) t)

/-- The loop takes an entry for one. -/
theorem loader_prefix_of_isEntry (h : isEntry line = true) : loader <+: lower (strip line) := by
  have key : lower (strip (line.takeWhile (· ≠ '='))) = loader := of_decide_eq_true h
  have begun : loader <+: lower (lstrip (line.takeWhile (· ≠ '='))) :=
    key ▸ lower_mono (prefix_strip_lstrip _)
  have some_ : lstrip (line.takeWhile (· ≠ '=')) ≠ [] := by
    intro none
    rw [none] at begun
    exact absurd begun (by decide)
  apply loader_prefix_strip
  have split : lstrip line =
      lstrip (line.takeWhile (· ≠ '=')) ++ line.dropWhile (· ≠ '=') := by
    conv_lhs => rw [← List.takeWhile_append_dropWhile (p := (· ≠ '=')) (l := line)]
    unfold lstrip at some_ ⊢
    rw [List.dropWhile_append, if_neg (by simpa [List.isEmpty_iff] using some_)]
  rw [split]
  exact begun.trans (lower_mono (List.prefix_append _ _))

theorem stops_of_isEntry (h : isEntry line = true) : stops line = true :=
  decide_eq_true (.inl (loader_prefix_of_isEntry h))

theorem key_bootLine (name : Text) :
    (bootLine name).takeWhile (· ≠ '=') = "C:\\wubildr.mbr ".toList := rfl

theorem isEntry_bootLine (name : Text) : isEntry (bootLine name) = true := by
  rw [isEntry, key_bootLine]
  decide

theorem opens_bootLine (name : Text) : opens (bootLine name) = false := by
  rw [opens, strip_bootLine]
  rfl

/-- A header of the section is the beginning of one, -/
theorem opens_of_header (h : lower (strip line) = operatingSystems) : opens line = true := by
  cases is : strip line with
  | nil => rw [is] at h; cases h
  | cons a rest =>
    rw [is] at h
    have first : a.toLower = '[' := (List.cons.inj h).1
    rw [opens, is, eq_of_toLower first (.inl (by decide))]
    exact decide_eq_true (List.prefix_append ['['] rest)

/-- and the loop does not stop there. -/
theorem stops_of_opens (h : opens line = true) : stops line = false := by
  have bracket : ['['] <+: strip line := of_decide_eq_true h
  refine decide_eq_false ?_
  rintro (begun | blank)
  · have agree := List.prefix_of_prefix_length_le (lower_mono bracket) begun (by decide)
    exact absurd agree (by decide)
  · rw [blank] at bracket
    exact absurd bracket (by decide)

theorem header_of_not_opens (h : opens line = false) : lower (strip line) ≠ operatingSystems := by
  intro header
  rw [opens_of_header header] at h
  cases h

theorem nextSection_of_not_opens (section? : Bool) (h : opens line = false) :
    nextSection section? line = section? := by
  unfold nextSection
  rw [if_neg (header_of_not_opens h), if_neg (of_decide_eq_false h)]

/-- A line that begins a section decides whether it is the right one. -/
theorem nextSection_of_opens (section? : Bool) (h : opens line = true) :
    nextSection section? line = nextSection false line := by
  unfold nextSection
  rw [if_pos (of_decide_eq_true h), if_pos (of_decide_eq_true h)]

/-! ### What the loop does to the sections -/

/-- The lines of a section up to the next one, -/
def body (ls : List Text) : List Text := ls.takeWhile fun line => !opens line

/-- and the rest. -/
def after (ls : List Text) : List Text := ls.dropWhile fun line => !opens line

/-- The loop on the lines of a section. -/
def editSection (name : Text) : List Text → List Text
  | [] => []
  | line :: rest =>
    if loader <+: lower (strip line) then bootLine name :: rest
    else if strip line = [] then bootLine name :: line :: rest
    else line :: editSection name rest

/-- The sections as the loop leaves them: it changes the first one in which it stops. -/
def register (name : Text) : List (List Text) → List (List Text)
  | [] => []
  | first :: others =>
    if first.any stops then editSection name first :: others else first :: register name others

theorem body_cons (h : opens line = false) : body (line :: ls) = line :: body ls := by
  simp [body, h]

theorem after_cons (h : opens line = false) : after (line :: ls) = after ls := by
  simp [after, h]

theorem body_of_opens (h : opens line = true) : body (line :: ls) = [] := by
  simp [body, h]

theorem after_of_opens (h : opens line = true) : after (line :: ls) = line :: ls := by
  simp [after, h]

/-- One line of the loop. -/
theorem editLines_cons (name : Text) (section? : Bool) (line : Text) (ls : List Text) :
    editLines name section? (line :: ls) =
      if nextSection section? line = true ∧ stops line = true then editSection name (line :: ls)
      else line :: editLines name (nextSection section? line) ls := by
  rw [editLines, editSection, oldLine_eq]
  cases nextSection section? line with
  | false => simp
  | true =>
    by_cases old : loader <+: lower (strip line)
    · simp [stops, old]
    · by_cases blank : strip line = []
      · rw [blank] at old
        simp [stops, blank, old]
      · simp [stops, old, blank]

/-- The loop never stops at a line that begins a section. -/
theorem editLines_cons_of_opens (name : Text) (section? : Bool) (h : opens line = true) :
    editLines name section? (line :: ls) = line :: editLines name (nextSection false line) ls := by
  rw [editLines_cons, if_neg (by simp [stops_of_opens h]), nextSection_of_opens _ h]

/-- Out of the section the loop passes over the lines up to the next one. -/
theorem editLines_false (name : Text) (ls : List Text) :
    editLines name false ls = body ls ++ editLines name false (after ls) := by
  induction ls with
  | nil => rfl
  | cons line ls ih =>
    by_cases bracket : opens line = true
    · rw [body_of_opens bracket, after_of_opens bracket, List.nil_append]
    · have inside : opens line = false := by simpa using bracket
      rw [body_cons inside, after_cons inside, editLines_cons,
        nextSection_of_not_opens _ inside, if_neg (by simp), ih, List.cons_append]

/-- In the section the loop stops in its lines, or it goes on behind them. -/
theorem editLines_true (name : Text) (ls : List Text) :
    editLines name true ls =
      if (body ls).any stops = true then editSection name (body ls) ++ after ls
      else body ls ++ editLines name false (after ls) := by
  induction ls with
  | nil => rfl
  | cons line ls ih =>
    by_cases bracket : opens line = true
    · rw [body_of_opens bracket, after_of_opens bracket, if_neg (by simp), List.nil_append,
        editLines_cons_of_opens name true bracket, editLines_cons_of_opens name false bracket]
    · have inside : opens line = false := by simpa using bracket
      have split : body ls ++ after ls = ls := List.takeWhile_append_dropWhile
      rw [body_cons inside, after_cons inside, editLines_cons,
        nextSection_of_not_opens _ inside, List.any_cons]
      by_cases stop : stops line = true
      · rw [if_pos ⟨rfl, stop⟩, if_pos (by simp [stop]), editSection, editSection]
        split_ifs with old blank
        · rw [List.cons_append, split]
        · rw [List.cons_append, List.cons_append, split]
        · exact absurd (of_decide_eq_true stop) (not_or.2 ⟨old, blank⟩)
      · have go : ¬ (loader <+: lower (strip line) ∨ strip line = []) := by
          simpa [stops] using stop
        obtain ⟨old, blank⟩ := not_or.1 go
        rw [if_neg (by simp [stop]), ih, editSection, if_neg old, if_neg blank]
        simp only [stop, Bool.false_or]
        split_ifs
        · rw [List.cons_append]
        · rw [List.cons_append]

theorem opens_of_mem_body (ls : List Text) : ∀ line ∈ body ls, opens line = false := by
  intro line mem
  simpa using List.mem_takeWhile_imp mem

/-- What follows the lines of a section begins another one. -/
theorem after_eq_nil_or (ls : List Text) :
    after ls = [] ∨ ∃ line rest, after ls = line :: rest ∧ opens line = true := by
  cases is : after ls with
  | nil => exact .inl rfl
  | cons line rest =>
    refine .inr ⟨line, rest, rfl, ?_⟩
    have stopped := List.head?_dropWhile_not (fun line => !opens line) ls
    rw [← after, is] at stopped
    simpa using stopped

theorem body_append {part ls : List Text} (inside : ∀ line ∈ part, opens line = false) :
    body (part ++ ls) = part ++ body ls := by
  induction part with
  | nil => rfl
  | cons line part ih =>
    simp only [List.forall_mem_cons] at inside
    rw [List.cons_append, body_cons inside.1, ih inside.2, List.cons_append]

theorem systems_append {part ls : List Text} (inside : ∀ line ∈ part, opens line = false) :
    systems (part ++ ls) = systems ls := by
  induction part with
  | nil => rfl
  | cons line part ih =>
    simp only [List.forall_mem_cons] at inside
    rw [List.cons_append, systems, if_neg (header_of_not_opens inside.1), ih inside.2]

theorem systems_after (ls : List Text) : systems (after ls) = systems ls := by
  have split : body ls ++ after ls = ls := List.takeWhile_append_dropWhile
  conv_rhs => rw [← split]
  rw [systems_append (opens_of_mem_body ls)]

theorem body_after (ls : List Text) : body (after ls) = [] := by
  rcases after_eq_nil_or ls with none | ⟨line, rest, is, bracket⟩
  · rw [none]
    rfl
  · rw [is, body_of_opens bracket]

theorem body_editLines_after (name : Text) (ls : List Text) :
    body (editLines name false (after ls)) = [] := by
  rcases after_eq_nil_or ls with none | ⟨line, rest, is, bracket⟩
  · rw [none]
    rfl
  · rw [is, editLines_cons_of_opens name false bracket, body_of_opens bracket]

/-- The loop puts no line into a section that begins another one. -/
theorem opens_of_mem_editSection (name : Text) {part : List Text}
    (inside : ∀ line ∈ part, opens line = false) :
    ∀ line ∈ editSection name part, opens line = false := by
  induction part with
  | nil => simp [editSection]
  | cons line part ih =>
    simp only [List.forall_mem_cons] at inside
    rw [editSection]
    split_ifs with old blank
    · simpa using ⟨opens_bootLine name, inside.2⟩
    · simpa using ⟨opens_bootLine name, inside.1, inside.2⟩
    · simpa using ⟨inside.1, ih inside.2⟩

/-- The sections after the loop. -/
theorem systems_editLines (name : Text) (ls : List Text) :
    systems (editLines name false ls) = register name (systems ls) := by
  induction ls with
  | nil => rfl
  | cons line ls ih =>
    have behind : systems (editLines name false (after ls)) = register name (systems ls) := by
      rw [← ih, editLines_false name ls, systems_append (opens_of_mem_body ls)]
    by_cases header : lower (strip line) = operatingSystems
    · have section? : nextSection false line = true := if_pos header
      rw [editLines_cons_of_opens name false (opens_of_header header), section?, systems,
        if_pos header, editLines_true, systems, if_pos header, ← body, ← body, register]
      split_ifs with stop
      · have inside := opens_of_mem_editSection name (opens_of_mem_body ls)
        rw [body_append inside, body_after, List.append_nil, systems_append inside, systems_after]
      · rw [body_append (opens_of_mem_body ls), body_editLines_after, List.append_nil,
          systems_append (opens_of_mem_body ls), behind]
    · have section? : nextSection false line = false := by
        unfold nextSection
        rw [if_neg header, ite_self]
      rw [editLines_cons, section?, if_neg (by simp), systems, if_neg header, systems,
        if_neg header, ih]

/-! ### The entries of a section -/

/-- The loop puts its line where it stops, in the place of an old entry or before a blank line. -/
theorem editSection_eq (name : Text) {part : List Text} (stop : part.any stops = true) :
    ∃ kept, editSection name part =
        part.takeWhile (fun line => !stops line) ++ bootLine name :: kept ∧
      kept.filter isEntry = (part.dropWhile fun line => !stops line).tail.filter isEntry := by
  induction part with
  | nil => cases stop
  | cons line part ih =>
    rw [editSection]
    split_ifs with old blank
    · have here : stops line = true := decide_eq_true (.inl old)
      exact ⟨part, by simp [here], by simp [here]⟩
    · have here : stops line = true := decide_eq_true (.inr blank)
      have no : isEntry line = false := by
        by_contra entry
        have begun := loader_prefix_of_isEntry (by simpa using entry)
        exact old begun
      exact ⟨line :: part, by simp [here], by simp [here, no]⟩
    · have go : stops line = false := decide_eq_false (not_or.2 ⟨old, blank⟩)
      obtain ⟨kept, edited, entries⟩ := ih (by simpa [go] using stop)
      exact ⟨kept, by simp [go, edited], by simp [go, entries]⟩

/-- Where the loop has not stopped there is no entry. -/
theorem filter_isEntry_takeWhile (part : List Text) :
    (part.takeWhile fun line => !stops line).filter isEntry = [] := by
  refine List.filter_eq_nil_iff.2 fun line mem entry => ?_
  have go := List.mem_takeWhile_imp mem
  rw [stops_of_isEntry entry] at go
  cases go

/-- The section has one entry if there was none behind the first place to stop at. -/
theorem editSection_once_iff (name : Text) {part : List Text} (stop : part.any stops = true) :
    (editSection name part).filter isEntry = [bootLine name] ↔
      ∀ line ∈ (part.dropWhile fun line => !stops line).tail, isEntry line = false := by
  obtain ⟨kept, edited, entries⟩ := editSection_eq name stop
  rw [edited, List.filter_append, filter_isEntry_takeWhile, List.nil_append,
    List.filter_cons_of_pos (isEntry_bootLine name), entries, List.cons_eq_cons,
    and_iff_right rfl, List.filter_eq_nil_iff]
  simp only [Bool.not_eq_true]

theorem dropWhile_stops_ne_nil_iff {part : List Text} :
    (part.dropWhile fun line => !stops line) ≠ [] ↔ part.any stops = true := by
  rw [Ne, List.dropWhile_eq_nil_iff, List.any_eq_true]
  simp

theorem register_once_iff (name : Text) (parts : List (List Text)) :
    (∀ part ∈ register name parts, part.filter isEntry = [bootLine name]) ↔ OneLeft name parts := by
  cases parts with
  | nil => simp [register, OneLeft]
  | cons first others =>
    rw [register, OneLeft, dropWhile_stops_ne_nil_iff]
    by_cases stop : first.any stops = true
    · rw [if_pos stop, List.forall_mem_cons, editSection_once_iff name stop, and_iff_right stop]
    · -- a section without a place to stop at has no entry, and gets none
      have noEntry : first.filter isEntry = [] := by
        refine List.filter_eq_nil_iff.2 fun line mem entry => stop ?_
        exact List.any_eq_true.2 ⟨line, mem, stops_of_isEntry entry⟩
      rw [if_neg stop, List.forall_mem_cons, noEntry]
      simp [stop]

/-! ### The content -/

/-- The sections of the content that is written. -/
theorem pieces_modifyContent (name : DistroName) {content : Text} (ne : content ≠ []) :
    ∃ written, modifyContent name.text content = some written ∧
      pieces written = editLines name.text false (pieces content) := by
  refine ⟨_, modifyContent_eq name.text ne, ?_⟩
  rw [pieces, lines_unlines (newline_not_mem_editedLines name.line content), pieces,
    editLines_append_nil]

/-- `modify_bootini` registers the boot loader once, if the content of boot.ini is ready for it. -/
theorem bootini_registered_once_iff (name : DistroName) (drive : Drive) :
    RegisteredOnce name drive ↔ ∀ content ∈ drive.bootini, Ready name content := by
  unfold RegisteredOnce modifyBootini
  cases file : drive.bootini with
  | none => simp [file]
  | some content =>
    simp only [Option.mem_some_iff, forall_eq']
    by_cases ne : content = []
    · -- the last character of an empty content raises an error
      subst ne
      simp [modifyContent, Ready]
    · obtain ⟨written, modified, split⟩ := pieces_modifyContent name ne
      rw [Ready, and_iff_right ne, ← register_once_iff, ← systems_editLines, ← split, modified]
      constructor
      · rintro ⟨drive', result, once⟩
        obtain rfl := Option.some.inj result
        exact once written rfl
      · intro once
        refine ⟨_, rfl, ?_⟩
        rintro _ ⟨⟩
        exact once

/-- A boot.ini with a section behind the list of the systems, and no blank line between. -/
def followedContent : Text := "[operating systems]\nC:\\=\"Windows\"\n[x]\n".toList

/-- Its section gets no entry. -/
theorem not_bootini_registered_once :
    ¬ ∀ (name : DistroName) (drive : Drive), RegisteredOnce name drive := by
  intro registers
  let drive : Drive := ⟨some followedContent, none, false, false, false⟩
  obtain ⟨drive', modified, once⟩ := registers ⟨"Ubuntu".toList, by decide⟩ drive
  have unchanged : modifyBootini "Ubuntu".toList drive =
      some ⟨some followedContent, none, true, true, false⟩ := by decide
  obtain rfl := Option.some.inj (unchanged.symm.trans modified)
  have entry := once followedContent rfl ["C:\\=\"Windows\"".toList] (by decide)
  exact absurd entry (by decide)

end Ydfs.Wubi.Win32
