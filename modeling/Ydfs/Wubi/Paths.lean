import Mathlib.Data.List.Basic
import Ydfs.Wubi.BootIni

/-!
# Paths of Windows

What `os.path` does with the text of a path on Windows.  A path is cut at backslashes and slashes, and
may begin with the letter of a drive and a colon.  `normpath` takes away the components that are empty
or a dot, and two dots together with the component before them.
-/

namespace Ydfs.Wubi.NtPath

open Win32 (Text)

/-! ### The model of the source -/

/-- `path.replace("/", "\\")` -/
def backslashed (path : Text) : Text := path.map fun c => if c = '/' then '\\' else c

/-- `splitdrive` -/
def splitdrive (path : Text) : Text × Text :=
  if path[1]? = some ':' then (path.take 2, path.drop 2) else ([], path)

/-- One component in the loop of `normpath`, with the ones that are kept before it. -/
def normalize (rooted : Bool) (kept : List Text) (component : Text) : List Text :=
  if component = [] ∨ component = ['.'] then kept
  else if component = ['.', '.'] then
    match kept.getLast? with
    | none => if rooted then [] else [component]
    | some before => if before = ['.', '.'] then kept ++ [component] else kept.dropLast
  else kept ++ [component]

/-- What comes before the components of a path, and what they are in. -/
def splitroot (path : Text) : Text × Text :=
  let (drive, path) := splitdrive path
  let slashes := path.takeWhile (· = '\\')
  if drive = [] then (slashes, path.dropWhile (· = '\\'))
  else if slashes = [] then (drive, path)
  else (drive ++ ['\\'], path.dropWhile (· = '\\'))

/-- `normpath` -/
def normpath (path : Text) : Text :=
  if "\\\\.\\".toList <+: path ∨ "\\\\?\\".toList <+: path then path
  else
    let (root, path) := splitroot (backslashed path)
    let components := (path.splitOn '\\').foldl (normalize (root.getLast? = some '\\')) []
    if root = [] ∧ components = [] then ['.'] else root ++ ['\\'].intercalate components

/-- `basename` -/
def basename (path : Text) : Text :=
  ((splitdrive path).2.reverse.takeWhile fun c => c ≠ '\\' ∧ c ≠ '/').reverse

/-- `join` of two paths -/
def join (path p : Text) : Text :=
  let (drive, rest) := splitdrive path
  let (pDrive, pPath) := splitdrive p
  let newDrive := if pDrive ≠ [] then pDrive else drive
  if pPath.head? = some '\\' ∨ pPath.head? = some '/' then newDrive ++ pPath
  else if pDrive ≠ [] ∧ pDrive.map Char.toLower ≠ drive.map Char.toLower then pDrive ++ pPath
  else if rest = [] ∨ rest.getLast? = some '\\' ∨ rest.getLast? = some '/' then
    newDrive ++ (rest ++ pPath)
  else newDrive ++ (rest ++ '\\' :: pPath)

/-- `abspath`, in a process with the working directory `cwd` -/
def abspath (cwd path : Text) : Text := normpath (join cwd path)

variable {path : Text} {a : Char}

/-! ### The letters of a normal path -/

/-- The components of a path. -/
def components (path : Text) : List Text := (backslashed path).splitOn '\\'

theorem mem_normalize {rooted : Bool} {kept : List Text} {component c : Text}
    (h : c ∈ normalize rooted kept component) : c ∈ kept ∨ c = component := by
  unfold normalize at h
  by_cases nothing : component = [] ∨ component = ['.']
  · rw [if_pos nothing] at h
    exact .inl h
  · rw [if_neg nothing] at h
    by_cases up : component = ['.', '.']
    · rw [if_pos up] at h
      split at h
      · split_ifs at h
        · cases h
        · exact .inr (List.mem_singleton.1 h)
      · split_ifs at h
        · simpa using h
        · exact .inl (List.dropLast_subset _ h)
    · rw [if_neg up] at h
      simpa using h

theorem mem_foldl_normalize {rooted : Bool} {cs kept : List Text} {c : Text}
    (h : c ∈ cs.foldl (normalize rooted) kept) : c ∈ kept ∨ c ∈ cs := by
  induction cs generalizing kept with
  | nil => exact .inl h
  | cons component cs ih =>
    rcases ih h with before | later
    · rcases mem_normalize before with before | rfl
      · exact .inl before
      · exact .inr List.mem_cons_self
    · exact .inr (List.mem_cons_of_mem _ later)

/-- A component is lost only before two dots. -/
theorem subset_normalize {rooted : Bool} {kept : List Text} {component : Text}
    (up : component ≠ ['.', '.']) : kept ⊆ normalize rooted kept component := by
  intro c mem
  unfold normalize
  rw [if_neg up]
  split_ifs
  · exact mem
  · exact List.mem_append_left _ mem

theorem subset_foldl_normalize {rooted : Bool} {cs kept : List Text}
    (up : ∀ c ∈ cs, c ≠ ['.', '.']) : kept ⊆ cs.foldl (normalize rooted) kept := by
  induction cs generalizing kept with
  | nil => exact List.Subset.refl kept
  | cons component cs ih =>
    rw [List.forall_mem_cons] at up
    exact List.Subset.trans (subset_normalize up.1) (ih up.2)

/-- A component with another letter than a dot is kept, if there are two dots at most before it. -/
theorem mem_foldl_of_letter {rooted : Bool} {cs kept : List Text} {c : Text}
    (up : ∀ c ∈ cs.tail, c ≠ ['.', '.']) (mem : c ∈ cs) (letter : a ∈ c) (dot : a ≠ '.') :
    c ∈ cs.foldl (normalize rooted) kept := by
  induction cs generalizing kept with
  | nil => cases mem
  | cons component cs ih =>
    rw [List.tail_cons] at up
    rcases List.mem_cons.1 mem with rfl | later
    · refine subset_foldl_normalize up ?_
      have something : ¬ (c = [] ∨ c = ['.']) := by
        rintro (rfl | rfl)
        · cases letter
        · exact dot (List.mem_singleton.1 letter)
      have notUp : c ≠ ['.', '.'] := by
        rintro rfl
        simp [dot] at letter
      rw [normalize, if_neg something, if_neg notUp]
      simp
    · exact ih (fun c mem => up c (List.mem_of_mem_tail mem)) later

/-- The components are in what follows the root, and its letters are in one or the other. -/
theorem splitroot_spec (path : Text) :
    (splitroot path).2 <:+ path ∧ (∀ a ∈ (splitroot path).1, a ∈ path ∨ a = '\\') ∧
      ∀ a ∈ path, a ≠ '\\' → a ∈ (splitroot path).1 ∨ a ∈ (splitroot path).2 := by
  have drive : (splitdrive path).1 ++ (splitdrive path).2 = path := by
    unfold splitdrive
    split_ifs
    · exact List.take_append_drop 2 path
    · rfl
  have slashes : (splitdrive path).2.takeWhile (· = '\\') ++ (splitdrive path).2.dropWhile (· = '\\') =
      (splitdrive path).2 := List.takeWhile_append_dropWhile
  have only : ∀ a ∈ (splitdrive path).2.takeWhile (· = '\\'), a = '\\' := fun a mem => by
    simpa using List.mem_takeWhile_imp mem
  have behind : (splitdrive path).2 <:+ path := ⟨_, drive⟩
  have rest := (List.dropWhile_suffix (· = '\\') (l := (splitdrive path).2)).trans behind
  unfold splitroot
  dsimp only
  split_ifs with noDrive noSlash
  · refine ⟨rest, fun a mem => .inr (only a mem), fun a mem ne => .inr ?_⟩
    rw [noDrive, List.nil_append] at drive
    rw [← drive, ← slashes, List.mem_append] at mem
    exact mem.resolve_left fun slash => ne (only a slash)
  · refine ⟨behind, fun a mem => .inl ?_, fun a mem _ => ?_⟩
    · rw [← drive]
      exact List.mem_append_left _ mem
    · rw [← drive] at mem
      exact List.mem_append.1 mem
  · refine ⟨rest, fun a mem => ?_, fun a mem ne => ?_⟩
    · rcases List.mem_append.1 mem with letter | slash
      · refine .inl ?_
        rw [← drive]
        exact List.mem_append_left _ letter
      · exact .inr (List.mem_singleton.1 slash)
    · rw [← drive, ← slashes, List.mem_append, List.mem_append] at mem
      rcases mem with letter | slash | letter
      · exact .inl (List.mem_append_left _ letter)
      · exact absurd (only a slash) ne
      · exact .inr letter

theorem mem_backslashed (h : a ∈ backslashed path) : a ∈ path ∨ a = '\\' := by
  obtain ⟨c, mem, rfl⟩ := List.mem_map.1 h
  split_ifs
  · exact .inr rfl
  · exact .inl mem

/-- No letter is added but dots and backslashes. -/
theorem mem_of_mem_normpath (h : a ∈ normpath path) : a ∈ path ∨ a = '\\' ∨ a = '.' := by
  unfold normpath at h
  split_ifs at h with device
  · exact .inl h
  · obtain ⟨suffix, root, -⟩ := splitroot_spec (backslashed path)
    generalize splitroot (backslashed path) = parts at suffix root h
    obtain ⟨front, rest⟩ := parts
    dsimp only at suffix root h
    have letter (mem : a ∈ backslashed path) : a ∈ path ∨ a = '\\' ∨ a = '.' :=
      (mem_backslashed mem).imp_right .inl
    split_ifs at h
    · exact .inr (.inr (List.mem_singleton.1 h))
    · rcases List.mem_append.1 h with front | back
      · rcases root a front with mem | slash
        · exact letter mem
        · exact .inr (.inl slash)
      · rcases Lines.mem_of_mem_intercalate back with slash | ⟨c, mem, inside⟩
        · exact .inr (.inl slash)
        · have component := (mem_foldl_normalize mem).resolve_left (by simp)
          have whole : ['\\'].intercalate (rest.splitOn '\\') = rest := List.intercalate_splitOn _
          refine letter (suffix.subset ?_)
          rw [← whole]
          exact Lines.mem_intercalate component inside

/-- Behind its first component what ends a path has components of the path. -/
theorem tail_splitOn_subset {u x : Text} :
    (x.splitOn '\\').tail ⊆ ((u ++ x).splitOn '\\').tail := by
  induction u with
  | nil => exact List.Subset.refl _
  | cons b u ih =>
    rw [List.cons_append, List.splitOn_cons_eq_if_modifyHead]
    split_ifs
    · exact List.Subset.trans ih (List.tail_sublist _).subset
    · rwa [List.tail_modifyHead]

/-- Without two dots as a component no other letter is lost. -/
theorem mem_normpath (up : ['.', '.'] ∉ components path) (mem : a ∈ path) (slash : a ≠ '/')
    (backslash : a ≠ '\\') (dot : a ≠ '.') : a ∈ normpath path := by
  unfold normpath
  split_ifs with device
  · exact mem
  · have here : a ∈ backslashed path := List.mem_map.2 ⟨a, mem, if_neg slash⟩
    obtain ⟨⟨u, split⟩, -, letters⟩ := splitroot_spec (backslashed path)
    have found := letters a here backslash
    rw [components, ← split] at up
    generalize splitroot (backslashed path) = parts at up found ⊢
    obtain ⟨front, rest⟩ := parts
    dsimp only at up found ⊢
    have whole : ['\\'].intercalate (rest.splitOn '\\') = rest := List.intercalate_splitOn _
    have kept : a ∈ front ∨ ∃ c ∈ (rest.splitOn '\\').foldl (normalize (front.getLast? = some '\\')) [],
        a ∈ c := by
      refine found.imp_right fun behind => ?_
      rw [← whole] at behind
      obtain ⟨c, component, inside⟩ := (Lines.mem_of_mem_intercalate behind).resolve_left backslash
      refine ⟨c, mem_foldl_of_letter (fun c later => ?_) component inside dot, inside⟩
      rintro rfl
      exact up (List.mem_of_mem_tail (tail_splitOn_subset later))
    split_ifs with empty
    · rw [empty.2, empty.1] at kept
      simp at kept
    · rcases kept with front | ⟨c, component, inside⟩
      · exact List.mem_append_left _ front
      · exact List.mem_append_right _ (Lines.mem_intercalate component inside)

/-! ### The last component -/

/-- A name of a file. -/
structure FileName (name : Text) : Prop where
  ne : name ≠ []
  slash : '/' ∉ name
  backslash : '\\' ∉ name
  colon : ':' ∉ name
  dot : name ≠ ['.']
  dots : name ≠ ['.', '.']

/-- Nothing, or a text that ends in a slash. -/
def Closed (u : Text) : Prop := u = [] ∨ u.getLast? = some '\\' ∨ u.getLast? = some '/'

/-- A drive, if any. -/
def IsDrive (d : Text) : Prop := d = [] ∨ d.length = 2 ∧ d[1]? = some ':'

/-- The path ends in the component `name`. -/
def EndsIn (name path : Text) : Prop := ∃ d r, path = d ++ (r ++ name) ∧ IsDrive d ∧ Closed r

variable {name u d r : Text}

theorem Closed.append (hu : Closed u) (hr : Closed r) : Closed (u ++ r) := by
  by_cases empty : r = []
  · rwa [empty, List.append_nil]
  · right
    rw [List.getLast?_append_of_ne_nil _ empty]
    exact hr.resolve_left empty

theorem Closed.suffix (h : Closed u) (suffix : r <:+ u) : Closed r := by
  obtain ⟨v, rfl⟩ := suffix
  by_cases empty : r = []
  · exact .inl empty
  · right
    rw [← List.getLast?_append_of_ne_nil v empty]
    exact h.resolve_left (by simp [empty])

theorem EndsIn.self (name : Text) : EndsIn name name := ⟨[], [], rfl, .inl rfl, .inl rfl⟩

/-- The drive is what is cut off. -/
theorem EndsIn.splitdrive (file : FileName name) (h : EndsIn name path) :
    ∃ d r, splitdrive path = (d, r ++ name) ∧ IsDrive d ∧ Closed r := by
  obtain ⟨d, r, rfl, rfl | ⟨two, colon⟩, closed⟩ := h
  · rw [List.nil_append]
    by_cases colon : (r ++ name)[1]? = some ':'
    · have long : 2 ≤ r.length := by
        by_contra short
        rw [List.getElem?_append_right (by omega)] at colon
        exact file.colon (List.mem_of_getElem? colon)
      refine ⟨r.take 2, r.drop 2, ?_, .inr ⟨?_, ?_⟩, closed.suffix (List.drop_suffix 2 r)⟩
      · rw [NtPath.splitdrive, if_pos colon, List.take_append_of_le_length long,
          List.drop_append_of_le_length long]
      · rw [List.length_take]
        omega
      · rw [List.getElem?_take_of_lt (by omega), ← colon, List.getElem?_append_left (by omega)]
    · exact ⟨[], r, by rw [NtPath.splitdrive, if_neg colon], .inl rfl, closed⟩
  · have second : (d ++ (r ++ name))[1]? = some ':' := by
      rw [List.getElem?_append_left (by omega), colon]
    refine ⟨d, r, ?_, .inr ⟨two, colon⟩, closed⟩
    rw [NtPath.splitdrive, if_pos second, ← two, List.take_left, List.drop_left]

theorem EndsIn.basename (file : FileName name) (h : EndsIn name path) : basename path = name := by
  obtain ⟨d, r, split, -, closed⟩ := h.splitdrive file
  have inside : ∀ c ∈ name.reverse, decide (c ≠ '\\' ∧ c ≠ '/') = true := by
    intro c mem
    rw [List.mem_reverse] at mem
    refine decide_eq_true ⟨?_, ?_⟩
    · rintro rfl
      exact file.backslash mem
    · rintro rfl
      exact file.slash mem
  have outside : r.reverse.takeWhile (fun c => c ≠ '\\' ∧ c ≠ '/') = [] := by
    rcases List.eq_nil_or_concat' r with rfl | ⟨v, c, rfl⟩
    · rfl
    · have slash : c = '\\' ∨ c = '/' := by simpa [Closed] using closed
      rw [List.reverse_append, List.reverse_singleton, List.singleton_append, List.takeWhile_cons_of_neg]
      rcases slash with rfl | rfl <;> simp
  rw [NtPath.basename, split, List.reverse_append, List.takeWhile_append_of_pos inside, outside,
    List.append_nil, List.reverse_reverse]

theorem isDrive_splitdrive (path : Text) :
    ∃ d rest, splitdrive path = (d, rest) ∧ IsDrive d := by
  unfold splitdrive
  split_ifs with colon
  · refine ⟨_, _, rfl, .inr ⟨?_, ?_⟩⟩
    · obtain ⟨long, -⟩ := List.getElem?_eq_some_iff.1 colon
      rw [List.length_take]
      omega
    · rw [List.getElem?_take_of_lt (by omega), colon]
  · exact ⟨_, _, rfl, .inl rfl⟩

theorem EndsIn.join (file : FileName name) (h : EndsIn name path) (dir : Text) :
    EndsIn name (join dir path) := by
  obtain ⟨d, r, split, drive, closed⟩ := h.splitdrive file
  obtain ⟨d', rest, dirSplit, dirDrive⟩ := isDrive_splitdrive dir
  have newDrive : IsDrive (if d ≠ [] then d else d') := by
    split_ifs
    · exact drive
    · exact dirDrive
  rw [NtPath.join, split, dirSplit]
  dsimp only
  generalize (if d ≠ [] then d else d') = front at newDrive ⊢
  split_ifs with rooted other bare
  · exact ⟨front, r, rfl, newDrive, closed⟩
  · exact ⟨d, r, rfl, drive, closed⟩
  · have inside : Closed rest := bare
    exact ⟨front, rest ++ r, by rw [List.append_assoc], newDrive, inside.append closed⟩
  · have inside : Closed (rest ++ ['\\']) := .inr (.inl (by simp))
    exact ⟨front, rest ++ ['\\'] ++ r, by simp, newDrive, inside.append closed⟩

theorem Closed.backslashed (h : Closed u) : Closed (backslashed u) := by
  unfold Closed NtPath.backslashed
  rcases h with rfl | slash | slash
  · exact .inl rfl
  · exact .inr (.inl (by rw [List.getLast?_map, slash]; rfl))
  · exact .inr (.inl (by rw [List.getLast?_map, slash]; rfl))

theorem EndsIn.backslashed (file : FileName name) (h : EndsIn name path) :
    EndsIn name (backslashed path) := by
  obtain ⟨d, r, rfl, drive, closed⟩ := h
  have same : NtPath.backslashed name = name := by
    have kept : ∀ c ∈ name, (if c = '/' then '\\' else c) = id c := by
      intro c mem
      refine if_neg ?_
      rintro rfl
      exact file.slash mem
    rw [NtPath.backslashed, List.map_congr_left kept, List.map_id]
  refine ⟨NtPath.backslashed d, NtPath.backslashed r, ?_, ?_, closed.backslashed⟩
  · simp only [NtPath.backslashed, List.map_append] at same ⊢
    rw [same]
  · rcases drive with rfl | ⟨two, colon⟩
    · exact .inl rfl
    · refine .inr ⟨?_, ?_⟩
      · rw [NtPath.backslashed, List.length_map, two]
      · rw [NtPath.backslashed, List.getElem?_map, colon]
        rfl

/-- The root ends in a slash or is a drive, and what follows it ends in the component. -/
theorem EndsIn.splitroot (file : FileName name) (h : EndsIn name path) :
    (∃ d r, (splitroot path).1 = d ++ r ∧ IsDrive d ∧ Closed r) ∧
      ∃ r, (splitroot path).2 = r ++ name ∧ Closed r := by
  obtain ⟨d, r, split, drive, closed⟩ := h.splitdrive file
  have behind : (r ++ name).dropWhile (· = '\\') = r.dropWhile (· = '\\') ++ name := by
    have own : name.dropWhile (· = '\\') = name := by
      cases name with
      | nil => rfl
      | cons c name =>
        refine List.dropWhile_cons_of_neg ?_
        intro slash
        exact file.backslash (by simp [of_decide_eq_true slash])
    rw [List.dropWhile_append, own]
    split_ifs with empty
    · rw [List.isEmpty_iff.1 empty, List.nil_append]
    · rfl
  have rest : Closed (r.dropWhile (· = '\\')) := closed.suffix (List.dropWhile_suffix _)
  rw [NtPath.splitroot, split]
  dsimp only
  split_ifs with noDrive noSlash
  · refine ⟨⟨[], _, rfl, .inl rfl, ?_⟩, _, behind, rest⟩
    rcases List.eq_nil_or_concat' ((r ++ name).takeWhile (· = '\\')) with empty | ⟨v, c, last⟩
    · exact .inl empty
    · have mem : c ∈ (r ++ name).takeWhile (· = '\\') := by
        rw [last]
        simp
      have slash := List.mem_takeWhile_imp mem
      rw [last, of_decide_eq_true slash]
      exact .inr (.inl (by simp))
  · exact ⟨⟨d, [], (List.append_nil d).symm, drive, .inl rfl⟩, r, rfl, closed⟩
  · exact ⟨⟨d, ['\\'], rfl, drive, .inr (.inl rfl)⟩, _, behind, rest⟩

theorem slash_not_mem_backslashed (path : Text) : '/' ∉ backslashed path := by
  intro mem
  obtain ⟨c, -, same⟩ := List.mem_map.1 mem
  split_ifs at same with slash
  · cases same
  · exact slash same

theorem normalize_name (file : FileName name) (rooted : Bool) (kept : List Text) :
    normalize rooted kept name = kept ++ [name] := by
  rw [normalize, if_neg (by simp [file.ne, file.dot]), if_neg file.dots]

theorem EndsIn.normpath (file : FileName name) (h : EndsIn name path) :
    EndsIn name (normpath path) := by
  rw [NtPath.normpath]
  split_ifs with device
  · exact h
  · obtain ⟨⟨d, r₀, root, drive, closed₀⟩, r, rest, closed⟩ := (h.backslashed file).splitroot file
    obtain ⟨suffix, -⟩ := splitroot_spec (NtPath.backslashed path)
    generalize NtPath.splitroot (NtPath.backslashed path) = parts at root rest suffix ⊢
    obtain ⟨front, back⟩ := parts
    dsimp only at root rest suffix ⊢
    obtain ⟨cs, cut⟩ : ∃ cs, back.splitOn '\\' = cs ++ [name] := by
      have own : name.splitOn '\\' = [name] := List.splitOn_eq_singleton file.backslash
      rcases List.eq_nil_or_concat' r with rfl | ⟨v, c, rfl⟩
      · exact ⟨[], by rw [rest, List.nil_append, own]; rfl⟩
      · have noSlash : c ≠ '/' := by
          rintro rfl
          exact slash_not_mem_backslashed path (suffix.subset (by simp [rest]))
        have slash : c = '\\' := by simpa [Closed, noSlash] using closed
        refine ⟨v.splitOn '\\', ?_⟩
        rw [rest, slash, List.append_assoc, List.singleton_append,
          List.splitOn_append_cons_of_beq _ _ (beq_self_eq_true '\\'), own]
    rw [cut, List.foldl_concat, normalize_name file]
    generalize cs.foldl (normalize _) [] = kept
    rw [if_neg (by simp), Lines.intercalate_concat, root]
    refine ⟨d, r₀ ++ Lines.unlines '\\' kept, by simp only [List.append_assoc], drive,
      closed₀.append ?_⟩
    rcases List.eq_nil_or_concat' kept with rfl | ⟨before, c, rfl⟩
    · exact .inl rfl
    · exact .inr (.inl (by simp [Lines.unlines]))

end Ydfs.Wubi.NtPath
