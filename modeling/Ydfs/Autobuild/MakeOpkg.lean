import Mathlib.Data.List.DropRight
import Ydfs.Autobuild.AlreadyBuilt
import Ydfs.Text.Lines
import Ydfs.Text.Search

/-!
# Control files of packages

`make_opkg` takes the name and the version of a package from the name of its directory, and writes
them to `CONTROL/control`.  It cuts the name of the directory at its hyphens and takes the fields at
fixed places, so that a name with two hyphens or more is cut short.
-/

namespace Ydfs.Autobuild.MakeOpkg

open AlreadyBuilt (Name grep lower)

/-! ### Commands -/

/-- `cut -d sep -f numbers` of one line; a line without the separator is passed on whole. -/
def cut (sep : Char) (numbers : List ℕ) (line : Name) : Name :=
  if sep ∈ line then
    [sep].intercalate (numbers.filterMap fun i => (line.splitOn sep)[i - 1]?)
  else line

/-- `sed "s/a/b/"` of one line. -/
def sed (a b : Char) (line : Name) : Name := line.set (line.idxOf a) b

/-- `basename` of a path that ends with a name. -/
def basename (path : Name) : Name := path.rtakeWhile (· ≠ '/')

/-- `$(command)`, from the lines of its output. -/
def substitution (lines : List Name) : Name :=
  (['\n'].intercalate lines).rdropWhile (· = '\n')

/-! ### The script -/

/-- What the script takes from its surroundings: variables that may be set, the date, the fixes that
`ls` lists (if it does), the lines of `packages.desc` that `grep` finds for a name, and those with
`pkgdes` in the file of `archpkg` for a name, if it exists. -/
structure Surroundings where
  arch : Name := []
  dbextra : Name := []
  pkgsrc : Name := []
  depends : Name := []
  today : Name := []
  listfix : Option Name := none
  packagesDesc : Name → List Name := fun _ => []
  archpkg : Name → Option (List Name) := fun _ => none

/-- The variables of the script. -/
structure Variables where
  name : Name
  pkgver : Name
  dbextra : Name
  pkgsrc : Name
  pkgdesc : Name

/-- `PKGNAME`. -/
def pkgname (pwd : Name) : Name :=
  if grep "SDL2_ttf".toList pwd then "SDL2ttf".toList
  else sed '_' '-' (cut '_' [1] (basename pwd))

/-- `NAME` and `PKGVER` from the fields of `PKGNAME`. -/
def nameOf (pkgname : Name) : Name × Name :=
  if cut '-' [1, 2] pkgname ≠ pkgname then
    (lower (cut '-' [1, 2] pkgname), cut '-' [3] pkgname)
  else
    let pkgver := cut '-' [2] pkgname
    (if pkgver = "data".toList then pkgname else lower (cut '-' [1] pkgname), pkgver)

/-- `NAME` and `PKGVER` for paths with a name of their own, one after the other.  The first `NAME`
for `NVIDIA-Linux` is replaced by the next line. -/
def override (pwd : Name) (found : Name × Name) : Name × Name :=
  let squeak := if grep "Squeak".toList pwd then ("squeak".toList, "latest".toList) else found
  let nvidiaLinux :=
    if grep "NVIDIA-Linux".toList pwd then ("nvidia".toList, cut '-' [4] (basename pwd)) else squeak
  if grep "nvidia-".toList pwd then (lower (cut '.' [1] (basename pwd)), nvidiaLinux.2)
  else nvidiaLinux

/-- `PKGDESC` by the name of the package. -/
def describe (env : Surroundings) (name : Name) : Name :=
  if name = "mc".toList then
    "Midnight Commander is a text based filemanager/shell that emulates Norton Command".toList
  else if name = "filezilla".toList then "FTP Client".toList
  else if name = "recordmydesktop".toList then "Record desktop session".toList
  else if env.packagesDesc name ≠ [] then
    substitution ((env.packagesDesc name).map (cut ';' [2]))
  else []

/-- The names with a section, a version and a description of their own. -/
def ownVersions : List (Name × Name × Name × Name) :=
  [("thunderbird", "Internet", "31.2", "Mail client"),
    ("firefox", "Internet", "latest", "Firefox Web browser"),
    ("flash", "Internet", "latest", "Adobe Flash plugin"),
    ("chrome", "Internet", "latest", "Chrome Web browser"),
    ("playonlinux", "games", "4.2.5", "Play Linux Games with Wine"),
    ("spring", "games", "98.0", "RTS Game")].map
    fun (name, dbextra, pkgver, pkgdesc) =>
      (name.toList, dbextra.toList, pkgver.toList, pkgdesc.toList)

/-- The source of the packages with a version of their own. -/
def bugtracker : Name := "http://bugtracker.linuxconsole.org".toList

/-- The line for the package of fixes; its description is set if the fixes are listed. -/
def fixes (env : Surroundings) (vars : Variables) : Variables :=
  if vars.name = "fixes".toList then
    { vars with
      dbextra := "FixBugs".toList
      pkgver := env.today
      pkgsrc := bugtracker
      pkgdesc := match env.listfix with
        | none => vars.pkgdesc
        | some fixes => "Fix all ydfs known bugs : ".toList ++ fixes }
  else vars

/-- The lines for the other names with a version of their own. -/
def ownVersion (vars : Variables) : Variables :=
  match ownVersions.find? fun own => own.1 = vars.name with
  | none => vars
  | some (_, dbextra, pkgver, pkgdesc) =>
    { vars with dbextra := dbextra, pkgver := pkgver, pkgsrc := bugtracker, pkgdesc := pkgdesc }

/-- `PKGDESC` when nothing else is known. -/
def fallbackDesc (env : Surroundings) (vars : Variables) : Variables :=
  let pkgdesc :=
    if vars.pkgdesc ≠ [] then vars.pkgdesc
    else match env.archpkg vars.name with
      | none => []
      | some lines => substitution (lines.map (cut '=' [2]))
  { vars with pkgdesc := if pkgdesc = [] then vars.name else pkgdesc }

/-- The variables at the end of the script. -/
def script (env : Surroundings) (pwd : Name) : Variables :=
  let (name, pkgver) := override pwd (nameOf (pkgname pwd))
  fallbackDesc env <| ownVersion <| fixes env
    { name := name, pkgver := pkgver, dbextra := env.dbextra, pkgsrc := env.pkgsrc,
      pkgdesc := describe env name }

/-- `DEPENDS`, where it is set. -/
def dependencies : List (Name × Name) :=
  [("gbrainy", "mono, gtk-sharp"), ("filezilla", "libfilezilla"), ("steam", "waffle"),
    ("xsane", "gimp"), ("gtk-recordmydesktop", "recordmydesktop"), ("advancemame", "mame"),
    ("vmpk", "drumstick"), ("conky", "imlib2"), ("scratch", "squeak"),
    ("gnome-mplayer", "gmtk, mplayer-export"), ("celestia", "pangox-compat,gtkglext"),
    ("khangman", "libkdeedu"), ("kajongg", "libkmahjongg")].map
    fun (name, depends) => (name.toList, depends.toList)

/-- The fields of the control file. -/
def fields (env : Surroundings) (vars : Variables) : List (Name × Name) :=
  [("Package".toList, vars.name),
    ("Priority".toList, "optional".toList),
    ("Version".toList, vars.pkgver),
    ("Architecture".toList, (if env.arch = "x86".toList then "i686" else "x86_64").toList),
    ("Maintainer".toList, "Yann (http://www.linuxconsole.org/contact)".toList),
    ("Depends".toList, (dependencies.lookup vars.name).getD env.depends),
    ("Source".toList, if vars.pkgsrc = [] then "http://linuxconsole.org".toList else vars.pkgsrc),
    ("Section".toList, if vars.dbextra = [] then "extras".toList else vars.dbextra),
    ("Description".toList, vars.pkgdesc ++ [' '])]

/-- A field on its line. -/
def line (f : Name × Name) : Name := f.1 ++ ": ".toList ++ f.2

/-- `CONTROL/control`, with the empty line that the text of `echo` begins with. -/
def control (env : Surroundings) (pwd : Name) : Name :=
  '\n' :: Lines.unlines '\n' ((fields env (script env pwd)).map line)

/-- A field of a control file: what follows its name on the first line that has it. -/
def field (key control : Name) : Option Name :=
  (control.splitOn '\n').findSome? fun line =>
    if key ++ ": ".toList <+: line then some (line.drop (key.length + 2)) else none

/-! ### Directories -/

/-- The characters at which the shell takes an expansion apart, and those of its patterns. -/
def shellSpecial : List Char := [' ', '\t', '\n', '*', '?', '[', '\\']

/-- The names that the script overrides. -/
def Special (n v : Name) : Prop :=
  (∃ word ∈ ["Squeak", "NVIDIA-Linux", "nvidia-"], word.toList <:+: n ++ '-' :: v) ∨
    lower n = "fixes".toList ∨ lower n ∈ ownVersions.map Prod.fst ∨ '-' ∉ n ∧ v = "data".toList

instance (n v : Name) : Decidable (Special n v) := inferInstanceAs (Decidable (_ ∨ _))

/-- A directory of a package `n` in the version `v`: not a special one, and on a path that an expansion
without quotes leaves as it is. -/
structure PackageDir where
  parent : Name
  n : Name
  v : Name
  named : n ≠ []
  no_slash : '/' ∉ n ++ v
  no_underscore : '_' ∉ n ++ v
  no_hyphen : '-' ∉ v
  plain : ∀ c ∈ parent ++ n ++ v, c ∉ shellSpecial
  ordinary : ¬ Special n v

namespace PackageDir

/-- The name of the directory. -/
def dirname (d : PackageDir) : Name := d.n ++ '-' :: d.v

/-- `$PWD`. -/
def path (d : PackageDir) : Name := d.parent ++ '/' :: d.dirname

end PackageDir

/-! ### Fields -/

theorem cut_of_not_mem {sep : Char} {line : Name} (h : sep ∉ line) (numbers : List ℕ) :
    cut sep numbers line = line := if_neg h

theorem sed_of_not_mem {a : Char} {line : Name} (h : a ∉ line) (b : Char) : sed a b line = line := by
  rw [sed, List.idxOf_of_notMem h, List.set_eq_of_length_le le_rfl]

theorem basename_append {name : Name} (h : '/' ∉ name) (parent : Name) :
    basename (parent ++ '/' :: name) = name := by
  have free : ∀ c ∈ name.reverse, decide (c ≠ '/') = true := by
    intro c hc
    rw [decide_eq_true_eq]
    rintro rfl
    exact h (List.mem_reverse.1 hc)
  rw [basename, List.rtakeWhile, List.reverse_append, List.reverse_cons, List.append_assoc,
    List.takeWhile_append_of_pos free]
  simp

/-- The fields are of the line. -/
theorem mem_of_mem_cut {sep c : Char} {numbers : List ℕ} {line : Name} (h : c ∈ cut sep numbers line) :
    c ∈ line := by
  by_cases there : sep ∈ line
  · rw [cut, if_pos there] at h
    rcases Lines.mem_of_mem_intercalate h with rfl | ⟨l, field, inside⟩
    · exact there
    · obtain ⟨i, -, found⟩ := List.mem_filterMap.1 field
      have whole : c ∈ [sep].intercalate (line.splitOn sep) :=
        Lines.mem_intercalate (List.mem_of_getElem? found) inside
      rwa [List.intercalate_splitOn] at whole
  · rwa [cut_of_not_mem there] at h

/-- A line with a third field is longer than its first two. -/
theorem length_cut_two {line : Name} (h : 2 ≤ line.count '-') :
    (cut '-' [1, 2] line).length < line.length := by
  have there : '-' ∈ line := List.count_pos_iff.1 (by omega)
  have joined : ['-'].intercalate (line.splitOn '-') = line := List.intercalate_splitOn '-'
  have count := Lines.length_splitOn '-' line
  rcases split : line.splitOn '-' with _ | ⟨a, _ | ⟨b, _ | ⟨c, rest⟩⟩⟩
  · simp [split] at count
  · simp [split] at count
    omega
  · simp [split] at count
    omega
  · have length := congrArg List.length joined
    rw [split, List.intercalate_cons_cons, List.intercalate_cons_cons] at length
    simp only [List.length_append, List.length_singleton] at length
    simp [cut, there, split]
    omega

theorem cut_two {line : Name} (h : line.count '-' ≤ 1) : cut '-' [1, 2] line = line := by
  have joined : ['-'].intercalate (line.splitOn '-') = line := List.intercalate_splitOn '-'
  have count := Lines.length_splitOn '-' line
  by_cases there : '-' ∈ line
  · have one : line.count '-' = 1 := le_antisymm h (List.count_pos_iff.2 there)
    rw [one] at count
    rcases split : line.splitOn '-' with _ | ⟨a, _ | ⟨b, _ | ⟨c, rest⟩⟩⟩
    · simp [split] at count
    · simp [split] at count
    · simpa [cut, there, split] using joined
    · simp [split] at count
  · exact cut_of_not_mem there _

/-- The first field is what stands before the separator. -/
theorem cut_first (sep : Char) (line : Name) : cut sep [1] line = line.takeWhile (· ≠ sep) := by
  by_cases there : sep ∈ line
  · obtain ⟨u, v, rfl, free⟩ := List.eq_append_cons_of_mem there
    have pass : ∀ c ∈ u, decide (c ≠ sep) = true := by
      intro c hc
      rw [decide_eq_true_eq]
      rintro rfl
      exact free hc
    rw [cut, if_pos there, List.splitOn_append_cons_of_beq _ _ (beq_self_eq_true sep),
      List.splitOn_eq_singleton free, List.takeWhile_append_of_pos pass]
    simp
  · rw [cut_of_not_mem there, List.takeWhile_eq_self_iff.2]
    intro c hc
    rw [decide_eq_true_eq]
    rintro rfl
    exact there hc

theorem splitOn_dirname {n v : Name} (no_hyphen : '-' ∉ v) :
    (n ++ '-' :: v).splitOn '-' = n.splitOn '-' ++ [v] := by
  rw [List.splitOn_append_cons_of_beq _ _ (beq_self_eq_true '-'), List.splitOn_eq_singleton no_hyphen]

/-- The fields of `n-v` that lie in `n`. -/
theorem cut_dirname {n v : Name} {numbers : List ℕ} (no_hyphen : '-' ∉ v) (mem : '-' ∈ n)
    (h : ∀ i ∈ numbers, i ≤ n.count '-' + 1) :
    cut '-' numbers (n ++ '-' :: v) = cut '-' numbers n := by
  have there : '-' ∈ n ++ '-' :: v := List.mem_append_left _ mem
  rw [cut, if_pos there, cut, if_pos mem, splitOn_dirname no_hyphen]
  congr 1
  apply List.filterMap_congr
  intro i hi
  apply List.getElem?_append_left
  have := h i hi
  have := Lines.length_splitOn '-' n
  omega

/-- The first two fields of the name of a directory, and the third one. -/
theorem nameOf_dirname {n v : Name} (no_hyphen : '-' ∉ v) (ordinary : '-' ∉ n → v ≠ "data".toList) :
    nameOf (n ++ '-' :: v) =
      (lower (cut '-' [1, 2] n), if n.count '-' ≤ 1 then v else cut '-' [3] n) := by
  have fields := splitOn_dirname (n := n) no_hyphen
  have there : '-' ∈ n ++ '-' :: v := by simp
  by_cases free : '-' ∉ n
  · have none : n.count '-' = 0 := List.count_eq_zero.2 free
    have single := List.splitOn_eq_singleton free
    have whole : cut '-' [1, 2] (n ++ '-' :: v) = n ++ '-' :: v := by simp [cut, fields, single]
    have first : cut '-' [1] (n ++ '-' :: v) = n := by simp [cut, fields, single]
    have second : cut '-' [2] (n ++ '-' :: v) = v := by simp [cut, fields, single]
    simp only [nameOf, whole, first, second, ne_eq, not_true_eq_false, if_false,
      if_neg (ordinary free), cut_of_not_mem free, none, Nat.zero_le, if_true]
  rw [not_not] at free
  have positive : 1 ≤ n.count '-' := List.count_pos_iff.2 free
  have first : cut '-' [1, 2] (n ++ '-' :: v) = cut '-' [1, 2] n := by
    apply cut_dirname no_hyphen free
    simp
    omega
  have third : cut '-' [3] (n ++ '-' :: v) = if n.count '-' ≤ 1 then v else cut '-' [3] n := by
    split_ifs with one
    · have count := Lines.length_splitOn '-' n
      have last : (n.splitOn '-' ++ [v])[2]? = some v := by
        rw [List.getElem?_append_right (by omega), count, show 2 - (n.count '-' + 1) = 0 by omega]
        rfl
      simp [cut, fields, last]
    · apply cut_dirname no_hyphen free
      simp
      omega
  have ne : cut '-' [1, 2] n ≠ n ++ '-' :: v := by
    have short : (cut '-' [1, 2] n).length ≤ n.length := by
      rcases Nat.lt_or_ge 1 (n.count '-') with more | one
      · exact (length_cut_two more).le
      · rw [cut_two one]
    intro same
    rw [same, List.length_append, List.length_cons] at short
    omega
  rw [nameOf, first, if_pos ne, third]

/-! ### The control file -/

theorem splitOn_line {line : Name} (h : '\n' ∉ line) (rest : Name) :
    (line ++ '\n' :: rest).splitOn '\n' = line :: rest.splitOn '\n' := by
  rw [List.splitOn_append_cons_of_beq _ _ (beq_self_eq_true '\n'), List.splitOn_eq_singleton h,
    List.singleton_append]

/-- A field on the first line. -/
theorem field_line {key value : Name} (h : '\n' ∉ line (key, value)) (rest : Name) :
    field key (line (key, value) ++ '\n' :: rest) = some value := by
  have here : key ++ ": ".toList <+: key ++ ": ".toList ++ value := List.prefix_append _ _
  have length : (key ++ ": ".toList).length = key.length + 2 := by simp
  rw [field, splitOn_line h, List.findSome?_cons, line, if_pos here, ← length, List.drop_left]

/-- A line that begins with another letter. -/
theorem field_cons {key line : Name} (h : '\n' ∉ line) (ne : key ≠ [])
    (other : key.head? ≠ line.head?) (rest : Name) :
    field key (line ++ '\n' :: rest) = field key rest := by
  have apart : ¬ key ++ ": ".toList <+: line := by
    rintro ⟨t, rfl⟩
    obtain ⟨c, key, rfl⟩ := List.exists_cons_of_ne_nil ne
    exact other rfl
  rw [field, splitOn_line h, List.findSome?_cons, if_neg apart, field]

variable (env : Surroundings) {pwd : Name}

theorem not_mem_line {key value : Name} (hkey : '\n' ∉ key) (hvalue : '\n' ∉ value) :
    '\n' ∉ line (key, value) := by
  have colon : '\n' ∉ ": ".toList := by decide
  simp only [line, List.mem_append, not_or]
  exact ⟨⟨hkey, colon⟩, hvalue⟩

theorem control_eq (pwd : Name) : ∃ rest, control env pwd =
    [] ++ '\n' :: (line ("Package".toList, (script env pwd).name) ++ '\n' ::
      (line ("Priority".toList, "optional".toList) ++ '\n' ::
        (line ("Version".toList, (script env pwd).pkgver) ++ '\n' :: rest))) := by
  refine ⟨Lines.unlines '\n' (((fields env (script env pwd)).drop 3).map line), ?_⟩
  simp only [control, fields, Lines.unlines, List.map_cons, List.flatMap_cons, List.drop_succ_cons,
    List.drop_zero, List.nil_append, List.append_assoc, List.singleton_append]

/-- `Package` is `NAME`. -/
theorem field_package (hname : '\n' ∉ (script env pwd).name) :
    field "Package".toList (control env pwd) = some (script env pwd).name := by
  obtain ⟨rest, split⟩ := control_eq env pwd
  rw [split, field_cons List.not_mem_nil (by decide) (by decide)]
  exact field_line (not_mem_line (by decide) hname) _

/-- `Version` is `PKGVER`. -/
theorem field_version (hname : '\n' ∉ (script env pwd).name)
    (hver : '\n' ∉ (script env pwd).pkgver) :
    field "Version".toList (control env pwd) = some (script env pwd).pkgver := by
  obtain ⟨rest, split⟩ := control_eq env pwd
  have ne : "Version".toList ≠ [] := by decide
  have other : "Version".toList.head? ≠ (line ("Package".toList, (script env pwd).name)).head? :=
    show some 'V' ≠ some 'P' by decide
  rw [split, field_cons List.not_mem_nil ne (by decide),
    field_cons (not_mem_line (by decide) hname) ne other, field_cons (by decide) ne (by decide)]
  exact field_line (not_mem_line (by decide) hver) _

/-! ### Names of directories -/

namespace PackageDir

variable (d : PackageDir)

/-- A word without a slash that a test finds in the path is in the parent or in the name. -/
theorem grep_path {word : Name} (h : '/' ∉ word) :
    grep word d.path = (grep word d.parent || grep word d.dirname) := by
  rw [Bool.eq_iff_iff, Bool.or_eq_true, grep, grep, grep, decide_eq_true_iff, decide_eq_true_iff,
    decide_eq_true_iff]
  exact Search.infix_append_cons_iff h

theorem not_grep_dirname {word : String}
    (h : word ∈ ["SDL2_ttf", "Squeak", "NVIDIA-Linux", "nvidia-"]) :
    grep word.toList d.dirname = false := by
  have free : '_' ∉ d.dirname := by
    have := d.no_underscore
    simp only [dirname, List.mem_append, List.mem_cons, not_or] at this ⊢
    exact ⟨this.1, by decide, this.2⟩
  rw [grep, decide_eq_false_iff_not]
  intro there
  rcases List.mem_cons.1 h with rfl | h
  · exact free (there.subset (by decide))
  · exact d.ordinary (.inl ⟨word, h, there⟩)

theorem basename_path : basename d.path = d.dirname := by
  have := d.no_slash
  apply basename_append
  simp only [dirname, List.mem_append, List.mem_cons, not_or] at this ⊢
  exact ⟨this.1, by decide, this.2⟩

/-- The path of the parent has the word in it. -/
def Above (word : String) : Prop := word.toList <:+: d.parent

instance (word : String) : Decidable (d.Above word) := inferInstanceAs (Decidable (_ <:+: _))

theorem grep_special {word : String} (h : word ∈ ["SDL2_ttf", "Squeak", "NVIDIA-Linux", "nvidia-"]) :
    grep word.toList d.path = decide (d.Above word) := by
  have free : '/' ∉ word.toList := by
    revert word
    decide
  rw [d.grep_path free, d.not_grep_dirname h, Bool.or_false]
  rfl

/-- The name that the script gives: up to the second hyphen, unless a directory above has a name that
the script overrides. -/
def shortName : Name :=
  if d.Above "nvidia-" then lower (d.dirname.takeWhile (· ≠ '.'))
  else if d.Above "NVIDIA-Linux" then "nvidia".toList
  else if d.Above "Squeak" then "squeak".toList
  else if d.Above "SDL2_ttf" then "sdl2ttf".toList
  else lower (cut '-' [1, 2] d.n)

/-- The name has at most one hyphen, and no directory above has a name that the script overrides, but
for the case that the overriding name and version are those of the directory. -/
def Plain : Prop :=
  if d.Above "nvidia-" then False
  else if d.Above "NVIDIA-Linux" then lower d.n = "nvidia".toList ∧ d.v = []
  else if d.Above "Squeak" then lower d.n = "squeak".toList ∧ d.v = "latest".toList
  else if d.Above "SDL2_ttf" then lower d.n = "sdl2ttf".toList ∧ d.v = "SDL2ttf".toList
  else d.n.count '-' ≤ 1

/-- The version that the script gives. -/
def shortVersion : Name :=
  if d.Above "NVIDIA-Linux" then cut '-' [4] d.dirname
  else if d.Above "Squeak" then "latest".toList
  else if d.Above "SDL2_ttf" then "SDL2ttf".toList
  else if d.n.count '-' ≤ 1 then d.v
  else cut '-' [3] d.n

theorem pkgname_path :
    pkgname d.path = if d.Above "SDL2_ttf" then "SDL2ttf".toList else d.dirname := by
  have free : '_' ∉ d.dirname := by
    have := d.no_underscore
    simp only [dirname, List.mem_append, List.mem_cons, not_or] at this ⊢
    exact ⟨this.1, by decide, this.2⟩
  rw [pkgname, d.grep_special (by decide), d.basename_path, cut_of_not_mem free,
    sed_of_not_mem free]
  simp only [decide_eq_true_eq]

theorem override_path : override d.path (nameOf (pkgname d.path)) = (d.shortName, d.shortVersion) := by
  have sdl : nameOf "SDL2ttf".toList = ("sdl2ttf".toList, "SDL2ttf".toList) := by decide
  have own : nameOf d.dirname =
      (lower (cut '-' [1, 2] d.n), if d.n.count '-' ≤ 1 then d.v else cut '-' [3] d.n) :=
    nameOf_dirname d.no_hyphen fun free data => d.ordinary (.inr (.inr (.inr ⟨free, data⟩)))
  have found : nameOf (pkgname d.path) =
      if d.Above "SDL2_ttf" then ("sdl2ttf".toList, "SDL2ttf".toList)
      else (lower (cut '-' [1, 2] d.n), if d.n.count '-' ≤ 1 then d.v else cut '-' [3] d.n) := by
    rw [d.pkgname_path]
    by_cases above : d.Above "SDL2_ttf"
    · rw [if_pos above, if_pos above, sdl]
    · rw [if_neg above, if_neg above, own]
  rw [override, d.grep_special (by decide), d.grep_special (by decide), d.grep_special (by decide),
    found, d.basename_path, cut_first, shortName, shortVersion]
  simp only [decide_eq_true_eq]
  split_ifs <;> rfl

/-- What follows the first dot is left out, and the name ends at a hyphen. -/
theorem takeWhile_dirname_ne : lower (d.dirname.takeWhile (· ≠ '.')) ≠ lower d.n := by
  intro same
  have length := congrArg List.length same
  rw [lower, lower, List.length_map, List.length_map, dirname] at length
  by_cases dot : '.' ∈ d.n
  · obtain ⟨u, w, split, free⟩ := List.eq_append_cons_of_mem dot
    have pass : ∀ c ∈ u, decide (c ≠ '.') = true := by
      intro c hc
      rw [decide_eq_true_eq]
      rintro rfl
      exact free hc
    rw [split, List.append_assoc, List.takeWhile_append_of_pos pass, List.cons_append,
      List.takeWhile_cons_of_neg (by decide), List.append_nil, List.length_append,
      List.length_cons] at length
    omega
  · have pass : ∀ c ∈ d.n, decide (c ≠ '.') = true := by
      intro c hc
      rw [decide_eq_true_eq]
      rintro rfl
      exact dot hc
    rw [List.takeWhile_append_of_pos pass, List.length_append, List.takeWhile_cons_of_pos (by decide),
      List.length_cons] at length
    omega

theorem short_iff : d.shortName = lower d.n ∧ d.shortVersion = d.v ↔ d.Plain := by
  rw [shortName, shortVersion, Plain]
  by_cases nvidia : d.Above "nvidia-"
  · rw [if_pos nvidia, if_pos nvidia]
    exact ⟨fun h => d.takeWhile_dirname_ne h.1, False.elim⟩
  rw [if_neg nvidia, if_neg nvidia]
  by_cases linux : d.Above "NVIDIA-Linux"
  · rw [if_pos linux, if_pos linux, if_pos linux, eq_comm]
    refine and_congr_right fun name => ?_
    have free : '-' ∉ d.n := by
      intro there
      have := List.mem_map_of_mem (f := Char.toLower) there
      rw [← lower, name] at this
      revert this
      decide
    have fields : d.dirname.splitOn '-' = [d.n, d.v] := by
      rw [dirname, splitOn_dirname d.no_hyphen, List.splitOn_eq_singleton free, List.singleton_append]
    have none : cut '-' [4] d.dirname = [] := by
      rw [cut, if_pos (by simp [dirname]), fields]
      rfl
    rw [none, eq_comm]
  rw [if_neg linux, if_neg linux, if_neg linux]
  by_cases squeak : d.Above "Squeak"
  · rw [if_pos squeak, if_pos squeak, if_pos squeak, eq_comm, eq_comm (b := d.v)]
  rw [if_neg squeak, if_neg squeak, if_neg squeak]
  by_cases sdl : d.Above "SDL2_ttf"
  · rw [if_pos sdl, if_pos sdl, if_pos sdl, eq_comm, eq_comm (b := d.v)]
  rw [if_neg sdl, if_neg sdl, if_neg sdl]
  constructor
  · rintro ⟨name, -⟩
    by_contra more
    have short : (cut '-' [1, 2] d.n).length < d.n.length := length_cut_two (by omega)
    have length := congrArg List.length name
    rw [lower, lower, List.length_map, List.length_map] at length
    omega
  · intro one
    rw [cut_two one, if_pos one]
    exact ⟨rfl, rfl⟩

end PackageDir

/-! ### The script -/

theorem name_script (env : Surroundings) (pwd : Name) :
    (script env pwd).name = (override pwd (nameOf (pkgname pwd))).1 := by
  have own (vars : Variables) : (ownVersion vars).name = vars.name := by
    unfold ownVersion
    split <;> rfl
  have fix (vars : Variables) : (fixes env vars).name = vars.name := by
    unfold fixes
    split <;> rfl
  exact (own _).trans (fix _)

theorem pkgver_script (env : Surroundings) {pwd : Name}
    (other : (script env pwd).name ≠ "fixes".toList)
    (none : (script env pwd).name ∉ ownVersions.map Prod.fst) :
    (script env pwd).pkgver = (override pwd (nameOf (pkgname pwd))).2 := by
  rw [name_script] at other none
  have fix (vars : Variables) (h : vars.name ≠ "fixes".toList) : fixes env vars = vars := if_neg h
  have own (vars : Variables) (h : vars.name ∉ ownVersions.map Prod.fst) :
      ownVersion vars = vars := by
    have nothing : ownVersions.find? (fun own => own.1 = vars.name) = Option.none := by
      rw [List.find?_eq_none]
      intro own hown same
      exact h (List.mem_map.2 ⟨own, hown, of_decide_eq_true same⟩)
    rw [ownVersion, nothing]
  let vars : Variables :=
    { name := (override pwd (nameOf (pkgname pwd))).1
      pkgver := (override pwd (nameOf (pkgname pwd))).2
      dbextra := env.dbextra
      pkgsrc := env.pkgsrc
      pkgdesc := describe env (override pwd (nameOf (pkgname pwd))).1 }
  change (ownVersion (fixes env vars)).pkgver = vars.pkgver
  rw [fix vars other, own vars none]

namespace PackageDir

variable (d : PackageDir)

theorem not_mem_dirname : '\n' ∉ d.dirname := by
  intro h
  rw [dirname, List.mem_append, List.mem_cons] at h
  have special : '\n' ∈ shellSpecial := by decide
  rcases h with h | h | h
  · exact d.plain _ (by simp [h]) special
  · cases h
  · exact d.plain _ (by simp [h]) special

theorem not_mem_lower {name : Name} (h : '\n' ∉ name) : '\n' ∉ lower name := by
  intro mem
  obtain ⟨c, hc, same⟩ := List.mem_map.1 mem
  obtain rfl := Lines.eq_of_toLower same (.inl (by decide))
  exact h hc

theorem not_mem_shortName : '\n' ∉ d.shortName := by
  have name : '\n' ∉ d.n := fun h => d.not_mem_dirname (List.mem_append_left _ h)
  unfold shortName
  split_ifs
  · exact not_mem_lower fun h => d.not_mem_dirname ((List.takeWhile_prefix _).subset h)
  · decide
  · decide
  · decide
  · exact not_mem_lower fun h => name (mem_of_mem_cut h)

theorem not_mem_shortVersion : '\n' ∉ d.shortVersion := by
  have name : '\n' ∉ d.n := fun h => d.not_mem_dirname (List.mem_append_left _ h)
  unfold shortVersion
  split_ifs
  · exact fun h => d.not_mem_dirname (mem_of_mem_cut h)
  · decide
  · decide
  · exact fun h => d.not_mem_dirname (List.mem_append_right _ (List.mem_cons_of_mem _ h))
  · exact fun h => name (mem_of_mem_cut h)

/-- The field `Package` is the short name. -/
theorem package_eq (env : Surroundings) :
    field "Package".toList (control env d.path) = some d.shortName := by
  have name : (script env d.path).name = d.shortName := by rw [name_script, d.override_path]
  rw [field_package env (name ▸ d.not_mem_shortName), name]

/-- The field `Version`, where the short name is the whole one. -/
theorem version_eq (env : Surroundings) (h : d.shortName = lower d.n) :
    field "Version".toList (control env d.path) = some d.shortVersion := by
  have name : (script env d.path).name = d.shortName := by rw [name_script, d.override_path]
  have ver : (script env d.path).pkgver = d.shortVersion := by
    rw [pkgver_script env, d.override_path]
    · exact fun fixes => d.ordinary (.inr (.inl (by rw [← h, ← name, fixes])))
    · exact fun own => d.ordinary (.inr (.inr (.inl (by rwa [← h, ← name]))))
  rw [field_version env (name ▸ d.not_mem_shortName) (ver ▸ d.not_mem_shortVersion), ver]

end PackageDir

/-- `make_opkg` names a package faithfully exactly if its name has at most one hyphen; two packages
get different names exactly if they differ up to the second hyphen. -/
theorem make_opkg_names_iff (env env' : Surroundings) (d d' : PackageDir) :
    (field "Package".toList (control env d.path) = some (lower d.n) ∧
        field "Version".toList (control env d.path) = some d.v ↔ d.Plain) ∧
      ((lower d.n ≠ lower d'.n → field "Package".toList (control env d.path) ≠
          field "Package".toList (control env' d'.path)) ↔
        (lower d.n ≠ lower d'.n → d.shortName ≠ d'.shortName)) := by
  constructor
  · rw [← d.short_iff, d.package_eq env, Option.some.injEq]
    refine and_congr_right fun short => ?_
    rw [d.version_eq env short, Option.some.injEq]
  · rw [d.package_eq env, d'.package_eq env', ne_eq (some _), Option.some.injEq]

/-- A driver of the X server. -/
def vesa : PackageDir where
  parent := "/home/ydfs/ydfs/packages-x86_64".toList
  n := "xf86-video-vesa".toList
  v := "2.3.3".toList
  named := by decide
  no_slash := by decide
  no_underscore := by decide
  no_hyphen := by decide
  plain := List.forall_iff_forall_mem.1 (by decide)
  ordinary := by decide

/-- Another one. -/
def dummy : PackageDir where
  parent := "/home/ydfs/ydfs/packages-x86_64".toList
  n := "xf86-video-dummy".toList
  v := "0.3.7".toList
  named := by decide
  no_slash := by decide
  no_underscore := by decide
  no_hyphen := by decide
  plain := List.forall_iff_forall_mem.1 (by decide)
  ordinary := by decide

/-- Both are packages with the name `xf86-video`. -/
theorem not_make_opkg_names :
    (¬ ∀ (env : Surroundings) (d : PackageDir),
        field "Package".toList (control env d.path) = some (lower d.n) ∧
          field "Version".toList (control env d.path) = some d.v) ∧
      ¬ ∀ (env env' : Surroundings) (d d' : PackageDir), lower d.n ≠ lower d'.n →
        field "Package".toList (control env d.path) ≠
          field "Package".toList (control env' d'.path) := by
  constructor
  · intro names
    have package := (names {} vesa).1
    rw [vesa.package_eq, Option.some.injEq] at package
    revert package
    decide
  · intro differ
    have packages := differ {} {} vesa dummy (by decide)
    rw [vesa.package_eq, dummy.package_eq] at packages
    exact packages (congrArg some (by decide))

/-! ### The name that db-autobuild looks for -/

theorem nameOfFields_eq (pkgname : Name) : AlreadyBuilt.nameOfFields pkgname = (nameOf pkgname).1 := by
  have joined : ['-'].intercalate (pkgname.splitOn '-') = pkgname := List.intercalate_splitOn '-'
  have count := Lines.length_splitOn '-' pkgname
  rw [AlreadyBuilt.nameOfFields]
  rcases split : pkgname.splitOn '-' with _ | ⟨a, _ | ⟨b, _ | ⟨c, rest⟩⟩⟩
  · simp [split] at count
  · rw [split, List.length_singleton] at count
    have free : '-' ∉ pkgname := List.count_eq_zero.1 (by omega)
    simp only [nameOf, cut_of_not_mem free, ne_eq, not_true_eq_false, if_false]
    split_ifs with data
    · rw [data]
      decide
    · rfl
  · have there : '-' ∈ pkgname := by
      refine List.count_pos_iff.1 ?_
      rw [split] at count
      simp at count
      omega
    rw [split] at joined
    have whole : cut '-' [1, 2] pkgname = pkgname := by
      rw [cut, if_pos there, split]
      exact joined
    have second : cut '-' [2] pkgname = b := by
      rw [cut, if_pos there, split]
      exact List.intercalate_singleton
    have first : cut '-' [1] pkgname = a := by
      rw [cut, if_pos there, split]
      exact List.intercalate_singleton
    rw [nameOf, whole, if_neg (not_not.2 rfl), second, first]
  · have more : 2 ≤ pkgname.count '-' := by
      rw [split] at count
      simp at count
      omega
    have there : '-' ∈ pkgname := List.count_pos_iff.1 (by omega)
    have short := length_cut_two more
    have ne : cut '-' [1, 2] pkgname ≠ pkgname := fun same => by
      rw [same] at short
      omega
    have first : cut '-' [1, 2] pkgname = a ++ '-' :: b := by
      rw [cut, if_pos there, split]
      simp
    rw [nameOf, if_pos ne, first]

/-- The package of a source directory has the name that the test for packages that are built already
takes it to have. -/
theorem pkgname_eq_name (env : Surroundings) (host : AlreadyBuilt.Host) (src : AlreadyBuilt.Source)
    (no_slash : '/' ∉ src.mydir) :
    AlreadyBuilt.pkgname host src = (script env (AlreadyBuilt.packageDir host src)).name := by
  have base : basename (AlreadyBuilt.packageDir host src) = src.mydir := basename_append no_slash _
  have free : '_' ∉ src.mydir.takeWhile (· ≠ '_') := fun h => by
    simpa using List.mem_takeWhile_imp h
  rw [name_script, override, base, pkgname, base, cut_first '_', sed_of_not_mem free, cut_first '.',
    AlreadyBuilt.pkgname]
  simp only [nameOfFields_eq]
  split_ifs <;> rfl

end Ydfs.Autobuild.MakeOpkg
