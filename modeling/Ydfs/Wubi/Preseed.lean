import Ydfs.Text.Templates
import Ydfs.Wubi.BootIni
import Ydfs.Wubi.DiskSizes

/-!
# The files made from templates

The preseed files and the configuration of GRUB are templates in which one placeholder `$(key)` after
the other is replaced by its value, in the order in which Python goes through a dictionary.  A value may
come from the user, and a placeholder in it, or one that it completes in the template, is replaced as
well if its turn is still to come.
-/

namespace Ydfs.Wubi.Preseed

open Search Templates
open Win32 (Text)
open Win32.DiskSizes (Plan)

/-! ### The model of the source -/

/-- A dictionary of Python, with texts as values. -/
abbrev Dict := List (String × Text)

/-- `"$(%s)" % k` -/
def placeholder (key : String) : Text := "$(".toList ++ key.toList ++ [')']

/-- The placeholders, and what is to be put in their places. -/
def placeholders (dic : Dict) : Dictionary Char := dic.map fun (k, v) => (placeholder k, v)

/-- The order in which Python goes through the items of a dictionary. -/
structure Iteration where
  items : Dict → Dict
  perm : ∀ dic, (items dic).Perm dic

/-- The loop over the items, each a `template.replace(k, v)`. -/
def replaceAll (items : Dict) (template : Text) : Text := fill (placeholders items) template

/-- `unix_path` -/
def unixPath (path : Text) : Text :=
  let path := replace ['\\'] ['/'] path
  let path := if path[1]? = some ':' then path.drop 2 else path
  if path.length > 1 ∧ path.getLast? = some '/' then path.dropLast else path

/-- The attributes of `info` from which the values are made. -/
structure Info where
  timezone : Text
  password : Text
  keyboardVariant : Text
  keyboardLayout : Text
  locale : Text
  userFullName : Text
  username : Text
  hostUsername : Text
  userDirectory : Text
  distroName : Text
  distroPackages : Text
  disksDir : Text
  custominstall : Text
  sizes : Plan
  runTask : String
  isoPath : Text
  accessibility : Text
  kernel : Text
  initrd : Text

variable (md5Password : Text → Text) (dataFile : Text → Option Text) (info : Info)

/-- The dictionary of `create_preseed_diskimage`. -/
def diskimageDic : Dict :=
  [("timezone", info.timezone),
   ("password", md5Password info.password),
   ("keyboard_variant", info.keyboardVariant),
   ("keyboard_layout", info.keyboardLayout),
   ("locale", info.locale),
   ("user_full_name", info.userFullName),
   ("username", info.username)]

/-- `create_preseed_diskimage`: what is written to preseed.cfg. -/
def createPreseedDiskimage (iteration : Iteration) : Option Text := do
  let template ← dataFile "preseed.disk".toList
  return replaceAll (iteration.items (diskimageDic md5Password info)) template

/-- A line of the recipe for a disk of a certain size, if it has one. -/
def recipe (disksDir : Text) (disk minimum : String) (sizeMb : ℤ) (rest : String) : Text :=
  if sizeMb = 0 then []
  else "  ".toList ++ disksDir ++ disk.toList ++ (" " ++ minimum ++ " ").toList ++ Sax.decimal sizeMb ++
    [' '] ++ Sax.decimal sizeMb ++ rest.toList

/-- How a disk of the default file system is mounted. -/
def mounted (mountpoint : String) : String :=
  " $default_filesystem method\x7b format \x7d format\x7b \x7d use_filesystem\x7b \x7d " ++
    "$default_filesystem\x7b \x7d mountpoint\x7b " ++ mountpoint ++ " \x7d . \\\n"

/-- The value of `partitioning`. -/
def partitioning : Text :=
  let disksDir := unixPath info.disksDir ++ ['/']
  "d-i partman-auto/disk string LIDISK\n".toList ++
    "d-i partman-auto/method string loop\n".toList ++
    "d-i partman-auto-loop/partition string LIPARTITION\n".toList ++
    "d-i partman-auto-loop/recipe string \\\n".toList ++
    recipe disksDir "root.disk" "3000" info.sizes.root (mounted "/") ++
    recipe disksDir "swap.disk" "100" info.sizes.swap
      " linux-swap method\x7b swap \x7d format\x7b \x7d . \\\n" ++
    recipe disksDir "home.disk" "100" info.sizes.home (mounted "/home") ++
    recipe disksDir "usr.disk" "100" info.sizes.usr (mounted "/usr") ++ ['\n']

/-- The dictionary of `create_preseed`. -/
def preseedDic : Dict :=
  [("timezone", info.timezone),
   ("password", md5Password info.password),
   ("user_full_name", info.userFullName),
   ("distro_packages_skip", if info.distroPackages = [] then ['#'] else []),
   ("distro_packages", info.distroPackages),
   ("host_username", info.hostUsername),
   ("username", info.username),
   ("partitioning", partitioning info),
   ("user_directory", (replace ['\\'] ['/'] info.userDirectory).drop 2),
   ("safe_host_username", replace [' '] ['+'] info.hostUsername),
   ("host_os_name", "Windows XP Professional".toList),
   ("custom_installation_dir", unixPath info.custominstall)]

/-- The template of `create_preseed`. -/
def preseedTemplate : Option Text :=
  dataFile ("preseed.".toList ++ info.distroName) <|> dataFile "preseed.lupin".toList

/-- `create_preseed`: what is written to preseed.cfg. -/
def createPreseed (iteration : Iteration) : Option Text := do
  let template ← preseedTemplate dataFile info
  return replaceAll (iteration.items (preseedDic md5Password info)) template

/-- The value of `iso_path`; without an ISO the variable is not bound. -/
def isoPath : Option Text :=
  if info.runTask = "cd_boot" then some []
  else if info.isoPath ≠ [] then some (unixPath info.isoPath)
  else none

/-- The dictionary of `modify_grub_configuration`. -/
def grubDic (isoPath : Text) : Dict :=
  [("custom_installation_dir", unixPath info.custominstall),
   ("iso_path", isoPath),
   ("keyboard_variant", info.keyboardVariant),
   ("keyboard_layout", info.keyboardLayout),
   ("locale", info.locale),
   ("accessibility", info.accessibility),
   ("kernel", unixPath info.kernel),
   ("initrd", unixPath info.initrd),
   ("rootflags", "rootflags=sync".toList),
   ("title1", " LinuxConsole is booting ...".toList),
   ("title2", " Press ESC very quickly for boot options ".toList),
   ("normal_mode_title", "Normal mode".toList),
   ("pae_mode_title", "PAE mode".toList),
   ("safe_graphic_mode_title", "Safe graphic mode".toList),
   ("intel_graphics_workarounds_title", "Intel graphics workarounds".toList),
   ("nvidia_graphics_workarounds_title", "Nvidia graphics workarounds".toList),
   ("acpi_workarounds_title", "ACPI workarounds".toList),
   ("verbose_mode_title", "Verbose mode".toList),
   ("demo_mode_title", "Demo mode".toList)]

/-- What is taken out for a boot from the CD. -/
def withoutIso (content : Text) : Text :=
  if info.runTask = "cd_boot" then
    replace " iso-scan/filename=".toList [] (replace " automatic-ubiquity".toList [] content)
  else content

/-- `modify_grub_configuration`: what is written to grub.cfg. -/
def modifyGrubConfiguration (iteration : Iteration) : Option Text := do
  let template ← dataFile "grub.install.cfg".toList
  let isoPath ← isoPath info
  return withoutIso info (replaceAll (iteration.items (grubDic info isoPath)) template)

/-! ### The files -/

/-- The files that are made from templates. -/
inductive File where
  | diskimage
  | preseed
  | grub

namespace File

/-- The template of a file, if it can be read. -/
def template : File → Option Text
  | diskimage => dataFile "preseed.disk".toList
  | preseed => preseedTemplate dataFile info
  | grub => dataFile "grub.install.cfg".toList

/-- The values for a file, if they are all there. -/
def dic : File → Option Dict
  | diskimage => some (diskimageDic md5Password info)
  | preseed => some (preseedDic md5Password info)
  | grub => (isoPath info).map (grubDic info)

/-- What becomes of the text in which all placeholders are replaced. -/
def finish : File → Text → Text
  | grub => withoutIso info
  | _ => id

/-- What is written to a file. -/
def create (iteration : Iteration) : File → Option Text
  | diskimage => createPreseedDiskimage md5Password dataFile info iteration
  | preseed => createPreseed md5Password dataFile info iteration
  | grub => modifyGrubConfiguration dataFile info iteration

end File

/-- All placeholders are replaced at once: that is what the file has in it, in whatever order Python goes
through the dictionary, and after each step of the loop the placeholders up to there have been replaced
so, and nothing in a value. -/
def ReplacedAtOnce (file : File) : Prop :=
  ∀ template ∈ file.template dataFile info, ∀ dic ∈ file.dic md5Password info, ∀ iteration : Iteration,
    file.create md5Password dataFile info iteration =
        some (file.finish info (substitute (placeholders dic) template)) ∧
      ∀ done rest, iteration.items dic = done ++ rest →
        replaceAll done template = substitute (placeholders done) template

/-- Whichever values have been put in the template, the placeholder of any other key stands in it where it
has stood before, and nowhere else, or is its own value. -/
def Unmixed (dic : Dict) (template : Text) : Prop :=
  ∀ done key value rest, (done ++ (key, value) :: rest).Perm dic →
    Keeps (placeholders done) (placeholder key, value) template

variable {md5Password : Text → Text} {dataFile : Text → Option Text} {info : Info} {file : File}
  {dic : Dict} {template : Text} {k l : Text} {key key' : String}

/-! ### Placeholders -/

/-- The sign and the bracket are only at the ends of a placeholder. -/
def IsName (key : String) : Prop := '$' ∉ key.toList ∧ ')' ∉ key.toList

instance (key : String) : Decidable (IsName key) :=
  inferInstanceAs (Decidable ('$' ∉ key.toList ∧ ')' ∉ key.toList))

theorem eq_of_prefix_bracket (hk : ')' ∉ k) (hl : ')' ∉ l) (h : k ++ [')'] <+: l ++ [')']) :
    k = l := by
  induction k generalizing l with
  | nil =>
    cases l with
    | nil => rfl
    | cons b l =>
      have first : ')' = b := (List.cons_prefix_cons.1 h).1
      exact absurd (first ▸ List.mem_cons_self) hl
  | cons a k ih =>
    cases l with
    | nil =>
      have first : a = ')' := (List.cons_prefix_cons.1 h).1
      exact absurd (first ▸ List.mem_cons_self) hk
    | cons b l =>
      obtain ⟨rfl, rest⟩ := List.cons_prefix_cons.1 h
      rw [List.mem_cons, not_or] at hk hl
      rw [ih hk.2 hl.2 rest]

theorem placeholder_eq (key : String) :
    placeholder key = '$' :: '(' :: (key.toList ++ [')']) := rfl

theorem eq_of_placeholders_begin (hk : IsName key) (hk' : IsName key')
    (h : placeholder key <+: placeholder key') : key = key' := by
  rw [placeholder_eq, placeholder_eq, List.cons_prefix_cons, List.cons_prefix_cons] at h
  exact String.toList_injective (eq_of_prefix_bracket hk.2 hk'.2 h.2.2)

/-- A placeholder does not begin in another one. -/
theorem apart_tail (h : IsName key) (key' : String) :
    Apart (placeholder key).tail (placeholder key') := by
  intro j lt overlap
  have free : '$' ∉ (placeholder key).tail := by
    rw [placeholder_eq, List.tail_cons]
    simp [h.1]
  obtain ⟨a, rest, is⟩ := List.exists_cons_of_ne_nil
    (fun empty => absurd (List.drop_eq_nil_iff.1 empty) (by omega) :
      (placeholder key).tail.drop j ≠ [])
  have mem : a ∈ (placeholder key).tail := List.mem_of_mem_drop (is ▸ List.mem_cons_self)
  rw [is, placeholder_eq key', List.cons_prefix_cons, List.cons_prefix_cons] at overlap
  rcases overlap with ⟨rfl, -⟩ | ⟨rfl, -⟩
  · exact free mem
  · exact free mem

theorem whole_placeholder (h : IsName key) : Whole (placeholder key) :=
  ⟨List.cons_ne_nil _ _, apart_tail h key⟩

theorem apart_placeholder (h : IsName key) (h' : IsName key') (ne : key ≠ key') :
    Apart (placeholder key) (placeholder key') := by
  intro j lt
  cases j with
  | zero =>
    rintro (begun | begun)
    · exact ne (eq_of_placeholders_begin h h' begun)
    · exact ne (eq_of_placeholders_begin h' h begun).symm
  | succ j => exact apart_tail h key' j (by simpa [placeholder_eq] using lt)

/-- The keys of a dictionary are different names. -/
structure Named (dic : Dict) : Prop where
  names : ∀ key ∈ dic.map Prod.fst, IsName key
  distinct : (dic.map Prod.fst).Nodup

theorem Named.separate (h : Named dic) : Separate (placeholders dic) where
  whole e mem := by
    obtain ⟨⟨key, value⟩, item, rfl⟩ := List.mem_map.1 mem
    exact whole_placeholder (h.names key (List.mem_map_of_mem item))
  apart := by
    have pairs := List.pairwise_map.1 h.distinct
    refine List.pairwise_map.2 (pairs.imp_of_mem fun {a b} ha hb ne => ?_)
    have name := h.names a.1 (List.mem_map_of_mem ha)
    have name' := h.names b.1 (List.mem_map_of_mem hb)
    exact ⟨apart_placeholder name name' ne, apart_placeholder name' name ne.symm⟩

theorem named_dic (h : file.dic md5Password info = some dic) : Named dic := by
  cases file with
  | diskimage =>
    obtain rfl := Option.some.inj h
    exact ⟨by simp only [diskimageDic, List.map]; decide, by simp only [diskimageDic, List.map]; decide⟩
  | preseed =>
    obtain rfl := Option.some.inj h
    exact ⟨by simp only [preseedDic, List.map]; decide, by simp only [preseedDic, List.map]; decide⟩
  | grub =>
    obtain ⟨iso, -, rfl⟩ := Option.map_eq_some_iff.1 h
    exact ⟨by simp only [grubDic, List.map]; decide, by simp only [grubDic, List.map]; decide⟩

theorem Named.perm {items : Dict} (h : Named dic) (perm : items.Perm dic) : Named items where
  names key mem := h.names key ((perm.map Prod.fst).mem_iff.1 mem)
  distinct := (perm.map Prod.fst).nodup_iff.2 h.distinct

/-! ### The loop -/

/-- The steps of the loop, for one order of the items. -/
theorem Named.forall_replaceAll_eq_iff {items : Dict} (h : Named items) (template : Text) :
    (∀ done rest, items = done ++ rest →
      replaceAll done template = substitute (placeholders done) template) ↔
    ∀ done key value rest, items = done ++ (key, value) :: rest →
      Keeps (placeholders done) (placeholder key, value) template := by
  have steps := h.separate.forall_fill_eq_iff template
  constructor
  · intro filled done key value rest split
    refine steps.1 (fun done' rest' split' => ?_) _ _ (placeholders rest) ?_
    · obtain ⟨done, rest, split, rfl, -⟩ := List.map_eq_append_iff.1 split'
      exact filled done rest split
    · rw [split, placeholders, List.map_append, List.map_cons]
      rfl
  · intro keeps done rest split
    refine steps.2 (fun done' e rest' split' => ?_) _ (placeholders rest) ?_
    · obtain ⟨done, rest, split, rfl, tail⟩ := List.map_eq_append_iff.1 split'
      obtain ⟨⟨key, value⟩, rest, rfl, rfl, -⟩ := List.map_eq_cons_iff.1 tail
      exact keeps done key value rest split
    · rw [split, placeholders, List.map_append]
      rfl

theorem File.create_eq (iteration : Iteration) (ht : file.template dataFile info = some template)
    (hd : file.dic md5Password info = some dic) :
    file.create md5Password dataFile info iteration =
      some (file.finish info (replaceAll (iteration.items dic) template)) := by
  cases file with
  | diskimage =>
    obtain rfl := Option.some.inj hd
    rw [File.template] at ht
    rw [File.create, createPreseedDiskimage, ht]
    rfl
  | preseed =>
    obtain rfl := Option.some.inj hd
    rw [File.template] at ht
    rw [File.create, createPreseed, ht]
    rfl
  | grub =>
    obtain ⟨iso, path, rfl⟩ := Option.map_eq_some_iff.1 hd
    rw [File.template] at ht
    rw [File.create, modifyGrubConfiguration, ht, path]
    rfl

/-- Python goes through one dictionary in this order. -/
def Iteration.ofPerm {dic items : Dict} (perm : items.Perm dic) : Iteration where
  items dic' := if dic' = dic then items else dic'
  perm dic' := by
    split_ifs with same
    · rw [same]
      exact perm
    · exact .refl _

/-- The files are made as if all placeholders were replaced at once, exactly if the values, wherever they
are put in the template, make no other placeholder. -/
theorem replaced_at_once_iff (md5Password : Text → Text) (dataFile : Text → Option Text) (info : Info)
    (file : File) :
    ReplacedAtOnce md5Password dataFile info file ↔
      ∀ template ∈ file.template dataFile info, ∀ dic ∈ file.dic md5Password info,
        Unmixed dic template := by
  constructor
  · intro atOnce template ht dic hd done key value rest perm
    have steps := (atOnce template ht dic hd (.ofPerm perm)).2
    have named := (named_dic hd).perm perm
    have here : (Iteration.ofPerm perm).items dic = done ++ (key, value) :: rest := if_pos rfl
    rw [here] at steps
    exact (named.forall_replaceAll_eq_iff template).1 steps done key value rest rfl
  · intro unmixed template ht dic hd iteration
    have perm := iteration.perm dic
    have named := (named_dic hd).perm perm
    have steps := (named.forall_replaceAll_eq_iff template).2 fun done key value rest split =>
      unmixed template ht dic hd done key value rest (split ▸ perm)
    refine ⟨?_, steps⟩
    have whole := steps (iteration.items dic) [] (List.append_nil _).symm
    have order := named.separate.substitute_perm (perm.map _) template
    rw [File.create_eq iteration ht hd, whole, order]
    rfl

/-- A user whose name is a placeholder. -/
def placeholderUser : Info where
  timezone := []
  password := []
  keyboardVariant := []
  keyboardLayout := []
  locale := []
  userFullName := "$(password)".toList
  username := "joe".toList
  hostUsername := "joe".toList
  userDirectory := []
  distroName := []
  distroPackages := []
  disksDir := []
  custominstall := []
  sizes := ⟨0, 0, 0, 0⟩
  runTask := "install"
  isoPath := []
  accessibility := []
  kernel := []
  initrd := []

def placeholderHash (_ : Text) : Text := "$1$".toList

/-- The dictionary of `create_preseed_diskimage` for this user, in the order of CPython 2.7, which has the
full name before the password. -/
def placeholderItems : Dict :=
  [("username", placeholderUser.username),
   ("user_full_name", placeholderUser.userFullName),
   ("locale", placeholderUser.locale),
   ("timezone", placeholderUser.timezone),
   ("password", placeholderHash placeholderUser.password),
   ("keyboard_variant", placeholderUser.keyboardVariant),
   ("keyboard_layout", placeholderUser.keyboardLayout)]

theorem placeholderItems_perm :
    placeholderItems.Perm (diskimageDic placeholderHash placeholderUser) := by decide

/-- The full name of the user becomes the hash of the password, which is put in after it. -/
theorem not_replaced_at_once :
    ¬ ∀ (md5Password : Text → Text) (dataFile : Text → Option Text) (info : Info) (file : File)
      (iteration : Iteration), ∀ template ∈ file.template dataFile info,
        ∀ dic ∈ file.dic md5Password info, file.create md5Password dataFile info iteration =
          some (file.finish info (substitute (placeholders dic) template)) := by
  intro replaced
  have written := replaced placeholderHash (fun _ => some "string $(user_full_name)".toList)
    placeholderUser .diskimage (.ofPerm placeholderItems_perm) _ rfl _ rfl
  exact absurd written (by decide)

end Ydfs.Wubi.Preseed
