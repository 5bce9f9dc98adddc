import Mathlib.Data.List.Infix
import Ydfs.Wubi.Distro

/-!
# The checksums of an ISO

`make_iso` takes the checksums of the files under `iso/` at one moment (`md5sums`), and goes on to
copy `isolinux`, to write `.disk/info`, and to have `xorriso` put a table into `isolinux.bin`
(`shipped`).  Wubi looks up the files that a distro requires in `md5sum.txt` (`checkFile`).  The tree
before the checksums are taken is any tree: it may hold what an interrupted run has left behind.
-/

namespace Ydfs.MakeIso

open Wubi (Distro)

variable {γ : Type}

/-- A file, or a symbolic link with what it leads to. -/
inductive Node (γ : Type) where
  | file (content : γ)
  | link (content : Option γ)

/-- What a program reads. -/
def Node.content : Node γ → Option γ
  | .file content => some content
  | .link content => content

/-- The files and links under a directory, with their paths in the order of `find`. -/
structure Tree (γ : Type) where
  paths : List String
  node : String → Option (Node γ)
  mem_paths : ∀ path, path ∈ paths ↔ (node path).isSome

namespace Tree

/-- The content under a path. -/
def content (t : Tree γ) (path : String) : Option γ := (t.node path).bind Node.content

/-- Write a file, or copy a link. -/
def write (t : Tree γ) (path : String) (node : Node γ) : Tree γ where
  paths := if path ∈ t.paths then t.paths else t.paths ++ [path]
  node := Function.update t.node path (some node)
  mem_paths other := by
    by_cases h : other = path
    · subst h
      split_ifs <;> simp_all
    · rw [Function.update_of_ne h, ← t.mem_paths]
      split_ifs <;> simp [h]

theorem node_write_self (t : Tree γ) (path : String) (node : Node γ) :
    (t.write path node).node path = some node := Function.update_self ..

theorem node_write_of_ne (t : Tree γ) {path other : String} (node : Node γ) (h : other ≠ path) :
    (t.write path node).node other = t.node other := Function.update_of_ne h ..

end Tree

/-- What a run of `make_iso` depends on besides the tree: whether `NOMD5` is `OK`, the arguments that
the shell makes of a line of `find` (the line itself, for a name without blanks, backslashes and
wildcards), the line for `.disk/info`, the table that `-boot-info-table` puts into a boot image, the
boot catalog, and the hash. -/
structure Job (γ : Type) where
  noMd5 : Bool
  args : String → List String
  diskInfo : γ
  bootInfoTable : γ → γ
  catalog : γ
  md5 : γ → String

/-- The last part of a path. -/
def baseName (path : String) : String :=
  .ofList (path.toList.reverse.takeWhile fun c => c ≠ '/').reverse

/-- The path is one of a directory. -/
def below (dir path : String) : Bool := (dir ++ "/").toList.isPrefixOf path.toList

/-- The path, from one directory to another. -/
def moved (source target path : String) : String :=
  target ++ .ofList (path.toList.drop source.length)

/-- `find -type f -not -name md5sum.txt`. -/
def found (t : Tree γ) : List String :=
  t.paths.filter fun path =>
    (match t.node path with
      | some (.file _) => true
      | _ => false) && baseName path ≠ "md5sum.txt"

/-- `echo "$FILE" | grep grub`. -/
def grub (file : String) : Bool := "grub".toList <:+: file.toList

/-- The arguments of `md5sum`. -/
def checksummed (job : Job γ) (t : Tree γ) : List String :=
  if job.noMd5 then []
  else (((found t).map fun path => "./" ++ path).filter fun file => !grub file).flatMap job.args

/-- What `md5sum` reads. -/
def read (t : Tree γ) (file : String) : Option γ :=
  if "./".toList <+: file.toList then t.content (.ofList (file.toList.drop 2)) else t.content file

/-- `md5sum.txt`: the hashes and the names of the files that can be read. -/
def md5sums (job : Job γ) (t : Tree γ) : List (String × String) :=
  (checksummed job t).filterMap fun file => (read t file).map fun content => (job.md5 content, file)

/-- Where `cp -fR isolinux/ syslinux/` copies to: into the directory if it is there. -/
def target (t : Tree γ) : String :=
  if t.paths.any (below "syslinux") then "syslinux/isolinux" else "syslinux"

/-- `cp -fR isolinux/ syslinux/`. -/
def copyIsolinux (t : Tree γ) : Tree γ :=
  (t.paths.filter (below "isolinux")).foldl (fun t' path =>
    match t.node path with
      | some node => t'.write (moved "isolinux" (target t) path) node
      | none => t') t

/-- The files of the ISO, which follows the links. -/
def shipped (job : Job γ) (t : Tree γ) (path : String) : Option γ :=
  if path = "isolinux/isolinux.cat" then some job.catalog
  else
    let content := ((copyIsolinux t).write ".disk/info" (.file job.diskInfo)).content path
    if path = "isolinux/isolinux.bin" then content.map job.bootInfoTable else content

/-- `relpath.replace("\\", "/")`. -/
def slashed (path : String) : String := path.map fun c => if c = '\\' then '/' else c

/-- The files that `check_cd` verifies. -/
def verified (d : Distro) : List String :=
  (d.requiredFiles.filter fun file => file ≠ d.md5sums).map slashed

/-- `check_file`: the hash of the first entry that ends in the path is compared; without an entry it
raises. -/
def checkFile (job : Job γ) (sums : List (String × String)) (path : String) (content : γ) :
    Option Bool :=
  (sums.find? fun entry => ("./" ++ path).toList <:+ entry.2.toList).map fun entry =>
    entry.1 = job.md5 content

/-- Every verified file of the ISO has an entry with the hash of its content. -/
def Shipped (job : Job γ) (t : Tree γ) (d : Distro) : Prop :=
  ∀ path ∈ verified d, ∀ content, shipped job t path = some content →
    (job.md5 content, "./" ++ path) ∈ md5sums job t

/-- The file was checksummed: a regular file that is not left out, and whose name the shell has
handed on. -/
def Listed (job : Job γ) (t : Tree γ) (path : String) : Prop :=
  job.noMd5 = false ∧ ∃ file content, t.node file = some (.file content) ∧
    baseName file ≠ "md5sum.txt" ∧ grub ("./" ++ file) = false ∧
      "./" ++ path ∈ job.args ("./" ++ file)

/-- The file was checksummed with the hash of a content. -/
def Recorded (job : Job γ) (t : Tree γ) (path : String) (content : γ) : Prop :=
  Listed job t path ∧ ∃ old, t.content path = some old ∧ job.md5 old = job.md5 content

/-- A file of `isolinux` is copied over the path later. -/
def CopyOf (t : Tree γ) (file path : String) : Prop :=
  file ∈ t.paths ∧ below "isolinux" file = true ∧ path = moved "isolinux" (target t) file

/-- What has to be so when the checksums are taken: the files that are written later have been
checksummed with the content that they get, and all other verified files that are there have been
checksummed. -/
structure Checksummed (job : Job γ) (t : Tree γ) (d : Distro) : Prop where
  info : ".disk/info" ∈ verified d → Recorded job t ".disk/info" job.diskInfo
  catalog : "isolinux/isolinux.cat" ∈ verified d → Recorded job t "isolinux/isolinux.cat" job.catalog
  image : "isolinux/isolinux.bin" ∈ verified d → ∀ content,
    t.content "isolinux/isolinux.bin" = some content →
      Recorded job t "isolinux/isolinux.bin" (job.bootInfoTable content)
  copies : ∀ path ∈ verified d, ∀ file, CopyOf t file path → ∀ content,
    t.content file = some content → Recorded job t path content
  others : ∀ path ∈ verified d, path ≠ ".disk/info" → path ≠ "isolinux/isolinux.cat" →
    path ≠ "isolinux/isolinux.bin" → (∀ file, ¬ CopyOf t file path) → t.content path ≠ none →
      Listed job t path

variable {job : Job γ} {t : Tree γ} {d : Distro} {path : String} {content : γ}

theorem mem_found {file : String} :
    file ∈ found t ↔ (∃ content, t.node file = some (.file content)) ∧
      baseName file ≠ "md5sum.txt" := by
  unfold found
  rw [List.mem_filter, t.mem_paths]
  cases hn : t.node file with
  | none => simp
  | some node => cases node <;> simp

theorem mem_checksummed : "./" ++ path ∈ checksummed job t ↔ Listed job t path := by
  unfold checksummed Listed
  cases job.noMd5 with
  | true => simp
  | false =>
    simp only [Bool.false_eq_true, if_false, List.mem_flatMap, List.mem_filter, List.mem_map,
      mem_found, Bool.not_eq_true', true_and]
    constructor
    · rintro ⟨_, ⟨⟨file, ⟨⟨content, hf⟩, base⟩, rfl⟩, hg⟩, args⟩
      exact ⟨file, content, hf, base, hg, args⟩
    · rintro ⟨file, content, hf, base, hg, args⟩
      exact ⟨_, ⟨⟨file, ⟨⟨content, hf⟩, base⟩, rfl⟩, hg⟩, args⟩

theorem read_dot (t : Tree γ) (path : String) : read t ("./" ++ path) = t.content path := by
  unfold read
  rw [if_pos (by simp)]
  simp

theorem mem_md5sums {hash : String} : (hash, "./" ++ path) ∈ md5sums job t ↔
    Listed job t path ∧ ∃ content, t.content path = some content ∧ job.md5 content = hash := by
  unfold md5sums
  rw [List.mem_filterMap, ← mem_checksummed]
  constructor
  · rintro ⟨file, hf, h⟩
    obtain ⟨content, hr, he⟩ := Option.map_eq_some_iff.1 h
    obtain ⟨rfl, rfl⟩ := Prod.mk.inj he
    exact ⟨hf, content, by rwa [read_dot] at hr, rfl⟩
  · rintro ⟨hf, content, hc, rfl⟩
    exact ⟨_, hf, by rw [read_dot, hc, Option.map_some]⟩

/-! ## What is changed after the checksums -/

theorem shipped_diskInfo (job : Job γ) (t : Tree γ) :
    shipped job t ".disk/info" = some job.diskInfo := by
  unfold shipped
  rw [if_neg (by decide)]
  dsimp only
  rw [if_neg (by decide), Tree.content, Tree.node_write_self]
  rfl

theorem toList_moved {target file : String} (hf : below "isolinux" file = true) :
    ∃ rest, file.toList = "isolinux/".toList ++ rest ∧
      (moved "isolinux" target file).toList = target.toList ++ '/' :: rest := by
  unfold below at hf
  rw [List.isPrefixOf_iff_prefix] at hf
  obtain ⟨rest, hr⟩ := hf
  have length : "isolinux".length = 8 := rfl
  refine ⟨rest, hr.symm, ?_⟩
  unfold moved
  rw [← hr, length]
  simp

theorem target_eq (t : Tree γ) : target t = "syslinux" ∨ target t = "syslinux/isolinux" := by
  unfold target
  split_ifs
  · exact .inr rfl
  · exact .inl rfl

theorem below_moved {file : String} (hf : below "isolinux" file = true) :
    below "syslinux" (moved "isolinux" (target t) file) = true := by
  obtain ⟨rest, -, there⟩ := toList_moved hf
  unfold below
  rw [List.isPrefixOf_iff_prefix, there]
  rcases target_eq t with is | is
  · rw [is]
    exact ⟨rest, by simp⟩
  · rw [is]
    exact ⟨"isolinux/".toList ++ rest, by simp⟩

/-- No two files are copied to one path. -/
theorem moved_inj {target file file' : String} (hf : below "isolinux" file = true)
    (hf' : below "isolinux" file' = true)
    (same : moved "isolinux" target file = moved "isolinux" target file') : file = file' := by
  obtain ⟨rest, name, there⟩ := toList_moved hf
  obtain ⟨rest', name', there'⟩ := toList_moved hf'
  have rests : rest = rest' := by
    have texts := congrArg String.toList same
    rw [there, there'] at texts
    simpa using texts
  rw [← String.toList_inj, name, name', rests]

theorem not_copyOf (h : below "syslinux" path = false) (file : String) : ¬ CopyOf t file path := by
  rintro ⟨-, hb, rfl⟩
  rw [below_moved hb] at h
  cases h

/-- The copy of `isolinux` leaves a path as it is that no file is copied to. -/
theorem node_copyIsolinux (h : ∀ file, ¬ CopyOf t file path) :
    (copyIsolinux t).node path = t.node path := by
  unfold copyIsolinux
  refine List.foldlRecOn (motive := fun t' : Tree γ => t'.node path = t.node path) _ _ rfl ?_
  intro t' ih file hf
  obtain ⟨mem, hb⟩ := List.mem_filter.1 hf
  cases t.node file with
  | none => exact ih
  | some node =>
    have other : path ≠ moved "isolinux" (target t) file := fun same => h file ⟨mem, hb, same⟩
    exact (t'.node_write_of_ne node other).trans ih

/-- A path that a file of `isolinux` is copied to has its content. -/
theorem node_copyIsolinux_of_copyOf {file : String} (h : CopyOf t file path) :
    (copyIsolinux t).node path = t.node file := by
  obtain ⟨mem, hb, rfl⟩ := h
  obtain ⟨node, hn⟩ := Option.isSome_iff_exists.1 ((t.mem_paths file).1 mem)
  have copied : ∀ l : List String, (∀ f ∈ l, below "isolinux" f = true) → ∀ t' : Tree γ,
      (file ∈ l ∨ t'.node (moved "isolinux" (target t) file) = some node) →
      (l.foldl (fun t' path =>
        match t.node path with
          | some node => t'.write (moved "isolinux" (target t) path) node
          | none => t') t').node (moved "isolinux" (target t) file) = some node := by
    intro l
    induction l with
    | nil => exact fun _ t' there => there.resolve_left List.not_mem_nil
    | cons f l ih =>
      intro all t' there
      obtain ⟨hf, all⟩ := List.forall_mem_cons.1 all
      refine ih all _ ?_
      dsimp only
      by_cases same : f = file
      · subst same
        rw [hn]
        exact .inr (t'.node_write_self _ node)
      · rcases there with mem | there
        · exact .inl ((List.mem_cons.1 mem).resolve_left (Ne.symm same))
        · refine .inr ?_
          cases t.node f with
          | none => exact there
          | some other =>
            have apart : moved "isolinux" (target t) file ≠ moved "isolinux" (target t) f :=
              fun moved_eq => same (moved_inj hb hf moved_eq).symm
            exact (t'.node_write_of_ne other apart).trans there
  rw [hn]
  exact copied _ (fun f hf => (List.mem_filter.1 hf).2) t
    (.inl (List.mem_filter.2 ⟨mem, hb⟩))

theorem shipped_catalog (job : Job γ) (t : Tree γ) :
    shipped job t "isolinux/isolinux.cat" = some job.catalog := if_pos rfl

theorem shipped_image (job : Job γ) (t : Tree γ) : shipped job t "isolinux/isolinux.bin" =
    (t.content "isolinux/isolinux.bin").map job.bootInfoTable := by
  unfold shipped
  rw [if_neg (by decide)]
  dsimp only
  rw [if_pos rfl, Tree.content, Tree.node_write_of_ne _ _ (by decide),
    node_copyIsolinux (not_copyOf (by decide +kernel))]
  rfl

/-- Other files are shipped as the copy of `isolinux` leaves them. -/
theorem shipped_other (info : path ≠ ".disk/info") (catalog : path ≠ "isolinux/isolinux.cat")
    (image : path ≠ "isolinux/isolinux.bin") :
    shipped job t path = (copyIsolinux t).content path := by
  unfold shipped
  rw [if_neg catalog]
  dsimp only
  rw [if_neg image, Tree.content, Tree.node_write_of_ne _ _ info]
  rfl

/-- Every verified file that is shipped has its entry exactly when it has been checksummed, and with
the content that it gets if it is written later. -/
theorem make_iso_checksums_iff (job : Job γ) (t : Tree γ) (d : Distro) :
    Shipped job t d ↔ Checksummed job t d := by
  have entry : Shipped job t d ↔ ∀ path ∈ verified d, ∀ content,
      shipped job t path = some content → Recorded job t path content := by
    unfold Shipped Recorded
    simp only [mem_md5sums]
  have copied : ∀ {file path : String}, CopyOf t file path →
      shipped job t path = t.content file := by
    intro file path copy
    have syslinux : below "syslinux" path = true := by
      obtain ⟨-, hb, rfl⟩ := copy
      exact below_moved hb
    rw [shipped_other, Tree.content, node_copyIsolinux_of_copyOf copy]
    · rfl
    all_goals
      rintro rfl
      revert syslinux
      decide +kernel
  rw [entry]
  constructor
  · intro h
    refine ⟨fun mem => h _ mem _ (shipped_diskInfo job t),
      fun mem => h _ mem _ (shipped_catalog job t), fun mem content there => ?_,
      fun path mem file copy content there => ?_,
      fun path mem info catalog image free there => ?_⟩
    · exact h _ mem _ (by rw [shipped_image, there, Option.map_some])
    · exact h path mem content ((copied copy).trans there)
    · obtain ⟨content, there⟩ := Option.ne_none_iff_exists'.1 there
      refine (h path mem content ?_).1
      rw [shipped_other info catalog image, Tree.content, node_copyIsolinux free]
      exact there
  · intro h path mem content there
    by_cases info : path = ".disk/info"
    · subst info
      obtain rfl := Option.some.inj ((shipped_diskInfo job t).symm.trans there)
      exact h.info mem
    by_cases catalog : path = "isolinux/isolinux.cat"
    · subst catalog
      obtain rfl := Option.some.inj ((shipped_catalog job t).symm.trans there)
      exact h.catalog mem
    by_cases image : path = "isolinux/isolinux.bin"
    · subst image
      rw [shipped_image] at there
      obtain ⟨old, is, rfl⟩ := Option.map_eq_some_iff.1 there
      exact h.image mem old is
    by_cases copy : ∃ file, CopyOf t file path
    · obtain ⟨file, copy⟩ := copy
      exact h.copies path mem file copy content ((copied copy).symm.trans there)
    · have free : ∀ file, ¬ CopyOf t file path := not_exists.1 copy
      rw [shipped_other info catalog image, Tree.content, node_copyIsolinux free] at there
      exact ⟨h.others path mem info catalog image free (by rw [Tree.content, there]; simp),
        content, there, rfl⟩

/-- `.disk/info` has no entry, unless an earlier run has left it behind. -/
theorem not_shipped_of_diskInfo (info : ".disk/info" ∈ verified d)
    (clean : t.node ".disk/info" = none) : ¬ Shipped job t d := by
  intro h
  obtain ⟨-, content, hc, -⟩ := mem_md5sums.1 (h _ info _ (shipped_diskInfo job t))
  rw [Tree.content, clean] at hc
  cases hc

/-- `check_file` finds the entry of a file and compares its hash, when no other checksummed path ends
in that of the file. -/
theorem checkFile_iff (alone : ∀ file ∈ checksummed job t,
      ("./" ++ path).toList <:+ file.toList → file = "./" ++ path) :
    checkFile job (md5sums job t) path content = some true ↔
      (job.md5 content, "./" ++ path) ∈ md5sums job t := by
  have named : ∀ entry ∈ md5sums job t, ("./" ++ path).toList <:+ entry.2.toList →
      entry.2 = "./" ++ path := by
    intro entry he hs
    obtain ⟨file, hf, hm⟩ := List.mem_filterMap.1 he
    obtain ⟨c, -, rfl⟩ := Option.map_eq_some_iff.1 hm
    exact alone file hf hs
  unfold checkFile
  rw [Option.map_eq_some_iff]
  constructor
  · rintro ⟨⟨hash, file⟩, hfind, same⟩
    have entry := List.mem_of_find?_eq_some hfind
    obtain rfl : file = "./" ++ path := named _ entry (by simpa using List.find?_some hfind)
    obtain rfl : hash = job.md5 content := by simpa using same
    exact entry
  · intro entry
    obtain ⟨⟨hash, file⟩, hfind⟩ : ∃ e, (md5sums job t).find? (fun entry =>
        ("./" ++ path).toList <:+ entry.2.toList) = some e := by
      rw [← Option.isSome_iff_exists, List.find?_isSome]
      exact ⟨_, entry, by simp⟩
    have first := List.mem_of_find?_eq_some hfind
    obtain rfl : file = "./" ++ path := named _ first (by simpa using List.find?_some hfind)
    obtain ⟨-, old, ho, rfl⟩ := mem_md5sums.1 first
    obtain ⟨-, old', ho', he⟩ := mem_md5sums.1 entry
    obtain rfl : old = old' := Option.some.inj (ho.symm.trans ho')
    exact ⟨_, hfind, by simp [he]⟩

/-! ## The distro that is made to install this ISO -/

/-- The section `LinuxConsole-amd64`, which the packages patch into the list of distros. -/
def linuxConsole : Distro where
  name := "LinuxConsole"
  version := "2.3"
  arch := "amd64"
  kernel := "isolinux\\kernel"
  initrd := "isolinux\\initramfs"
  infoFile := ".disk\\info"
  md5sums := "md5sum.txt"
  filesToCheck := ["isolinux\\isolinux.bin"]
  metalinkUrl := "http://jukebox.linuxconsole.org/linuxconsole/wubi/linuxconsole-amd64.metalink"
  metalinkUrl2 := "http://jukebox.linuxconsole.org/linuxconsole/wubi/linuxconsole-amd64.metalink"

theorem verified_linuxConsole : verified linuxConsole =
    ["isolinux/isolinux.bin", "isolinux/kernel", "isolinux/initramfs", ".disk/info"] := by
  decide +kernel

/-- A tree with the required files, as it is when the checksums are taken. -/
def sampleTree : Tree String where
  paths := ["isolinux/isolinux.bin", "isolinux/kernel", "isolinux/initramfs"]
  node path := if path ∈ ["isolinux/isolinux.bin", "isolinux/kernel", "isolinux/initramfs"] then
    some (.file path) else none
  mem_paths path := by split_ifs with h <;> simpa using h

/-- A job on the sample tree, with contents for their own hashes. -/
def sampleJob : Job String where
  noMd5 := false
  args file := [file]
  diskInfo := "LinuxConsole \"LinuxConsole\" - Release amd64 (2024)\n"
  bootInfoTable content := content ++ "table"
  catalog := ""
  md5 := id

/-- Not every file that is verified has its entry. -/
theorem not_make_iso_checksums :
    ¬ ∀ (job : Job String) (t : Tree String) (d : Distro), Shipped job t d := fun h =>
  not_shipped_of_diskInfo (by rw [verified_linuxConsole]; decide) rfl
    (h sampleJob sampleTree linuxConsole)

end Ydfs.MakeIso
