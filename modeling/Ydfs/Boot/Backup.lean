import Mathlib.Data.List.Induction
import Ydfs.Files.Tree

/-!
# The backup

When the machine goes down `save-persistant-data` looks for the paths of `/etc/ydfs/backup.list`, and
at a boot `restore-persistant-data` unpacks `/root/.config/ydfs/backup.tar.gz` over the fresh root.
The first script keeps only the last path it finds, and it prints the `tar` command instead of
running it: no archive is made, so what comes back is what an archive from elsewhere or the disk
under `/root` has kept.
-/

namespace Ydfs.Boot

open FileTree

namespace Backup

abbrev Path := List String

/-- The files of a running system. -/
abbrev Root (κ : Type*) := Tree String κ

def configDir : Path := ["root", ".config", "ydfs"]

/-- `/root/.config/ydfs/backup.tar.gz` -/
def archive : Path := configDir ++ ["backup.tar.gz"]

def render (p : Path) : String := "/" ++ "/".intercalate p

section Scripts

variable {κ : Type*}

/-- A file that is no directory. -/
def isFile (files : Root κ) (p : Path) : Bool :=
  match files.lookup p with
  | some (some _) => true
  | _ => false

/-- `install -d`, which fails where a file is in the way. -/
def installDir (dir : Path) (files : Root κ) : Root κ :=
  if dir.inits.any (isFile files) then files else files ++ [(dir, none)]

/-- The loop over the words of `backup.list`, which assigns `LIST` anew for each path it finds. -/
def collect (files : Root κ) (listed : List Path) : Option Path :=
  listed.foldl (fun list backup => if Exists files backup then some backup else list) none

/-- What a script leaves behind: the files, and the lines it has printed. -/
structure Result (κ : Type*) where
  files : Root κ
  printed : List String

/-- `save-persistant-data`; the `tar` command is what an `echo` prints. -/
def save (files : Root κ) (listed : List Path) : Result κ where
  files := installDir configDir files
  printed :=
    ["Saving " ++ ((collect files listed).map render).getD "",
      " ".intercalate (["tar", "czvf", render archive] ++
        ((collect files listed).map render).toList)]

/-- The root of the next boot before anything is restored: a fresh one, with the disks that keep their
files mounted over it. -/
def boot (persists : Path → Bool) (saved fresh : Root κ) : Root κ :=
  saved.filter (fun e => persists e.1) ++ fresh.filter (fun e => !persists e.1)

/-- The content of the archive, if there is one. -/
def archived (files : Root κ) : Option κ :=
  match files.lookup archive with
  | some (some content) => some content
  | _ => none

/-- The last part of `restore-persistant-data`, where `untar` gives the files of an archive. -/
def restore (untar : κ → Root κ) (files : Root κ) : Root κ :=
  match archived files with
  | some content => untar content ++ files
  | none => files

end Scripts

variable {κ : Type*} (untar : κ → Root κ) (persists : Path → Bool) (listed : List Path)
  (files saved fresh : Root κ) {p q : Path} {c : Option κ}

/-! ### What the saving script does -/

/-- The path is on a disk that stays, or the fresh root has the same there. -/
def Stays (q : Path) (c : Option κ) : Prop := persists q = true ∨ fresh.lookup q = some c

/-- However many of the paths there are, `LIST` has only the last one. -/
theorem collect_eq_getLast? :
    collect files listed = (listed.filter fun p => decide (Exists files p)).getLast? := by
  induction listed using List.reverseRecOn with
  | nil => rfl
  | append_singleton listed p ih =>
    rw [collect] at ih ⊢
    rw [List.foldl_append, ih, List.filter_append]
    by_cases there : Exists files p
    · simp [there]
    · simp [there]

/-- It makes no file, and no file or directory that is there changes. -/
theorem save_lookup (q : Path) :
    (save files listed).files.lookup q = files.lookup q ∨
      q = configDir ∧ files.lookup q = none := by
  simp only [save, installDir]
  split
  · exact .inl rfl
  · cases there : files.lookup q with
    | some c => exact .inl (by rw [List.lookup_append, there]; rfl)
    | none =>
      by_cases same : q = configDir
      · exact .inr ⟨same, rfl⟩
      · left
        rw [lookup_append_of_none there, List.lookup_cons, beq_eq_false_iff_ne.2 same]
        rfl

theorem save_keeps (h : files.lookup q = some c) :
    (save files listed).files.lookup q = some c := by
  obtain same | ⟨-, missing⟩ := save_lookup listed files q
  · rw [same, h]
  · simp [missing] at h

theorem archived_save :
    archived (boot persists (save saved listed).files fresh) =
      archived (boot persists saved fresh) := by
  obtain same | ⟨other, -⟩ := save_lookup listed saved archive
  · simp only [archived, boot, List.lookup_append, lookup_filter, same]
  · exact absurd other (by decide)

/-- What a listed path with saved content has after the boot. -/
theorem boot_lookup (h : saved.lookup q = some c) :
    (boot persists (save saved listed).files fresh).lookup q = some c ↔
      Stays persists fresh q c := by
  rw [Stays, boot, List.lookup_append, lookup_filter, lookup_filter (fun q => !persists q),
    save_keeps listed saved h]
  cases persists q with
  | true => simp
  | false => simp

/-! ### The round trip -/

/-- Every listed path has the content it had, with all that was beneath it. -/
def RoundTrip (restored : Root κ) : Prop :=
  ∀ p ∈ listed, Exists saved p →
    ∀ q c, p <+: q → saved.lookup q = some c → restored.lookup q = some c

/-- The archive that was there before has it, or does not have it and it stays. -/
def Kept (q : Path) (c : Option κ) : Prop :=
  match archived (boot persists saved fresh) with
  | some content =>
    (untar content).lookup q = some c ∨
      (untar content).lookup q = none ∧ Stays persists fresh q c
  | none => Stays persists fresh q c

theorem restore_lookup (h : saved.lookup q = some c) :
    (restore untar (boot persists (save saved listed).files fresh)).lookup q = some c ↔
      Kept untar persists saved fresh q c := by
  rw [restore, Kept, archived_save]
  cases archived (boot persists saved fresh) with
  | none => exact boot_lookup persists listed saved fresh h
  | some content =>
    cases unpacked : (untar content).lookup q with
    | none =>
      simp only [lookup_append_of_none unpacked, unpacked, true_and]
      simpa using boot_lookup persists listed saved fresh h
    | some d => simp [List.lookup_append, unpacked]

/-- The round trip succeeds just where it is not needed: each path has been kept by a disk, by the
fresh root or by an archive that the saving script has not made. -/
theorem round_trip_iff_kept :
    RoundTrip listed saved (restore untar (boot persists (save saved listed).files fresh)) ↔
      ∀ p ∈ listed, Exists saved p →
        ∀ q c, p <+: q → saved.lookup q = some c → Kept untar persists saved fresh q c := by
  constructor
  · intro restored p hp there q c beneath had
    exact (restore_lookup untar persists listed saved fresh had).1
      (restored p hp there q c beneath had)
  · intro kept p hp there q c beneath had
    exact (restore_lookup untar persists listed saved fresh had).2 (kept p hp there q c beneath had)

/-- A password set before the machine went down is not there after the next boot. -/
theorem shadow_lost :
    ¬ ∀ (untar : String → Root String) (persists : Path → Bool) (listed : List Path)
      (saved fresh : Root String),
      RoundTrip listed saved (restore untar (boot persists (save saved listed).files fresh)) := by
  intro roundTrip
  have shadow := roundTrip (fun _ => []) (fun p => p.head? == some "root") [["etc", "shadow"]]
    [(["etc", "shadow"], some "new")] [(["etc", "shadow"], some "old")]
    ["etc", "shadow"] (by simp) (.inr ⟨_, List.mem_singleton_self _, List.prefix_rfl⟩)
    ["etc", "shadow"] (some "new") List.prefix_rfl rfl
  revert shadow
  decide

end Backup

end Ydfs.Boot
