import Mathlib.Data.Finset.Insert
import Mathlib.Data.Finset.Erase
import Ydfs.Transition.Fallible
import Ydfs.Wubi.Distro

/-!
# Installing and uninstalling, over and over

What the installer leaves on a computer besides its files: entries in the BCD store, target
directories, and the values of its registry key that tell where these are.  A session is one list of
tasks, for an installation or for its removal; after a session the next one may begin.  A task is a
program whose operations may fail (`Op`), each task with a pattern of failures of its own.
-/

namespace Ydfs.Wubi.Cycle

open Transition Fallible

/-- The values of the registry key. -/
inductive Attr where
  | uninstallString | installationDir | displayName | displayIcon | displayVersion | publisher
  | urlInfoAbout | helpLink | vistaBootDrive

/-- The commands of `bcdedit`. -/
inductive BcdEdit where
  | create | copy | setDevice | setPath | displayOrder | timeout | bootSequence | delete

/-- What may fail: a test then answers no, another operation has no effect.  Where the failure of
`rmtree` has the number 22, `otherErrno` fails. -/
inductive Op where
  | getValue (attr : Attr) | openKey (attr : Attr) | setValueEx (attr : Attr) | deleteKey
  | pathExists | isDir (i : ℕ) | mkdir (i : ℕ) | copyUninstaller
  | copyWinboot | bcdeditFound | modifyEfiFolder | bcdedit (command : BcdEdit) | parseId
  | modifyBootini | modifyConfigsys | undoDrives
  | attrib | rmtree | otherErrno
  | other

/-- What the installer has left: the boot entries that it has created and that are in the store, how
many it has ever created, the target directories that it has made and that exist, and the values
`InstallationDir` and `VistaBootDrive` (none also for the empty string). -/
structure World where
  bcd : Finset ℕ := ∅
  created : ℕ := 0
  dirs : Finset Path := ∅
  installationDir : Option Path := none
  vistaBootDrive : Option ℕ := none

/-- `info.bootloader`. -/
inductive Bootloader where
  | xp | win98 | vista

/-- The lists of tasks that install. -/
inductive Kind where
  | installation | diskimage | cdboot

/-- What an installation depends on: the target directory, whether something that is not the
installer's is there, the bootloader, and the drives of type `removable` or `hd`, with whether the boot
files are copied to them. -/
structure Job where
  kind : Kind
  targetDir : Path
  foreign : Bool
  bootloader : Bootloader
  efi : Bool
  drives : List Bool

/-- `info`. -/
structure Info where
  job : Job
  previousTargetDir : Option Path

/-- The tasks, where `modifyDrive` is the one that `modify_bootloader` adds for a drive. -/
inductive Task where
  | selectTargetDir | createDirStructure | uncompressTargetDir | createUninstaller
  | copyInstallationFiles | getIso | useCd | extractKernel | chooseDiskSizes
  | createPreseed | createPreseedDiskimage | createPreseedCdboot
  | getDiskimage | extractDiskimage | expandDiskimage | createSwapDiskimage | diskimageBootloader
  | modifyBootloader | modifyDrive (copies : Bool)
  | modifyGrubConfiguration | createVirtualDisks | uncompressFiles | ejectCd
  | undoBootloader | removeTargetDir | removeRegistryKey

/-- `get_installation_tasklist` and `get_cdboot_tasklist`. -/
def installTasks : Kind → List Task
  | .diskimage =>
    [.selectTargetDir, .createDirStructure, .createUninstaller, .createPreseedDiskimage,
      .getDiskimage, .extractDiskimage, .chooseDiskSizes, .expandDiskimage, .createSwapDiskimage,
      .modifyBootloader, .diskimageBootloader]
  | .installation =>
    [.selectTargetDir, .createDirStructure, .uncompressTargetDir, .createUninstaller,
      .copyInstallationFiles, .getIso, .extractKernel, .chooseDiskSizes, .createPreseed,
      .modifyBootloader, .modifyGrubConfiguration, .createVirtualDisks, .uncompressFiles, .ejectCd]
  | .cdboot =>
    [.selectTargetDir, .createDirStructure, .uncompressTargetDir, .createUninstaller,
      .copyInstallationFiles, .useCd, .extractKernel, .createPreseedCdboot, .modifyBootloader,
      .modifyGrubConfiguration, .uncompressFiles, .ejectCd]

/-- `get_uninstallation_tasklist`. -/
def uninstallTasks : List Task := [.undoBootloader, .removeTargetDir, .removeRegistryKey]

/-- A part of a task. -/
abbrev Fn (α : Type) := Fallible World α

variable (ok : Op → Bool) (info : Info)

/-! ## The registry -/

/-- `registry.get_value`: `None` also when it fails. -/
def getValue {α : Type} (attr : Attr) (value : World → Option α) : Fn (Option α) := do
  let w ← get
  return if ok (.getValue attr) then value w else none

/-- `registry.set_value`: when the value cannot be set this is logged. -/
def setValue (attr : Attr) (set : World → World) : Fn Unit := do
  op ok (.openKey attr)
  modify fun w => if ok (.setValueEx attr) then set w else w

theorem run_getValue {α : Type} (attr : Attr) (value : World → Option α) (w : World) :
    (getValue ok attr value).run w = .ok (if ok (.getValue attr) then value w else none) w := rfl

theorem run_setValue (attr : Attr) (set : World → World) (w : World) :
    (setValue ok attr set).run w = if ok (.openKey attr) then
      .ok () (if ok (.setValueEx attr) then set w else w) else .error () w := by
  unfold setValue
  rw [EStateM.run_bind, run_op]
  split_ifs <;> rfl

/-! ## The tasks that install -/

/-- Something is in the place of the target directory. -/
def occupied (w : World) : Bool := info.job.targetDir ∈ w.dirs || info.job.foreign

/-- `select_target_dir` -/
def selectTargetDir : Fn Unit := do
  if ← probe ok .pathExists (occupied info) then raise

/-- The first directory of `create_dir_structure`. -/
def makeTargetDir : Fn Unit := do
  if ← probe ok (.isDir 0) (occupied info) then pure ()
  else
    op ok (.mkdir 0)
    if occupied info (← get) then raise
    else modify fun w => { w with dirs := insert info.job.targetDir w.dirs }

/-- `create_dir_structure` -/
def createDirStructure : Fn Unit := do
  makeTargetDir ok info
  ops ok [.mkdir 1, .mkdir 2, .mkdir 3, .mkdir 4, .mkdir 5, .mkdir 6]

/-- `create_uninstaller` -/
def createUninstaller : Fn Unit := do
  op ok .copyUninstaller
  setValue ok .uninstallString id
  setValue ok .installationDir fun w => { w with installationDir := some info.job.targetDir }
  [Attr.displayName, .displayIcon, .displayVersion, .publisher, .urlInfoAbout, .helpLink].forM
    fun attr => setValue ok attr id

/-- A new entry in the BCD store, by `command`; its identifier is then read from the output. -/
def newEntry (command : BcdEdit) : Fn ℕ := do
  op ok (.bcdedit command)
  let id ← modifyGet fun w =>
    (w.created, { w with bcd := insert w.created w.bcd, created := w.created + 1 })
  op ok .parseId
  return id

/-- The end of `modify_bcd`: a new entry, its settings, and its record. -/
def addEntry (command : BcdEdit) (settings : List BcdEdit) : Fn Unit := do
  let id ← newEntry ok command
  ops ok (settings.map .bcdedit)
  setValue ok .vistaBootDrive fun w => { w with vistaBootDrive := some id }

/-- `modify_bcd`; what it tries besides for an EFI system, with failures that are only logged, is left
out. -/
def modifyBcd (copies : Bool) : Fn Unit := do
  if copies then op ok .copyWinboot
  if ok .bcdeditFound then
    if (← getValue ok .vistaBootDrive World.vistaBootDrive).isNone then
      if info.job.efi then
        op ok .modifyEfiFolder
        addEntry ok .copy [.setPath]
      else addEntry ok .create [.setDevice, .setPath, .displayOrder, .timeout, .bootSequence]

/-- The task of `modify_bootloader` for a drive. -/
def modifyDrive (copies : Bool) : Fn Unit :=
  match info.job.bootloader with
  | .xp => op ok .modifyBootini
  | .win98 => op ok .modifyConfigsys
  | .vista => modifyBcd ok info copies

/-! ## The tasks that uninstall -/

/-- `undo_bcd`; a failure is only logged. -/
def undoBcd : Fn Unit := do
  if ok .bcdeditFound then
    match ← getValue ok .vistaBootDrive World.vistaBootDrive with
    | none => pure ()
    | some id =>
      tryCatch (do
        op ok (.bcdedit .delete)
        modify fun w => { w with bcd := w.bcd.erase id }
        setValue ok .vistaBootDrive fun w => { w with vistaBootDrive := none }) fun _ => pure ()

/-- `undo_bootloader` -/
def undoBootloader : Fn Unit := do
  undoBcd ok
  op ok .undoDrives

/-- `remove_target_dir`: the directory is looked for here and twice in `rm_tree`. -/
def removeTargetDir : Fn Unit := do
  let there (w : World) : Bool := info.previousTargetDir.any fun dir => dir ∈ w.dirs
  if ← probe ok (.isDir 0) there then
    if ← probe ok .pathExists there then
      if ← probe ok (.isDir 1) there then
        op ok .attrib
        if ok .rmtree then
          modify fun w => { w with dirs := info.previousTargetDir.elim w.dirs w.dirs.erase }
        else op ok .otherErrno

/-- `remove_registry_key`; a failure is only logged. -/
def removeRegistryKey : Fn Unit :=
  modify fun w => if ok .deleteKey then { w with installationDir := none, vistaBootDrive := none } else w

/-! ## Sessions -/

/-- Run a task, which gives the subtasks that it runs. -/
def runTask : Task → Fn (List Task)
  | .modifyBootloader => pure (info.job.drives.map .modifyDrive)
  | t => do
    match t with
    | .selectTargetDir => selectTargetDir ok info
    | .createDirStructure => createDirStructure ok info
    | .uncompressTargetDir => pure ()
    | .createUninstaller => createUninstaller ok info
    | .modifyDrive copies => modifyDrive ok info copies
    | .undoBootloader => undoBootloader ok
    | .removeTargetDir => removeTargetDir ok info
    | .removeRegistryKey => removeRegistryKey ok
    | _ => op ok .other
    return []

/-! ## What the tasks leave unchanged -/

section Keeps

variable {ok info} {γ : Type} {g : World → γ}

theorem keeps_setValue (attr : Attr) {set : World → World} (h : ∀ w, g (set w) = g w) :
    Keeps g (setValue ok attr set) :=
  (keeps_op _).bind fun _ => keeps_modify fun w => by split_ifs <;> simp [h]

theorem keeps_selectTargetDir : Keeps g (selectTargetDir ok info) := by
  apply (keeps_probe _ _).bind
  intro there
  exact Keeps.ite (fun _ => keeps_raise) fun _ => keeps_pure _

theorem keeps_createDirStructure (h : ∀ w dirs, g { w with dirs } = g w) :
    Keeps g (createDirStructure ok info) := by
  refine Keeps.bind ((keeps_probe _ _).bind fun there => ?_) fun _ => keeps_ops _
  refine Keeps.ite (fun _ => keeps_pure _) fun _ => (keeps_op _).bind fun _ => keeps_get.bind ?_
  intro w
  exact Keeps.ite (fun _ => keeps_raise) fun _ => keeps_modify fun _ => h _ _

theorem keeps_createUninstaller (h : ∀ w installationDir, g { w with installationDir } = g w) :
    Keeps g (createUninstaller ok info) := by
  refine (keeps_op _).bind fun _ => (keeps_setValue _ fun _ => rfl).bind fun _ => ?_
  exact (keeps_setValue _ fun _ => h _ _).bind fun _ => keeps_forM fun _ =>
    keeps_setValue _ fun _ => rfl

theorem keeps_removeTargetDir (h : ∀ w dirs, g { w with dirs } = g w) :
    Keeps g (removeTargetDir ok info) := by
  refine (keeps_probe _ _).bind fun _ => Keeps.ite (fun _ => ?_) fun _ => keeps_pure _
  refine (keeps_probe _ _).bind fun _ => Keeps.ite (fun _ => ?_) fun _ => keeps_pure _
  refine (keeps_probe _ _).bind fun _ => Keeps.ite (fun _ => ?_) fun _ => keeps_pure _
  refine (keeps_op _).bind fun _ => ?_
  exact Keeps.ite (fun _ => keeps_modify fun _ => h _ _) fun _ => keeps_op _

theorem keeps_modifyBcd (h : ∀ w bcd created, g { w with bcd, created } = g w)
    (h' : ∀ w vistaBootDrive, g { w with vistaBootDrive } = g w) (copies : Bool) :
    Keeps g (modifyBcd ok info copies) := by
  have entry : ∀ command settings, Keeps g (addEntry ok command settings) := by
    intro command settings
    have new : Keeps g (newEntry ok command) := by
      refine (keeps_op _).bind fun _ => Keeps.bind ?_ fun _ => (keeps_op _).bind fun _ => keeps_pure _
      exact fun w => h w _ _
    exact new.bind fun id => (keeps_ops _).bind fun _ => keeps_setValue _ fun w => h' w _
  have rest : Keeps g (modifyBcd ok info false) := by
    refine Keeps.ite (fun _ => Keeps.bind (fun _ => rfl) fun v => ?_) fun _ => keeps_pure _
    refine Keeps.ite (fun _ => ?_) fun _ => keeps_pure _
    exact Keeps.ite (fun _ => (keeps_op _).bind fun _ => entry _ _) fun _ => entry _ _
  cases copies with
  | true => exact (keeps_op Op.copyWinboot).bind fun _ => rest
  | false => exact rest

theorem keeps_undoBcd (h : ∀ w bcd, g { w with bcd } = g w)
    (h' : ∀ w vistaBootDrive, g { w with vistaBootDrive } = g w) : Keeps g (undoBcd ok) := by
  refine Keeps.ite (fun _ => Keeps.bind (fun _ => rfl) fun v => ?_) fun _ => keeps_pure _
  cases v with
  | none => exact keeps_pure _
  | some id =>
    intro w
    rw [after_tryCatch_pure]
    refine ((keeps_op _).bind fun _ => ?_) w
    exact (keeps_modify fun _ => h _ _).bind fun _ => keeps_setValue _ fun _ => h' _ _

end Keeps

/-- The tasks that are still to be run, and what has been left so far. -/
structure State where
  info : Info
  queue : Queue Task World

/-- The next session, or the next task of this one. -/
inductive Label where
  | install (job : Job) (ok : Op → Bool)
  | uninstall (job : Job) (ok : Op → Bool)
  | next (ok : Op → Bool)

/-- A previous installation keeps an installer from running: for the CD boot helper it is enough that
one is recorded. -/
def blocked (ok : Op → Bool) (kind : Kind) (previous : Option Path) (w : World) : Bool :=
  match kind with
  | .cdboot => previous.isSome
  | _ => previous.any fun dir => ok (.isDir 0) && dir ∈ w.dirs

/-- Start a session; `fetch_basic_info` looks for the previous installation, and `tasks` are those of
the session. -/
def start (ok : Op → Bool) (job : Job) (tasks : Option Path → World → List Task) (w : World) : State :=
  let previous := if ok (.getValue .installationDir) then w.installationDir else none
  ⟨⟨job, previous⟩, ⟨tasks previous w, w⟩⟩

/-- One step: a session starts when no task is left. -/
def step (s : State) : Label → Option State
  | .next ok => (s.queue.next (runTask ok s.info)).map fun queue => { s with queue }
  | .install job ok => if s.queue.todo = [] then some (start ok job (fun previous w =>
      if blocked ok job.kind previous w then [] else installTasks job.kind) s.queue.state) else none
  | .uninstall job ok => if s.queue.todo = [] then some (start ok job (fun previous w =>
      if previous.any fun dir => ok (.isDir 0) && dir ∈ w.dirs then uninstallTasks else [])
      s.queue.state) else none

/-- A step leaves the world as it is, or runs the next task. -/
theorem world_of_step {s s' : State} {a : Label} (h : step s a = some s') :
    s'.queue.state = s.queue.state ∨ ∃ ok t ts, a = .next ok ∧ s.queue.todo = t :: ts ∧
      s'.queue.state = after (runTask ok s.info t) s.queue.state := by
  cases a with
  | install job ok =>
    simp only [step] at h
    split_ifs at h
    obtain rfl := Option.some.inj h
    exact .inl rfl
  | uninstall job ok =>
    simp only [step] at h
    split_ifs at h
    obtain rfl := Option.some.inj h
    exact .inl rfl
  | next ok =>
    obtain ⟨q, hq, rfl⟩ := Option.map_eq_some_iff.1 h
    obtain ⟨t, ts, todo, state⟩ := Queue.state_of_next hq
    exact .inr ⟨ok, t, ts, rfl, todo, state⟩

end Ydfs.Wubi.Cycle
