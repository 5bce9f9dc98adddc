import Mathlib.Tactic.SplitIfs
import Ydfs.Transition.Run

/-!
# The root disk

At a boot `restore-persistant-data` mounts `/disk/root.ext3`.  If there is none yet it takes the
`root.disk` of an installation, moves it to that name, and formats it there.  The name is all that
tells a formatted disk from one that is not, and it is given before the formatting: a power loss in
between leaves a disk that every later boot mounts as it is.  A disk that has been mounted keeps its
name, so it is never formatted again.
-/

namespace Ydfs.Boot

open Transition

namespace RootDisk

/-- How far `mke2fs` has come on a file. -/
inductive Format where
  | blank
  | begun
  | complete
deriving DecidableEq

/-- A file that may hold the root file system, and whether it has been mounted. -/
structure Disk where
  format : Format := .blank
  mounted : Bool := false
deriving DecidableEq

/-- The commands for the dual boot, in their order. -/
inductive Phase where
  | anyDisk
  | onlyNew
  | move
  | mke2fs
  | mount
deriving DecidableEq

/-- `/disk/root.ext3`, the `root.disk` of the installation, and the command of the script that comes
next, unless the script is not running. -/
structure World where
  rootExt3 : Option Disk := none
  rootDisk : Option Disk := none
  phase : Option Phase := none

/-- What happens: an installation makes the virtual disks, or they are removed with it; the machine is
booted; the next command succeeds or fails, after it has begun to format the disk or not; or the
power goes off, during the formatting with the disk begun or not. -/
inductive Label where
  | reinstall
  | uninstall
  | boot
  | command
  | failed (begun : Bool)
  | powerOff (begun : Bool)

/-- A disk on which `mke2fs` has not come to its end. -/
def Disk.interrupted (begun : Bool) (disk : Disk) : Disk :=
  if begun then { disk with format := .begun } else disk

/-- The next command of the script. -/
def command (w : World) : Phase → World
  | .anyDisk => { w with
      phase := if w.rootExt3.isSome ∨ w.rootDisk.isSome then some .onlyNew else none }
  | .onlyNew => { w with
      phase := if w.rootExt3 = none ∧ w.rootDisk.isSome then some .move else some .mount }
  | .move => { rootExt3 := w.rootDisk, rootDisk := none, phase := some .mke2fs }
  | .mke2fs => { w with
      rootExt3 := w.rootExt3.map fun disk => { disk with format := .complete }
      phase := some .mount }
  | .mount => { w with
      rootExt3 := w.rootExt3.map fun disk => { disk with mounted := true }
      phase := none }

/-- One step.  The script goes on after a command that fails. -/
def step (w : World) : Label → Option World
  | .reinstall =>
    match w.phase with
    | none => some { w with rootDisk := some {} }
    | some _ => none
  | .uninstall =>
    match w.phase with
    | none => some { w with rootDisk := none }
    | some _ => none
  | .boot =>
    match w.phase with
    | none => some { w with phase := some .anyDisk }
    | some _ => none
  | .command => w.phase.map (command w)
  | .failed begun =>
    match w.phase with
    | some .move => some { w with phase := some .mke2fs }
    | some .mke2fs => some { w with
        rootExt3 := w.rootExt3.map (Disk.interrupted begun)
        phase := some .mount }
    | some .mount => some { w with phase := none }
    | _ => none
  | .powerOff begun =>
    match w.phase with
    | none => none
    | some .mke2fs => some { w with
        rootExt3 := w.rootExt3.map (Disk.interrupted begun)
        phase := none }
    | some _ => some { w with phase := none }

/-! ### What is expected -/

/-- What `mke2fs` is about to format has never been mounted. -/
def NeverReformatted (w : World) : Prop :=
  w.phase = some .mke2fs → ∀ disk ∈ w.rootExt3, disk.mounted = false

/-- What is about to be mounted has been formatted completely. -/
def OnlyFormatted (w : World) : Prop :=
  w.phase = some .mount → ∀ disk ∈ w.rootExt3, disk.format = .complete

/-- The formatting is not cut off: `mke2fs` does not fail, and the power stays on from the moving of
the disk to its end. -/
def SafeStep (w : World) : Label → Prop
  | .failed _ | .powerOff _ => w.phase ≠ some .mke2fs
  | _ => True

variable {w w' : World} {a : Label}

/-! ### Every run -/

/-- The disk of an installation has not been mounted, and neither has the one that is formatted. -/
structure Unmounted (w : World) : Prop where
  rootDisk : ∀ disk ∈ w.rootDisk, disk.mounted = false
  moving : w.phase = some .move → w.rootExt3 = none
  moved : w.phase = some .mke2fs → ∀ disk ∈ w.rootExt3, disk.mounted = false

theorem Unmounted.start : Unmounted {} := ⟨nofun, nofun, nofun⟩

/-- Outside of the two phases of a new disk there is nothing to know of `/disk/root.ext3`. -/
theorem Unmounted.of_phase (rootDisk : ∀ disk ∈ w.rootDisk, disk.mounted = false)
    (move : w.phase ≠ some .move) (mke2fs : w.phase ≠ some .mke2fs) : Unmounted w :=
  ⟨rootDisk, fun h => absurd h move, fun h => absurd h mke2fs⟩

theorem Unmounted.command {phase : Phase} (inv : Unmounted w) : Unmounted (command w phase) := by
  cases phase with
  | anyDisk =>
    refine ⟨inv.rootDisk, fun h => ?_, fun h => ?_⟩ <;> simp only [RootDisk.command] at h
    · split_ifs at h; cases h
    · split_ifs at h; cases h
  | onlyNew =>
    refine ⟨inv.rootDisk, fun h => ?_, fun h => ?_⟩ <;> simp only [RootDisk.command] at h
    · split_ifs at h with new
      · exact new.1
      · cases h
    · split_ifs at h <;> cases h
  | move => exact ⟨nofun, nofun, fun _ => inv.rootDisk⟩
  | mke2fs => exact ⟨inv.rootDisk, nofun, nofun⟩
  | mount => exact ⟨inv.rootDisk, nofun, nofun⟩

/-- A command that fails and a power cut leave `mounted` as it was. -/
theorem Unmounted.step (inv : Unmounted w) (h : step w a = some w') : Unmounted w' := by
  cases a with
  | command =>
    obtain ⟨phase, -, rfl⟩ := Option.map_eq_some_iff.1 h
    exact inv.command
  | reinstall =>
    simp only [RootDisk.step] at h
    split at h <;> cases h
    next idle => exact .of_phase (by rintro _ ⟨⟩; rfl) (by simp [idle]) (by simp [idle])
  | uninstall =>
    simp only [RootDisk.step] at h
    split at h <;> cases h
    next idle => exact .of_phase nofun (by simp [idle]) (by simp [idle])
  | boot =>
    simp only [RootDisk.step] at h
    split at h <;> cases h
    exact .of_phase inv.rootDisk nofun nofun
  | failed begun =>
    simp only [RootDisk.step] at h
    split at h <;> cases h
    next moving =>
      refine ⟨inv.rootDisk, nofun, fun _ disk there => ?_⟩
      rw [inv.moving moving] at there
      cases there
    · exact .of_phase inv.rootDisk nofun nofun
    · exact .of_phase inv.rootDisk nofun nofun
  | powerOff begun =>
    simp only [RootDisk.step] at h
    split at h <;> cases h
    · exact .of_phase inv.rootDisk nofun nofun
    · exact .of_phase inv.rootDisk nofun nofun

/-- In every run: what has been mounted is never formatted again. -/
theorem never_reformatted (h : Run step {} w) : NeverReformatted w :=
  (h.invariant .start fun _ _ _ inv _ taken => inv.step taken : Unmounted w).moved

/-! ### Runs that do not cut the formatting off -/

/-- `/disk/root.ext3` has been formatted, but for the moment between `mv` and `mke2fs`. -/
structure Formatted (w : World) : Prop where
  moving : w.phase = some .move → w.rootExt3 = none
  named : w.phase ≠ some .mke2fs → ∀ disk ∈ w.rootExt3, disk.format = .complete

theorem Formatted.start : Formatted {} := ⟨nofun, nofun⟩

theorem Formatted.command {phase : Phase} (inv : Formatted w) (now : w.phase = some phase) :
    Formatted (command w phase) := by
  cases phase with
  | anyDisk =>
    refine ⟨fun h => ?_, fun _ => inv.named (by simp [now])⟩
    simp only [RootDisk.command] at h
    split_ifs at h
    cases h
  | onlyNew =>
    refine ⟨fun h => ?_, fun _ => inv.named (by simp [now])⟩
    simp only [RootDisk.command] at h
    split_ifs at h with new
    · exact new.1
    · cases h
  | move => exact ⟨nofun, fun h => absurd rfl h⟩
  | mke2fs =>
    refine ⟨nofun, fun _ disk there => ?_⟩
    obtain ⟨before, -, rfl⟩ := Option.map_eq_some_iff.1 there
    rfl
  | mount =>
    refine ⟨nofun, fun _ disk there => ?_⟩
    obtain ⟨before, found, rfl⟩ := Option.map_eq_some_iff.1 there
    exact inv.named (by simp [now]) before found

theorem Formatted.step (inv : Formatted w) (safe : SafeStep w a) (h : step w a = some w') :
    Formatted w' := by
  cases a with
  | command =>
    obtain ⟨phase, now, rfl⟩ := Option.map_eq_some_iff.1 h
    exact inv.command now
  | reinstall =>
    simp only [RootDisk.step] at h
    split at h <;> cases h
    next idle => exact ⟨by simp [idle], fun _ => inv.named (by simp [idle])⟩
  | uninstall =>
    simp only [RootDisk.step] at h
    split at h <;> cases h
    next idle => exact ⟨by simp [idle], fun _ => inv.named (by simp [idle])⟩
  | boot =>
    simp only [RootDisk.step] at h
    split at h <;> cases h
    next idle => exact ⟨nofun, fun _ => inv.named (by simp [idle])⟩
  | failed begun =>
    simp only [RootDisk.step] at h
    split at h <;> cases h
    next moving => exact ⟨nofun, fun h => absurd rfl h⟩
    next formatting => exact absurd formatting safe
    next mounting => exact ⟨nofun, fun _ => inv.named (by simp [mounting])⟩
  | powerOff begun =>
    simp only [RootDisk.step] at h
    split at h <;> cases h
    next formatting => exact absurd formatting safe
    next other => exact ⟨nofun, fun _ => inv.named safe⟩

/-- Persistent data are safe in every run whose steps leave the formatting alone: what has been
mounted is not formatted again, and what is mounted has been formatted completely. -/
theorem persistent_data_safe (h : Reaches step SafeStep {} w) :
    NeverReformatted w ∧ OnlyFormatted w := by
  have formatted : Formatted w := h.invariant .start fun _ _ _ inv safe taken => inv.step safe taken
  refine ⟨never_reformatted h.run, fun mounting => ?_⟩
  apply formatted.named
  rw [mounting]
  decide

/-- The first boot after an installation, then a second one, up to its `mount`. -/
def twoBoots : List Label :=
  [.reinstall, .boot, .command, .command, .command, .command, .command,
    .boot, .command, .command]

theorem persistent_data_safe_two_boots :
    let w : World := { rootExt3 := some ⟨.complete, true⟩, phase := some .mount }
    NeverReformatted w ∧ OnlyFormatted w :=
  have run : exec step {} twoBoots = some _ := rfl
  persistent_data_safe (reaches_of_exec run (by simp [Allowed, twoBoots, SafeStep, step, command]))

/-- The power goes off between `mv` and `mke2fs`; the next boot mounts the disk. -/
def cutOff : List Label :=
  [.reinstall, .boot, .command, .command, .command, .powerOff false, .boot, .command, .command]

theorem mounted_unformatted : ¬ ∀ w, Run step {} w → NeverReformatted w ∧ OnlyFormatted w := by
  intro safe
  have run : exec step {} cutOff = some { rootExt3 := some {}, phase := some .mount } := rfl
  have formatted := (safe _ (run_of_exec run)).2 rfl {} rfl
  cases formatted

end RootDisk

end Ydfs.Boot
