import Ydfs.Wubi.Bcd

/-!
# No orphan target directories

A target directory is found again by the value `InstallationDir` alone (`Found`).  It is made by
`create_dir_structure` and recorded by `create_uninstaller`, so that between these two tasks it is not
yet recorded (`Waiting`); and the record is removed by a task of its own, after one that may have left
the directory.
-/

namespace Ydfs.Wubi.Cycle

open Transition Fallible

variable {ok : Op → Bool} {info : Info} {w : World}

/-- Every target directory that is left is recorded. -/
def Found (w : World) : Prop := ∀ dir ∈ w.dirs, w.installationDir = some dir

/-- The directory structure is complete but for the target directory itself. -/
def DirsMade (ok : Op → Bool) : Prop :=
  ∀ o ∈ [Op.mkdir 1, .mkdir 2, .mkdir 3, .mkdir 4, .mkdir 5, .mkdir 6], ok o = true

/-- `create_uninstaller` gets as far as to record the target directory. -/
def Registers (ok : Op → Bool) : Prop :=
  ok .copyUninstaller = true ∧ ok (.openKey .uninstallString) = true ∧
    ok (.openKey .installationDir) = true ∧ ok (.setValueEx .installationDir) = true

/-- A new target directory is the only one, and nothing fails from there to its record unless it is
recorded already; no other directory loses its record to it; and the record is removed when no
directory is left. -/
def SafeDirs (ok : Op → Bool) (info : Info) (w : World) : Task → Prop
  | .createDirStructure => ok (.mkdir 0) = true → occupied info w = false →
      w.dirs = ∅ ∧ (DirsMade ok ∨ w.installationDir = some info.job.targetDir)
  | .createUninstaller =>
      (Registers ok → ∀ dir ∈ w.dirs, dir = info.job.targetDir) ∧ (¬ Registers ok → Found w)
  | .removeRegistryKey => ok .deleteKey = true → w.dirs = ∅
  | _ => True

/-- The next task is safe. -/
def SafeDirStep (s : State) : Label → Prop
  | .next ok => ∀ t ∈ s.queue.todo.head?, SafeDirs ok s.info s.queue.state t
  | _ => True

/-- The target directory has been made and is about to be recorded. -/
def Waiting : List Task → Prop
  | .createUninstaller :: _ => True
  | .uncompressTargetDir :: .createUninstaller :: _ => True
  | _ => False

/-! ## The order of the tasks -/

/-- The tasks that are left are the last ones of a session, after what is left of the bootloader
tasks for the drives. -/
def Suffix (kind : Kind) (todo : List Task) : Prop :=
  ∃ (drives : List Bool) (l : List Task), todo = drives.map .modifyDrive ++ l ∧
    (l <:+ installTasks kind ∨ l <:+ uninstallTasks)

theorem suffix_nil (kind : Kind) : Suffix kind [] := ⟨[], [], rfl, .inl List.nil_suffix⟩

/-- The other tasks are still the last ones of the session. -/
theorem Suffix.tail {kind : Kind} {t : Task} {ts : List Task} (h : Suffix kind (t :: ts)) :
    Suffix kind ts := by
  obtain ⟨drives, l, todo, last⟩ := h
  cases drives with
  | nil =>
    obtain rfl : t :: ts = l := todo
    exact ⟨[], ts, rfl, last.imp (List.suffix_cons _ _).trans (List.suffix_cons _ _).trans⟩
  | cons copies drives =>
    obtain ⟨-, rfl⟩ := List.cons.inj todo
    exact ⟨drives, l, rfl, last⟩

/-- The bootloader task adds a task for each drive. -/
theorem Suffix.bootloader {kind : Kind} {ts : List Task} (drives : List Bool)
    (h : Suffix kind (.modifyBootloader :: ts)) : Suffix kind (drives.map .modifyDrive ++ ts) := by
  obtain ⟨drives', l, todo, last⟩ := h
  cases drives' with
  | nil =>
    obtain rfl : Task.modifyBootloader :: ts = l := todo
    exact ⟨drives, ts, rfl, last.imp (List.suffix_cons _ _).trans (List.suffix_cons _ _).trans⟩
  | cons copies drives' => cases (List.cons.inj todo).1

/-- After the directories, the uninstaller is created. -/
theorem Suffix.waiting {kind : Kind} {ts : List Task} (h : Suffix kind (.createDirStructure :: ts)) :
    Waiting ts := by
  obtain ⟨drives, l, todo, last⟩ := h
  cases drives with
  | nil =>
    obtain rfl : Task.createDirStructure :: ts = l := todo
    cases kind <;>
      simp [installTasks, uninstallTasks, List.suffix_cons_iff] at last <;> simp [last, Waiting]
  | cons copies drives => cases (List.cons.inj todo).1

/-! ## What the tasks do to the directories and their record -/

/-- The directories and their record. -/
def World.directories (w : World) : Finset Path × Option Path := (w.dirs, w.installationDir)

theorem found_congr {w' : World} (h : w'.directories = w.directories) (found : Found w) :
    Found w' := by
  simp only [World.directories, Prod.mk.injEq] at h
  unfold Found
  rw [h.1, h.2]
  exact found

/-- Most tasks leave the directories and their record as they are. -/
theorem keeps_directories (t : Task) (create : t ≠ .createDirStructure)
    (uninstaller : t ≠ .createUninstaller) (remove : t ≠ .removeTargetDir)
    (key : t ≠ .removeRegistryKey) : Keeps World.directories (runTask ok info t) := by
  have nothing : ∀ m : Fn Unit, Keeps World.directories m →
      Keeps World.directories (do m; return ([] : List Task)) :=
    fun m h => h.bind fun _ => keeps_pure _
  cases t with
  | createDirStructure => exact absurd rfl create
  | createUninstaller => exact absurd rfl uninstaller
  | removeTargetDir => exact absurd rfl remove
  | removeRegistryKey => exact absurd rfl key
  | modifyBootloader => exact keeps_pure _
  | selectTargetDir => exact nothing _ keeps_selectTargetDir
  | uncompressTargetDir => exact nothing (pure ()) (keeps_pure ())
  | modifyDrive copies =>
    refine nothing (modifyDrive ok info copies) ?_
    unfold modifyDrive
    cases info.job.bootloader with
    | xp => exact keeps_op _
    | win98 => exact keeps_op _
    | vista => exact keeps_modifyBcd (fun _ _ _ => rfl) (fun _ _ => rfl) copies
  | undoBootloader =>
    exact nothing (undoBootloader ok) ((keeps_undoBcd (fun _ _ => rfl) fun _ _ => rfl).bind fun _ =>
      keeps_op _)
  | _ => exact nothing _ (keeps_op _)

/-- The world with the target directory. -/
def World.make (w : World) (dir : Path) : World := { w with dirs := insert dir w.dirs }

theorem run_makeTargetDir (ok : Op → Bool) (info : Info) (w : World) :
    (makeTargetDir ok info).run w = if ok (.isDir 0) && occupied info w then .ok () w
      else if ok (.mkdir 0) then
        if occupied info w then .error () w else .ok () (w.make info.job.targetDir)
      else .error () w := by
  unfold makeTargetDir
  rw [EStateM.run_bind, run_probe]
  dsimp only
  by_cases there : (ok (.isDir 0) && occupied info w) = true
  · simp [there]
  · rw [if_neg there, if_neg there, EStateM.run_bind, run_op]
    by_cases made : ok (.mkdir 0) = true
    · rw [if_pos made, if_pos made]
      dsimp only
      rw [EStateM.run_bind, EStateM.run_get]
      dsimp only
      split_ifs <;> rfl
    · rw [if_neg made, if_neg made]

/-- `create_dir_structure` leaves the world as it is, or makes the target directory, and then it goes
on if nothing fails. -/
theorem run_createDirStructure (ok : Op → Bool) (info : Info) (w : World) :
    after (runTask ok info .createDirStructure) w = w ∨
      ok (.mkdir 0) = true ∧ occupied info w = false ∧
        after (runTask ok info .createDirStructure) w = w.make info.job.targetDir ∧
          (DirsMade ok → (runTask ok info .createDirStructure).run w =
            .ok [] (w.make info.job.targetDir)) := by
  have run : (runTask ok info .createDirStructure).run w =
      (createDirStructure ok info >>= fun _ => pure []).run w := rfl
  unfold after
  rw [run]
  unfold createDirStructure
  rw [EStateM.run_bind, EStateM.run_bind, run_makeTargetDir]
  by_cases there : (ok (.isDir 0) && occupied info w) = true
  · rw [if_pos there]
    refine .inl ?_
    dsimp only
    rw [run_ops]
    split_ifs <;> rfl
  · rw [if_neg there]
    by_cases made : ok (.mkdir 0) = true
    · rw [if_pos made]
      cases occ : occupied info w with
      | true => exact .inl rfl
      | false =>
        refine .inr ⟨made, rfl, ?_, fun all => ?_⟩
        · simp only [Bool.false_eq_true, if_false]
          rw [run_ops]
          split_ifs <;> rfl
        · simp only [Bool.false_eq_true, if_false]
          unfold DirsMade at all
          rw [run_ops, if_pos all]
          rfl
    · rw [if_neg made]
      exact .inl rfl

/-- `create_uninstaller` records the target directory or leaves the record as it is. -/
theorem after_createUninstaller (ok : Op → Bool) (info : Info) (w : World) :
    (Registers ok ∧ after (runTask ok info .createUninstaller) w =
        { w with installationDir := some info.job.targetDir }) ∨
      ¬ Registers ok ∧ after (runTask ok info .createUninstaller) w = w := by
  have others : ∀ attrs : List Attr, Keeps id (attrs.forM fun attr => setValue ok attr id) :=
    fun attrs => keeps_forM fun _ => keeps_setValue _ fun _ => rfl
  show (_ ∧ after (createUninstaller ok info >>= fun _ => pure []) w = _) ∨
    _ ∧ after (createUninstaller ok info >>= fun _ => pure []) w = w
  rw [after_bind_of_keeps _ fun _ _ => rfl]
  unfold createUninstaller Registers
  rw [after_op_bind]
  by_cases copied : ok .copyUninstaller = true
  · rw [if_pos copied, after_bind, run_setValue]
    by_cases first : ok (.openKey .uninstallString) = true
    · simp only [first, if_true, id_eq, ite_self]
      rw [after_bind_of_keeps _ fun _ => others _, after, run_setValue]
      by_cases opened : ok (.openKey .installationDir) = true <;>
        by_cases written : ok (.setValueEx .installationDir) = true <;>
          simp [copied, opened, written]
    · simp [first]
  · simp [copied]

/-- `remove_target_dir` makes no directory, and leaves the record. -/
theorem after_removeTargetDir (ok : Op → Bool) (info : Info) (w : World) :
    (after (runTask ok info .removeTargetDir) w).dirs ⊆ w.dirs ∧
      (after (runTask ok info .removeTargetDir) w).installationDir = w.installationDir := by
  have record : Keeps World.installationDir (removeTargetDir ok info) :=
    keeps_removeTargetDir fun _ _ => rfl
  show (after (removeTargetDir ok info >>= fun _ => pure []) w).dirs ⊆ w.dirs ∧
    (after (removeTargetDir ok info >>= fun _ => pure []) w).installationDir = _
  rw [after_bind_of_keeps _ fun _ _ => rfl]
  refine ⟨?_, record w⟩
  unfold removeTargetDir
  dsimp only
  generalize (fun w : World => info.previousTargetDir.any fun dir => dir ∈ w.dirs) = there
  have first : ∀ (o : Op) (m : Fn Unit), (after m w).dirs ⊆ w.dirs →
      (after (do if ← probe ok o there then m) w).dirs ⊆ w.dirs := by
    intro o m h
    rw [after_bind, run_probe]
    dsimp only
    cases ok o && there w with
    | true => exact h
    | false => exact Finset.Subset.refl _
  refine first _ _ (first _ _ (first _ _ ?_))
  rw [after_op_bind]
  by_cases attrib : ok .attrib = true
  · rw [if_pos attrib]
    by_cases removed : ok .rmtree = true
    · rw [if_pos removed]
      cases info.previousTargetDir with
      | none => exact Finset.Subset.refl _
      | some dir => exact Finset.erase_subset _ _
    · rw [if_neg removed, after_op]
  · rw [if_neg attrib]

/-! ## Runs -/

/-- What holds in a session: the directories are recorded, or the one that is being installed is about
to be; and the tasks are in their order. -/
structure Inv (s : State) : Prop where
  found : Found s.queue.state ∨
    Waiting s.queue.todo ∧ ∀ dir ∈ s.queue.state.dirs, dir = s.info.job.targetDir
  order : Suffix s.info.job.kind s.queue.todo

theorem Inv.initial : Inv initial where
  found := .inl fun _ h => nomatch h
  order := suffix_nil _

/-- Before most tasks the directories are recorded. -/
theorem Inv.found_of_head {s : State} (h : Inv s) {t : Task} {ts : List Task}
    (todo : s.queue.todo = t :: ts) (uncompress : t ≠ .uncompressTargetDir)
    (uninstaller : t ≠ .createUninstaller) : Found s.queue.state := by
  obtain found | ⟨waiting, -⟩ := h.found
  · exact found
  · rw [todo] at waiting
    cases t <;> first | exact absurd rfl uncompress | exact absurd rfl uninstaller | cases waiting

/-- A safe task that creates the uninstaller leaves the directories recorded. -/
theorem found_createUninstaller (safe : SafeDirs ok info w .createUninstaller) :
    Found (after (runTask ok info .createUninstaller) w) := by
  obtain ⟨registers, rest⟩ | ⟨fails, rest⟩ := after_createUninstaller ok info w
  · rw [rest]
    exact fun dir hd => congrArg some (safe.1 registers dir hd).symm
  · rw [rest]
    exact safe.2 fails

/-- A task that leaves the directories recorded whenever they were. -/
theorem found_runTask {t : Task} (found : Found w) (safe : SafeDirs ok info w t)
    (create : t ≠ .createDirStructure) : Found (after (runTask ok info t) w) := by
  by_cases other : t ≠ .createUninstaller ∧ t ≠ .removeTargetDir ∧ t ≠ .removeRegistryKey
  · obtain ⟨uninstaller, remove, key⟩ := other
    exact found_congr (keeps_directories t create uninstaller remove key w) found
  · cases t with
    | createUninstaller => exact found_createUninstaller safe
    | removeTargetDir =>
      obtain ⟨fewer, record⟩ := after_removeTargetDir ok info w
      exact fun dir hd => record.trans (found dir (fewer hd))
    | removeRegistryKey =>
      rw [after_key]
      split_ifs with deleted
      · intro dir hd
        rw [safe deleted] at hd
        cases hd
      · exact found
    | _ => simp at other

/-- A safe task that makes the directory structure leaves the directories recorded, or it goes on with
no other directory than the new one. -/
theorem found_createDirStructure (found : Found w) (safe : SafeDirs ok info w .createDirStructure) :
    Found (after (runTask ok info .createDirStructure) w) ∨
      (∃ w', (runTask ok info .createDirStructure).run w = .ok [] w') ∧
        ∀ dir ∈ (after (runTask ok info .createDirStructure) w).dirs, dir = info.job.targetDir := by
  obtain same | ⟨made, free, rest, returns⟩ := run_createDirStructure ok info w
  · rw [same]
    exact .inl found
  · obtain ⟨empty, all | recorded⟩ := safe made free
    · refine .inr ⟨⟨_, returns all⟩, ?_⟩
      rw [rest]
      simp [World.make, empty]
    · refine .inl ?_
      rw [rest]
      intro dir hd
      obtain rfl : dir = info.job.targetDir := by simpa [World.make, empty] using hd
      exact recorded

/-- The tasks of a queue that goes on are still in their order. -/
theorem Suffix.of_run {kind : Kind} {t : Task} {ts more : List Task} {w' : World}
    (h : Suffix kind (t :: ts)) (hr : (runTask ok info t).run w = .ok more w') :
    Suffix kind (more ++ ts) := by
  by_cases boot : t = .modifyBootloader
  · subst boot
    obtain ⟨rfl, -⟩ := EStateM.Result.ok.inj hr
    exact h.bootloader _
  · have nothing : ∀ m : Fn Unit, (do m; return ([] : List Task) : Fn (List Task)).run w =
        .ok more w' → more = [] := by
      intro m hm
      rw [EStateM.run_bind] at hm
      cases hw : m.run w with
      | ok a w₁ =>
        rw [hw] at hm
        exact (EStateM.Result.ok.inj hm).1.symm
      | error e w₁ =>
        rw [hw] at hm
        cases hm
    have none : more = [] := by
      cases t with
      | modifyBootloader => exact absurd rfl boot
      | uncompressTargetDir => exact nothing (pure ()) hr
      | _ => exact nothing _ hr
    rw [none]
    exact h.tail

/-- What a session keeps when it starts. -/
theorem Inv.start {s : State} (h : Inv s) (done : s.queue.todo = []) (ok : Op → Bool) (job : Job)
    (tasks : Option Path → World → List Task) (order : ∀ previous,
      Suffix job.kind (tasks previous s.queue.state)) : Inv (start ok job tasks s.queue.state) where
  found := by
    obtain found | ⟨waiting, -⟩ := h.found
    · exact .inl found
    · rw [done] at waiting
      cases waiting
  order := order _

/-- What a session keeps when a task is run: its world and what is still to be run. -/
theorem Inv.next {s : State} (h : Inv s) {t : Task} {ts todo : List Task} {w' : World}
    (head : s.queue.todo = t :: ts) (safe : SafeDirs ok s.info s.queue.state t)
    (run : (∃ more, (runTask ok s.info t).run s.queue.state = .ok more w' ∧ todo = more ++ ts) ∨
      (runTask ok s.info t).run s.queue.state = .error () w' ∧ todo = []) :
    Found w' ∨ Waiting todo ∧ ∀ dir ∈ w'.dirs, dir = s.info.job.targetDir := by
  have rest : after (runTask ok s.info t) s.queue.state = w' := by
    obtain ⟨more, hr, -⟩ | ⟨hr, -⟩ := run
    · exact after_of_run hr
    · exact after_of_raise hr
  by_cases uninstaller : t = .createUninstaller
  · subst uninstaller
    rw [← rest]
    exact .inl (found_createUninstaller safe)
  by_cases uncompress : t = .uncompressTargetDir
  · subst uncompress
    obtain ⟨more, hr, rfl⟩ | ⟨hr, -⟩ := run
    · obtain ⟨rfl, rfl⟩ := EStateM.Result.ok.inj hr
      refine h.found.imp id (And.imp_left fun waiting => ?_)
      rw [head] at waiting
      cases ts with
      | nil => cases waiting
      | cons t ts => cases t <;> trivial
    · cases hr
  have found := h.found_of_head head uncompress uninstaller
  rw [← rest]
  by_cases create : t = .createDirStructure
  · subst create
    refine (found_createDirStructure found safe).imp id (And.imp_left ?_)
    rintro ⟨w₁, hw⟩
    obtain ⟨more, hr, rfl⟩ | ⟨hr, -⟩ := run
    · rw [hw] at hr
      obtain ⟨rfl, -⟩ := EStateM.Result.ok.inj hr
      have order := h.order
      rw [head] at order
      exact order.waiting
    · rw [hw] at hr
      cases hr
  · exact .inl (found_runTask found safe create)

theorem Inv.step {s s' : State} {a : Label} (h : Inv s) (safe : SafeDirStep s a)
    (taken : step s a = some s') : Inv s' := by
  cases a with
  | install job ok =>
    simp only [Cycle.step] at taken
    split_ifs at taken with done
    obtain rfl := Option.some.inj taken
    refine h.start done ok job _ fun previous => ?_
    split_ifs
    · exact suffix_nil _
    · exact ⟨[], _, rfl, .inl List.suffix_rfl⟩
  | uninstall job ok =>
    simp only [Cycle.step] at taken
    split_ifs at taken with done
    obtain rfl := Option.some.inj taken
    refine h.start done ok job _ fun previous => ?_
    split_ifs
    · exact ⟨[], _, rfl, .inr List.suffix_rfl⟩
    · exact suffix_nil _
  | next ok =>
    obtain ⟨q, hq, rfl⟩ := Option.map_eq_some_iff.1 taken
    obtain ⟨t, ts, head, run⟩ := Queue.of_next hq
    have order := h.order
    rw [head] at order
    refine ⟨h.next head (safe t (by rw [head]; rfl)) run, ?_⟩
    obtain ⟨more, hr, todo⟩ | ⟨-, todo⟩ := run
    · show Suffix s.info.job.kind q.todo
      rw [todo]
      exact order.of_run hr
    · show Suffix s.info.job.kind q.todo
      rw [todo]
      exact suffix_nil _

/-- In every run of installations and removals whose tasks are all safe, whenever a list of tasks has
ended every target directory that is left is recorded. -/
theorem no_orphan_directories {s : State} (h : Reaches step SafeDirStep initial s)
    (ended : s.queue.todo = []) : Found s.queue.state := by
  have inv : Inv s := h.invariant Inv.initial fun _ _ _ inv safe taken => inv.step safe taken
  obtain found | ⟨waiting, -⟩ := inv.found
  · exact found
  · rw [ended] at waiting
    cases waiting

/-- A directory below the target directory cannot be made. -/
def noDisks : Op → Bool
  | .mkdir 1 => false
  | _ => true

/-- A whole installation in which everything succeeds. -/
def installed : List Label := .install sampleJob allOk :: List.replicate 15 (.next allOk)

theorem allowed_installed : Allowed step SafeDirStep initial installed := by
  have first : ∀ {t : Task} {w : World} {info : Info}, SafeDirs allOk info w t →
      ∀ t' ∈ some t, SafeDirs allOk info w t' := by
    rintro t w info h _ ⟨⟩
    exact h
  have registers : Registers allOk := ⟨rfl, rfl, rfl, rfl⟩
  refine ⟨trivial, first trivial, first fun _ _ => ⟨rfl, .inl fun _ _ => rfl⟩, first trivial,
    first ⟨fun _ dir hd => Finset.mem_singleton.1 hd, fun h => absurd registers h⟩, ?_⟩
  exact ⟨first trivial, first trivial, first trivial, first trivial, first trivial, first trivial,
    first trivial, first trivial, first trivial, first trivial, first trivial, trivial⟩

theorem no_orphan_directories_installed : ∃ s, exec step initial installed = some s ∧
    s.queue.state.dirs = {"C:\\linux"} ∧ Found s.queue.state :=
  ⟨_, rfl, rfl, no_orphan_directories (reaches_of_exec rfl allowed_installed) rfl⟩

/-- A run may leave a target directory that is not recorded. -/
theorem not_no_orphan_directories :
    ¬ ∀ s, Run step initial s → s.queue.todo = [] → Found s.queue.state := by
  intro h
  have run : ∃ s, exec step initial [.install sampleJob allOk, .next allOk, .next noDisks] = some s ∧
      s.queue.todo = [] ∧ s.queue.state.dirs = {"C:\\linux"} ∧
        s.queue.state.installationDir = none := ⟨_, rfl, rfl, rfl, rfl⟩
  obtain ⟨s, hs, ended, dirs, record⟩ := run
  have found := h s (run_of_exec hs) ended "C:\\linux" (by rw [dirs]; exact Finset.mem_singleton_self _)
  rw [record] at found
  cases found

end Ydfs.Wubi.Cycle
