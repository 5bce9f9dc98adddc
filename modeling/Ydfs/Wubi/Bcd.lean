import Ydfs.Wubi.Cycle

/-!
# No orphan boot entries

An entry of the BCD store that the installer has created is found again by the value `VistaBootDrive`
alone (`Recorded`).  Two tasks may lose it: `modify_bcd`, which creates the entry first and records it
last, and `remove_registry_key`, which runs after `undo_bcd` whether that has deleted the entry or not.
-/

namespace Ydfs.Wubi.Cycle

open Transition Fallible

variable {ok : Op → Bool} {info : Info} {w : World} {copies : Bool}

/-- Every boot entry that is left is recorded. -/
def Recorded (w : World) : Prop := ∀ id ∈ w.bcd, w.vistaBootDrive = some id

/-- The identifiers in use are some of those that have been given out. -/
def Numbered (w : World) : Prop :=
  (∀ id ∈ w.bcd, id < w.created) ∧ ∀ id, w.vistaBootDrive = some id → id < w.created

/-- The command by which `modify_bcd` creates an entry. -/
def creation (info : Info) : BcdEdit := if info.job.efi then .copy else .create

/-- The settings of a new entry, a failure of which raises. -/
def settings (info : Info) : List BcdEdit :=
  if info.job.efi then [.setPath] else [.setDevice, .setPath, .displayOrder, .timeout, .bootSequence]

/-- `modify_bcd` gets as far as to create an entry. -/
def Creates (ok : Op → Bool) (info : Info) (copies : Bool) (w : World) : Prop :=
  (copies = true → ok .copyWinboot = true) ∧ ok .bcdeditFound = true ∧
    (ok (.getValue .vistaBootDrive) = true → w.vistaBootDrive = none) ∧
    (info.job.efi = true → ok .modifyEfiFolder = true) ∧ ok (.bcdedit (creation info)) = true

/-- Nothing fails from the new entry to its record. -/
def Records (ok : Op → Bool) (info : Info) : Prop :=
  ok .parseId = true ∧ (∀ command ∈ settings info, ok (.bcdedit command) = true) ∧
    ok (.openKey .vistaBootDrive) = true ∧ ok (.setValueEx .vistaBootDrive) = true

/-- The world with one more entry. -/
def World.add (w : World) : World :=
  { w with bcd := insert w.created w.bcd, created := w.created + 1 }

/-! ## What the tasks do to the entries and to their record -/

theorem run_newEntry (command : BcdEdit) (w : World) :
    (newEntry ok command).run w = if ok (.bcdedit command) then
      (if ok .parseId then .ok w.created w.add else .error () w.add) else .error () w := by
  unfold newEntry
  rw [EStateM.run_bind, run_op]
  by_cases created : ok (.bcdedit command) = true
  · simp only [created, if_true, EStateM.run_bind, EStateM.run_modifyGet, run_op]
    split_ifs <;> rfl
  · simp [created]

/-- An entry that is created is recorded if nothing fails, and otherwise just left. -/
theorem after_addEntry {command : BcdEdit} (l : List BcdEdit) (w : World)
    (created : ok (.bcdedit command) = true) :
    (after (addEntry ok command l) w = { w.add with vistaBootDrive := some w.created } ∧
        ok .parseId = true ∧ (∀ c ∈ l, ok (.bcdedit c) = true) ∧
          ok (.openKey .vistaBootDrive) = true ∧ ok (.setValueEx .vistaBootDrive) = true) ∨
      (after (addEntry ok command l) w = w.add ∧
        ¬ (ok .parseId = true ∧ (∀ c ∈ l, ok (.bcdedit c) = true) ∧
          ok (.openKey .vistaBootDrive) = true ∧ ok (.setValueEx .vistaBootDrive) = true)) := by
  unfold addEntry
  rw [after_bind, run_newEntry, if_pos created]
  by_cases parsed : ok .parseId = true
  · simp only [parsed, if_true, true_and]
    rw [after_ops_bind]
    by_cases set : ∀ c ∈ l, ok (.bcdedit c) = true
    · rw [if_pos (by simpa using set), after, run_setValue]
      simp only [eq_true set, true_and]
      by_cases opened : ok (.openKey .vistaBootDrive) = true <;>
        by_cases written : ok (.setValueEx .vistaBootDrive) = true <;>
          simp [opened, written]
    · rw [if_neg (by simpa using set)]
      exact .inr ⟨rfl, fun h => set h.1⟩
  · exact .inr ⟨by simp [parsed], fun h => parsed h.1⟩

theorem after_addEntry_of_fails {command : BcdEdit} (l : List BcdEdit) (w : World)
    (fails : ¬ ok (.bcdedit command) = true) : after (addEntry ok command l) w = w := by
  unfold addEntry
  simp [after_bind, run_newEntry, fails]

theorem after_modifyBcd_found (ok : Op → Bool) (info : Info) (w : World)
    (found : ok .bcdeditFound = true)
    (unset : ok (.getValue .vistaBootDrive) = true → w.vistaBootDrive = none) :
    after (modifyBcd ok info false) w = if info.job.efi = true → ok .modifyEfiFolder = true then
      after (addEntry ok (creation info) (settings info)) w else w := by
  have read : (if ok (.getValue .vistaBootDrive) then w.vistaBootDrive else none) = none := by
    simpa using unset
  unfold modifyBcd
  simp only [Bool.false_eq_true, if_false, found, if_true]
  rw [after_bind, run_getValue, read]
  simp only [Option.isNone_none, if_true]
  cases efi : info.job.efi with
  | true => simp [after_op_bind, creation, settings, efi]
  | false => simp [creation, settings, efi]

/-- `modify_bcd` stops before it creates an entry, or goes on to the end. -/
theorem after_modifyBcd (ok : Op → Bool) (info : Info) (copies : Bool) (w : World) :
    (after (modifyBcd ok info copies) w = w ∧ ¬ Creates ok info copies w) ∨
      (after (modifyBcd ok info copies) w = after (addEntry ok (creation info) (settings info)) w ∧
        Creates ok info copies w) := by
  unfold Creates
  by_cases copied : copies = true → ok .copyWinboot = true
  · have start : after (modifyBcd ok info copies) w = after (modifyBcd ok info false) w := by
      cases copies with
      | false => rfl
      | true =>
        show after (op ok .copyWinboot >>= fun _ => modifyBcd ok info false) w = _
        rw [after_op_bind, if_pos (copied rfl)]
    rw [start]
    by_cases found : ok .bcdeditFound = true
    · by_cases unset : ok (.getValue .vistaBootDrive) = true → w.vistaBootDrive = none
      · rw [after_modifyBcd_found ok info w found unset]
        by_cases folder : info.job.efi = true → ok .modifyEfiFolder = true
        · rw [if_pos folder]
          by_cases created : ok (.bcdedit (creation info)) = true
          · exact .inr ⟨rfl, copied, found, unset, folder, created⟩
          · exact .inl ⟨after_addEntry_of_fails _ w created, fun h => created h.2.2.2.2⟩
        · exact .inl ⟨if_neg folder, fun h => folder h.2.2.2.1⟩
      · refine .inl ⟨?_, fun h => unset h.2.2.1⟩
        obtain ⟨readable, set⟩ := Classical.not_imp.1 unset
        unfold modifyBcd
        simp [found, after_bind, run_getValue, readable, set]
    · refine .inl ⟨?_, fun h => found h.2.1⟩
      simp [modifyBcd, found]
  · refine .inl ⟨?_, fun h => copied h.1⟩
    obtain ⟨rfl, fails⟩ := Classical.not_imp.1 copied
    show after (op ok .copyWinboot >>= fun _ => modifyBcd ok info false) w = _
    rw [after_op_bind, if_neg fails]
/-- `undo_bcd` leaves the entries and their record as they are, or it deletes the entry that is
recorded. -/
theorem after_undoBcd (ok : Op → Bool) (w : World) : after (undoBcd ok) w = w ∨
    ∃ id, w.vistaBootDrive = some id ∧ (after (undoBcd ok) w).bcd = w.bcd.erase id ∧
      (after (undoBcd ok) w).created = w.created ∧
        ((after (undoBcd ok) w).vistaBootDrive = none ∨
          (after (undoBcd ok) w).vistaBootDrive = some id) := by
  unfold undoBcd
  by_cases found : ok .bcdeditFound = true
  · simp only [found, if_true]
    rw [after_bind, run_getValue]
    dsimp only
    cases hv : (if ok (.getValue .vistaBootDrive) then w.vistaBootDrive else none) with
    | none => exact .inl rfl
    | some id =>
      have set : w.vistaBootDrive = some id := by
        split_ifs at hv
        exact hv
      dsimp only
      rw [after_tryCatch_pure, after_op_bind]
      by_cases deleted : ok (.bcdedit .delete) = true
      · refine .inr ⟨id, set, ?_⟩
        rw [if_pos deleted, after_bind, EStateM.run_modify]
        dsimp only
        rw [after, run_setValue]
        by_cases opened : ok (.openKey .vistaBootDrive) = true <;>
          by_cases written : ok (.setValueEx .vistaBootDrive) = true <;>
            simp [opened, written, set]
      · exact .inl (if_neg deleted)
  · simp [found]

/-! ## One task -/

/-- The entries, how many have been created, and what is recorded. -/
def World.entries (w : World) : Finset ℕ × ℕ × Option ℕ := (w.bcd, w.created, w.vistaBootDrive)

/-- A task that creates an entry finds no other one and gets as far as to record it, and the record is
removed when no entry is left. -/
def SafeEntries (ok : Op → Bool) (info : Info) (w : World) : Task → Prop
  | .modifyDrive copies => info.job.bootloader = .vista → Creates ok info copies w →
      w.bcd = ∅ ∧ Records ok info
  | .removeRegistryKey => ok .deleteKey = true → w.bcd = ∅
  | _ => True

/-- Most tasks leave the entries and their record as they are. -/
theorem keeps_runTask (t : Task) (drive : ∀ copies, t ≠ .modifyDrive copies)
    (undo : t ≠ .undoBootloader) (key : t ≠ .removeRegistryKey) :
    Keeps World.entries (runTask ok info t) := by
  have nothing : ∀ m : Fn Unit, Keeps World.entries m →
      Keeps World.entries (do m; return ([] : List Task)) :=
    fun m h => h.bind fun _ => keeps_pure _
  cases t with
  | modifyDrive copies => exact absurd rfl (drive copies)
  | undoBootloader => exact absurd rfl undo
  | removeRegistryKey => exact absurd rfl key
  | modifyBootloader => exact keeps_pure _
  | selectTargetDir => exact nothing _ keeps_selectTargetDir
  | createDirStructure => exact nothing _ (keeps_createDirStructure fun _ _ => rfl)
  | uncompressTargetDir => exact nothing (pure ()) (keeps_pure ())
  | createUninstaller => exact nothing _ (keeps_createUninstaller fun _ _ => rfl)
  | removeTargetDir => exact nothing _ (keeps_removeTargetDir fun _ _ => rfl)
  | _ => exact nothing _ (keeps_op _)

theorem recorded_congr {w' : World} (h : w'.entries = w.entries) : Recorded w' ↔ Recorded w := by
  simp only [World.entries, Prod.mk.injEq] at h
  unfold Recorded
  rw [h.1, h.2.2]

/-- The bootloader task of a drive keeps the entries recorded exactly when it is safe. -/
theorem recorded_modifyDrive_iff {w : World} (recorded : Recorded w) (numbered : Numbered w) :
    Recorded (after (modifyDrive ok info copies) w) ↔
      SafeEntries ok info w (.modifyDrive copies) := by
  unfold modifyDrive SafeEntries
  cases boot : info.job.bootloader with
  | xp => simpa using (recorded_congr (keeps_op _ w)).2 recorded
  | win98 => simpa using (recorded_congr (keeps_op _ w)).2 recorded
  | vista =>
    simp only [forall_const]
    obtain ⟨same, stops⟩ | ⟨goes, creates⟩ := after_modifyBcd ok info copies w
    · rw [same]
      simpa [stops] using recorded
    · rw [goes]
      obtain ⟨rest, records⟩ | ⟨rest, fails⟩ := after_addEntry (settings info) w creates.2.2.2.2
      · rw [rest]
        constructor
        · intro left _
          refine ⟨?_, records⟩
          by_contra other
          obtain ⟨id, hid⟩ := Finset.nonempty_iff_ne_empty.2 other
          have same := left id (by simp [World.add, hid])
          exact absurd (Option.some.inj same) (numbered.1 id hid).ne'
        · intro safe id hid
          have alone := (safe creates).1
          simpa [World.add, alone, eq_comm] using hid
      · rw [rest]
        refine iff_of_false (fun after => ?_) fun safe => fails (safe creates).2
        have same := after w.created (by simp [World.add])
        exact absurd (numbered.2 _ same) (lt_irrefl _)

theorem after_undo (ok : Op → Bool) (info : Info) (w : World) :
    after (runTask ok info .undoBootloader) w = after (undoBcd ok) w := by
  show after (undoBootloader ok >>= fun _ => pure []) w = _
  rw [after_bind_of_keeps _ fun _ _ => rfl, undoBootloader,
    after_bind_of_keeps _ fun _ => after_op _]

theorem after_key (ok : Op → Bool) (info : Info) (w : World) :
    after (runTask ok info .removeRegistryKey) w = if ok .deleteKey then
      { w with installationDir := none, vistaBootDrive := none } else w := rfl

/-- A task keeps the entries recorded exactly when it is safe. -/
theorem recorded_runTask_iff {t : Task} {w : World} (recorded : Recorded w) (numbered : Numbered w) :
    Recorded (after (runTask ok info t) w) ↔ SafeEntries ok info w t := by
  by_cases other : (∀ copies, t ≠ .modifyDrive copies) ∧ t ≠ .undoBootloader ∧ t ≠ .removeRegistryKey
  · obtain ⟨drive, undo, key⟩ := other
    rw [recorded_congr (keeps_runTask t drive undo key w)]
    cases t <;> simp_all [SafeEntries]
  · cases t with
    | modifyDrive copies =>
      rw [← recorded_modifyDrive_iff recorded numbered]
      exact iff_of_eq (congrArg Recorded (after_bind_of_keeps _ (fun _ _ => rfl) _))
    | undoBootloader =>
      refine iff_of_true ?_ trivial
      rw [after_undo]
      obtain ⟨same⟩ | ⟨id, set, entries, -, -⟩ := after_undoBcd ok w
      · rwa [same]
      · intro other hid
        rw [entries, Finset.mem_erase] at hid
        exact absurd (Option.some.inj (set.symm.trans (recorded other hid.2))) hid.1.symm
    | removeRegistryKey =>
      rw [after_key]
      simp only [SafeEntries]
      by_cases deleted : ok .deleteKey = true
      · simp [deleted, Recorded, Finset.eq_empty_iff_forall_notMem]
      · simpa [deleted] using recorded
    | _ => simp at other

theorem numbered_congr {w' : World} (h : w'.entries = w.entries) (numbered : Numbered w) :
    Numbered w' := by
  simp only [World.entries, Prod.mk.injEq] at h
  unfold Numbered
  rw [h.1, h.2.1, h.2.2]
  exact numbered

theorem numbered_add {w : World} (numbered : Numbered w) : Numbered w.add := by
  refine ⟨fun id hid => ?_, fun id hid => Nat.lt_succ_of_lt (numbered.2 id hid)⟩
  obtain rfl | hid := Finset.mem_insert.1 hid
  · exact Nat.lt_succ_self _
  · exact Nat.lt_succ_of_lt (numbered.1 id hid)

theorem numbered_modifyDrive {w : World} (numbered : Numbered w) :
    Numbered (after (modifyDrive ok info copies) w) := by
  unfold modifyDrive
  cases info.job.bootloader with
  | xp => exact numbered_congr (keeps_op _ w) numbered
  | win98 => exact numbered_congr (keeps_op _ w) numbered
  | vista =>
    obtain ⟨same, -⟩ | ⟨goes, creates⟩ := after_modifyBcd ok info copies w
    · rwa [same]
    · rw [goes]
      obtain ⟨rest, -⟩ | ⟨rest, -⟩ := after_addEntry (settings info) w creates.2.2.2.2
      · rw [rest]
        refine ⟨(numbered_add numbered).1, fun id hid => ?_⟩
        obtain rfl := Option.some.inj hid
        exact Nat.lt_succ_self _
      · rw [rest]
        exact numbered_add numbered

/-- The identifiers stay numbered. -/
theorem numbered_runTask (t : Task) {w : World} (numbered : Numbered w) :
    Numbered (after (runTask ok info t) w) := by
  by_cases other : (∀ copies, t ≠ .modifyDrive copies) ∧ t ≠ .undoBootloader ∧ t ≠ .removeRegistryKey
  · obtain ⟨drive, undo, key⟩ := other
    exact numbered_congr (keeps_runTask t drive undo key w) numbered
  · cases t with
    | modifyDrive copies =>
      show Numbered (after (modifyDrive ok info copies >>= fun _ => pure []) w)
      rw [after_bind_of_keeps _ fun _ _ => rfl]
      exact numbered_modifyDrive numbered
    | undoBootloader =>
      rw [after_undo]
      obtain ⟨same⟩ | ⟨id, set, entries, created, left⟩ := after_undoBcd ok w
      · rwa [same]
      · refine ⟨fun other hid => ?_, fun other hid => ?_⟩
        · rw [entries] at hid
          rw [created]
          exact numbered.1 other (Finset.mem_of_mem_erase hid)
        · rw [created]
          obtain none | same := left
          · rw [none] at hid
            cases hid
          · exact numbered.2 other (set.trans (same.symm.trans hid))
    | removeRegistryKey =>
      rw [after_key]
      split_ifs
      · exact ⟨numbered.1, nofun⟩
      · exact numbered
    | _ => simp at other

/-! ## Runs -/

/-- The next task is safe. -/
def SafeStep (s : State) : Label → Prop
  | .next ok => ∀ t ∈ s.queue.todo.head?, SafeEntries ok s.info s.queue.state t
  | _ => True

/-- A computer on which nothing has been installed yet. -/
def initial : State :=
  ⟨⟨⟨.installation, "", false, .vista, false, []⟩, none⟩, ⟨[], {}⟩⟩

/-- In every run of installations and removals whose tasks are all safe, every boot entry that is left
is recorded. -/
theorem no_orphan_entries {s : State} (h : Reaches step SafeStep initial s) :
    Recorded s.queue.state := by
  have inv : Recorded s.queue.state ∧ Numbered s.queue.state := by
    refine h.invariant (I := fun s => Recorded s.queue.state ∧ Numbered s.queue.state) ?_ ?_
    · exact ⟨nofun, nofun, nofun⟩
    · rintro s a s' ⟨recorded, numbered⟩ safe taken
      obtain same | ⟨ok, t, ts, rfl, todo, rest⟩ := world_of_step taken
      · rwa [same, and_iff_left numbered]
      · rw [rest]
        have safe := safe t (by rw [todo]; rfl)
        exact ⟨(recorded_runTask_iff recorded numbered).2 safe, numbered_runTask t numbered⟩
  exact inv.1

/-- Everything succeeds. -/
def allOk : Op → Bool := fun _ => true

/-- The device of a new boot entry cannot be set. -/
def noDevice : Op → Bool
  | .bcdedit .setDevice => false
  | _ => true

/-- An installation on Windows Vista with one drive. -/
def sampleJob : Job := ⟨.installation, "C:\\linux", false, .vista, false, [true]⟩

/-- An installation up to the new boot entry, which is made by a task for which `ok` says what
succeeds. -/
def installing (ok : Op → Bool) : List Label :=
  .install sampleJob allOk :: List.replicate 10 (.next allOk) ++ [.next ok]

theorem allowed_installing : Allowed step SafeStep initial (installing allOk) := by
  have first : ∀ {t : Task} {w : World} {info : Info}, SafeEntries allOk info w t →
      ∀ t' ∈ some t, SafeEntries allOk info w t' := by
    rintro t w info h _ ⟨⟩
    exact h
  exact ⟨trivial, first trivial, first trivial, first trivial, first trivial, first trivial,
    first trivial, first trivial, first trivial, first trivial, first trivial,
    first fun _ _ => ⟨rfl, rfl, fun _ _ => rfl, rfl, rfl⟩, trivial⟩

theorem no_orphan_entries_installing : ∃ s, exec step initial (installing allOk) = some s ∧
    s.queue.state.bcd = {0} ∧ Recorded s.queue.state :=
  ⟨_, rfl, rfl, no_orphan_entries (reaches_of_exec rfl allowed_installing)⟩

/-- A run may leave a boot entry that is not recorded. -/
theorem not_no_orphan_entries : ¬ ∀ s, Run step initial s → Recorded s.queue.state := by
  intro h
  have run : ∃ s, exec step initial (installing noDevice) = some s ∧
      s.queue.state.bcd = {0} ∧ s.queue.state.vistaBootDrive = none := ⟨_, rfl, rfl, rfl⟩
  obtain ⟨s, hs, entry, record⟩ := run
  have recorded := h s (run_of_exec hs) 0 (by rw [entry]; exact Finset.mem_singleton_self 0)
  rw [record] at recorded
  cases recorded

end Ydfs.Wubi.Cycle
