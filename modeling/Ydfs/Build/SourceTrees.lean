import Ydfs.Build.Extraction

/-!
# Only complete source trees are built

That a directory exists is all that tells of an earlier extraction, and that a file exists all that
tells of an earlier `wget`.  So what is needed is that each of them leaves nothing or everything, that
no archive puts anything where another one is looked for, and that the name or the log leads to the
directory.  Then every file comes from an archive that is there completely (`Sound`), whatever the
order of the runs and wherever they are killed.
-/

namespace Ydfs.Build

open FileTree Transition

namespace Extraction

/-- What a complete extraction puts in the directory of the sources. -/
def content (trees : Name → List Member) (a : Archive) : Files := unpack a.base (trees a.argument)

/-- A directory of the sources above all that the archive holds. -/
def IsSource (trees : Name → List Member) (a : Archive) (place : Place) : Prop :=
  ∃ d, place = .dir d ∧ d ≠ [] ∧ ∀ e ∈ content trees a, d <+: e.1

/-- Whenever the build steps run, they have been started in a directory that holds the complete
extraction of the archive. -/
def OnlyComplete (trees : Name → List Member) (w : World) : Prop :=
  ∀ a place, w.control = .building a place →
    IsSource trees a place ∧ Holds w.files (content trees a)

/-! ### When it holds -/

/-- The words that `DIR2` can have before an extraction: nothing is recorded in `data/fixdirs`, or
what an archive of the same name has led to. -/
def Dir2 (trees : Name → List Member) (archives : Set Archive) (a : Archive) (dir2 : List Name) :
    Prop :=
  dir2 = a.dir2 none ∨ ∃ b ∈ archives, b.kind.isCareful ∧
    b.name = a.name ∧ dir2 = a.dir2 (recordOf (tops (trees b.argument)))

/-- When the archive has been extracted, the words lead to a directory above all it holds. -/
def Leads (trees : Name → List Member) (a : Archive) (dir2 : List Name) : Prop :=
  ∀ files, Holds files (content trees a) → IsSource trees a (enter a files dir2)

/-- The archives are not taken for one another, and their directories are found.  What `DIR2` names
is one word, and something is put there only by archives that hold all of this one and make it the
directory to be entered; where the archive itself puts nothing there, its log gives the directory. -/
structure Separate (trees : Name → List Member) (archives : Set Archive) : Prop where
  same : ∀ a ∈ archives, ∀ b ∈ archives, a.file = b.file ∨ a.source = b.file ∨ a.source = b.source →
    trees a.argument = trees b.argument
  agree : ∀ a ∈ archives, ∀ b ∈ archives, Agree (content trees a) (content trees b)
  word : ∀ a ∈ archives, ∀ dir2, Dir2 trees archives a dir2 →
    ∃ w, dir2 = [w] ∧ ∀ b ∈ archives, ¬ a.base ++ pathOf w <+: b.base
  found : ∀ a ∈ archives, ∀ b ∈ archives, ∀ w, Dir2 trees archives a [w] →
    Exists (content trees b) (a.base ++ pathOf w) →
      Holds (content trees b) (content trees a) ∧ Leads trees a [w]
  located : ∀ a ∈ archives, ∀ w, Dir2 trees archives a [w] →
    ¬ Exists (content trees a) (a.base ++ pathOf w) →
      Leads trees a (fromLog a.kind (tops (trees a.argument)))

/-- What a step must not do: a `wget` or an extraction that fails or is killed leaves nothing or
everything, and an extraction fails with nothing only in the branches that look at the exit status. -/
def SafeStep (trees : Name → List Member) (archives : Set Archive) (w : World) : Label → Prop
  | .download file => ∃ a ∈ archives, a.file = file ∧ a.argument = file
  | .run a => a ∈ archives
  | .failed written => ∀ p ms,
      (w.control = .before p .wget → left (some (trees p.archive.argument)) written = some ms →
        ms = trees p.archive.argument) ∧
      (w.control = .before p .extract → (left (w.tarballs p.archive.source) written).getD [] = ms →
        ms = trees p.archive.argument ∨ ms = [] ∧ p.archive.kind.isCareful)
  | .kill written => ∀ p ms,
      (w.control = .before p .wget → left (some (trees p.archive.argument)) written = some ms →
        ms = trees p.archive.argument) ∧
      (w.control = .before p .lunzip → left (w.tarballs p.archive.file) written = some ms →
        ms = trees p.archive.argument) ∧
      (w.control = .before p .extract → (left (w.tarballs p.archive.source) written).getD [] = ms →
        ms = trees p.archive.argument ∨ ms = [])
  | _ => True

/-! ### The invariant -/

/-- The tarballs are complete. -/
def Whole (trees : Name → List Member) (archives : Set Archive)
    (tarballs : Name → Option (List Member)) : Prop :=
  ∀ a ∈ archives, ∀ ms, tarballs a.file = some ms ∨ tarballs a.source = some ms →
    ms = trees a.argument

/-- Every file comes from an archive that is there completely, but for the directories made before
an extraction. -/
def Sound (trees : Name → List Member) (archives : Set Archive) (files : Files) : Prop :=
  ∀ e ∈ files, (∃ b ∈ archives, e ∈ content trees b ∧ Holds files (content trees b)) ∨
    ∃ b ∈ archives, e.1 = b.base

/-- What is recorded has been read off the log of a complete extraction. -/
def Recorded (trees : Name → List Member) (archives : Set Archive)
    (fixdirs : Name → Option (List Name)) : Prop :=
  ∀ n, fixdirs n = none ∨ ∃ b ∈ archives, b.kind.isCareful ∧ b.name = n ∧
    fixdirs n = recordOf (tops (trees b.argument))

/-- What is known where the process stands. -/
def Stage (trees : Name → List Member) (archives : Set Archive) (files : Files) : Control → Prop
  | .stopped => True
  | .before p .locate => p.archive ∈ archives ∧ Dir2 trees archives p.archive p.dir2 ∧
      (isMissing files p.archive.base p.dir2 →
        p.log = tops (trees p.archive.argument) ∧ Holds files (content trees p.archive))
  | .before p .enter => p.archive ∈ archives ∧ Holds files (content trees p.archive) ∧
      Leads trees p.archive p.dir2
  | .before p _ => p.archive ∈ archives ∧ Dir2 trees archives p.archive p.dir2
  | .entered a place => IsSource trees a place ∧ Holds files (content trees a)
  | .building a place => IsSource trees a place ∧ Holds files (content trees a)

/-- Everything that has been extracted is complete, and so is what the process works on. -/
structure Inv (trees : Name → List Member) (archives : Set Archive) (w : World) : Prop where
  whole : Whole trees archives w.tarballs
  sound : Sound trees archives w.files
  recorded : Recorded trees archives w.fixdirs
  stage : Stage trees archives w.files w.control

variable {trees : Name → List Member} {archives : Set Archive} {files : Files} {a : Archive}

theorem Recorded.dir2 {fixdirs : Name → Option (List Name)}
    (h : Recorded trees archives fixdirs) :
    Dir2 trees archives a (a.dir2 (fixdirs a.name)) := by
  obtain nothing | ⟨b, hb, careful, name, recorded⟩ := h a.name
  · exact .inl (by rw [nothing])
  · exact .inr ⟨b, hb, careful, name, by rw [recorded]⟩

/-- What is found where an archive is looked for is all of the archive. -/
theorem Sound.found (h : Sound trees archives files) (separate : Separate trees archives)
    (ha : a ∈ archives) {dir2 : List Name} (possible : Dir2 trees archives a dir2)
    (there : isMissing files a.base dir2 = false) :
    Holds files (content trees a) ∧ Leads trees a dir2 := by
  obtain ⟨w, rfl, outside⟩ := separate.word a ha dir2 possible
  have there : Exists files (a.base ++ pathOf w) := by simpa [isMissing] using there
  obtain root | ⟨e, he, beneath⟩ := there
  · exact absurd (root ▸ List.nil_prefix) (outside a ha)
  obtain ⟨b, hb, mem, complete⟩ | ⟨b, hb, made⟩ := h e he
  · obtain ⟨all, leads⟩ := separate.found a ha b hb w possible (.inr ⟨e, mem, beneath⟩)
    exact ⟨complete.trans all, leads⟩
  · exact absurd (made ▸ beneath) (outside b hb)

/-- An archive is extracted completely. -/
theorem Sound.unpack (h : Sound trees archives files) (separate : Separate trees archives)
    (ha : a ∈ archives) : Sound trees archives (content trees a ++ files) := by
  intro e he
  obtain new | old := List.mem_append.1 he
  · exact .inl ⟨a, ha, new, holds_unpacked _ _⟩
  · obtain ⟨b, hb, mem, complete⟩ | made := h e old
    · exact .inl ⟨b, hb, mem, complete.unpack (separate.agree b hb a ha)⟩
    · exact .inr made

/-- A directory is made before an extraction. -/
theorem Sound.install (h : Sound trees archives files) (ha : a ∈ archives) :
    Sound trees archives (files ++ [(a.base, none)]) := by
  intro e he
  obtain old | new := List.mem_append.1 he
  · obtain ⟨b, hb, mem, complete⟩ | made := h e old
    · exact .inl ⟨b, hb, mem, complete.under _⟩
    · exact .inr made
  · obtain rfl := List.mem_singleton.1 new
    exact .inr ⟨a, ha, rfl⟩

/-- An extraction that leaves everything or nothing. -/
theorem Sound.part (h : Sound trees archives files) (separate : Separate trees archives)
    (ha : a ∈ archives) {ms : List Member} (ends : ms = trees a.argument ∨ ms = []) :
    Sound trees archives (Extraction.unpack a.base ms ++ files) := by
  obtain rfl | rfl := ends
  · exact h.unpack separate ha
  · exact h

theorem Recorded.update {fixdirs : Name → Option (List Name)}
    (h : Recorded trees archives fixdirs) (ha : a ∈ archives) (careful : a.kind.isCareful) :
    Recorded trees archives (Function.update fixdirs a.name (recordOf (tops (trees a.argument)))) := by
  intro n
  rw [Function.update_apply]
  split_ifs with hn
  · exact .inr ⟨a, ha, careful, hn.symm, rfl⟩
  · exact h n

section Whole

variable {tarballs : Name → Option (List Member)}

/-- A complete tarball is put under one of its names. -/
theorem Whole.put (h : Whole trees archives tarballs) (separate : Separate trees archives)
    (ha : a ∈ archives) {n : Name} (name : n = a.file ∨ n = a.source) :
    Whole trees archives (Function.update tarballs n (some (trees a.argument))) := by
  intro b hb ms hms
  simp only [Function.update_apply] at hms
  by_cases hn : b.file = n ∨ b.source = n
  · -- the tarball that is put may be the one of `b`, and then holds the same
    have tree : trees b.argument = trees a.argument := by
      obtain file | source := hn <;> obtain rfl | rfl := name
      · exact separate.same b hb a ha (.inl file)
      · exact (separate.same a ha b hb (.inr (.inl file.symm))).symm
      · exact separate.same b hb a ha (.inr (.inl source))
      · exact separate.same b hb a ha (.inr (.inr source))
    split_ifs at hms with file source source
    · obtain same | same := hms <;> exact (Option.some.inj same).symm.trans tree.symm
    · obtain same | old := hms
      · exact (Option.some.inj same).symm.trans tree.symm
      · exact h b hb ms (.inr old)
    · obtain old | same := hms
      · exact h b hb ms (.inl old)
      · exact (Option.some.inj same).symm.trans tree.symm
    · exact h b hb ms hms
  · rw [not_or] at hn
    rw [if_neg hn.1, if_neg hn.2] at hms
    exact h b hb ms hms

theorem Whole.remove (h : Whole trees archives tarballs) (n : Name) :
    Whole trees archives (Function.update tarballs n none) := by
  intro b hb ms hms
  simp only [Function.update_apply] at hms
  refine h b hb ms (hms.imp ?_ ?_) <;> intro found <;> split_ifs at found <;> exact found

end Whole

/-! ### The steps -/

variable {w w' : World} {p : Process}

theorem Inv.stage_of {control : Control} (inv : Inv trees archives w) (h : w.control = control) :
    Stage trees archives w.files control := h ▸ inv.stage

/-- The directory is found, or read off the log of a complete extraction. -/
theorem Inv.locate (inv : Inv trees archives w) (separate : Separate trees archives)
    (control : w.control = .before p .locate) (h : command w p .locate = some w') :
    Inv trees archives w' := by
  obtain ⟨ha, possible, extracted⟩ := inv.stage_of control
  simp only [Extraction.command] at h
  split at h
  · obtain rfl := Option.some.inj h
    exact ⟨inv.whole, inv.sound, inv.recorded, trivial⟩
  split at h
  next missing =>
    obtain rfl := Option.some.inj h
    obtain ⟨log, complete⟩ := extracted missing
    obtain ⟨v, word, -⟩ := separate.word _ ha _ possible
    have elsewhere : ¬ Exists (content trees p.archive) (p.archive.base ++ pathOf v) := by
      intro there
      rw [word] at missing
      simp [isMissing, there.of_holds complete] at missing
    have leads := separate.located _ ha v (word ▸ possible) elsewhere
    refine ⟨inv.whole, inv.sound, ?_, ha, complete, log.symm ▸ leads⟩
    dsimp only
    split_ifs with careful
    · rw [log]
      exact inv.recorded.update ha careful.1
    · exact inv.recorded
  next there =>
    obtain rfl := Option.some.inj h
    have found := inv.sound.found separate ha possible (Bool.eq_false_iff.2 there)
    exact ⟨inv.whole, inv.sound, inv.recorded, ha, found⟩

/-- The commands keep the invariant. -/
theorem Inv.command {phase : Phase} (inv : Inv trees archives w)
    (separate : Separate trees archives) (control : w.control = .before p phase)
    (h : command w p phase = some w') : Inv trees archives w' := by
  have stage := inv.stage_of control
  cases phase with
  | look =>
    obtain rfl := Option.some.inj h
    refine ⟨inv.whole, inv.sound, inv.recorded, ?_⟩
    dsimp only
    split_ifs <;> exact stage
  | wget => cases h
  | prepare =>
    obtain rfl := Option.some.inj h
    refine ⟨inv.whole, ?_, inv.recorded, stage⟩
    dsimp only
    split_ifs
    · exact inv.sound
    · exact inv.sound.install stage.1
  | test =>
    obtain ⟨ha, possible⟩ := stage
    obtain rfl := Option.some.inj h
    refine ⟨inv.whole, inv.sound, inv.recorded, ?_⟩
    dsimp only
    split_ifs with missing lz
    · exact ⟨ha, possible⟩
    · exact ⟨ha, possible⟩
    · exact ⟨ha, possible, fun there => absurd there missing⟩
  | lunzip => cases h
  | extract => cases h
  | locate => exact inv.locate separate control h
  | enter =>
    obtain ⟨-, complete, leads⟩ := stage
    obtain rfl := Option.some.inj h
    exact ⟨inv.whole, inv.sound, inv.recorded, leads _ complete, complete⟩

/-- `lunzip` succeeds. -/
theorem Inv.lunzip (inv : Inv trees archives w) (separate : Separate trees archives)
    (control : w.control = .before p .lunzip) (h : lunzip w p = some w') :
    Inv trees archives w' := by
  have stage := inv.stage_of control
  unfold Extraction.lunzip at h
  split at h
  next ms packed _ =>
    obtain rfl := Option.some.inj h
    obtain rfl := inv.whole _ stage.1 ms (.inl packed)
    exact ⟨(inv.whole.put separate stage.1 (.inr rfl)).remove _, inv.sound, inv.recorded, stage⟩
  · cases h

/-- An extraction leaves everything or nothing, and if the process goes on everything. -/
theorem Inv.extract (inv : Inv trees archives w) (separate : Separate trees archives)
    (control : w.control = .before p .extract) {ms : List Member} {next : Process → Control}
    (ends : next { p with log := tops ms } = .stopped ∧ (ms = trees p.archive.argument ∨ ms = []) ∨
      next { p with log := tops ms } = .before { p with log := tops ms } .locate ∧
        ms = trees p.archive.argument) :
    Inv trees archives (extract w p ms next) := by
  obtain ⟨ha, possible⟩ := inv.stage_of control
  obtain ⟨stopped, ends⟩ | ⟨goesOn, rfl⟩ := ends
  · refine ⟨inv.whole, inv.sound.part separate ha ends, inv.recorded, ?_⟩
    simp only [Extraction.extract, stopped, Stage]
  · refine ⟨inv.whole, inv.sound.unpack separate ha, inv.recorded, ?_⟩
    simp only [Extraction.extract, goesOn]
    exact ⟨ha, possible, fun _ => ⟨rfl, holds_unpacked _ _⟩⟩

/-- `wget` leaves the complete archive or none. -/
theorem Inv.fetch {ms : Option (List Member)} {next : Control} (inv : Inv trees archives w)
    (separate : Separate trees archives) (control : w.control = .before p .wget)
    (ends : ∀ ms', ms = some ms' → ms' = trees p.archive.argument)
    (goesOn : next = .before p .prepare ∨ next = .stopped) :
    Inv trees archives (fetch w p ms next) := by
  have stage := inv.stage_of control
  refine ⟨?_, inv.sound, inv.recorded, ?_⟩
  · show Whole trees archives (Function.update w.tarballs _ ms)
    cases ms with
    | none => exact inv.whole.remove _
    | some ms =>
      rw [ends ms rfl]
      exact inv.whole.put separate stage.1 (.inl rfl)
  · obtain rfl | rfl := goesOn
    · exact stage
    · trivial

/-- `wget`, `lunzip` or the extraction fails. -/
theorem Inv.failed {written : Option Progress} (inv : Inv trees archives w)
    (separate : Separate trees archives) (safe : SafeStep trees archives w (.failed written))
    (h : step trees w (.failed written) = some w') : Inv trees archives w' := by
  simp only [Extraction.step] at h
  split at h
  next p control =>
    obtain rfl := Option.some.inj h
    exact inv.fetch separate control (fun ms hms => (safe p ms).1 control hms) (.inl rfl)
  next p control =>
    have stage := inv.stage_of control
    obtain rfl := Option.some.inj h
    exact ⟨inv.whole, inv.sound, inv.recorded, stage⟩
  next p control =>
    obtain rfl := Option.some.inj h
    have ends := (safe p _).2 control rfl
    refine inv.extract separate control ?_
    by_cases careful : p.archive.kind.isCareful
    · exact .inl ⟨if_pos careful, ends.imp_right And.left⟩
    · exact .inr ⟨if_neg careful, ends.resolve_right fun h => careful h.2⟩
  · cases h

/-- The process is killed. -/
theorem Inv.kill {written : Option Progress} (inv : Inv trees archives w)
    (separate : Separate trees archives) (safe : SafeStep trees archives w (.kill written))
    (h : step trees w (.kill written) = some w') : Inv trees archives w' := by
  simp only [Extraction.step] at h
  split at h
  · cases h
  next p control =>
    obtain rfl := Option.some.inj h
    exact inv.fetch separate control (fun ms hms => (safe p ms).1 control hms) (.inr rfl)
  next p control =>
    have stage := inv.stage_of control
    obtain rfl := Option.some.inj h
    refine ⟨?_, inv.sound, inv.recorded, trivial⟩
    dsimp only
    split_ifs
    · exact inv.whole
    cases hl : left (w.tarballs p.archive.file) written with
    | none => exact inv.whole.remove _
    | some ms =>
      rw [(safe p ms).2.1 control hl]
      exact inv.whole.put separate stage.1 (.inr rfl)
  next p control =>
    obtain rfl := Option.some.inj h
    exact inv.extract separate control (.inl ⟨rfl, (safe p _).2.2 control rfl⟩)
  · obtain rfl := Option.some.inj h
    exact ⟨inv.whole, inv.sound, inv.recorded, trivial⟩

/-- A process that is killed between two commands has left nothing. -/
theorem safeStep_kill_none : SafeStep trees archives w (.kill none) :=
  fun _ _ => ⟨fun _ => nofun, fun _ => nofun, fun _ nothing => .inr nothing.symm⟩

/-- An allowed step keeps the invariant. -/
theorem Inv.step {a : Label} (inv : Inv trees archives w) (separate : Separate trees archives)
    (safe : SafeStep trees archives w a) (h : step trees w a = some w') :
    Inv trees archives w' := by
  cases a with
  | download file =>
    simp only [Extraction.step] at h
    split at h
    next control =>
      obtain ⟨a, ha, path, rfl⟩ := safe
      obtain rfl := Option.some.inj h
      exact ⟨inv.whole.put separate ha (.inl path.symm), inv.sound, inv.recorded, inv.stage⟩
    · cases h
  | run a =>
    simp only [Extraction.step] at h
    split at h
    · split_ifs at h
      · obtain rfl := Option.some.inj h
        exact inv
      · obtain rfl := Option.some.inj h
        exact ⟨inv.whole, inv.sound, inv.recorded, safe, inv.recorded.dir2⟩
      · obtain rfl := Option.some.inj h
        exact ⟨inv.whole, inv.sound, inv.recorded, safe, inv.recorded.dir2⟩
    · cases h
  | command =>
    simp only [Extraction.step] at h
    split at h
    next p phase control => exact inv.command separate control h
    next a place control =>
      have stage := inv.stage_of control
      obtain rfl := Option.some.inj h
      refine ⟨inv.whole, inv.sound, inv.recorded, ?_⟩
      dsimp only
      split_ifs
      · trivial
      · exact stage
    · cases h
  | succeeded =>
    simp only [Extraction.step] at h
    split at h
    next p control =>
      obtain rfl := Option.some.inj h
      refine inv.fetch separate control ?_ (.inl rfl)
      rintro ms ⟨⟩
      rfl
    next p control => exact inv.lunzip separate control h
    next p control =>
      obtain ⟨ms, packed, rfl⟩ := Option.map_eq_some_iff.1 h
      have complete := inv.whole _ (inv.stage_of control).1 ms (.inr packed)
      exact inv.extract separate control (.inr ⟨rfl, complete⟩)
    · cases h
  | failed written => exact inv.failed separate safe h
  | built finished =>
    simp only [Extraction.step] at h
    split at h
    · obtain rfl := Option.some.inj h
      exact ⟨inv.whole, inv.sound, inv.recorded, trivial⟩
    · cases h
  | kill written => exact inv.kill separate safe h

/-- The directory of an archive of two files. -/
def root : Name := "wxWidgets".toList

def sample : Archive :=
  ⟨"/home/ydfs".toList, "https://h/wxWidgets-3.zip".toList, .zip, 1, by decide +kernel⟩

def sampleTrees (_ : Name) : List Member :=
  [("wxWidgets/b".toList, some [1]), ("wxWidgets/c".toList, some [2])]

theorem dir2_sample : sample.dir2 none = [root] := by decide

theorem base_sample : sample.base = [] := by decide

theorem content_sample :
    content sampleTrees sample = [([root, ['c']], some [2]), ([root, ['b']], some [1])] := by
  unfold content
  rw [base_sample]
  decide

theorem leads_sample : Leads sampleTrees sample [root] := by
  intro files complete
  have there : IsDirectory files [root] := by
    refine .of_holds complete ?_
    rw [content_sample]
    decide
  refine ⟨[root], ?_, List.cons_ne_nil _ _, ?_⟩
  · show cd files sample.base [root] = _
    rw [base_sample]
    exact if_pos there
  · rw [content_sample]
    decide

theorem eq_of_dir2_sample {dir2 : List Name} (h : Dir2 sampleTrees {sample} sample dir2) :
    dir2 = [root] := by
  obtain h | ⟨b, rfl, careful, -⟩ := h
  · rw [h, dir2_sample]
  · cases careful

theorem separate_sample : Separate sampleTrees {sample} where
  same := by
    rintro a rfl b rfl -
    rfl
  agree := by
    rintro a rfl b rfl p c d hc hd
    exact Option.some.inj (hc.symm.trans hd)
  word := by
    rintro a rfl dir2 possible
    refine ⟨root, eq_of_dir2_sample possible, ?_⟩
    rintro b rfl
    rw [base_sample]
    decide
  found := by
    rintro a rfl b rfl w possible -
    obtain rfl := List.singleton_injective (eq_of_dir2_sample possible)
    exact ⟨.refl _, leads_sample⟩
  located := by
    rintro a rfl w possible nothing
    obtain rfl := List.singleton_injective (eq_of_dir2_sample possible)
    rw [base_sample, content_sample] at nothing
    exact absurd (by decide) nothing

/-- A `wget` and an extraction that are killed before they begin, and then ones that end. -/
def interrupted : List Label :=
  [.run sample, .command, .kill none, .run sample, .command, .succeeded, .command, .command,
    .kill none, .run sample, .command, .command, .command, .succeeded, .command, .command, .command]

end Extraction

end Ydfs.Build
