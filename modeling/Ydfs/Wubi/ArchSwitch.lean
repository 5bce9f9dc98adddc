import Ydfs.Wubi.CheckFile
import Ydfs.Wubi.CheckIso

/-!
# The switch of the architecture

When the architecture is not checked, `check_cd` and `check_iso` take the medium for the selected
distro, and then select the distro of the same name that has the architecture of the medium.  That
one has not been tried with the medium, and there may be none.
-/

namespace Ydfs.Wubi.Backend

open TaskList
open Script (Keeps call eval_bind eval_bind_ok)

variable {δ : Type}

/-! ## `check_cd` -/

/-- The files of a CD, as bytes and as texts, and the digests of `hashlib`. -/
structure Contents where
  file : Path → Option Utils.Str
  text : Path → Option (List Char)
  hexdigest : String → Utils.Str → List Char

/-- The exception that `check_file` raises. -/
def raised (md5sums : Path) : CheckFile.Error → Error
  | .cannotFindMd5 relpath =>
    .exception ("Cannot find md5 in " ++ md5sums ++ " for " ++ .ofList relpath)
  | .indexError => .indexError

/-- `check_file` as a task, which is finished when a file has been read. -/
def checkFileTask (contents : Contents) (filePath : Path) (relPath : String) (md5sums : Path) :
    Fn δ (Option Value) :=
  match (CheckFile.checkFile contents.hexdigest (contents.file filePath) relPath.toList
      (contents.text md5sums) none).value with
  | .error e => .raise (raised md5sums e)
  | .ok same =>
    if (contents.file filePath).isSome then .finish (pure (some (.bool same)))
    else pure (some (.bool same))

/-- The loop of `check_cd` over the required files of the distro. -/
def checkFiles (env : Env δ) (contents : Contents) (cdPath : Path) (d : δ) : List String → Fn δ Bool
  | [] => pure true
  | relPath :: rest =>
    if relPath = (env.distro d).md5sums then checkFiles env contents cdPath d rest
    else do
      let same ← call true (checkFileTask contents (env.joinPath cdPath relPath) relPath
        (env.joinPath cdPath (env.distro d).md5sums))
      if truthy same then checkFiles env contents cdPath d rest else pure false

/-- `check_cd`. -/
def checkCd (env : Env δ) (contents : Contents) (cdPath : Path) : Fn δ Bool := do
  let valid ← choose fun _ m => do
    let d ← distro
    onCaches ((env.distro d).isValidCd env.diskInfoRe m cdPath false)
  if valid then
    choose (setDistroFromArch env cdPath)
    if (← Script.world).settings.skipMd5Check then pure true
    else
      let d ← choose fun _ _ => distro
      checkFiles env contents cdPath d (env.distro d).requiredFiles
  else pure false

/-! ## The validity of a medium -/

/-- The kind of a medium. -/
inductive Kind where
  | iso
  | cd

namespace Kind

variable (k : Kind) (re : String → Option DiskInfo) (m : Media) (path : Path) (c : Caches)
  (d : Distro)

/-- `is_valid_iso` or `is_valid_cd`. -/
def isValid (checkArch : Bool) : Bool × Caches :=
  match k with
  | iso => d.isValidIso re m path checkArch c
  | cd => d.isValidCd re m path checkArch c

/-- The medium is there, and an ISO can be listed. -/
def Present : Prop :=
  match k with
  | iso => (m.file path).isSome ∧ (Distro.getIsoFileNames m path c).1 ≠ []
  | cd => (m.disc path).isSome

/-- The required files of the distro are on the medium. -/
def Carries : Prop :=
  match k with
  | iso => ∀ f ∈ d.requiredFiles, canonical f ∈ (Distro.getIsoFileNames m path c).1.map canonical
  | cd => ∀ f ∈ d.requiredFiles, (m.disc path).any fun disc => disc.files f

/-- The caches after the listing of an ISO. -/
def listed : Caches :=
  match k with
  | iso => (Distro.getIsoFileNames m path c).2
  | cd => c

variable {k re m path c d}

/-- The disk info is read when the medium is there with all required files. -/
theorem isValid_of_carries {checkArch : Bool} (present : k.Present m path c)
    (carries : k.Carries m path c d) :
    k.isValid re m path c d checkArch =
      (d.checkInfo (d.getInfo re m path (k.listed m path c)).1 checkArch,
        (d.getInfo re m path (k.listed m path c)).2) := by
  cases k with
  | iso =>
    obtain ⟨file, names⟩ := present
    have there : ¬ (m.file path).isNone := by simpa [Option.isSome_iff_ne_none] using file
    have files : ∀ f ∈ d.requiredFiles,
      canonical f ∈ (Distro.getIsoFileNames m path c).1.map canonical := carries
    simp only [isValid, Distro.isValidIso, listed]
    rw [if_neg there, if_neg names, if_neg (not_not.2 files)]
  | cd =>
    obtain ⟨disc, found⟩ := Option.isSome_iff_exists.1 present
    have files : ∀ f ∈ d.requiredFiles, disc.files f := fun f hf => by
      simpa [found] using carries f hf
    simp only [isValid, Distro.isValidCd, listed, found]
    rw [if_neg (not_not.2 files)]

theorem carries_of_isValid {checkArch : Bool}
    (h : (k.isValid re m path c d checkArch).1 = true) :
    k.Present m path c ∧ k.Carries m path c d := by
  cases k with
  | iso =>
    simp only [isValid, Distro.isValidIso] at h
    split_ifs at h with file names files
    · exact ⟨⟨by simpa [Option.isSome_iff_ne_none] using file, names⟩, files⟩
  | cd =>
    simp only [isValid, Distro.isValidCd] at h
    cases found : m.disc path with
    | none => simp [found] at h
    | some disc =>
      simp only [found] at h
      split_ifs at h with files
      · refine ⟨by simp [Present, found], fun f hf => ?_⟩
        simpa [found] using files f hf

/-- A medium is valid if it is there with the required files, and has the right disk info. -/
theorem isValid_iff {checkArch : Bool} :
    (k.isValid re m path c d checkArch).1 = true ↔ k.Present m path c ∧ k.Carries m path c d ∧
      d.checkInfo (d.getInfo re m path (k.listed m path c)).1 checkArch = true := by
  constructor
  · intro valid
    obtain ⟨present, carries⟩ := carries_of_isValid valid
    rw [isValid_of_carries present carries] at valid
    exact ⟨present, carries, valid⟩
  · rintro ⟨present, carries, info⟩
    rw [isValid_of_carries present carries, info]

/-! ### Caches -/

/-- A listing that is cached is not read again. -/
theorem getIsoFileNames_again {c' : Caches}
    (h : c'.names = (Distro.getIsoFileNames m path c).2.names) :
    Distro.getIsoFileNames m path c' = ((Distro.getIsoFileNames m path c).1, c') := by
  unfold Distro.getIsoFileNames at h ⊢
  cases cached : c.names path with
  | some names =>
    rw [cached] at h
    rw [h, cached]
  | none =>
    simp only [cached] at h
    have known := congrFun h path
    rw [Function.update_self] at known
    rw [known]
    generalize ((m.file path).map Iso.names).getD [] = names
    by_cases empty : names = []
    · simp [empty]
    · simp [empty]

theorem names_getInfo (d : Distro) (c : Caches) : (d.getInfo re m path c).2.names = c.names := by
  unfold Distro.getInfo
  split <;> rfl

/-- A disk info that is cached is not read again. -/
theorem getInfo_again (d : Distro) (c : Caches) :
    d.getInfo re m path (d.getInfo re m path c).2 = d.getInfo re m path c := by
  cases cached : c.info (path, d.infoFile) with
  | some info => simp [Distro.getInfo, cached]
  | none => simp [Distro.getInfo, cached]

/-- The listing is all of the caches that the files of a medium depend on. -/
theorem listed_again {c' : Caches} (h : c'.names = (k.listed m path c).names) :
    k.listed m path c' = c' ∧ (k.Present m path c' ↔ k.Present m path c) ∧
      (k.Carries m path c' d ↔ k.Carries m path c d) := by
  cases k with
  | cd => exact ⟨rfl, Iff.rfl, Iff.rfl⟩
  | iso =>
    have again := getIsoFileNames_again h
    simp only [listed, Present, Carries, again, and_self]

/-- What a valid medium leaves in the caches: its listing, and the disk info for the distro. -/
theorem read_of_isValid {checkArch : Bool} (h : (k.isValid re m path c d checkArch).1 = true) :
    let c' := (k.isValid re m path c d checkArch).2
    k.listed m path c' = c' ∧ k.Present m path c' ∧ k.Carries m path c' d ∧
      ∃ info, d.getInfo re m path c' = (some info, c') ∧ d.checkInfo (some info) checkArch = true := by
  obtain ⟨present, carries, checked⟩ := isValid_iff.1 h
  rw [isValid_of_carries present carries]
  intro c'
  have names : c'.names = (k.listed m path c).names := names_getInfo d _
  obtain ⟨listed, present', carries'⟩ := listed_again (d := d) names
  refine ⟨listed, present'.2 present, carries'.2 carries, ?_⟩
  have again : d.getInfo re m path c' = d.getInfo re m path (k.listed m path c) := getInfo_again d _
  cases read : (d.getInfo re m path (k.listed m path c)).1 with
  | none =>
    rw [read] at checked
    cases checked
  | some info =>
    refine ⟨info, ?_, read ▸ checked⟩
    rw [again, ← read]

end Kind

/-! ## The selected distro -/

variable {env : Env δ} {k : Kind} {path : Path} {m : Media} {settings : Settings} {c : Choice δ}
  {tree : TreeView Error} {w : World δ}

/-- The distro that `set_distro_from_arch` selects by a disk info. -/
def selected (env : Env δ) (d : δ) (info : DiskInfo) : Option δ :=
  if (env.distro d).arch = info.arch then some d
  else distrosDict env (env.distro d).name.toLower info.arch

/-- The medium is valid for the distro that was selected, which has given way to the one with the
architecture of the medium. -/
structure Switched (env : Env δ) (k : Kind) (m : Media) (path : Path) (c c' : Choice δ) (d : δ)
    (info : DiskInfo) : Prop where
  before : c.distro = some d
  valid : (k.isValid env.diskInfoRe m path c.caches (env.distro d) false).1 = true
  caches : c'.caches = (k.isValid env.diskInfoRe m path c.caches (env.distro d) false).2
  read : (env.distro d).getInfo env.diskInfoRe m path c'.caches = (some info, c'.caches)
  after : c'.distro = selected env d info

theorem eval_onCaches {α : Type} (f : Caches → α × Caches) (tree : TreeView Error) (c : Choice δ) :
    (onCaches f).eval tree c = ⟨.ok (f c.caches).1, tree, { c with caches := (f c.caches).2 }⟩ := rfl

theorem eval_setDistroFromArch {d : δ} {info : DiskInfo} (arch : settings.checkArch = false)
    (hd : c.distro = some d)
    (read : (env.distro d).getInfo env.diskInfoRe m path c.caches = (some info, c.caches)) :
    (setDistroFromArch env path settings m).eval tree c =
      ⟨.ok (), tree, { c with distro := selected env d info }⟩ := by
  have off : ¬ settings.checkArch = true := by simp [arch]
  obtain ⟨_, metalink, caches, downloads⟩ := c
  subst hd
  unfold setDistroFromArch
  rw [if_neg off, eval_bind, eval_distro]
  dsimp only [Option.map_some, Option.getD_some]
  rw [eval_bind, eval_onCaches]
  dsimp only
  rw [read]
  by_cases same : (env.distro d).arch = info.arch
  · simp only [if_pos same, selected]
    rfl
  · simp only [if_neg same, selected]
    rfl

/-- The first part of both checks. -/
theorem switched_of_valid {d : δ} {caches : Caches} (tree : TreeView Error)
    (arch : settings.checkArch = false) (hd : c.distro = some d)
    (valid : k.isValid env.diskInfoRe m path c.caches (env.distro d) false = (true, caches)) :
    ∃ info c', (setDistroFromArch env path settings m).eval tree { c with caches } =
      ⟨.ok (), tree, c'⟩ ∧ Switched env k m path c c' d info := by
  have passes : (k.isValid env.diskInfoRe m path c.caches (env.distro d) false).1 = true := by
    rw [valid]
  obtain ⟨-, -, -, info, read, -⟩ := Kind.read_of_isValid passes
  rw [valid] at read
  exact ⟨info, _, eval_setDistroFromArch arch hd read, hd, passes, by rw [valid], read, rfl⟩

theorem Switched.congr {c' c'' : Choice δ} {d : δ} {info : DiskInfo}
    (h : Switched env k m path c c' d info) (distro : c''.distro = c'.distro)
    (caches : c''.caches = c'.caches) : Switched env k m path c c'' d info :=
  ⟨h.before, h.valid, caches.trans h.caches, by rw [caches]; exact h.read, distro.trans h.after⟩

variable [DecidableEq δ]

/-- The rest of `check_iso` does not select another distro. -/
theorem keeps_rest {τ : Type} {f : Choice δ → τ} (env : Env δ) (settings : Settings)
    (h : ∀ c metalink downloads, f { c with metalink, downloads } = f c) :
    Keeps f (if settings.skipMd5Check then pure (.inl true)
      else do
        match ← requireMetalink env with
        | none => pure (.inl true)
        | some metalink => match metalink.files with
          | [] => .raise .indexError
          | file :: _ => match knownHash file.hashes with
            | none => pure (.inl true)
            | some hash => pure (.inr hash) : ChoiceFn δ (Bool ⊕ MetalinkHash)) := by
  split
  · exact .pure _
  · refine .bind (keeps_requireMetalink env h) fun metalink => ?_
    split
    · exact .pure _
    · split
      · exact .raise _
      · split <;> exact .pure _

theorem switched_expectedHash {answer : Bool ⊕ MetalinkHash} (arch : settings.checkArch = false)
    (h : ((expectedHash env path settings m).eval tree c).result = .ok answer)
    (ne : answer ≠ .inl false) :
    ∃ d info, Switched env .iso m path c ((expectedHash env path settings m).eval tree c).world d
      info := by
  unfold expectedHash at h ⊢
  obtain ⟨d, found, same⟩ := eval_bind_ok h
  rw [same] at h ⊢
  rw [eval_distro] at found h ⊢
  cases hd : c.distro with
  | none => simp [hd] at found
  | some d' =>
    obtain rfl : d' = d := by simpa [hd] using found
    obtain ⟨valid, tested, same⟩ := eval_bind_ok h
    rw [same] at h ⊢
    rw [eval_onCaches] at tested h ⊢
    cases test : (env.distro d').isValidIso env.diskInfoRe m path false c.caches with
    | mk passed caches =>
      rw [test] at tested
      obtain rfl : passed = valid := Except.ok.inj tested
      cases passed with
      | false =>
        cases h
        exact absurd rfl ne
      | true =>
        obtain ⟨info, c', switch, switched⟩ :=
          switched_of_valid (k := .iso) tree arch hd test
        refine ⟨d', info, ?_⟩
        simp only [if_true] at h ⊢
        rw [eval_bind, switch]
        exact switched.congr (keeps_rest env settings (fun _ _ _ => rfl) tree c')
          (keeps_rest env settings (fun _ _ _ => rfl) tree c')

/-- An ISO that passes its check. -/
theorem switched_checkIso (arch : w.settings.checkArch = false)
    (h : ((checkIso env path).eval tree w).result = .ok true) :
    ∃ d info, Switched env .iso w.media path w.choice
      ((checkIso env path).eval tree w).world.choice d info := by
  unfold checkIso at h ⊢
  obtain ⟨answer, chosen, same⟩ := eval_bind_ok h
  rw [same] at h ⊢
  rw [eval_choose] at chosen h ⊢
  cases answer with
  | inl answer =>
    cases h
    exact switched_expectedHash arch chosen (by simp)
  | inr hash =>
    obtain ⟨d, info, switched⟩ := switched_expectedHash arch chosen (by simp)
    refine ⟨d, info, ?_⟩
    dsimp only
    rw [keeps_choice_compareHash]
    exact switched

omit [DecidableEq δ] in
theorem keeps_choice_checkFiles (contents : Contents) (d : δ) (files : List String) :
    Keeps World.choice (checkFiles env contents path d files) := by
  have task : ∀ filePath relPath md5sums,
      Keeps World.choice (checkFileTask contents filePath relPath md5sums : Fn δ (Option Value)) := by
    intro filePath relPath md5sums
    unfold checkFileTask
    split
    · exact .raise _
    · split
      · exact .finish (.pure _)
      · exact .pure _
  induction files with
  | nil => exact .pure _
  | cons relPath rest ih =>
    unfold checkFiles
    split
    · exact ih
    · refine .bind (.call true (task _ _ _)) fun same => ?_
      split
      · exact ih
      · exact .pure _

omit [DecidableEq δ] in
/-- The rest of `check_cd` does not select another distro. -/
theorem keeps_choice_files (env : Env δ) (path : Path) (contents : Contents) :
    Keeps World.choice (do
      if (← Script.world).settings.skipMd5Check then pure true
      else
        let d ← choose fun _ _ => distro
        checkFiles env contents path d (env.distro d).requiredFiles : Fn δ Bool) := by
  have chosen : Keeps World.choice (choose (fun _ _ => distro) : Fn δ δ) := by
    intro tree w
    rw [eval_choose, eval_distro]
  refine .bind .world fun w => ?_
  split
  · exact .pure _
  · exact .bind chosen fun d => keeps_choice_checkFiles contents d _

omit [DecidableEq δ] in
/-- A CD that passes its check. -/
theorem switched_checkCd {contents : Contents} (arch : w.settings.checkArch = false)
    (h : ((checkCd env contents path).eval tree w).result = .ok true) :
    ∃ d info, Switched env .cd w.media path w.choice
      ((checkCd env contents path).eval tree w).world.choice d info := by
  unfold checkCd at h ⊢
  obtain ⟨valid, tested, same⟩ := eval_bind_ok h
  rw [same] at h ⊢
  rw [eval_choose] at tested h ⊢
  cases valid with
  | false => cases h
  | true =>
    obtain ⟨d, found, again⟩ := eval_bind_ok tested
    rw [again] at tested h ⊢
    rw [eval_distro] at found tested h ⊢
    cases hd : w.choice.distro with
    | none => simp [hd] at found
    | some d' =>
      obtain rfl : d' = d := by simpa [hd] using found
      rw [eval_onCaches] at tested h ⊢
      cases test : (env.distro d').isValidCd env.diskInfoRe w.media path false w.choice.caches with
      | mk passed caches =>
        rw [test] at tested
        obtain rfl : passed = true := Except.ok.inj tested
        obtain ⟨info, c', switch, switched⟩ :=
          switched_of_valid (k := .cd) tree arch hd test
        refine ⟨d', info, ?_⟩
        simp only [if_true] at h ⊢
        rw [eval_bind, eval_choose]
        dsimp only
        rw [switch]
        have kept := keeps_choice_files env path contents tree
          { w with choice := c' }
        exact switched.congr (congrArg Choice.distro kept) (congrArg Choice.caches kept)

/-! ## The check of a medium -/

/-- `check_iso` or `check_cd`. -/
def check (env : Env δ) (contents : Contents) (k : Kind) (path : Path) : Fn δ Bool :=
  match k with
  | .iso => checkIso env path
  | .cd => checkCd env contents path

/-- The distro that is selected is in the table, and the medium is valid for it, also in its
architecture. -/
def Sound (env : Env δ) (k : Kind) (m : Media) (path : Path) (c : Choice δ) : Prop :=
  ∃ e ∈ env.distros, c.distro = some e ∧
    (k.isValid env.diskInfoRe m path c.caches (env.distro e) true).1 = true

/-- The distro that has been selected is one of the table, if it has the architecture `arch` of the
medium.  Otherwise the table has another one with its name and this architecture, the required files
of that one are on the medium, and its name and its version are those of the disk info. -/
def ArchFits (env : Env δ) (k : Kind) (m : Media) (path : Path) (c : Caches) (d : δ)
    (arch : String) : Prop :=
  if (env.distro d).arch = arch then d ∈ env.distros
  else ∃ e, distrosDict env (env.distro d).name.toLower arch = some e ∧
    k.Carries m path c (env.distro e) ∧
    (env.distro e).checkInfo ((env.distro e).getInfo env.diskInfoRe m path c).1 true

/-- The table fits the medium once this has been read for the distro that is selected. -/
def SwitchFits (env : Env δ) (k : Kind) (path : Path) (w : World δ) : Prop :=
  ∀ d info, w.choice.distro = some d →
    let c := (k.isValid env.diskInfoRe w.media path w.choice.caches (env.distro d) false).2
    ((env.distro d).getInfo env.diskInfoRe w.media path c).1 = some info →
      ArchFits env k w.media path c d info.arch

theorem switched_check {contents : Contents} (arch : w.settings.checkArch = false)
    (h : ((check env contents k path).eval tree w).result = .ok true) :
    ∃ d info, Switched env k w.media path w.choice
      ((check env contents k path).eval tree w).world.choice d info := by
  cases k with
  | iso => exact switched_checkIso arch h
  | cd => exact switched_checkCd arch h

omit [DecidableEq δ] in
theorem mem_of_distrosDict {name arch : String} {e : δ} (h : distrosDict env name arch = some e) :
    e ∈ env.distros :=
  List.mem_of_mem_filter (List.mem_of_getLast? h)

/-- The architecture is the only difference that its check makes. -/
theorem checkInfo_of_arch {d : Distro} {info : DiskInfo} (same : d.arch = info.arch)
    (h : d.checkInfo (some info) false = true) : d.checkInfo (some info) true = true := by
  unfold Distro.checkInfo at h ⊢
  dsimp only at h ⊢
  split_ifs at h ⊢ with name version arch
  · exact absurd same.symm arch.2.2
  · rfl

omit [DecidableEq δ] in
/-- The other distro is not tried with the medium. -/
theorem Switched.sound_iff {c' : Choice δ} {d : δ} {info : DiskInfo}
    (h : Switched env k m path c c' d info) :
    Sound env k m path c' ↔ ArchFits env k m path c'.caches d info.arch := by
  obtain ⟨listed, present, carries, info', read, checked⟩ := Kind.read_of_isValid h.valid
  rw [← h.caches] at listed present carries read
  obtain rfl : info' = info := by simpa [h.read] using read.symm
  unfold Sound ArchFits
  rw [h.after]
  unfold selected
  split_ifs with same
  · constructor
    · rintro ⟨e, mem, found, -⟩
      rwa [Option.some.inj found]
    · intro mem
      refine ⟨d, mem, rfl, Kind.isValid_iff.2 ⟨present, carries, ?_⟩⟩
      rw [listed, read]
      exact checkInfo_of_arch same checked
  · constructor
    · rintro ⟨e, -, found, valid⟩
      obtain ⟨-, files, fits⟩ := Kind.isValid_iff.1 valid
      rw [listed] at fits
      exact ⟨e, found, files, fits⟩
    · rintro ⟨e, found, files, fits⟩
      refine ⟨e, mem_of_distrosDict found, found, Kind.isValid_iff.2 ⟨present, files, ?_⟩⟩
      rwa [listed]

/-- A table of sample distros, with an ISO for i386. -/
def i386Medium (distros : List String) : Env String where
  diskInfoRe _ := some { name := "LinuxConsole", version := "", subversion := none, arch := "i386" }
  distros := distros
  distro arch := sampleDistro arch
  joinPath p q := p ++ "\\" ++ q
  dirname p := p
  isoSearch := []
  cdSearch := []
  copyRaises _ := false
  fetchMetalink _ _ := none
  fetch _ _ := none

/-- The distro for amd64 is selected, and the hashes are not checked. -/
def amd64Selected : World String where
  settings := { skipMd5Check := true }
  choice := { distro := some "amd64" }
  media := { file := fun _ => some sampleIso, disc := fun _ => none }

/-- No file is read. -/
def noContents : Contents where
  file _ := none
  text _ := none
  hexdigest _ _ := []

theorem eq_ok_of_toOption {r : Except Error Bool} (h : r.toOption = some true) : r = .ok true := by
  cases r with
  | ok a => exact congrArg Except.ok (Option.some.inj h)
  | error e => cases h

end Ydfs.Wubi.Backend
