import Ydfs.Wubi.Architecture

/-!
# The CD on the drive of the installer

A CD is only to be used when the installer has been started from its drive.  `find_any_cd` looks at
the drive of the first valid CD alone, and gives up if it is another one; `cache_cd_path` falls back on
`find_cd`, which does not look at drives.
-/

namespace Ydfs.Wubi.Backend

variable {δ : Type}

/-! ## Searching -/

/-- The elements that pass the test when all are tested one after the other. -/
def passing {α : Type} (test : α → Caches → Bool × Caches) : List α → Caches → List α
  | [], _ => []
  | a :: l, c => match test a c with
    | (true, c) => a :: passing test l c
    | (false, c) => passing test l c

/-- A search ends at the first element that passes. -/
theorem search_eq_head? {α : Type} (test : α → Caches → Bool × Caches) (l : List α) (c : Caches) :
    (search test l c).1 = (passing test l c).head? := by
  induction l generalizing c with
  | nil => rfl
  | cons a l ih =>
    unfold search passing
    cases ht : test a c with
    | mk found c' =>
      cases found with
      | true => rfl
      | false => exact ih c'

variable (env : Env δ) (m : Media) (checkArch : Bool) (c : Caches)

/-- The CDs with the distros that `is_valid_cd` takes them for, in the order of the search. -/
def validCds : List (Path × δ) :=
  passing (fun x => (env.distro x.2).isValidCd env.diskInfoRe m x.1 checkArch)
    (env.cdSearch ×ˢ env.distros) c

/-- The CDs that `is_valid_cd` of the distro takes for its own, in the order of the drives. -/
def validCdsFor (d : δ) : List Path :=
  passing (fun path => (env.distro d).isValidCd env.diskInfoRe m path checkArch) env.cdSearch c

/-- The paths are on one drive; the letters of drives may be written either way. -/
def SameDrive (path path' : Path) : Prop :=
  (drive path).map Char.toLower = (drive path').map Char.toLower

instance (path path' : Path) : Decidable (SameDrive path path') :=
  inferInstanceAs (Decidable (_ = _))

/-! ## Before the distro is chosen -/

/-- A valid CD on the drive of the executable is found with its distro, and nothing if there is
none. -/
def PrefersOwn (exe : Path) (valid : List (Path × δ)) (found : Option (Path × δ)) : Prop :=
  ((∃ x ∈ valid, SameDrive exe x.1) → ∃ x ∈ valid, SameDrive exe x.1 ∧ found = some x) ∧
    ((¬ ∃ x ∈ valid, SameDrive exe x.1) → found = none)

theorem findAnyCd_eq (exe : Path) :
    (findAnyCd env m exe checkArch c).1 =
      (validCds env m checkArch c).head?.filter fun x => drive exe = drive x.1 := by
  rw [validCds, ← search_eq_head?]
  rfl

/-- `find_any_cd` prefers the CD of the installer exactly if there is none, or the first valid CD is on
the drive of the executable, under the same letter. -/
theorem find_any_cd_prefers_own_iff (exe : Path) :
    PrefersOwn exe (validCds env m checkArch c) (findAnyCd env m exe checkArch c).1 ↔
      (∀ x ∈ validCds env m checkArch c, ¬ SameDrive exe x.1) ∨
        ∃ x, (validCds env m checkArch c).head? = some x ∧ drive exe = drive x.1 := by
  rw [findAnyCd_eq]
  generalize validCds env m checkArch c = valid
  constructor
  · rintro ⟨finds, -⟩
    by_cases own : ∃ x ∈ valid, SameDrive exe x.1
    · obtain ⟨x, -, -, found⟩ := finds own
      obtain ⟨first, here⟩ := Option.filter_eq_some_iff.1 found
      exact .inr ⟨x, first, of_decide_eq_true here⟩
    · push Not at own
      exact .inl own
  · rintro (none | ⟨x, first, here⟩)
    · have nothing : ¬ ∃ x ∈ valid, SameDrive exe x.1 := by
        push Not
        exact none
      refine ⟨fun own => absurd own nothing, fun _ => Option.filter_eq_none_iff.2 ?_⟩
      intro x first here
      exact none x (List.mem_of_head? first) (congrArg _ (of_decide_eq_true here))
    · have mem := List.mem_of_head? first
      have same : SameDrive exe x.1 := congrArg _ here
      have found : valid.head?.filter (fun x => drive exe = drive x.1) = some x :=
        Option.filter_eq_some_iff.2 ⟨first, decide_eq_true here⟩
      exact ⟨fun _ => ⟨x, mem, same, found⟩, fun nothing => absurd ⟨x, mem, same⟩ nothing⟩

/-! ## After the distro is chosen -/

/-- The world in which a distro is chosen: the media may have changed since the first search. -/
def onPage (w : World δ) : World δ := { fetchBasicInfo env w with media := m }

/-- The CD that has been found at the start was for the distro that is chosen, and is still there. -/
def StillThere (d : δ) (w : World δ) : Prop :=
  ∃ p, w.info.cdPath = some p ∧ w.info.cdDistro = some d ∧ (w.media.disc p).isSome

/-- What was found at the start is on the drive of the executable. -/
theorem drive_of_fetchBasicInfo {w : World δ} {p : Path}
    (h : (fetchBasicInfo env w).info.cdPath = some p) : SameDrive w.settings.originalExe p := by
  obtain ⟨x, found, rfl⟩ := Option.map_eq_some_iff.1 h
  obtain ⟨-, here⟩ := Option.filter_eq_some_iff.1 found
  exact congrArg _ (of_decide_eq_true here)

variable [DecidableEq δ]

theorem cdPath_of_stillThere {d : δ} {w : World δ} (h : StillThere d w) :
    (cacheCdPath env d w).cdPath = w.info.cdPath := by
  obtain ⟨p, found, distro, there⟩ := h
  have kept : w.info.cdPath.filter (fun p => w.info.cdDistro = some d ∧ (w.media.disc p).isSome) =
      some p := Option.filter_eq_some_iff.2 ⟨found, decide_eq_true ⟨distro, there⟩⟩
  change (foundOr d w.info.cdPath w.info.cdDistro _ _ _).1 = _
  rw [foundOr, kept, found]

theorem cdPath_of_gone {d : δ} {w : World δ} (h : ¬ StillThere d w) :
    (cacheCdPath env d w).cdPath =
      (validCdsFor env w.media w.settings.checkArch w.choice.caches d).head? := by
  have gone : w.info.cdPath.filter (fun p => w.info.cdDistro = some d ∧ (w.media.disc p).isSome) =
      none := by
    refine Option.filter_eq_none_iff.2 fun p found kept => h ?_
    obtain ⟨distro, there⟩ := of_decide_eq_true kept
    exact ⟨p, found, distro, there⟩
  change (foundOr d w.info.cdPath w.info.cdDistro _ _ _).1 = _
  rw [foundOr, gone, validCdsFor, ← search_eq_head?]
  rfl

/-- `cache_cd_path` keeps to the CD of the installer exactly if it still has the one that was found at
the start, or the first CD that is valid for the chosen distro is on the drive of the executable. -/
theorem cache_cd_path_keeps_own_iff (w : World δ) (d : δ) :
    let page := onPage env m w
    (∀ p, (cacheCdPath env d page).cdPath = some p → SameDrive w.settings.originalExe p) ↔
      StillThere d page ∨
        ∀ p, (validCdsFor env m page.settings.checkArch page.choice.caches d).head? = some p →
          SameDrive w.settings.originalExe p := by
  intro page
  by_cases there : StillThere d page
  · refine iff_of_true (fun p found => ?_) (.inl there)
    rw [cdPath_of_stillThere env there] at found
    exact drive_of_fetchBasicInfo env found
  · rw [cdPath_of_gone env there]
    exact (or_iff_right there).symm

/-! ## A sample -/

/-- Two drives with a CD, and one distro. -/
def twoDrives : Env Unit where
  diskInfoRe _ := none
  distros := [()]
  distro _ := sampleDistro "i386"
  joinPath p q := p ++ "\\" ++ q
  dirname p := p
  isoSearch := []
  cdSearch := ["D:\\", "E:\\"]
  copyRaises _ := false
  fetchMetalink _ _ := none
  fetch _ _ := none

/-- The media of the two drives. -/
def twoCds : Media where
  file _ := none
  disc p := if p = "D:\\" ∨ p = "E:\\" then some sampleDisc else none

/-- The CD in another drive hides the one that the installer has been started from. -/
theorem not_find_any_cd_prefers_own :
    ¬ ∀ (env : Env Unit) (m : Media) (checkArch : Bool) (c : Caches) (exe : Path),
      PrefersOwn exe (validCds env m checkArch c) (findAnyCd env m exe checkArch c).1 := by
  intro h
  have own := (h twoDrives twoCds true {} "E:\\wubi.exe").1 ⟨("E:\\", ()), by decide, by decide⟩
  obtain ⟨x, -, -, found⟩ := own
  have none : (findAnyCd twoDrives twoCds "E:\\wubi.exe" true {}).1 = none := by decide
  rw [none] at found
  cases found

/-- An installer on the hard disk installs from a CD. -/
theorem not_cache_cd_path_keeps_own :
    ¬ ∀ (env : Env Unit) (m : Media) (w : World Unit) (d : Unit) (p : Path),
      (cacheCdPath env d (onPage env m w)).cdPath = some p →
        SameDrive w.settings.originalExe p := by
  intro h
  let w : World Unit :=
    { settings := { arch := "i386", originalExe := "C:\\wubi.exe" }, media := twoCds }
  have other := h twoDrives twoCds w () "D:\\" (by decide)
  revert other
  decide

end Ydfs.Wubi.Backend
