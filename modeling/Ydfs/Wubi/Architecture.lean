import Ydfs.Wubi.Caches
import Ydfs.Wubi.Fallback

/-!
# The architecture of the ISO

With `check_arch` the search for media only finds, for a distro that has an architecture, CDs and
ISOs of this architecture (`selected_start`), and the check of the pre-specified ISO in `get_iso`
asks for it, too.  `check_iso` does not.  So what `get_iso` accepts has the architecture of the
selected distro, unless it is an `info.iso_path` that is not valid for this distro, or a download.
-/

namespace Ydfs.Wubi.Backend

variable {δ : Type} {env : Env δ} {d : δ} {w w' : World δ} {path : Path}

/-- The disk info of a medium gives the architecture of the distro. -/
def HasArch (env : Env δ) (d : δ) (m : Media) (path : Path) : Prop :=
  (env.distro d).archOf env.diskInfoRe m path = some (env.distro d).arch

theorem HasArch.congr {m m' : Media} {path' : Path} (h : HasArch env d m path)
    (same : ∀ infoFile, m'.text path' infoFile = m.text path infoFile) :
    HasArch env d m' path' := by
  unfold HasArch Distro.archOf at h ⊢
  rwa [same]

/-! ## The search -/

theorem search_cons_of_passes {α : Type} {test : α → Caches → Bool × Caches} {a : α} {l : List α}
    {c c' : Caches} (passes : test a c = (true, c')) : search test (a :: l) c = (some a, c') := by
  rw [search, passes]

/-- Whatever a test keeps and says of an element that passes, the search keeps and says of the
element that it finds. -/
theorem search_spec {α : Type} {test : α → Caches → Bool × Caches} {I : Caches → Prop}
    {P : α → Prop} (h : ∀ a c, I c → I (test a c).2 ∧ ((test a c).1 = true → P a)) (l : List α)
    {c : Caches} (hc : I c) :
    I (search test l c).2 ∧ ∀ a, (search test l c).1 = some a → P a := by
  induction l generalizing c with
  | nil => exact ⟨hc, nofun⟩
  | cons a l ih =>
    obtain ⟨keeps, passes⟩ := h a c hc
    unfold search
    cases ht : test a c with
    | mk found c' =>
      rw [ht] at keeps passes
      cases found with
      | true => exact ⟨keeps, fun x hx => Option.some.inj hx ▸ passes rfl⟩
      | false => exact ih keeps

/-- The medium has the architecture of the distro, if the distro has one. -/
def Fits (env : Env δ) (m : Media) (path : Path) (d : δ) : Prop :=
  (env.distro d).arch ≠ "" → HasArch env d m path

variable {m : Media} {c : Caches}

theorem isValidIso_fits (path : Path) (d : δ) (c : Caches) (h : Coherent env.diskInfoRe m c) :
    let valid := (env.distro d).isValidIso env.diskInfoRe m path true c
    Coherent env.diskInfoRe m valid.2 ∧ (valid.1 = true → Fits env m path d) := by
  obtain ⟨keeps, arch⟩ := (env.distro d).isValidIso_spec path true h
  exact ⟨keeps, fun hv => arch hv rfl⟩

theorem isValidCd_fits (path : Path) (d : δ) (c : Caches) (h : Coherent env.diskInfoRe m c) :
    let valid := (env.distro d).isValidCd env.diskInfoRe m path true c
    Coherent env.diskInfoRe m valid.2 ∧ (valid.1 = true → Fits env m path d) := by
  obtain ⟨keeps, arch⟩ := (env.distro d).isValidCd_spec path true h
  exact ⟨keeps, fun hv => arch hv rfl⟩

theorem findIso_spec (d : δ) (h : Coherent env.diskInfoRe m c) :
    Coherent env.diskInfoRe m (findIso env m d true c).2 ∧
      ∀ p, (findIso env m d true c).1 = some p → Fits env m p d :=
  search_spec (fun p c hc => isValidIso_fits p d c hc) env.isoSearch h

theorem findCd_spec (d : δ) (h : Coherent env.diskInfoRe m c) :
    Coherent env.diskInfoRe m (findCd env m d true c).2 ∧
      ∀ p, (findCd env m d true c).1 = some p → Fits env m p d :=
  search_spec (fun p c hc => isValidCd_fits p d c hc) env.cdSearch h

theorem findAnyIso_spec (isoPath : Option Path) (h : Coherent env.diskInfoRe m c) :
    Coherent env.diskInfoRe m (findAnyIso env m isoPath true c).2 ∧
      ∀ x, (findAnyIso env m isoPath true c).1 = some x → Fits env m x.1 x.2 :=
  search_spec (fun x c hc => isValidIso_fits x.1 x.2 c hc) _ h

theorem findAnyCd_spec (originalExe : Path) (h : Coherent env.diskInfoRe m c) :
    Coherent env.diskInfoRe m (findAnyCd env m originalExe true c).2 ∧
      ∀ x, (findAnyCd env m originalExe true c).1 = some x → Fits env m x.1 x.2 := by
  obtain ⟨keeps, finds⟩ := search_spec (P := fun x => Fits env m x.1 x.2)
    (fun x c hc => isValidCd_fits x.1 x.2 c hc) (env.cdSearch ×ˢ env.distros) h
  exact ⟨keeps, fun x hx => finds x (Option.filter_eq_some_iff.1 hx).1⟩

/-- What `fetch_basic_info` has found fits the distro that it has been found for. -/
structure Found (env : Env δ) (w : World δ) : Prop where
  checkArch : w.settings.checkArch = true
  coherent : Coherent env.diskInfoRe w.media w.choice.caches
  iso : ∀ p d, w.info.isoPath = some p → w.info.isoDistro = some d → Fits env w.media p d
  cd : ∀ p d, w.info.cdPath = some p → w.info.cdDistro = some d → Fits env w.media p d

theorem found_fetchBasicInfo (i386 : w.settings.arch = "i386") (caches : w.choice.caches = {}) :
    Found env (fetchBasicInfo env w) := by
  have checkArch : decide (w.settings.arch = "i386") = true := decide_eq_true i386
  have empty : Coherent env.diskInfoRe w.media w.choice.caches := caches ▸ Distro.coherent_empty
  obtain ⟨isoCoherent, iso⟩ := findAnyIso_spec w.info.isoPath empty
  obtain ⟨cdCoherent, cd⟩ := findAnyCd_spec w.settings.originalExe isoCoherent
  unfold fetchBasicInfo
  simp only [checkArch]
  refine ⟨rfl, cdCoherent, fun p d hp hd => ?_, fun p d hp hd => ?_⟩
  · rw [Option.map_eq_some_iff] at hp hd
    obtain ⟨x, hx, rfl⟩ := hp
    obtain ⟨x', hx', rfl⟩ := hd
    cases hx.symm.trans hx'
    exact iso x hx
  · rw [Option.map_eq_some_iff] at hp hd
    obtain ⟨x, hx, rfl⟩ := hp
    obtain ⟨x', hx', rfl⟩ := hd
    cases hx.symm.trans hx'
    exact cd x hx

/-- The CD or else the local ISO of the selected distro fits it. -/
structure Selected (env : Env δ) (d : δ) (w : World δ) : Prop where
  checkArch : w.settings.checkArch = true
  distro : w.choice.distro = some d
  cd : ∀ p, w.cdPath = some p → Fits env w.media p d
  iso : ∀ p, w.isoPath = some p → w.cdPath = none ∧ Fits env w.media p d

variable [DecidableEq δ]

/-- What has been found before fits like what is found now. -/
theorem foundOr_spec {path : Option Path} {distro : Option δ} (there : Path → Bool)
    {find : Caches → Option Path × Caches} (hc : Coherent env.diskInfoRe m c)
    (before : ∀ p, path = some p → distro = some d → Fits env m p d)
    (finds : Coherent env.diskInfoRe m (find c).2 ∧ ∀ p, (find c).1 = some p → Fits env m p d) :
    Coherent env.diskInfoRe m (foundOr d path distro there find c).2 ∧
      ∀ p, (foundOr d path distro there find c).1 = some p → Fits env m p d := by
  unfold foundOr
  split
  · rename_i p hp
    obtain ⟨hp, same⟩ := Option.filter_eq_some_iff.1 hp
    have same := (of_decide_eq_true same).1
    exact ⟨hc, fun p' hp' => Option.some.inj hp' ▸ before p hp same⟩
  · exact finds

theorem selected_cacheCdPath (d : δ) (h : Found env w) :
    Selected env d (cacheCdPath env d w) ∧
      Coherent env.diskInfoRe w.media (cacheCdPath env d w).choice.caches := by
  unfold cacheCdPath
  rw [h.checkArch]
  dsimp only
  obtain ⟨coherent, cdFits⟩ := foundOr_spec (fun p => (w.media.disc p).isSome) h.coherent
    (fun p => h.cd p d) (findCd_spec d h.coherent)
  generalize foundOr d w.info.cdPath w.info.cdDistro (fun p => (w.media.disc p).isSome)
    (findCd env w.media d true) w.choice.caches = cd at coherent cdFits ⊢
  obtain ⟨cd, c⟩ := cd
  cases cd with
  | some p => exact ⟨⟨h.checkArch, rfl, cdFits, nofun⟩, coherent⟩
  | none =>
    obtain ⟨coherent, isoFits⟩ := foundOr_spec (fun p => (w.media.file p).isSome) coherent
      (fun p => h.iso p d) (findIso_spec d coherent)
    exact ⟨⟨h.checkArch, rfl, nofun, fun p hp => ⟨rfl, isoFits p hp⟩⟩, coherent⟩

/-- The run of the backend up to `get_iso`: the search for media, the choice of a distro, the search
for its media, and the choice of a directory. -/
def start (env : Env δ) (d : δ) (installDir : Path) (w : World δ) : World δ :=
  let w := cacheCdPath env d (fetchBasicInfo env w)
  { w with settings := { w.settings with installDir } }

theorem selected_start (installDir : Path) (i386 : w.settings.arch = "i386")
    (caches : w.choice.caches = {}) :
    Selected env d (start env d installDir w) ∧ Coherent env.diskInfoRe
      (start env d installDir w).media (start env d installDir w).choice.caches := by
  obtain ⟨selected, coherent⟩ := selected_cacheCdPath d (found_fetchBasicInfo i386 caches)
  exact ⟨⟨selected.checkArch, selected.distro, selected.cd, selected.iso⟩, coherent⟩

/-! ## The sources -/

omit [DecidableEq δ] in
/-- A copy of an ISO or a CD carries its texts. -/
theorem text_of_copied {source dest : Path} {m m' : Media} (h : copied env source dest m = some m')
    (infoFile : String) : m'.text dest infoFile = m.text source infoFile := by
  unfold copied at h
  split_ifs at h
  rw [Option.map_eq_some_iff] at h
  obtain ⟨iso, content, rfl⟩ := h
  cases hs : m.file source with
  | some iso' =>
    rw [hs] at content
    cases content
    simp [Media.text, Media.set, hs]
  | none =>
    rw [hs] at content
    cases hd : m.disc source with
    | none => simp [hd] at content
    | some disc =>
      rw [hd] at content
      simp [Media.text, Media.set, hs, hd, disc.image_text iso content]

omit [DecidableEq δ] in
theorem text_of_moved {source dest : Path} {m m' : Media} (h : moved env source dest m = some m')
    (infoFile : String) : m'.text dest infoFile = m.text source infoFile := by
  unfold moved at h
  split_ifs at h
  rw [Option.map_eq_some_iff] at h
  obtain ⟨iso, hs, rfl⟩ := h
  simp [Media.text, Media.set, hs]

/-- The world in which the ISO of the offer is taken. -/
def Offer.taken : Offer δ → Option (World δ)
  | good w => some w
  | preRelease w => some w
  | _ => none

theorem finishes_iff_taken :
    Finishes env w w' ↔ (firstOffer (sources env) w).taken = some w' := by
  rw [finishes_iff]
  cases firstOffer (sources env) w <;> simp [Offer.taken]

omit [DecidableEq δ] in
theorem taken_firstOffer_cons {s : Source δ} {ss : List (Source δ)} :
    (firstOffer (s :: ss) w).taken = some w' ↔ (s w).taken = some w' ∨
      ∃ w₁, s w = .passedOver w₁ ∧ (firstOffer ss w₁).taken = some w' := by
  rw [firstOffer]
  cases s w <;> simp [Offer.taken]

/-- The selected distro is still `info.distro`, and the ISO has its architecture. -/
def Accepted (env : Env δ) (d : δ) (w : World δ) : Prop :=
  w.choice.distro = some d ∧ ∃ path, w.info.isoPath = some path ∧ HasArch env d w.media path

theorem accepted_isoOffer (h : (isoOffer env path w).taken = some w')
    (arch : w.settings.checkArch = true) (hd : w.choice.distro = some d)
    (has : HasArch env d w.media path) : Accepted env d w' := by
  unfold isoOffer at h
  dsimp only at h
  cases hv : verdict env path w with
  | none => simp [hv, Offer.taken] at h
  | some o =>
    obtain ⟨answer, w₁⟩ := o
    have distro := distro_verdict hv arch
    obtain ⟨choice, hashes, rfl⟩ := verdict_frame hv
    cases answer with
    | false => simp [hv, Offer.taken] at h
    | true =>
      rw [hv] at h
      dsimp only at h
      split at h
      · cases h
      · rename_i media hm
        cases h
        refine ⟨distro.trans hd, installationIso env w, rfl, has.congr fun infoFile => ?_⟩
        split_ifs at hm
        · exact text_of_moved hm infoFile
        · exact text_of_copied hm infoFile

/-- An ISO that fails its check leaves the rest alone. -/
theorem selected_isoOffer (hp : isoOffer env path w = .passedOver w') (h : Selected env d w) :
    Selected env d w' := by
  unfold isoOffer at hp
  dsimp only at hp
  cases hv : verdict env path w with
  | none => simp [hv] at hp
  | some o =>
    obtain ⟨answer, w₁⟩ := o
    have distro := distro_verdict hv h.checkArch
    obtain ⟨choice, hashes, rfl⟩ := verdict_frame hv
    cases answer with
    | false =>
      simp only [hv, Offer.passedOver.injEq] at hp
      subst hp
      exact ⟨h.checkArch, distro.trans h.distro, h.cd, h.iso⟩
    | true =>
      simp only [hv] at hp
      split at hp <;> cases hp

/-- A pre-specified ISO that is valid for the selected distro has its architecture. -/
theorem accepted_prespecifiedOffer (h : Selected env d w) (arch : (env.distro d).arch ≠ "")
    (coherent : Coherent env.diskInfoRe w.media w.choice.caches)
    (valid : ∀ p, w.info.isoPath = some p →
      ((env.distro d).isValidIso env.diskInfoRe w.media p true w.choice.caches).1 = true)
    (ht : (prespecifiedOffer env w).taken = some w') : Accepted env d w' := by
  unfold prespecifiedOffer at ht
  cases hp : w.info.isoPath.filter w.media.has with
  | none => simp [hp, Offer.taken] at ht
  | some p =>
    rw [hp, h.distro, h.checkArch] at ht
    have found := valid p (Option.filter_eq_some_iff.1 hp).1
    have fits := (isValidIso_fits p d w.choice.caches coherent).2 found arch
    exact accepted_isoOffer ht h.checkArch h.distro fits

theorem selected_prespecifiedOffer (hp : prespecifiedOffer env w = .passedOver w')
    (h : Selected env d w) : Selected env d w' := by
  unfold prespecifiedOffer at hp
  split at hp
  · cases hp
    exact h
  · rw [h.distro] at hp
    exact selected_isoOffer hp ⟨h.checkArch, h.distro, h.cd, h.iso⟩

/-- The copy of the CD that has been found for the selected distro has its architecture. -/
theorem accepted_cdOffer (h : Selected env d w) (arch : (env.distro d).arch ≠ "")
    (ht : (cdOffer env w).taken = some w') : Accepted env d w' := by
  unfold cdOffer at ht
  cases hcd : w.cdPath with
  | none => simp [hcd, Offer.taken] at ht
  | some cd =>
    rw [hcd] at ht
    dsimp only at ht
    cases hm : copied env cd (installationIso env w) w.media with
    | none => simp [hm, Offer.taken] at ht
    | some media =>
      rw [hm] at ht
      dsimp only at ht
      rw [← hcd] at ht
      have has : HasArch env d media (installationIso env w) :=
        HasArch.congr (h.cd cd hcd arch) (text_of_copied hm)
      cases hv : verdict env (installationIso env w) { w with
          info := { w.info with isoPath := some (installationIso env w), cdPath := w.cdPath }
          media := media } with
      | none => simp [hv, Offer.taken] at ht
      | some o =>
        obtain ⟨answer, w₁⟩ := o
        have distro := (distro_verdict hv h.checkArch).trans h.distro
        obtain ⟨choice, hashes, rfl⟩ := verdict_frame hv
        rw [hv] at ht
        cases answer with
        | true =>
          cases ht
          exact ⟨distro, installationIso env w, rfl, has⟩
        | false =>
          dsimp only at ht
          split at ht
          · cases ht
          · rename_i subversion own w₂ hs
            obtain ⟨caches, rfl⟩ := cdSubversion_frame hs
            by_cases beta : isPreRelease subversion = true
            · rw [if_pos beta] at ht
              cases ht
              exact ⟨distro, installationIso env w, rfl, has⟩
            · rw [if_neg beta] at ht
              cases ht

theorem accepted_localIsoOffer (h : Selected env d w) (arch : (env.distro d).arch ≠ "")
    (ht : (localIsoOffer env w).taken = some w') : Accepted env d w' := by
  unfold localIsoOffer at ht
  cases hp : w.isoPath with
  | none => simp [hp, Offer.taken] at ht
  | some p =>
    rw [hp] at ht
    exact accepted_isoOffer ht h.checkArch h.distro ((h.iso p hp).2 arch)

/-- A CD that is passed over leaves no local ISO to be tried. -/
theorem accepted_after_cdOffer {w₁ : World δ} (h : Selected env d w)
    (arch : (env.distro d).arch ≠ "") (hp : cdOffer env w = .passedOver w₁)
    (ht : (localIsoOffer env w₁).taken = some w') : Accepted env d w' := by
  have sound := sound_cdOffer env w
  rw [hp] at sound
  cases hiso : w.isoPath with
  | none => simp [localIsoOffer, sound.2.2.1, hiso, Offer.taken] at ht
  | some p =>
    have absent : cdOffer env w = .passedOver w := by
      unfold cdOffer
      rw [(h.iso p hiso).1]
    cases hp.symm.trans absent
    exact accepted_localIsoOffer h arch ht

/-! ## `get_iso` -/

/-- `get_iso` takes its ISO from `info.iso_path`, which the user has given or `find_any_iso` has found
for any of the distros. -/
def TakesPrespecified (env : Env δ) (w w' : World δ) : Prop :=
  (prespecifiedOffer env w).taken = some w'

/-- `get_iso` passes over `info.iso_path` and takes the CD or else the local ISO that has been found
for the selected distro. -/
def TakesFound (env : Env δ) (w w' : World δ) : Prop :=
  ∃ w₁, prespecifiedOffer env w = .passedOver w₁ ∧
    (firstOffer [cdOffer env, localIsoOffer env] w₁).taken = some w'

/-- `get_iso` passes over all local media and takes its ISO from a mirror. -/
def TakesDownload (env : Env δ) (w w' : World δ) : Prop :=
  ∃ w₁, firstOffer [prespecifiedOffer env, cdOffer env, localIsoOffer env] w = .passedOver w₁ ∧
    (downloadOffer env w₁).taken = some w'

/-- Before `get_iso`, `is_valid_iso` of the distro accepts `info.iso_path`. -/
def ValidPrespecified (env : Env δ) (d : δ) (w : World δ) : Prop :=
  ∃ p, w.info.isoPath = some p ∧
    ((env.distro d).isValidIso env.diskInfoRe w.media p true w.choice.caches).1 = true

/-- What `get_iso` takes comes by one of three ways. -/
theorem takes_of_finishes (finishes : Finishes env w w') :
    TakesPrespecified env w w' ∨ TakesFound env w w' ∨ TakesDownload env w w' := by
  rw [finishes_iff_taken, sources] at finishes
  obtain taken | ⟨w₁, prespecified, rest⟩ := taken_firstOffer_cons.1 finishes
  · exact .inl taken
  · obtain taken | ⟨w₂, cd, rest⟩ := taken_firstOffer_cons.1 rest
    · exact .inr (.inl ⟨w₁, prespecified, taken_firstOffer_cons.2 (.inl taken)⟩)
    · obtain taken | ⟨w₃, localIso, rest⟩ := taken_firstOffer_cons.1 rest
      · exact .inr (.inl ⟨w₁, prespecified, taken_firstOffer_cons.2
          (.inr ⟨w₂, cd, taken_firstOffer_cons.2 (.inl taken)⟩)⟩)
      · obtain taken | ⟨w₄, -, rest⟩ := taken_firstOffer_cons.1 rest
        · exact .inr (.inr ⟨w₃, by simp only [firstOffer, prespecified, cd, localIso], taken⟩)
        · cases rest

theorem accepted_of_takesPrespecified (h : Selected env d w) (arch : (env.distro d).arch ≠ "")
    (coherent : Coherent env.diskInfoRe w.media w.choice.caches) (valid : ValidPrespecified env d w)
    (takes : TakesPrespecified env w w') : Accepted env d w' := by
  obtain ⟨p, hp, valid⟩ := valid
  refine accepted_prespecifiedOffer h arch coherent (fun p' hp' => ?_) takes
  cases hp.symm.trans hp'
  exact valid

theorem accepted_of_takesFound (h : Selected env d w) (arch : (env.distro d).arch ≠ "")
    (takes : TakesFound env w w') : Accepted env d w' := by
  obtain ⟨w₁, prespecified, takes⟩ := takes
  have selected := selected_prespecifiedOffer prespecified h
  obtain taken | ⟨w₂, cd, rest⟩ := taken_firstOffer_cons.1 takes
  · exact accepted_cdOffer selected arch taken
  · obtain taken | ⟨w₃, -, rest⟩ := taken_firstOffer_cons.1 rest
    · exact accepted_after_cdOffer selected arch cd taken
    · cases rest

variable (arch mediumArch : String) {urls : List MetalinkUrl}

/-- The disk info of the sample ISO. -/
theorem arch_of_sampleIso {w : World Unit} {path : Path}
    (accepted : Accepted (sampleEnv arch mediumArch urls) () w) (hp : w.info.isoPath = some path)
    (file : w.media.file path = some sampleIso) : mediumArch = arch := by
  obtain ⟨-, path', hp', has⟩ := accepted
  cases hp.symm.trans hp'
  have text : w.media.text path (sampleDistro arch).infoFile = some "LinuxConsole" := by
    simp [Media.text, file, sampleIso]
  have read : (sampleDistro arch).archOf (sampleEnv arch mediumArch urls).diskInfoRe w.media path =
      some mediumArch := by
    unfold Distro.archOf
    rw [text]
    rfl
  exact Option.some.inj (read.symm.trans has)

/-- No local media. -/
def noMedia : World Unit where
  settings := { arch := "i386" }
  media := { file := fun _ => none, disc := fun _ => none }

theorem finishes_noMedia :
    ∃ w', Finishes (sampleEnv arch mediumArch [goodMirror])
        (start (sampleEnv arch mediumArch [goodMirror]) () "C:\\linux" noMedia) w' ∧
      w'.info.isoPath = some "C:\\linux\\linux.iso" ∧
      w'.media.file "C:\\linux\\linux.iso" = some sampleIso := by
  have untouched : Untouched [goodMirror]
      (start (sampleEnv arch mediumArch [goodMirror]) () "C:\\linux" noMedia) :=
    ⟨rfl, rfl, .inl rfl, rfl, rfl⟩
  obtain ⟨w₁, offer, untouched⟩ := downloadOffer_sample arch mediumArch untouched rfl
  obtain ⟨w₂, good, isoPath, file⟩ :=
    mirrorOffer_goodMirror arch mediumArch untouched "C:\\linux\\linux.iso"
  refine ⟨w₂, finishes_iff.2 (.inl ?_), isoPath, file⟩
  rw [firstOffer_sources_of_none rfl rfl rfl, offer]
  simp only [List.map_cons, firstOffer, good]

/-- A CD whose image is the sample ISO. -/
def sampleDisc : Disc where
  files _ := true
  text := sampleIso.text
  image := some sampleIso
  image_text iso h := by cases h; rfl

/-- The CD is in the drive. -/
def cdWorld : World Unit where
  settings := { arch := "i386", skipMd5Check := true, originalExe := "E:\\wubi.exe" }
  media :=
    { file := fun _ => none
      disc := fun path => if path = "E:" then some sampleDisc else none }

/-- The search finds the CD, about which it then knows the disk info. -/
theorem isValidCd_sampleDisc (urls : List MetalinkUrl) (same : arch ≠ "" → mediumArch = arch) :
    ∃ c : Caches, (sampleDistro arch).isValidCd (sampleEnv arch mediumArch urls).diskInfoRe
        cdWorld.media "E:" true {} = (true, c) ∧
      (∀ p, c.names p = none) ∧ ∀ p, p ≠ "E:" → ∀ f, c.info (p, f) = none := by
  have disc : cdWorld.media.disc "E:" = some sampleDisc := rfl
  have text : cdWorld.media.text "E:" (sampleDistro arch).infoFile = some "LinuxConsole" := rfl
  have checked : (sampleDistro arch).checkInfo ((sampleDistro arch).parseIsoinfo
      (sampleEnv arch mediumArch urls).diskInfoRe "LinuxConsole") true = true :=
    checkInfo_sample fun _ info hi ha => by cases hi; exact same ha
  unfold Distro.isValidCd
  rw [disc]
  dsimp only
  rw [if_neg (by simp [sampleDisc])]
  simp only [Distro.getInfo, text, Option.bind_some, checked]
  refine ⟨_, rfl, fun _ => rfl, fun p hp f => ?_⟩
  have other : (p, f) ≠ ("E:", (sampleDistro arch).infoFile) := fun e => hp (Prod.mk.inj e).1
  simp [other]

/-- The CD has been found. -/
def cdFound (c : Caches) : World Unit := { cdWorld with
  settings := { cdWorld.settings with checkArch := true, installDir := "C:\\linux" }
  info := { cdPath := some "E:", cdDistro := some () }
  choice := { distro := some (), caches := c }
  cdPath := some "E:" }

theorem start_cdWorld (urls : List MetalinkUrl) (same : arch ≠ "" → mediumArch = arch) :
    ∃ c : Caches, start (sampleEnv arch mediumArch urls) () "C:\\linux" cdWorld = cdFound c ∧
      (∀ p, c.names p = none) ∧ ∀ p, p ≠ "E:" → ∀ f, c.info (p, f) = none := by
  obtain ⟨c, valid, fresh⟩ := isValidCd_sampleDisc arch mediumArch urls same
  refine ⟨c, ?_, fresh⟩
  have noIso : findAnyIso (sampleEnv arch mediumArch urls) cdWorld.media none true {} =
      (none, {}) := rfl
  have cd : findAnyCd (sampleEnv arch mediumArch urls) cdWorld.media "E:\\wubi.exe" true {} =
      (some ("E:", ()), c) := by
    have found : search (fun x : Path × Unit => ((sampleEnv arch mediumArch urls).distro x.2).isValidCd
        (sampleEnv arch mediumArch urls).diskInfoRe cdWorld.media x.1 true)
        ((sampleEnv arch mediumArch urls).cdSearch ×ˢ (sampleEnv arch mediumArch urls).distros) {} =
        (some ("E:", ()), c) := search_cons_of_passes valid
    unfold findAnyCd
    rw [found]
    rfl
  unfold start fetchBasicInfo
  dsimp only
  rw [show decide (cdWorld.settings.arch = "i386") = true from rfl]
  rw [show cdWorld.info.isoPath = none from rfl, show cdWorld.choice.caches = {} from rfl]
  rw [noIso]
  dsimp only
  rw [show cdWorld.settings.originalExe = "E:\\wubi.exe" from rfl, cd]
  rfl

/-- The CD has been copied. -/
def cdCopied (c : Caches) : World Unit := { cdFound c with
  info :=
    { isoPath := some "C:\\linux\\installation.iso", cdPath := some "E:", cdDistro := some () }
  media := (cdFound c).media.set "C:\\linux\\installation.iso" (some sampleIso) }

theorem finishes_cdWorld (urls : List MetalinkUrl) (same : arch ≠ "" → mediumArch = arch) :
    ∃ w', Finishes (sampleEnv arch mediumArch urls)
        (start (sampleEnv arch mediumArch urls) () "C:\\linux" cdWorld) w' ∧
      TakesFound (sampleEnv arch mediumArch urls)
        (start (sampleEnv arch mediumArch urls) () "C:\\linux" cdWorld) w' ∧
      w'.info.isoPath = some "C:\\linux\\installation.iso" ∧
      w'.media.file "C:\\linux\\installation.iso" = some sampleIso := by
  obtain ⟨c, started, names, info⟩ := start_cdWorld arch mediumArch urls same
  rw [started]
  have there : (cdCopied c).media.file "C:\\linux\\installation.iso" = some sampleIso := rfl
  have valid : ((sampleDistro arch).isValidIso (sampleEnv arch mediumArch urls).diskInfoRe
      (cdCopied c).media "C:\\linux\\installation.iso" false (cdCopied c).choice.caches).1 = true :=
    valid_sample there rfl rfl (names _) (info _ (by decide) _) nofun
  have good : ∃ w₁, verdict (sampleEnv arch mediumArch urls) "C:\\linux\\installation.iso"
      (cdCopied c) = some (true, w₁) := verdict_of_skip (d := ()) rfl rfl rfl valid
  obtain ⟨w₁, hv⟩ := good
  obtain ⟨choice, hashes, hw⟩ := verdict_frame hv
  have absent : prespecifiedOffer (sampleEnv arch mediumArch urls) (cdFound c) =
      .passedOver (cdFound c) := rfl
  have copy : copied (sampleEnv arch mediumArch urls) "E:" "C:\\linux\\installation.iso"
      (cdFound c).media = some (cdCopied c).media := rfl
  have taken : cdOffer (sampleEnv arch mediumArch urls) (cdFound c) = .good w₁ :=
    cdOffer_good rfl copy hv
  refine ⟨w₁, finishes_iff.2 (.inl ?_), ⟨_, absent, ?_⟩, by rw [hw]; rfl, by rw [hw]; rfl⟩
  · simp only [sources, firstOffer, absent, taken]
  · simp only [firstOffer, taken, Offer.taken]

/-- Whatever `get_iso` accepts has the architecture of the selected distro. -/
def ArchSafe {δ : Type} [DecidableEq δ] (env : Env δ) : Prop :=
  ∀ (d : δ) (installDir : Path) (w w' : World δ), w.settings.arch = "i386" →
    w.choice.caches = {} → Finishes env (start env d installDir w) w' → Accepted env d w'

end Ydfs.Wubi.Backend
