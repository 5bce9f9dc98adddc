import Ydfs.TaskList.Adequacy
import Ydfs.Wubi.Caches
import Ydfs.Wubi.Sources

/-!
# From one source of the ISO to the next

`get_iso` finishes with a file that has passed `check_iso` when the first source that is not passed
over is a good one.  A source that raises is not passed over: a copy or a download over HTTP is a
required task, so that its exception cancels the installation, and the sources after it are not
tried any more.
-/

namespace Ydfs.Wubi.Backend

open TaskList
open Script (live)

variable {δ : Type} {env : Env δ} {w w' : World δ}

/-- `info.iso_path` names a file that has passed `check_iso` on the way from `w` to `w'`. -/
def NamesPassed (w w' : World δ) : Prop :=
  ∃ path iso passed, w'.info.isoPath = some path ∧ w'.media.file path = some iso ∧
    w'.passed = passed ++ w.passed ∧ iso ∈ passed

/-- `info.iso_path` names the copy of the CD that `cache_cd_path` has found. -/
def NamesCd (env : Env δ) (w w' : World δ) : Prop :=
  ∃ cd, w.cdPath = some cd ∧ w'.info.cdPath = some cd ∧
    w'.info.isoPath = some (installationIso env w) ∧ w'.media.has (installationIso env w)

/-- What a source may leave behind. -/
def Offer.Sound (env : Env δ) (w : World δ) : Offer δ → Prop
  | passedOver w' => w'.passed = w.passed ∧ w'.cdPath = w.cdPath ∧ w'.isoPath = w.isoPath ∧
      w'.settings = w.settings
  | good w' => NamesPassed w w'
  | preRelease w' => NamesCd env w w'
  | raised => True

theorem file_of_moved {source dest : Path} {m m' : Media} {iso : Iso}
    (hs : m.file source = some iso) (h : moved env source dest m = some m') :
    m'.file dest = some iso := by
  unfold moved at h
  split_ifs at h
  simp only [hs, Option.map_some, Option.some.injEq] at h
  simp [← h, Media.set]

theorem file_of_copied {source dest : Path} {m m' : Media} {iso : Iso}
    (hs : m.file source = some iso) (h : copied env source dest m = some m') :
    m'.file dest = some iso := by
  unfold copied at h
  split_ifs at h
  simp only [hs, Option.map_some, Option.some.injEq] at h
  simp [← h, Media.set]

variable [DecidableEq δ]

theorem sound_isoOffer (path : Path) (w : World δ) : (isoOffer env path w).Sound env w := by
  unfold isoOffer
  dsimp only
  cases hv : verdict env path w with
  | none => trivial
  | some o =>
    obtain ⟨answer, w₁⟩ := o
    obtain ⟨choice, hashes, rfl⟩ := verdict_frame hv
    cases answer with
    | false => exact ⟨rfl, rfl, rfl, rfl⟩
    | true =>
      obtain ⟨iso, hi⟩ := Option.isSome_iff_exists.1 (file_of_verdict hv)
      dsimp only
      split
      · trivial
      · rename_i media hm
        refine ⟨_, iso, [iso], rfl, ?_, by simp [hi], by simp⟩
        split_ifs at hm
        · exact file_of_moved hi hm
        · exact file_of_copied hi hm

omit [DecidableEq δ] in
/-- What an offer is compared with does not depend on `info` and `choice`. -/
theorem Offer.Sound.of_choice {w : World δ} {info : Info δ} {choice : Choice δ} {offer : Offer δ}
    (h : offer.Sound env { w with info, choice }) : offer.Sound env w := by
  cases offer with
  | passedOver _ | good _ | preRelease _ => exact h
  | raised => trivial

theorem sound_prespecifiedOffer (w : World δ) : (prespecifiedOffer env w).Sound env w := by
  unfold prespecifiedOffer
  split
  · exact ⟨rfl, rfl, rfl, rfl⟩
  · split
    · trivial
    · exact .of_choice (sound_isoOffer _ _)

theorem sound_localIsoOffer (w : World δ) : (localIsoOffer env w).Sound env w := by
  unfold localIsoOffer
  split
  · exact ⟨rfl, rfl, rfl, rfl⟩
  · exact sound_isoOffer _ _

omit [DecidableEq δ] in
theorem file_dest_of_copied {source dest : Path} {m m' : Media}
    (h : copied env source dest m = some m') : ∃ iso, m'.file dest = some iso := by
  unfold copied at h
  split_ifs at h
  rw [Option.map_eq_some_iff] at h
  obtain ⟨iso, -, rfl⟩ := h
  exact ⟨iso, by simp [Media.set]⟩

omit [DecidableEq δ] in
theorem cdSubversion_frame {cd : Path} {subversion : String} {own : Bool}
    (h : (cdSubversion env cd).live true w = some (subversion, own, w')) :
    ∃ caches, w' = { w with choice := { w.choice with caches } } := by
  unfold cdSubversion at h
  rw [Script.live_bind, Script.live_world, Option.bind_some] at h
  dsimp only at h
  cases hd : w.info.cdDistro with
  | none => simp [hd] at h
  | some d =>
    simp only [hd, Script.live_bind, live_choose, onCaches, Script.live_state, Option.map_some,
      Option.bind_some] at h
    split at h
    · simp at h
    · split at h
      · simp at h
      · simp only [Script.live_pure, Option.some.injEq, Prod.mk.injEq] at h
        exact ⟨_, h.2.2.symm⟩

theorem sound_cdOffer (env : Env δ) (w : World δ) : (cdOffer env w).Sound env w := by
  unfold cdOffer
  cases hcd : w.cdPath with
  | none => exact ⟨rfl, rfl, rfl, rfl⟩
  | some cd =>
    dsimp only
    cases hm : copied env cd (installationIso env w) w.media with
    | none => trivial
    | some media =>
      obtain ⟨iso, hi⟩ := file_dest_of_copied hm
      dsimp only
      rw [← hcd]
      cases hv : verdict env (installationIso env w) { w with
          info := { w.info with isoPath := some (installationIso env w), cdPath := w.cdPath }
          media := media } with
      | none => trivial
      | some o =>
        obtain ⟨answer, w₁⟩ := o
        obtain ⟨choice, hashes, rfl⟩ := verdict_frame hv
        cases answer with
        | true => exact ⟨_, iso, [iso], rfl, hi, by simp [hi], by simp⟩
        | false =>
          dsimp only
          cases hs : (cdSubversion env cd).live true _ with
          | none => trivial
          | some o =>
            obtain ⟨subversion, own, w₂⟩ := o
            obtain ⟨caches, rfl⟩ := cdSubversion_frame hs
            dsimp only
            by_cases hp : isPreRelease subversion = true
            · rw [if_pos hp]
              exact ⟨cd, hcd, hcd, rfl, by simp [Media.has, hi]⟩
            · rw [if_neg hp]
              exact ⟨rfl, rfl, rfl, rfl⟩

theorem sound_mirrorOffer (saveAs : Path) (url : MetalinkUrl) (w : World δ) :
    (mirrorOffer env saveAs url w).Sound env w := by
  unfold mirrorOffer
  by_cases skip : url.type = "bittorrent" ∧ w.settings.noBittorrent = true
  · rw [if_pos skip]
    exact ⟨rfl, rfl, rfl, rfl⟩
  · rw [if_neg skip]
    dsimp only
    cases env.fetch url.url w.choice.downloads with
    | none =>
      dsimp only
      split_ifs
      · exact ⟨rfl, rfl, rfl, rfl⟩
      · trivial
    | some iso =>
      dsimp only
      cases hv : verdict env saveAs { w with
          media := (w.media.set saveAs none).set saveAs (some iso)
          choice := { w.choice with downloads := w.choice.downloads + 1 } } with
      | none => trivial
      | some o =>
        obtain ⟨answer, w₁⟩ := o
        obtain ⟨choice, hashes, rfl⟩ := verdict_frame hv
        cases answer with
        | false => exact ⟨rfl, rfl, rfl, rfl⟩
        | true =>
          have there : ((w.media.set saveAs none).set saveAs (some iso)).file saveAs = some iso := by
            simp [Media.set]
          exact ⟨saveAs, iso, [iso], rfl, there, by simp [there], by simp⟩

omit [DecidableEq δ] in
theorem NamesPassed.of_passedOver {w₁ : World δ} (h : NamesPassed w₁ w')
    (same : w₁.passed = w.passed) : NamesPassed w w' := by
  obtain ⟨path, iso, passed, hp, hi, hl, hm⟩ := h
  exact ⟨path, iso, passed, hp, hi, same ▸ hl, hm⟩

omit [DecidableEq δ] in
theorem sound_firstOffer {ss : List (Source δ)} (h : ∀ s ∈ ss, ∀ w, (s w).Sound env w)
    (w : World δ) : (firstOffer ss w).Sound env w := by
  induction ss generalizing w with
  | nil => exact ⟨rfl, rfl, rfl, rfl⟩
  | cons s ss ih =>
    obtain ⟨hs, hss⟩ := List.forall_mem_cons.1 h
    have first := hs w
    unfold firstOffer
    cases he : s w with
    | passedOver w₁ =>
      rw [he] at first
      obtain ⟨passed, cdPath, isoPath, settings⟩ := first
      have rest := ih hss w₁
      dsimp only
      cases hr : firstOffer ss w₁ with
      | passedOver w₂ =>
        rw [hr] at rest
        exact ⟨rest.1.trans passed, rest.2.1.trans cdPath, rest.2.2.1.trans isoPath,
          rest.2.2.2.trans settings⟩
      | good w₂ =>
        rw [hr] at rest
        exact NamesPassed.of_passedOver rest passed
      | preRelease w₂ =>
        rw [hr] at rest
        simpa [Offer.Sound, NamesCd, installationIso, cdPath, settings] using rest
      | raised => trivial
    | good w₁ => rwa [he] at first
    | preRelease w₁ => rwa [he] at first
    | raised => trivial

theorem sound_downloadOffer (w : World δ) : (downloadOffer env w).Sound env w := by
  unfold downloadOffer
  split
  · trivial
  · trivial
  · dsimp only
    split_ifs
    · trivial
    · refine sound_firstOffer (fun s hs w => ?_) _
      unfold mirrors at hs
      split at hs
      · cases hs
      · obtain ⟨url, -, rfl⟩ := List.mem_map.1 hs
        exact sound_mirrorOffer _ url w

theorem sound_sources (env : Env δ) : ∀ s ∈ sources env, ∀ w, (s w).Sound env w := by
  simp only [sources, List.forall_mem_cons]
  exact ⟨sound_prespecifiedOffer, sound_cdOffer env, sound_localIsoOffer, sound_downloadOffer, by simp⟩

/-! ## `get_iso` -/

/-- `get_iso` returns, its task is COMPLETED, and the root is not cancelled. -/
def Finishes (env : Env δ) (w w' : World δ) : Prop :=
  (getIso env).eval {} w = ⟨.ok none, { own := false }, w'⟩

/-- In the task list, too. -/
theorem Finishes.plays {s : State Error Value} {t : Pos} {K : List Frame} (h : Finishes env w w')
    (mirrors : Mirrors s t {}) (hs : s.stack = .body t :: K) :
    ∃ s', Plays (getIso env) t K w s (.ok none) w' s' ∧ s'.stack = .body t :: K ∧
      Mirrors s' t { own := false } ∧ Framed t s s' := by
  have plays := plays_eval (getIso env) w mirrors hs
  rw [h] at plays
  exact plays

theorem finishes_iff : Finishes env w w' ↔
    firstOffer (sources env) w = .good w' ∨ firstOffer (sources env) w = .preRelease w' := by
  unfold Finishes
  rw [← Script.live_eq_some, live_getIso]
  cases firstOffer (sources env) w <;> simp

/-- The first source that is not passed over decides: a good file is taken, and so is a CD that
calls itself an alpha, a beta or a release candidate. -/
theorem get_iso_first_offer (env : Env δ) (w : World δ) :
    (∀ w', firstOffer (sources env) w = .good w' → Finishes env w w' ∧ NamesPassed w w') ∧
    ∀ w', firstOffer (sources env) w = .preRelease w' → Finishes env w w' ∧ NamesCd env w w' := by
  have sound := sound_firstOffer (sound_sources env) w
  refine ⟨fun w' h => ⟨finishes_iff.2 (.inl h), ?_⟩, fun w' h => ⟨finishes_iff.2 (.inr h), ?_⟩⟩
  · rwa [h] at sound
  · rwa [h] at sound

/-- Without local media the ISO is downloaded. -/
theorem firstOffer_sources_of_none (iso : w.info.isoPath = none) (cd : w.cdPath = none)
    (localIso : w.isoPath = none) : firstOffer (sources env) w = downloadOffer env w := by
  have last : firstOffer [downloadOffer env] w = downloadOffer env w := by
    unfold firstOffer
    cases downloadOffer env w <;> rfl
  simp only [sources, firstOffer, prespecifiedOffer, cdOffer, localIsoOffer, iso, cd, localIso,
    Option.filter_none]
  exact last

/-! ## A sample -/

/-- The metalink of the sample. -/
def sampleMetalink (urls : List MetalinkUrl) : Metalink where
  files := [{ name := "linux.iso", hashes := [⟨"md5", "d41d8cd9"⟩], urls }]

/-- One distro; the media call themselves betas of some architecture, and all downloads raise but
the one from the good mirror. -/
def sampleEnv (arch mediumArch : String) (urls : List MetalinkUrl) : Env Unit where
  diskInfoRe _ := some
    { name := "LinuxConsole", version := "", subversion := some "beta", arch := mediumArch }
  distros := [()]
  distro _ := sampleDistro arch
  joinPath dir name := dir ++ "\\" ++ name
  dirname _ := ""
  isoSearch := ["D:\\linux.iso"]
  cdSearch := ["E:"]
  copyRaises _ := false
  fetchMetalink _ _ := some (some (sampleMetalink urls))
  fetch url _ := if url = "http://good" then some sampleIso else none

/-- A CD may be in the drive. -/
def sampleWorld (disc : Option Disc) : World Unit where
  settings := { arch := "i386", checkArch := true, installDir := "C:\\linux" }
  info := { cdDistro := disc.map fun _ => () }
  choice := { distro := some () }
  cdPath := disc.map fun _ => "E:"
  media :=
    { file := fun _ => none
      disc := fun path => if path = "E:" then disc else none }

variable (arch mediumArch : String) {urls : List MetalinkUrl}

/-- The sample before any check of an ISO; the metalink may be known. -/
structure Untouched (urls : List MetalinkUrl) (w : World Unit) : Prop where
  settings : w.settings = { arch := "i386", checkArch := true, installDir := "C:\\linux" }
  distro : w.choice.distro = some ()
  metalink : w.choice.metalink () = none ∨ w.choice.metalink () = some (sampleMetalink urls)
  caches : w.choice.caches = {}
  hashes : w.isoMd5Hashes = fun _ => none

theorem untouched_sampleWorld (disc : Option Disc) : Untouched urls (sampleWorld disc) :=
  ⟨rfl, rfl, .inl rfl, rfl, rfl⟩

/-- The metalink is downloaded unless it is known. -/
theorem live_requireMetalink_sample {c : Choice Unit}
    (hd : c.distro = some ())
    (hm : c.metalink () = none ∨ c.metalink () = some (sampleMetalink urls)) :
    ∃ metalink downloads, (requireMetalink (sampleEnv arch mediumArch urls)).live true c =
        some (some (sampleMetalink urls), true, { c with metalink, downloads }) ∧
      metalink () = some (sampleMetalink urls) := by
  rcases hm with hm | hm
  · exact ⟨_, _, live_requireMetalink_fetched hd hm rfl, by simp⟩
  · exact ⟨_, _, live_requireMetalink_known hd hm, hm⟩

/-- The check of an ISO that lists the right files compares its hash. -/
theorem verdict_sample {w : World Unit} {path : Path} {iso : Iso} (h : Untouched urls w)
    (file : w.media.file path = some iso) (listed : iso.names = sampleIso.names)
    (text : iso.text = sampleIso.text) :
    ∃ w', verdict (sampleEnv arch mediumArch urls) path w =
        some (decide ("d41d8cd9" = iso.digest "md5"), w') ∧
      w'.choice.caches = ((sampleDistro arch).isValidIso
        (sampleEnv arch mediumArch urls).diskInfoRe w.media path false {}).2 := by
  have valid : ((sampleDistro arch).isValidIso (sampleEnv arch mediumArch urls).diskInfoRe w.media
      path false {}).1 = true := valid_sample file listed text rfl rfl nofun
  rw [← h.caches] at valid ⊢
  obtain ⟨metalink, downloads, known, -⟩ := live_requireMetalink_sample arch mediumArch
    (show ({ w.choice with caches := ((sampleDistro arch).isValidIso
      (sampleEnv arch mediumArch urls).diskInfoRe w.media path false w.choice.caches).2 } :
        Choice Unit).distro = some () from h.distro) h.metalink
  have md5 : knownHash [⟨"md5", "d41d8cd9"⟩] = some ⟨"md5", "d41d8cd9"⟩ := rfl
  have digest : digestOf w.media path "md5" = some (iso.digest "md5") := by simp [digestOf, file]
  obtain ⟨w', hv, choice⟩ := verdict_of_hash h.distro (by rw [h.settings]) (by rw [h.settings])
    valid known rfl md5 (by rw [h.hashes]) digest
  exact ⟨w', hv, by rw [choice]⟩

/-- The good mirror. -/
def goodMirror : MetalinkUrl := { url := "http://good" }

/-- A mirror that raises. -/
def badTorrent : MetalinkUrl := { url := "bad", type := "bittorrent" }

theorem mirrorOffer_goodMirror {w : World Unit} (h : Untouched urls w) (path : Path) :
    ∃ w', mirrorOffer (sampleEnv arch mediumArch urls) path goodMirror w = .good w' ∧
      w'.info.isoPath = some path ∧ w'.media.file path = some sampleIso := by
  have there : ((w.media.set path none).set path (some sampleIso)).file path = some sampleIso := by
    simp [Media.set]
  have untouched : Untouched urls { w with
      media := (w.media.set path none).set path (some sampleIso)
      choice := { w.choice with downloads := w.choice.downloads + 1 } } :=
    ⟨h.settings, h.distro, h.metalink, h.caches, h.hashes⟩
  have fetched : (sampleEnv arch mediumArch urls).fetch goodMirror.url w.choice.downloads =
      some sampleIso := rfl
  obtain ⟨w₁, hv, -⟩ := verdict_sample arch mediumArch untouched there rfl rfl
  obtain ⟨choice, hashes, rfl⟩ := verdict_frame hv
  unfold mirrorOffer
  rw [if_neg (by simp [goodMirror])]
  simp only [fetched, hv]
  exact ⟨_, rfl, rfl, there⟩

theorem mirrorOffer_badTorrent {w : World Unit} (h : Untouched urls w) (path : Path) :
    ∃ w', mirrorOffer (sampleEnv arch mediumArch urls) path badTorrent w = .passedOver w' ∧
      Untouched urls w' := by
  unfold mirrorOffer
  rw [if_neg (by simp [h.settings])]
  simp only [badTorrent, if_true]
  exact ⟨_, rfl, h.settings, h.distro, h.metalink, h.caches, h.hashes⟩

theorem mirrors_sample {w : World Unit} (h : Untouched urls w)
    (few : (selectMirrors "" urls).take 5 = urls) :
    mirrors (sampleEnv arch mediumArch urls) (sampleMetalink urls) w =
      urls.map (mirrorOffer (sampleEnv arch mediumArch urls) "C:\\linux\\linux.iso") := by
  simp only [mirrors, sampleMetalink, h.settings, few]
  rfl

theorem downloadOffer_sample {w : World Unit} (h : Untouched urls w)
    (few : (selectMirrors "" urls).take 5 = urls) :
    ∃ w', downloadOffer (sampleEnv arch mediumArch urls) w =
        firstOffer (urls.map (mirrorOffer (sampleEnv arch mediumArch urls)
          "C:\\linux\\linux.iso")) w' ∧ Untouched urls w' := by
  obtain ⟨metalink, downloads, known, hm⟩ :=
    live_requireMetalink_sample arch mediumArch h.distro h.metalink
  have untouched : Untouched urls { w with
      choice := { w.choice with metalink, downloads }
      info := { w.info with cdPath := none } } :=
    ⟨h.settings, h.distro, .inr hm, h.caches, h.hashes⟩
  refine ⟨_, ?_, untouched⟩
  unfold downloadOffer
  rw [known]
  dsimp only
  rw [if_neg (by simp [sampleMetalink]), mirrors_sample arch mediumArch untouched few]

/-- A first mirror that raises is passed over when it is an optional one. -/
theorem firstOffer_twoMirrors :
    ∃ w', firstOffer (sources (sampleEnv arch mediumArch [badTorrent, goodMirror]))
      (sampleWorld none) = .good w' := by
  have few : (selectMirrors "" [badTorrent, goodMirror]).take 5 = [badTorrent, goodMirror] := rfl
  rw [firstOffer_sources_of_none rfl rfl rfl]
  obtain ⟨w₁, offer, untouched⟩ := downloadOffer_sample arch mediumArch (untouched_sampleWorld none) few
  obtain ⟨w₂, passed, untouched⟩ := mirrorOffer_badTorrent arch mediumArch untouched "C:\\linux\\linux.iso"
  obtain ⟨w₃, good, -⟩ := mirrorOffer_goodMirror arch mediumArch untouched "C:\\linux\\linux.iso"
  exact ⟨w₃, by simp only [offer, List.map_cons, firstOffer, passed, good]⟩

/-- A beta that differs from the released ISO. -/
def betaDisc : Disc where
  files _ := true
  text := sampleIso.text
  image := some { sampleIso with digest := fun _ => "0", digest_ne := fun _ => by decide }
  image_text iso h := by cases h; rfl

theorem live_cdSubversion {δ : Type} (env : Env δ) {w : World δ} {cd : Path} {d : δ}
    {info : DiskInfo} {subversion : String} (hd : w.info.cdDistro = some d)
    (hi : ((env.distro d).getInfo env.diskInfoRe w.media cd w.choice.caches).1 = some info)
    (hs : info.subversion = some subversion) :
    ∃ choice, (cdSubversion env cd).live true w = some (subversion, true, { w with choice }) := by
  unfold cdSubversion
  rw [Script.live_bind, Script.live_world, Option.bind_some]
  dsimp only
  rw [hd]
  simp only [Script.live_bind, live_choose, onCaches, Script.live_state, Option.map_some,
    Option.bind_some, hi, hs, Script.live_pure]
  exact ⟨_, rfl⟩

theorem cdOffer_good {δ : Type} [DecidableEq δ] {env : Env δ} {w w₁ : World δ} {cd : Path}
    {media : Media} (hcd : w.cdPath = some cd)
    (hm : copied env cd (installationIso env w) w.media = some media)
    (hv : verdict env (installationIso env w) { w with
        media := media
        info := { w.info with isoPath := some (installationIso env w), cdPath := some cd } } =
      some (true, w₁)) : cdOffer env w = .good w₁ := by
  rw [← hcd] at hv
  unfold cdOffer
  rw [hcd]
  dsimp only
  rw [hm]
  dsimp only
  rw [← hcd, hv]

theorem cdOffer_preRelease {δ : Type} [DecidableEq δ] {env : Env δ} {w w₁ w₂ : World δ} {cd : Path}
    {media : Media} {subversion : String} {own : Bool} (hcd : w.cdPath = some cd)
    (hm : copied env cd (installationIso env w) w.media = some media)
    (hv : verdict env (installationIso env w) { w with
        media := media
        info := { w.info with isoPath := some (installationIso env w), cdPath := some cd } } =
      some (false, w₁))
    (hs : (cdSubversion env cd).live true w₁ = some (subversion, own, w₂))
    (hp : isPreRelease subversion = true) : cdOffer env w = .preRelease w₂ := by
  rw [← hcd] at hv
  unfold cdOffer
  rw [hcd]
  dsimp only
  rw [hm]
  dsimp only
  rw [← hcd, hv]
  dsimp only
  rw [hs]
  exact if_pos hp

/-- The CD fails the check and is taken nevertheless. -/
theorem cdOffer_betaDisc (urls : List MetalinkUrl) :
    ∃ w', cdOffer (sampleEnv arch mediumArch urls) (sampleWorld (some betaDisc)) =
      .preRelease w' ∧ w'.passed = [] := by
  let env := sampleEnv arch mediumArch urls
  let dest := installationIso env (sampleWorld (some betaDisc))
  let iso : Iso := { sampleIso with digest := fun _ => "0", digest_ne := fun _ => by decide }
  let media := (sampleWorld (some betaDisc)).media.set dest (some iso)
  let w : World Unit := { sampleWorld (some betaDisc) with
    info := { cdPath := some "E:", cdDistro := some (), isoPath := some dest }
    media := media }
  have copy : copied env "E:" dest (sampleWorld (some betaDisc)).media = some media := rfl
  have untouched : Untouched urls w := ⟨rfl, rfl, .inl rfl, rfl, rfl⟩
  have there : w.media.file dest = some iso := by simp [w, media, Media.set]
  obtain ⟨w₁, hv, caches⟩ := verdict_sample arch mediumArch untouched there rfl rfl
  obtain ⟨choice, hashes, hw⟩ := verdict_frame hv
  have same : w₁.media = w.media := by rw [hw]
  have coherent : Coherent env.diskInfoRe w₁.media w₁.choice.caches := by
    rw [caches, same]
    exact (Distro.isValidIso_spec (sampleDistro arch) dest false Distro.coherent_empty).1
  obtain ⟨⟨x, info⟩, -⟩ := Distro.getInfo_spec (sampleDistro arch) "E:" coherent
  have text : w₁.media.text "E:" (sampleDistro arch).infoFile = some "LinuxConsole" := by
    rw [same]
    rfl
  obtain ⟨parsed, hp, beta⟩ : ∃ parsed, x.parseIsoinfo env.diskInfoRe "LinuxConsole" = some parsed ∧
      parsed.subversion = some "beta" := ⟨_, rfl, rfl⟩
  rw [text, Option.bind_some, hp] at info
  have distro : w₁.info.cdDistro = some () := by rw [hw]
  obtain ⟨choice', subversion⟩ := live_cdSubversion env distro info beta
  have failed : verdict env dest w = some (false, w₁) := hv
  exact ⟨_, cdOffer_preRelease rfl copy failed subversion (by decide +kernel), by rw [hw]; rfl⟩

theorem firstOffer_betaDisc (urls : List MetalinkUrl) :
    ∃ w', firstOffer (sources (sampleEnv arch mediumArch urls)) (sampleWorld (some betaDisc)) =
      .preRelease w' ∧ w'.passed = [] := by
  obtain ⟨w', cd, passed⟩ := cdOffer_betaDisc arch mediumArch urls
  have absent : prespecifiedOffer (sampleEnv arch mediumArch urls) (sampleWorld (some betaDisc)) =
      .passedOver (sampleWorld (some betaDisc)) := rfl
  exact ⟨w', by simp only [sources, firstOffer, absent, cd], passed⟩

theorem get_iso_first_offer_sample :
    (∃ w', Finishes (sampleEnv "i386" "i386" [badTorrent, goodMirror]) (sampleWorld none) w' ∧
      NamesPassed (sampleWorld none) w') ∧
    ∃ w', Finishes (sampleEnv "i386" "i386" [goodMirror]) (sampleWorld (some betaDisc)) w' ∧
      NamesCd (sampleEnv "i386" "i386" [goodMirror]) (sampleWorld (some betaDisc)) w' := by
  obtain ⟨w₁, good⟩ := firstOffer_twoMirrors "i386" "i386"
  obtain ⟨w₂, preRelease, -⟩ := firstOffer_betaDisc "i386" "i386" [goodMirror]
  exact ⟨⟨w₁, (get_iso_first_offer _ _).1 w₁ good⟩, w₂, (get_iso_first_offer _ _).2 w₂ preRelease⟩

/-- The mirrors of the metalink, which may have to be downloaded. -/
def metalinkMirrors {δ : Type} [DecidableEq δ] (env : Env δ) (w : World δ) : List (Source δ) :=
  match (requireMetalink env).live true w.choice with
  | some (some metalink, _, _) => mirrors env metalink w
  | _ => []

/-- One of the sources has an ISO that passes `check_iso`. -/
def Delivers {δ : Type} [DecidableEq δ] (env : Env δ) (w : World δ) : Prop :=
  ∃ s ∈ [prespecifiedOffer env, cdOffer env, localIsoOffer env] ++ metalinkMirrors env w,
    ∃ w', s w = .good w'

theorem delivers_goodMirror (disc : Option Disc) :
    Delivers (sampleEnv arch mediumArch [goodMirror]) (sampleWorld disc) := by
  have untouched : Untouched [goodMirror] (sampleWorld disc) := untouched_sampleWorld disc
  obtain ⟨w', good, -⟩ :=
    mirrorOffer_goodMirror arch mediumArch untouched "C:\\linux\\linux.iso"
  obtain ⟨metalink, downloads, known, -⟩ :=
    live_requireMetalink_sample arch mediumArch untouched.distro untouched.metalink
  refine ⟨_, List.mem_append_right _ ?_, w', good⟩
  simp only [metalinkMirrors, known]
  rw [mirrors_sample arch mediumArch untouched rfl]
  exact List.mem_singleton.2 rfl

/-- A CD that fails the check may be taken although a mirror has a good ISO. -/
theorem not_get_iso_complete : ¬ ∀ (env : Env Unit) (w : World Unit), Delivers env w →
    ∃ w', Finishes env w w' ∧ NamesPassed w w' := by
  intro complete
  obtain ⟨w', finishes, path, iso, passed, -, -, log, mem⟩ :=
    complete _ _ (delivers_goodMirror "i386" "i386" (some betaDisc))
  obtain ⟨w₁, first, none_passed⟩ := firstOffer_betaDisc "i386" "i386" [goodMirror]
  rw [finishes_iff, first] at finishes
  obtain rfl : w₁ = w' := by simpa using finishes
  rw [none_passed] at log
  have empty : passed = [] := (List.append_eq_nil_iff.1 log.symm).1
  exact List.not_mem_nil (empty ▸ mem)

end Ydfs.Wubi.Backend
