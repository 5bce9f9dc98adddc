import Ydfs.TaskList.Live
import Ydfs.Wubi.GetIso

/-!
# What `check_iso` does

`check_iso` decides on a hash to compare with, for which it only uses the choice of the distro, the
settings and the media, and then compares it with the hash of the file.  The media, the log and the
paths in `info` stay as they are (`verdict_frame`).
-/

namespace Ydfs.Wubi.Backend

open TaskList
open Script (Keeps Plain live live_bind live_call live_world live_modify live_pure live_state
  eval_bind)

variable {δ : Type} {env : Env δ} {w w' : World δ} {path : Path}

theorem eval_choose {α : Type} (p : Settings → Media → ChoiceFn δ α) (tree : TreeView Error) :
    (choose p).eval tree w =
      let o := (p w.settings w.media).eval tree w.choice
      ⟨o.result, o.tree, { w with choice := o.world }⟩ :=
  Script.eval_zoom choosing (p w.settings w.media) tree w

theorem live_choose {α : Type} (p : Settings → Media → ChoiceFn δ α) (own : Bool) :
    (choose p).live own w = ((p w.settings w.media).live own w.choice).map
      fun (a, own', choice) => (a, own', { w with choice }) := by
  unfold choose
  rw [live_bind, live_world, Option.bind_some]
  exact Script.live_zoom choosing (p w.settings w.media) own w

theorem plain_choose {α : Type} {p : Settings → Media → ChoiceFn δ α}
    (h : ∀ settings m, Plain (p settings m)) : Plain (choose p) := by
  intro tree w
  rw [eval_choose]
  exact h _ _ tree _

/-! ## The hash to compare with -/

theorem plain_distro : Plain (distro : ChoiceFn δ δ) :=
  .bind .world fun w => by
    split
    · exact .pure _
    · exact .raise _

theorem plain_onCaches {α : Type} (f : Caches → α × Caches) :
    Plain (onCaches f : ChoiceFn δ α) := .state _

theorem plain_setDistroFromArch (settings : Settings) (m : Media) :
    Plain (setDistroFromArch env path settings m) := by
  unfold setDistroFromArch
  split_ifs
  · exact .pure _
  · refine .bind plain_distro fun d => .bind (plain_onCaches _) fun info => ?_
    split
    · exact .raise _
    · split_ifs
      · exact .pure _
      · exact .modify _

theorem plain_downloadMetalink (d : δ) : Plain (downloadMetalink env d) :=
  .bind (.state _) fun metalink => by
    split
    · exact .pure _
    · exact .state _

variable [DecidableEq δ]

theorem plain_getMetalink (env : Env δ) : Plain (getMetalink env) :=
  .bind plain_distro fun d => .bind (plain_downloadMetalink d) fun metalink => by
    split
    · exact .pure _
    · exact .raise _
    · exact .bind (.modify _) fun _ => .pure _

omit [DecidableEq δ] in
theorem eval_downloadMetalink (env : Env δ) (d : δ) (tree : TreeView Error) (c : Choice δ) :
    ∃ metalink downloads, (downloadMetalink env d).eval tree c =
      ⟨.ok metalink, tree, { c with downloads }⟩ := by
  cases h : env.fetchMetalink (env.distro d).metalinkUrl c.downloads with
  | some metalink =>
    refine ⟨some metalink, c.downloads + 1, ?_⟩
    unfold downloadMetalink
    rw [eval_bind]
    simp only [download, Script.state, Script.eval, h]
    rfl
  | none =>
    refine ⟨env.fetchMetalink (env.distro d).metalinkUrl2 (c.downloads + 1), c.downloads + 2, ?_⟩
    unfold downloadMetalink
    rw [eval_bind]
    simp only [download, Script.state, Script.eval, h]

omit [DecidableEq δ] in
theorem eval_distro (tree : TreeView Error) (c : Choice δ) :
    (distro : ChoiceFn δ δ).eval tree c =
      ⟨(c.distro.map Except.ok).getD (.error .attributeError), tree, c⟩ := by
  unfold distro
  rw [eval_bind]
  simp only [Script.world, Script.eval]
  cases c.distro <;> rfl

/-- `get_metalink` raises before it has a metalink. -/
theorem world_of_raised (env : Env δ) (c : Choice δ) {e : Error}
    (h : ((getMetalink env).eval {} c).result = .error e) :
    ∃ downloads, ((getMetalink env).eval {} c).world = { c with downloads } := by
  obtain ⟨_ | d, metalinks, caches, downloads⟩ := c
  · exact ⟨downloads, rfl⟩
  · unfold getMetalink at h ⊢
    obtain ⟨metalink, downloads', he⟩ :=
      eval_downloadMetalink env d {} ⟨some d, metalinks, caches, downloads⟩
    simp only [eval_bind, eval_distro, Option.map_some, Option.getD_some, he] at h ⊢
    match metalink with
    | none => cases h
    | some none => exact ⟨downloads', rfl⟩
    | some (some metalink) => cases h

/-- The root is not cancelled when there is a metalink in the end. -/
theorem tree_requireMetalink {c : Choice δ} {metalink : Metalink}
    (h : ((requireMetalink env).eval {} c).result = .ok (some metalink)) :
    ((requireMetalink env).eval {} c).tree = {} := by
  obtain ⟨_ | d, metalinks, caches, downloads⟩ := c
  · rfl
  · unfold requireMetalink at h ⊢
    simp only [eval_bind, eval_distro, Script.world, Script.eval, Option.map_some,
      Option.getD_some] at h ⊢
    cases hm : metalinks d with
    | some metalink => rfl
    | none =>
      simp only [hm, eval_bind, Script.eval_call, Script.eval] at h ⊢
      have plain := plain_getMetalink env {} ⟨some d, metalinks, caches, downloads⟩
      have raised := fun e => world_of_raised env ⟨some d, metalinks, caches, downloads⟩ (e := e)
      generalize (getMetalink env).eval {} ⟨some d, metalinks, caches, downloads⟩ = o
        at h plain raised ⊢
      obtain ⟨e | v, tree, c⟩ := o
      · obtain ⟨downloads', rfl⟩ := raised e rfl
        simp only [eval_distro, Option.map_some, Option.getD_some, hm] at h
        cases h
      · cases plain
        simp only [eval_distro]
        cases c.distro <;> rfl

/-- The root is not cancelled when `check_iso` has a hash to compare with. -/
theorem tree_expectedHash {settings : Settings} {m : Media} {c : Choice δ} {hash : MetalinkHash}
    (h : ((expectedHash env path settings m).eval {} c).result = .ok (.inr hash)) :
    ((expectedHash env path settings m).eval {} c).tree = {} := by
  unfold expectedHash at h ⊢
  obtain ⟨d, -, same⟩ := Script.eval_bind_ok h
  rw [same, plain_distro] at h ⊢
  obtain ⟨valid, -, same⟩ := Script.eval_bind_ok h
  rw [same, plain_onCaches] at h ⊢
  cases valid with
  | false => cases h
  | true =>
    simp only [if_true] at h ⊢
    obtain ⟨-, -, same⟩ := Script.eval_bind_ok h
    rw [same, plain_setDistroFromArch] at h ⊢
    by_cases skip : settings.skipMd5Check = true
    · rw [if_pos skip] at h
      cases h
    · rw [if_neg skip] at h ⊢
      obtain ⟨metalink, hm, same⟩ := Script.eval_bind_ok h
      rw [same] at h ⊢
      cases metalink with
      | none => cases h
      | some metalink =>
        rw [tree_requireMetalink hm] at h ⊢
        dsimp only at h ⊢
        cases hf : metalink.files with
        | nil =>
          rw [hf] at h
          cases h
        | cons file files =>
          dsimp only
          split <;> rfl

/-- The way through `check_iso` of a valid ISO when the architecture is checked elsewhere. -/
theorem eval_expectedHash {settings : Settings} {m : Media} {c : Choice δ} {d : δ}
    (hd : c.distro = some d) (arch : settings.checkArch = true)
    (valid : ((env.distro d).isValidIso env.diskInfoRe m path false c.caches).1 = true) :
    (expectedHash env path settings m).eval {} c =
      Script.eval (if settings.skipMd5Check then pure (.inl true)
        else do
          match ← requireMetalink env with
          | none => pure (.inl true)
          | some metalink => match metalink.files with
            | [] => .raise .indexError
            | file :: _ => match knownHash file.hashes with
              | none => pure (.inl true)
              | some hash => pure (.inr hash)) {}
        { c with caches := ((env.distro d).isValidIso env.diskInfoRe m path false c.caches).2 } := by
  obtain ⟨_, metalinks, caches, downloads⟩ := c
  cases hd
  unfold expectedHash setDistroFromArch
  rw [eval_bind, eval_distro]
  dsimp only [Option.map_some, Option.getD_some]
  rw [eval_bind]
  simp only [onCaches, Script.state, Script.eval, valid, if_true, arch]
  rfl

/-! ## The comparison -/

/-- The hash of the file at a path. -/
def digestOf (m : Media) (path : Path) (type : String) : Option String :=
  (m.file path).map fun iso => iso.digest type

omit [DecidableEq δ] in
/-- The hash of a path is taken from the cache, or else from the file and cached. -/
theorem live_compareHash (path : Path) (hash : MetalinkHash) (w : World δ) :
    (compareHash path hash).live true w =
      match w.isoMd5Hashes path with
      | some hashsum => some (hash.hash = hashsum, true, w)
      | none =>
        let hashsum := digestOf w.media path hash.type
        some (some hash.hash = hashsum, true, remember path hashsum w) := by
  unfold compareHash digestOf
  rw [live_bind, live_world, Option.bind_some]
  dsimp only
  cases w.isoMd5Hashes path with
  | some hashsum => rfl
  | none =>
    dsimp only
    rw [live_bind, live_call]
    unfold getFileHash
    rw [live_bind, live_world, Option.bind_some]
    dsimp only
    cases w.media.file path <;> rfl

/-! ## The answer -/

/-- The answer of `check_iso`, unless it raises. -/
def verdict (env : Env δ) (path : Path) (w : World δ) : Option (Bool × World δ) :=
  ((checkIsoTask env path).live true w).map fun (answer, _, w) => (truthy answer, w)

theorem live_checkIso (env : Env δ) (path : Path) (w : World δ) :
    (checkIso env path).live true w =
      ((expectedHash env path w.settings w.media).live true w.choice).bind fun
        | (.inl answer, own, choice) => some (answer, own, { w with choice })
        | (.inr hash, _, choice) => (compareHash path hash).live true { w with choice } := by
  unfold checkIso
  rw [live_bind, live_choose]
  cases h : (expectedHash env path w.settings w.media).live true w.choice with
  | none => rfl
  | some o =>
    obtain ⟨answer | hash, own, choice⟩ := o
    · rfl
    · have tree := tree_expectedHash (congrArg Outcome.result (Script.live_eq_some.1 h))
      rw [Script.live_eq_some.1 h] at tree
      obtain rfl : own = true := congrArg TreeView.own tree
      rfl

omit [DecidableEq δ] in
theorem remember_eq (path : Path) (hashsum : Option String) (w : World δ) :
    ∃ isoMd5Hashes, remember path hashsum w = { w with isoMd5Hashes } := by
  unfold remember
  split_ifs
  · exact ⟨w.isoMd5Hashes, rfl⟩
  · exact ⟨_, rfl⟩

omit [DecidableEq δ] in
theorem keeps_choice_compareHash (path : Path) (hash : MetalinkHash) :
    Keeps World.choice (compareHash path hash : Fn δ Bool) := by
  have file_hash : Keeps World.choice (getFileHash path hash.type : Fn δ (Option Value)) :=
    .bind .world fun w => by
      split
      · exact .pure _
      · exact .finish (.pure _)
  have remembers : ∀ hashsum (w : World δ), (remember path hashsum w).choice = w.choice :=
    fun hashsum w => by
      obtain ⟨hashes, same⟩ := remember_eq path hashsum w
      rw [same]
  refine .bind .world fun w => ?_
  split
  · exact .pure _
  · exact .bind (.call true file_hash) fun _ => .bind (.modify (remembers _)) fun _ => .pure _

theorem checkIso_frame {answer own : Bool}
    (h : (checkIso env path).live true w = some (answer, own, w')) :
    ∃ choice isoMd5Hashes, w' = { w with choice, isoMd5Hashes } := by
  rw [live_checkIso] at h
  cases he : (expectedHash env path w.settings w.media).live true w.choice with
  | none => simp [he] at h
  | some o =>
    obtain ⟨answer' | hash, own', choice⟩ := o
    · simp only [he, Option.bind_some, Option.some.injEq, Prod.mk.injEq] at h
      exact ⟨choice, w.isoMd5Hashes, h.2.2.symm⟩
    · simp only [he, Option.bind_some, live_compareHash] at h
      cases hm : w.isoMd5Hashes path with
      | some hashsum =>
        simp only [hm, Option.some.injEq, Prod.mk.injEq] at h
        exact ⟨choice, w.isoMd5Hashes, h.2.2.symm⟩
      | none =>
        simp only [hm, Option.some.injEq, Prod.mk.injEq] at h
        obtain ⟨hashes, eq⟩ := remember_eq path (digestOf w.media path hash.type) { w with choice }
        exact ⟨choice, hashes, h.2.2.symm.trans eq⟩

/-- An ISO that passes `check_iso` is a file. -/
theorem file_of_checkIso {own : Bool}
    (h : (checkIso env path).live true w = some (true, own, w')) : (w.media.file path).isSome := by
  by_contra missing
  rw [Option.not_isSome_iff_eq_none] at missing
  rw [live_checkIso] at h
  have rejected : ∀ d : δ, ∀ c, (env.distro d).isValidIso env.diskInfoRe w.media path false c =
      (false, c) := fun d c => by simp [Distro.isValidIso, missing]
  unfold expectedHash distro at h
  simp only [live_bind, live_world, Option.bind_some] at h
  cases hd : w.choice.distro with
  | none => simp [hd] at h
  | some d => simp [hd, onCaches, rejected] at h

/-- `check_iso` as a task only touches the choice of the distro, the hashes and the log. -/
theorem verdict_frame {answer : Bool} (h : verdict env path w = some (answer, w')) :
    ∃ choice isoMd5Hashes, w' = { w with
      choice, isoMd5Hashes
      passed := (if answer then (w.media.file path).toList else []) ++ w.passed } := by
  unfold verdict checkIsoTask at h
  rw [live_bind] at h
  cases hc : (checkIso env path).live true w with
  | none => simp [hc] at h
  | some o =>
    obtain ⟨answer', own, w₁⟩ := o
    obtain ⟨choice, hashes, rfl⟩ := checkIso_frame hc
    simp only [hc, Option.bind_some, live_bind, live_modify, live_pure, Option.map_some,
      Option.some.injEq, Prod.mk.injEq, truthy] at h
    obtain ⟨rfl, rfl⟩ := h
    refine ⟨choice, hashes, ?_⟩
    cases answer' <;> rfl

theorem file_of_verdict (h : verdict env path w = some (true, w')) :
    (w.media.file path).isSome := by
  unfold verdict checkIsoTask at h
  rw [live_bind] at h
  cases hc : (checkIso env path).live true w with
  | none => simp [hc] at h
  | some o =>
    obtain ⟨answer, own, w₁⟩ := o
    simp only [hc, Option.bind_some, live_bind, live_modify, live_pure, Option.map_some,
      Option.some.injEq, Prod.mk.injEq, truthy] at h
    obtain ⟨rfl, -⟩ := h
    exact file_of_checkIso hc

/-! ## The selected distro -/

section Keeping

variable {τ : Type} {f : Choice δ → τ}

omit [DecidableEq δ] in
theorem keeps_distro : Keeps f (distro : ChoiceFn δ δ) :=
  .bind .world fun w => by
    split
    · exact .pure _
    · exact .raise _

/-- A metalink and the downloads for it are all that changes. -/
theorem keeps_getMetalink (env : Env δ)
    (h : ∀ c metalink downloads, f { c with metalink, downloads } = f c) :
    Keeps f (getMetalink env) := by
  have downloads : ∀ c : Choice δ, f { c with downloads := c.downloads + 1 } = f c :=
    fun c => h c c.metalink _
  have metalink : ∀ d, Keeps f (downloadMetalink env d) := fun d =>
    .bind (.state downloads) fun metalink => by
      split
      · exact .pure _
      · exact .state downloads
  refine .bind keeps_distro fun d => .bind (metalink d) fun metalink => ?_
  split
  · exact .pure _
  · exact .raise _
  · exact .bind (.modify fun c => h c _ c.downloads) fun _ => .pure _

theorem keeps_requireMetalink (env : Env δ)
    (h : ∀ c metalink downloads, f { c with metalink, downloads } = f c) :
    Keeps f (requireMetalink env) := by
  refine .bind .world fun w => .bind keeps_distro fun d => ?_
  split
  · exact .pure _
  · exact .bind (.call true (keeps_getMetalink env h)) fun _ =>
      .bind .world fun _ => .bind keeps_distro fun _ => .pure _

end Keeping

/-- With `check_arch` the selected distro stays selected. -/
theorem keeps_distro_expectedHash {settings : Settings} (arch : settings.checkArch = true)
    (m : Media) : Keeps Choice.distro (expectedHash env path settings m) := by
  have same : setDistroFromArch env path settings m = pure () := if_pos arch
  unfold expectedHash
  rw [same]
  refine .bind keeps_distro fun d => .bind (.state fun _ => rfl) fun valid => ?_
  split
  · refine .bind (.pure ()) fun _ => ?_
    split
    · exact .pure _
    · refine .bind (keeps_requireMetalink env fun _ _ _ => rfl) fun metalink => ?_
      split
      · exact .pure _
      · split
        · exact .raise _
        · split <;> exact .pure _
  · exact .pure _

theorem distro_checkIso {answer own : Bool} (arch : w.settings.checkArch = true)
    (h : (checkIso env path).live true w = some (answer, own, w')) :
    w'.choice.distro = w.choice.distro := by
  rw [live_checkIso] at h
  cases he : (expectedHash env path w.settings w.media).live true w.choice with
  | none => simp [he] at h
  | some o =>
    obtain ⟨answer' | hash, own', choice⟩ := o
    · have keeps := (keeps_distro_expectedHash arch w.media).live he
      simp only [he, Option.bind_some, Option.some.injEq, Prod.mk.injEq] at h
      exact h.2.2 ▸ keeps
    · have keeps := (keeps_distro_expectedHash arch w.media).live he
      simp only [he, Option.bind_some] at h
      exact ((keeps_choice_compareHash path hash).live h).symm ▸ keeps

/-- With `check_arch` a check does not select another distro. -/
theorem distro_verdict {answer : Bool} (h : verdict env path w = some (answer, w'))
    (arch : w.settings.checkArch = true) : w'.choice.distro = w.choice.distro := by
  unfold verdict checkIsoTask at h
  rw [live_bind] at h
  cases hc : (checkIso env path).live true w with
  | none => simp [hc] at h
  | some o =>
    obtain ⟨answer', own, w₁⟩ := o
    simp only [hc, Option.bind_some, live_bind, live_modify, live_pure, Option.map_some,
      Option.some.injEq, Prod.mk.injEq] at h
    rw [← h.2, ← distro_checkIso arch hc]
    split_ifs <;> rfl

/-! ## What the check of an ISO needs -/

/-- A metalink that the distro has is not downloaded again. -/
theorem live_requireMetalink_known {c : Choice δ} {d : δ} {metalink : Metalink}
    (hd : c.distro = some d) (hm : c.metalink d = some metalink) :
    (requireMetalink env).live true c = some (some metalink, true, c) := by
  rw [Script.live_eq_some]
  simp only [requireMetalink, eval_bind, eval_distro, hd, Script.world, Script.eval,
    Option.map_some, Option.getD_some, hm]
  rfl

/-- The download of a metalink. -/
theorem live_requireMetalink_fetched {c : Choice δ} {d : δ} {metalink : Metalink}
    (hd : c.distro = some d) (hm : c.metalink d = none)
    (hf : env.fetchMetalink (env.distro d).metalinkUrl c.downloads = some (some metalink)) :
    (requireMetalink env).live true c = some (some metalink, true, { c with
      metalink := Function.update c.metalink d (some metalink)
      downloads := c.downloads + 1 }) := by
  obtain ⟨_, metalinks, caches, downloads⟩ := c
  cases hd
  change metalinks d = none at hm
  have fetched : (getMetalink env).live true ⟨some d, metalinks, caches, downloads⟩ =
      some (none, true, ⟨some d, Function.update metalinks d (some metalink), caches,
        downloads + 1⟩) := by
    rw [Script.live_eq_some]
    simp only [getMetalink, downloadMetalink, download, eval_bind, eval_distro, Script.state,
      Script.modify, Script.eval, Option.map_some, Option.getD_some, hf]
    rfl
  have known : ∀ c' : Choice δ, c'.distro = some d →
      (distro : ChoiceFn δ δ).live true c' = some (d, true, c') := fun c' h => by
    rw [Script.live_eq_some, eval_distro, h]
    rfl
  unfold requireMetalink
  simp only [live_bind, live_world, known, Option.bind_some, hm, live_call, fetched,
    Option.map_some, live_pure, Function.update_self]

/-- An ISO is good as soon as it is valid when its hash is not to be checked. -/
theorem verdict_of_skip {d : δ} (hd : w.choice.distro = some d)
    (arch : w.settings.checkArch = true) (skip : w.settings.skipMd5Check = true)
    (valid : ((env.distro d).isValidIso env.diskInfoRe w.media path false w.choice.caches).1 =
      true) :
    ∃ w', verdict env path w = some (true, w') := by
  have expected : (expectedHash env path w.settings w.media).live true w.choice =
      some (.inl true, true, { w.choice with caches :=
        ((env.distro d).isValidIso env.diskInfoRe w.media path false w.choice.caches).2 }) := by
    rw [Script.live_eq_some, eval_expectedHash hd arch valid, if_pos skip]
    rfl
  have checked := live_checkIso env path w
  rw [expected] at checked
  unfold verdict checkIsoTask
  rw [live_bind, checked]
  exact ⟨_, rfl⟩

/-- The hash of a valid ISO is compared with the one of the metalink. -/
theorem verdict_of_hash {d : δ} {metalink : Metalink} {file : MetalinkFile}
    {files : List MetalinkFile} {hash : MetalinkHash} {digest : String} {choice : Choice δ}
    (hd : w.choice.distro = some d) (arch : w.settings.checkArch = true)
    (skip : w.settings.skipMd5Check = false)
    (valid : ((env.distro d).isValidIso env.diskInfoRe w.media path false w.choice.caches).1 = true)
    (hm : (requireMetalink env).live true { w.choice with caches :=
        ((env.distro d).isValidIso env.diskInfoRe w.media path false w.choice.caches).2 } =
      some (some metalink, true, choice))
    (hf : metalink.files = file :: files) (hk : knownHash file.hashes = some hash)
    (hc : w.isoMd5Hashes path = none) (hg : digestOf w.media path hash.type = some digest) :
    ∃ w', verdict env path w = some (decide (hash.hash = digest), w') ∧ w'.choice = choice := by
  have expected : (expectedHash env path w.settings w.media).live true w.choice =
      some (.inr hash, true, choice) := by
    rw [Script.live_eq_some, eval_expectedHash hd arch valid, skip]
    simp only [Bool.false_eq_true, if_false, eval_bind, Script.live_eq_some.1 hm, hf, hk]
    rfl
  have compared := live_compareHash path hash { w with choice := choice }
  simp only [hc, hg, Option.some.injEq] at compared
  have checked := live_checkIso env path w
  rw [expected, Option.bind_some] at checked
  dsimp only at checked
  rw [compared] at checked
  unfold verdict checkIsoTask
  rw [live_bind, checked]
  refine ⟨_, rfl, ?_⟩
  obtain ⟨hashes, same⟩ := remember_eq path (some digest) { w with choice := choice }
  simp only [same]
  split_ifs <;> rfl

/-! ## A sample -/

/-- A distro of an architecture. -/
def sampleDistro (arch : String) : Distro where
  name := "LinuxConsole"
  version := ""
  arch := arch
  kernel := "boot\\vmlinuz"
  initrd := "boot\\initrd.gz"
  infoFile := ".disk\\info"
  md5sums := "md5sum.txt"
  filesToCheck := []
  metalinkUrl := ""
  metalinkUrl2 := ""

/-- An ISO that lists the files of the sample distro. -/
def sampleIso : Iso where
  names := (sampleDistro "").requiredFiles
  text _ := some "LinuxConsole"
  digest type := if type = "md5" then "d41d8cd9" else "da39a3ee"
  digest_ne type := by split_ifs <;> decide

/-- The sample distro takes any name and any version. -/
theorem checkInfo_sample {re : String → Option DiskInfo} {arch : String} {checkArch : Bool}
    (same : checkArch = true → ∀ info, re "LinuxConsole" = some info → arch ≠ "" →
      info.arch = arch) :
    (sampleDistro arch).checkInfo ((sampleDistro arch).parseIsoinfo re "LinuxConsole") checkArch =
      true := by
  unfold Distro.parseIsoinfo
  rw [if_neg (by decide)]
  cases hr : re "LinuxConsole" with
  | none => simp [Distro.checkInfo, sampleDistro]
  | some info =>
    have agrees : ¬ (checkArch = true ∧ (sampleDistro arch).arch ≠ "" ∧
        info.arch ≠ (sampleDistro arch).arch) := fun ⟨hc, ha, hne⟩ => hne (same hc info hr ha)
    unfold Distro.checkInfo
    dsimp only
    rw [if_neg (by simp [sampleDistro]), if_neg (by simp [sampleDistro]), if_neg agrees]

omit [DecidableEq δ] in
/-- The sample is valid when nothing is cached about it, whatever its hash. -/
theorem valid_sample {re : String → Option DiskInfo} {m : Media} {c : Caches} {iso : Iso}
    {arch : String} {checkArch : Bool} (file : m.file path = some iso)
    (listed : iso.names = sampleIso.names) (text : iso.text = sampleIso.text)
    (names : c.names path = none)
    (info : c.info (path, (sampleDistro arch).infoFile) = none)
    (same : checkArch = true → ∀ info, re "LinuxConsole" = some info → arch ≠ "" →
      info.arch = arch) :
    ((sampleDistro arch).isValidIso re m path checkArch c).1 = true := by
  have required : ∀ f ∈ (sampleDistro arch).requiredFiles,
      canonical f ∈ sampleIso.names.map canonical := fun f hf => List.mem_map_of_mem hf
  have named : Distro.getIsoFileNames m path c = (sampleIso.names,
      { c with names := Function.update c.names path (some (some sampleIso.names)) }) := by
    unfold Distro.getIsoFileNames
    rw [names, file, ← listed]
    simp only [Option.map_some, Option.getD_some]
    rw [if_neg (by rw [listed]; decide)]
  have read : m.text path (sampleDistro arch).infoFile = some "LinuxConsole" := by
    simp [Media.text, file, text, sampleIso]
  have found : ((sampleDistro arch).getInfo re m path
      { c with names := Function.update c.names path (some (some sampleIso.names)) }).1 =
      (sampleDistro arch).parseIsoinfo re "LinuxConsole" := by
    unfold Distro.getInfo
    simp only [info, read, Option.bind_some]
  unfold Distro.isValidIso
  rw [file, named]
  dsimp only
  rw [if_neg (by simp), if_neg (by decide), if_neg (by simpa using required), found]
  exact checkInfo_sample same

end Ydfs.Wubi.Backend
