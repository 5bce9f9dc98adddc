import Ydfs.Wubi.CheckIso

/-!
# What the sources of `get_iso` offer

An abstract account of `get_iso`, without tasks: each source makes an offer in the world that the
sources before it have left, and the first offer that is not passed over decides.  The scripts of
the sources and of `get_iso` itself do what their offers say (`live_getIso`).
-/

namespace Ydfs.Wubi.Backend

open TaskList
open Script (live)

variable {δ : Type}

/-- What a source offers: nothing, or an ISO that fails `check_iso` (`passedOver`); an ISO that
passes it (`good`); a CD that fails it and is taken nevertheless (`preRelease`); or an exception,
which ends the installation (`raised`). -/
inductive Offer (δ : Type) where
  | passedOver (w : World δ)
  | good (w : World δ)
  | preRelease (w : World δ)
  | raised

/-- A source of the ISO. -/
abbrev Source (δ : Type) := World δ → Offer δ

/-- What the script of a source gives. -/
def Offer.result : Offer δ → Option (Bool × Bool × World δ)
  | passedOver w => some (false, true, w)
  | good w => some (true, true, w)
  | preRelease w => some (true, true, w)
  | raised => none

/-- The first source that is not passed over. -/
def firstOffer : List (Source δ) → Source δ
  | [], w => .passedOver w
  | s :: ss, w => match s w with
    | .passedOver w => firstOffer ss w
    | offer => offer

variable [DecidableEq δ] (env : Env δ)

/-- An ISO that `copy_iso` copies once it has passed `check_iso`. -/
def isoOffer (path : Path) : Source δ := fun w =>
  let dest := installationIso env w
  match verdict env path w with
  | none => .raised
  | some (false, w) => .passedOver w
  | some (true, w) =>
    match (if env.dirname path = dest then moved else copied) env path dest w.media with
    | none => .raised
    | some media =>
      .good { w with media, info := { w.info with cdPath := none, isoPath := some dest } }

/-- The pre-specified ISO. -/
def prespecifiedOffer : Source δ := fun w =>
  match w.info.isoPath.filter w.media.has with
  | none => .passedOver w
  | some path => match w.choice.distro with
    | none => .raised
    | some d =>
      let (valid, caches) :=
        (env.distro d).isValidIso env.diskInfoRe w.media path w.settings.checkArch w.choice.caches
      let cdPath := if valid then none else w.info.cdPath
      isoOffer env path
        { w with choice := { w.choice with caches }, info := { w.info with cdPath } }

/-- The CD. -/
def cdOffer : Source δ := fun w =>
  match w.cdPath with
  | none => .passedOver w
  | some cd =>
    let dest := installationIso env w
    match copied env cd dest w.media with
    | none => .raised
    | some media =>
      let info := { w.info with isoPath := some dest, cdPath := some cd }
      match verdict env dest { w with media, info } with
      | none => .raised
      | some (true, w) => .good w
      | some (false, w) => match (cdSubversion env cd).live true w with
        | none => .raised
        | some (subversion, _, w) =>
          if isPreRelease subversion then .preRelease w
          else .passedOver { w with info := { w.info with cdPath := none, isoPath := none } }

/-- The local ISO. -/
def localIsoOffer : Source δ := fun w =>
  match w.isoPath with
  | none => .passedOver w
  | some path => isoOffer env path w

/-- A mirror. -/
def mirrorOffer (saveAs : Path) (url : MetalinkUrl) : Source δ := fun w =>
  if url.type = "bittorrent" ∧ w.settings.noBittorrent then .passedOver w
  else
    let media := w.media.set saveAs none
    let choice := { w.choice with downloads := w.choice.downloads + 1 }
    match env.fetch url.url w.choice.downloads with
    | none => if url.type = "bittorrent" then .passedOver { w with media, choice } else .raised
    | some iso =>
      match verdict env saveAs { w with media := media.set saveAs (some iso), choice } with
      | none => .raised
      | some (true, w) => .good { w with info := { w.info with isoPath := some saveAs } }
      | some (false, w) => .passedOver { w with media := w.media.set saveAs none }

/-- The mirrors of a metalink, in the order in which they are tried. -/
def mirrors (metalink : Metalink) (w : World δ) : List (Source δ) :=
  match metalink.files with
  | [] => []
  | file :: _ => ((selectMirrors w.settings.country file.urls).take 5).map
      (mirrorOffer env (env.joinPath w.settings.installDir file.name))

/-- The download. -/
def downloadOffer : Source δ := fun w =>
  match (requireMetalink env).live true w.choice with
  | none => .raised
  | some (none, _, _) => .raised
  | some (some metalink, _, choice) =>
    let w := { w with choice, info := { w.info with cdPath := none } }
    if metalink.files = [] then .raised else firstOffer (mirrors env metalink w) w

/-- The sources of `get_iso`. -/
def sources : List (Source δ) :=
  [prespecifiedOffer env, cdOffer env, localIsoOffer env, downloadOffer env]

/-! ## The scripts do what the offers say -/

variable {env} {w : World δ}

open Script (live_bind live_call live_world live_modify live_pure live_raise live_finish live_state)

omit [DecidableEq δ] in
theorem live_copyFile (source dest : Path) :
    (copyFile env source dest).live true w =
      (copied env source dest w.media).map fun media => (none, false, { w with media }) := by
  unfold copyFile
  rw [live_bind, live_world, Option.bind_some]
  dsimp only
  cases copied env source dest w.media with
  | none => simp
  | some media => simp [live_bind]

omit [DecidableEq δ] in
theorem live_move (source dest : Path) :
    (move env source dest).live true w =
      (moved env source dest w.media).map fun media => (none, true, { w with media }) := by
  unfold move
  rw [live_bind, live_world, Option.bind_some]
  dsimp only
  cases moved env source dest w.media with
  | none => simp
  | some media => simp [live_bind]

/-- What follows a check only depends on the verdict. -/
theorem live_check (path : Path) (f : Bool → Fn δ Bool) :
    (Script.call true (checkIsoTask env path) >>= fun v => f (truthy v)).live true w =
      (verdict env path w).bind fun (answer, w) => (f answer).live true w := by
  rw [live_bind, live_call, verdict]
  cases (checkIsoTask env path).live true w with
  | none => rfl
  | some o => rfl

theorem live_copyIso (path : Path) :
    (copyIso env path).live true w = (isoOffer env path w).result := by
  unfold copyIso isoOffer
  rw [live_bind, live_world, Option.bind_some]
  dsimp only
  rw [live_check path fun answer => if answer then _ else _]
  cases verdict env path w with
  | none => rfl
  | some o =>
    obtain ⟨answer, w'⟩ := o
    cases answer with
    | false => rfl
    | true =>
      by_cases hd : env.dirname path = installationIso env w
      · simp only [hd, if_true, Option.bind_some, live_bind, live_call, live_move]
        cases moved env path (installationIso env w) w'.media <;> rfl
      · simp only [hd, if_true, if_false, Option.bind_some, live_bind, live_call, live_copyFile]
        cases copied env path (installationIso env w) w'.media <;> rfl

omit [DecidableEq δ] in
theorem live_distro (own : Bool) (c : Choice δ) :
    (distro : ChoiceFn δ δ).live own c = c.distro.map fun d => (d, own, c) := by
  unfold distro
  rw [live_bind, live_world, Option.bind_some]
  dsimp only
  cases c.distro <;> rfl

omit [DecidableEq δ] in
theorem live_isValidIsoTask (d : δ) (path : Path) (checkArch : Bool) :
    (isValidIsoTask env d path checkArch).live true w =
      let (valid, caches) :=
        (env.distro d).isValidIso env.diskInfoRe w.media path checkArch w.choice.caches
      some (some (.bool valid), true, { w with choice := { w.choice with caches } }) := rfl

theorem live_getPrespecifiedIso :
    (getPrespecifiedIso env).live true w = (prespecifiedOffer env w).result := by
  unfold getPrespecifiedIso prespecifiedOffer
  rw [live_bind, live_world, Option.bind_some]
  dsimp only
  cases w.info.isoPath.filter w.media.has with
  | none => rfl
  | some path =>
    dsimp only
    rw [live_bind, live_choose, live_distro]
    cases hd : w.choice.distro with
    | none => rfl
    | some d =>
      simp only [Option.map_some, Option.bind_some, live_bind, live_call, live_isValidIsoTask]
      rw [← hd]
      cases ((env.distro d).isValidIso env.diskInfoRe w.media path w.settings.checkArch
        w.choice.caches).1 with
      | false => exact live_copyIso path
      | true =>
        simp only [truthy, if_true, live_bind, live_modify, Option.bind_some]
        exact live_copyIso path

theorem live_useIso : (useIso env).live true w = (localIsoOffer env w).result := by
  unfold useIso localIsoOffer
  rw [live_bind, live_world, Option.bind_some]
  dsimp only
  cases w.isoPath with
  | none => rfl
  | some path => exact live_copyIso path

omit [DecidableEq δ] in
theorem plain_cdSubversion (cd : Path) : Script.Plain (cdSubversion env cd) :=
  .bind .world fun w => by
    split
    · exact .raise _
    · refine .bind (plain_choose fun _ _ => plain_onCaches _) fun info => ?_
      split
      · exact .raise _
      · split
        · exact .raise _
        · exact .pure _

theorem live_useCd : (useCd env).live true w = (cdOffer env w).result := by
  unfold useCd cdOffer
  rw [live_bind, live_world, Option.bind_some]
  dsimp only
  cases hcd : w.cdPath with
  | none => rfl
  | some cd =>
    dsimp only
    rw [live_bind, live_modify, Option.bind_some]
    dsimp only
    rw [live_bind, live_call, live_copyFile]
    dsimp only
    cases copied env cd (installationIso env w) w.media with
    | none => rfl
    | some media =>
      dsimp only [Option.map_some, Option.bind_some]
      rw [live_bind, live_modify, Option.bind_some]
      dsimp only
      rw [live_check _ fun answer => if answer then _ else _]
      dsimp only
      rw [← hcd]
      cases verdict env (installationIso env w) { w with
          info := { w.info with isoPath := some (installationIso env w), cdPath := w.cdPath }
          media := media } with
      | none => rfl
      | some o =>
        obtain ⟨answer, w'⟩ := o
        cases answer with
        | true => rfl
        | false =>
          simp only [Option.bind_some, Bool.false_eq_true, if_false, live_bind]
          cases hs : (cdSubversion env cd).live true w' with
          | none => rfl
          | some o =>
            obtain ⟨subversion, own, w''⟩ := o
            cases (plain_cdSubversion cd).own_live hs
            dsimp only [Option.bind_some]
            by_cases hp : isPreRelease subversion
            · simp only [hp, if_true]
              rfl
            · simp only [hp]
              rfl

omit [DecidableEq δ] in
/-- What follows a source in `get_iso` only depends on its offer. -/
theorem live_orElse {p q : Fn δ Bool} {s : Source δ} {ss : List (Source δ)}
    (hp : p.live true w = (s w).result)
    (hq : ∀ w, q.live true w = (firstOffer ss w).result) :
    (orElse p q).live true w = (firstOffer (s :: ss) w).result := by
  unfold orElse firstOffer
  rw [live_bind, hp]
  cases s w with
  | passedOver w' => exact hq w'
  | good w' => rfl
  | preRelease w' => rfl
  | raised => rfl

omit [DecidableEq δ] in
theorem live_download (isRequired : Bool) (url : String) (saveAs : Path) :
    (Script.call isRequired (downloadTask env url saveAs)).live true w =
      let choice := { w.choice with downloads := w.choice.downloads + 1 }
      match env.fetch url w.choice.downloads with
      | none => if isRequired then none else some (none, true, { w with choice })
      | some iso => some (some (.path saveAs), true,
          { w with media := w.media.set saveAs (some iso), choice }) := by
  cases hf : env.fetch url w.choice.downloads with
  | none =>
    have raised : (downloadTask env url saveAs).eval {} w = ⟨.error (.download url), {},
        { w with choice := { w.choice with downloads := w.choice.downloads + 1 } }⟩ := by
      unfold downloadTask
      rw [Script.eval_bind, eval_choose]
      simp only [download, Script.state, Script.eval, hf]
    cases isRequired with
    | false => exact Script.live_call_raised raised
    | true =>
      rw [live_call]
      unfold live
      rw [raised]
      rfl
  | some iso =>
    have returns : (downloadTask env url saveAs).live true w = some (some (.path saveAs), false,
        { w with
          media := w.media.set saveAs (some iso)
          choice := { w.choice with downloads := w.choice.downloads + 1 } }) := by
      unfold downloadTask
      simp only [live_bind, live_choose, download, live_state, Option.map_some, Option.bind_some, hf,
        live_modify, live_finish, live_pure]
    cases isRequired with
    | false => exact Script.live_call_optional returns
    | true => rw [live_call, returns]; rfl

theorem live_tryMirrors (saveAs : Path) (urls : List MetalinkUrl) (w : World δ) :
    (tryMirrors env saveAs urls).live true w =
      (firstOffer (urls.map (mirrorOffer env saveAs)) w).result := by
  induction urls generalizing w with
  | nil => rfl
  | cons url urls ih =>
    unfold tryMirrors
    rw [List.map_cons, firstOffer]
    unfold mirrorOffer
    rw [live_bind, live_world, Option.bind_some]
    dsimp only
    by_cases skip : url.type = "bittorrent" ∧ w.settings.noBittorrent = true
    · rw [if_pos skip, if_pos skip]
      exact ih w
    · rw [if_neg skip, if_neg skip, live_bind, live_modify, Option.bind_some]
      dsimp only
      rw [live_bind, live_download]
      dsimp only
      cases env.fetch url.url w.choice.downloads with
      | none =>
        by_cases torrent : url.type = "bittorrent"
        · simp only [torrent, ne_eq, not_true_eq_false, decide_false, Bool.false_eq_true, if_false,
            if_true, Option.bind_some]
          exact ih _
        · simp only [torrent, ne_eq, not_false_eq_true, decide_true, if_false, if_true]
          rfl
      | some iso =>
        dsimp only [Option.bind_some]
        rw [live_check saveAs fun answer => if answer then _ else _]
        dsimp only
        cases verdict env saveAs { w with
            media := (w.media.set saveAs none).set saveAs (some iso)
            choice := { w.choice with downloads := w.choice.downloads + 1 } } with
        | none => rfl
        | some o =>
          obtain ⟨answer, w'⟩ := o
          cases answer with
          | true => rfl
          | false =>
            simp only [Option.bind_some, Bool.false_eq_true, if_false]
            rw [live_bind, live_modify, Option.bind_some]
            exact ih _

theorem own_requireMetalink {metalink : Metalink} {own : Bool} {c c' : Choice δ}
    (h : (requireMetalink env).live true c = some (some metalink, own, c')) : own = true := by
  rw [Script.live_eq_some] at h
  have tree := tree_requireMetalink (congrArg Outcome.result h)
  rw [h] at tree
  exact congrArg TreeView.own tree

theorem live_downloadIso : (downloadIso env).live true w = (downloadOffer env w).result := by
  unfold downloadIso downloadOffer
  rw [live_bind, live_modify, Option.bind_some]
  dsimp only
  rw [live_bind, live_choose]
  dsimp only
  cases hm : (requireMetalink env).live true w.choice with
  | none => rfl
  | some o =>
    obtain ⟨_ | metalink, own, choice⟩ := o
    · rfl
    · cases own_requireMetalink hm
      dsimp only [Option.map_some, Option.bind_some]
      cases hf : metalink.files with
      | nil => rfl
      | cons file files =>
        simp only [live_bind, live_world, Option.bind_some, mirrors, hf]
        exact live_tryMirrors _ _ _

theorem live_getIso : (getIso env).live true w =
    match firstOffer (sources env) w with
    | .good w => some (none, false, w)
    | .preRelease w => some (none, false, w)
    | _ => none := by
  have last : ∀ w, (downloadIso env).live true w = (firstOffer [downloadOffer env] w).result :=
    fun w => by
      rw [live_downloadIso, firstOffer]
      cases downloadOffer env w <;> rfl
  unfold getIso
  rw [live_bind, live_orElse live_getPrespecifiedIso fun _ => live_orElse live_useCd fun _ =>
    live_orElse live_useIso last]
  change (firstOffer (sources env) w).result.bind _ = _
  cases firstOffer (sources env) w <;> rfl

end Ydfs.Wubi.Backend
