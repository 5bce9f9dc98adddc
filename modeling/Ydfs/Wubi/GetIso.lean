import Ydfs.Wubi.Backend

/-!
# `get_iso`

The four sources of the ISO are tried in turn: a pre-specified ISO, the CD, a local ISO, and the
mirrors of the metalink.  Copies, checks and downloads are subtasks; all are required but the
downloads by BitTorrent.
-/

namespace Ydfs.Wubi.Backend

open TaskList
open Script (world modify call)

variable {δ : Type} [DecidableEq δ] (env : Env δ)

/-- The media after `copy_file` from a file or a drive to `dest`; `none` when it raises. -/
def copied (source dest : Path) (m : Media) : Option Media :=
  let content := match m.file source with
    | some iso => some iso
    | none => (m.disc source).bind Disc.image
  if env.copyRaises source then none
  else content.map fun iso => m.set dest (some iso)

/-- The media after `shutil.move`. -/
def moved (source dest : Path) (m : Media) : Option Media :=
  if env.copyRaises source then none
  else (m.file source).map fun iso => (m.set source none).set dest (some iso)

/-- `copy_file` as a task. -/
def copyFile (source dest : Path) : Fn δ (Option Value) := do
  match copied env source dest (← world).media with
  | none => .raise (.copy source)
  | some media => do
    modify fun w => { w with media }
    .finish (pure none)

/-- `shutil.move` as a task. -/
def move (source dest : Path) : Fn δ (Option Value) := do
  match moved env source dest (← world).media with
  | none => .raise (.copy source)
  | some media => do
    modify fun w => { w with media }
    pure none

/-- `is_valid_iso` of a distro as a task. -/
def isValidIsoTask (d : δ) (path : Path) (checkArch : Bool) : Fn δ (Option Value) := do
  let valid ← choose fun _ m =>
    onCaches ((env.distro d).isValidIso env.diskInfoRe m path checkArch)
  pure (some (.bool valid))

/-- The file that `get_iso` leaves in `install_dir`. -/
def installationIso (w : World δ) : Path := env.joinPath w.settings.installDir "installation.iso"

/-- `copy_iso`. -/
def copyIso (isoPath : Path) : Fn δ Bool := do
  let dest := installationIso env (← world)
  if truthy (← call true (checkIsoTask env isoPath)) then
    let _ ← call true (if env.dirname isoPath = dest then move env isoPath dest
      else copyFile env isoPath dest)
    modify fun w => { w with info := { w.info with cdPath := none, isoPath := some dest } }
    pure true
  else pure false

/-- `get_prespecified_iso`.  Whether the ISO is valid for the distro only decides about the CD. -/
def getPrespecifiedIso : Fn δ Bool := do
  let w ← world
  match w.info.isoPath.filter w.media.has with
  | none => pure false
  | some isoPath => do
    let d ← choose fun _ _ => distro
    if truthy (← call true (isValidIsoTask env d isoPath w.settings.checkArch)) then
      modify fun w => { w with info := { w.info with cdPath := none } }
      copyIso env isoPath
    else copyIso env isoPath

/-- The disk info of the CD calls it a version that may differ from the released ISO. -/
def isPreRelease (subversion : String) : Bool :=
  subversion.toLower ∈ ["alpha", "beta", "release candidate"]

/-- `subversion` in `use_cd`, after a failed check. -/
def cdSubversion (cdPath : Path) : Fn δ String := do
  match (← world).info.cdDistro with
  | none => .raise .attributeError
  | some d =>
    match ← choose fun _ m => onCaches ((env.distro d).getInfo env.diskInfoRe m cdPath) with
    | none => .raise .typeError
    | some info => match info.subversion with
      | none => .raise .attributeError
      | some subversion => pure subversion

/-- `use_cd`. -/
def useCd : Fn δ Bool := do
  let w ← world
  match w.cdPath with
  | none => pure false
  | some cdPath => do
    let dest := installationIso env w
    modify fun w => { w with info := { w.info with isoPath := some dest } }
    -- the call of a task raises nothing, so that the handler around the copy never runs
    let _ ← call true (copyFile env cdPath dest)
    modify fun w => { w with info := { w.info with cdPath := some cdPath } }
    if truthy (← call true (checkIsoTask env dest)) then pure true
    else
      if isPreRelease (← cdSubversion env cdPath) then pure true
      else
        modify fun w => { w with info := { w.info with cdPath := none, isoPath := none } }
        pure false

/-- `use_iso`. -/
def useIso : Fn δ Bool := do
  match (← world).isoPath with
  | none => pure false
  | some isoPath => copyIso env isoPath

/-- The score of a mirror. -/
def score (country : String) (url : MetalinkUrl) : ℤ :=
  url.preference + if country = url.location then 50 else 0

/-- `select_mirrors`: a stable sort, highest score first. -/
def selectMirrors (country : String) (urls : List MetalinkUrl) : List MetalinkUrl :=
  urls.insertionSort fun x y => score country y ≤ score country x

/-- `download` of a file to `saveAs` as a task, over HTTP or BitTorrent. -/
def downloadTask (url : String) (saveAs : Path) : Fn δ (Option Value) := do
  match ← choose fun _ _ => download (env.fetch url) with
  | none => .raise (.download url)
  | some iso => do
    modify fun w => { w with media := w.media.set saveAs (some iso) }
    .finish (pure (some (.path saveAs)))

/-- The loop of `download_iso`. -/
def tryMirrors (saveAs : Path) : List MetalinkUrl → Fn δ Bool
  | [] => pure false
  | url :: urls => do
    if url.type = "bittorrent" ∧ (← world).settings.noBittorrent then tryMirrors saveAs urls
    else
      modify fun w => { w with media := w.media.set saveAs none }
      match ← call (url.type ≠ "bittorrent") (downloadTask env url.url saveAs) with
      | some (.path isoPath) => do
        if truthy (← call true (checkIsoTask env isoPath)) then
          modify fun w => { w with info := { w.info with isoPath := some isoPath } }
          pure true
        else
          modify fun w => { w with media := w.media.set isoPath none }
          tryMirrors saveAs urls
      | _ => tryMirrors saveAs urls

/-- `download_iso`. -/
def downloadIso : Fn δ Bool := do
  modify fun w => { w with info := { w.info with cdPath := none } }
  match ← choose fun _ _ => requireMetalink env with
  | none => .raise (.exception "Cannot download the metalink and therefore the ISO")
  | some metalink => match metalink.files with
    | [] => .raise .indexError
    | file :: _ => do
      let w ← world
      tryMirrors env (env.joinPath w.settings.installDir file.name)
        ((selectMirrors w.settings.country file.urls).take 5)

/-- `p or q`. -/
def orElse (p q : Fn δ Bool) : Fn δ Bool := do
  if ← p then pure true else q

/-- `get_iso`. -/
def getIso : Fn δ (Option Value) := do
  if ← orElse (getPrespecifiedIso env) (orElse (useCd env) (orElse (useIso env) (downloadIso env)))
  then .finish (pure none)
  else .raise (.exception "Could not retrieve the required installation files")

end Ydfs.Wubi.Backend
