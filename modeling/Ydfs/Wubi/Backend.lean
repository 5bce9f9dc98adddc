import Mathlib.Algebra.Order.Ring.Int
import Mathlib.Data.List.ProdSigma
import Mathlib.Data.List.Sort
import Ydfs.TaskList.Script
import Ydfs.Wubi.Distro

/-!
# The state of the backend, and `check_iso`

The attributes of the backend and of its `info` that decide where the ISO comes from, the search for
local media before the distro is chosen (`find_any_iso`, `find_any_cd`) and after
(`cache_cd_path`), and `check_iso`, which runs as a task and is a script.  Distros are the elements
of any type `δ`, for they are compared by identity.  What the file system and the network answer is
a parameter (`Env`): the downloads are numbered, and each may raise.
-/

namespace Ydfs.Wubi

open TaskList

/-- A hash of a metalink. -/
structure MetalinkHash where
  type : String
  hash : String

/-- A URL of a metalink. -/
structure MetalinkUrl where
  url : String
  type : String := ""
  location : String := ""
  preference : ℤ := -1

/-- A file of a metalink. -/
structure MetalinkFile where
  name : String
  hashes : List MetalinkHash
  urls : List MetalinkUrl

/-- A metalink. -/
structure Metalink where
  files : List MetalinkFile

/-- What does not change during an installation. -/
structure Env (δ : Type) where
  diskInfoRe : String → Option DiskInfo
  distros : List δ
  distro : δ → Distro
  joinPath : Path → String → Path
  dirname : Path → Path
  isoSearch : List Path
  cdSearch : List Path
  copyRaises : Path → Bool
  fetchMetalink : String → ℕ → Option (Option Metalink)
  fetch : String → ℕ → Option Iso

/-- The attributes of `info` that an installation only reads. -/
structure Settings where
  arch : String := ""
  checkArch : Bool := false
  skipMd5Check : Bool := false
  noBittorrent : Bool := false
  country : String := ""
  installDir : Path := ""
  originalExe : Path := ""

/-- The attributes of `info` that say where the ISO and the CD are. -/
structure Info (δ : Type) where
  isoPath : Option Path := none
  isoDistro : Option δ := none
  cdPath : Option Path := none
  cdDistro : Option δ := none

/-- What a check of an ISO may change besides its hashes: `info.distro`, the metalinks of the
distros, the caches, and the number of downloads so far. -/
structure Choice (δ : Type) where
  distro : Option δ := none
  metalink : δ → Option Metalink := fun _ => none
  caches : Caches := {}
  downloads : ℕ := 0

/-- The state of the backend, with `self.cd_path` and `self.iso_path`, `info.iso_md5_hashes`, and a
log (`passed`) of the ISOs that `check_iso` has found good. -/
structure World (δ : Type) where
  settings : Settings := {}
  info : Info δ := {}
  choice : Choice δ := {}
  cdPath : Option Path := none
  isoPath : Option Path := none
  isoMd5Hashes : Path → Option String := fun _ => none
  media : Media
  passed : List Iso := []

/-- What is raised. -/
inductive Error where
  | exception (message : String)
  | attributeError
  | typeError
  | indexError
  | metalinkException
  | copy (path : Path)
  | download (url : String)

/-- What a task returns, but for `None`. -/
inductive Value where
  | bool (b : Bool)
  | path (p : Path)
  | hash (h : String)

/-- A part of a task of the backend. -/
abbrev Fn (δ α : Type) := Script (World δ) Error Value α

/-- A part of a task that uses no more than the choice of the distro. -/
abbrev ChoiceFn (δ α : Type) := Script (Choice δ) Error Value α

/-- The truth value of what a task has returned. -/
def truthy : Option Value → Bool
  | none => false
  | some (.bool b) => b
  | some (.path p) => p ≠ ""
  | some (.hash h) => h ≠ ""

/-- The drive of a path, its first two characters. -/
def drive (path : Path) : List Char := path.toList.take 2

namespace Backend

variable {δ : Type} (env : Env δ)

/-! ## The search for media -/

/-- The first element that passes a test that uses the caches. -/
def search {α : Type} (test : α → Caches → Bool × Caches) : List α → Caches → Option α × Caches
  | [], c => (none, c)
  | a :: l, c => match test a c with
    | (true, c) => (some a, c)
    | (false, c) => search test l c

/-- `find_iso`. -/
def findIso (m : Media) (d : δ) (checkArch : Bool) : Caches → Option Path × Caches :=
  search (fun iso => (env.distro d).isValidIso env.diskInfoRe m iso checkArch) env.isoSearch

/-- `find_cd`. -/
def findCd (m : Media) (d : δ) (checkArch : Bool) : Caches → Option Path × Caches :=
  search (fun path => (env.distro d).isValidCd env.diskInfoRe m path checkArch) env.cdSearch

/-- `find_any_iso`: the pre-specified ISO, and then the local ones, each for all distros. -/
def findAnyIso (m : Media) (isoPath : Option Path) (checkArch : Bool) :
    Caches → Option (Path × δ) × Caches :=
  let isos := (isoPath.filter m.has).toList
  search (fun x => (env.distro x.2).isValidIso env.diskInfoRe m x.1 checkArch)
    ((isos ++ env.isoSearch) ×ˢ env.distros)

/-- `find_any_cd`: a CD on another drive than the original executable ends the search. -/
def findAnyCd (m : Media) (originalExe : Path) (checkArch : Bool) (c : Caches) :
    Option (Path × δ) × Caches :=
  let (found, c) :=
    search (fun x => (env.distro x.2).isValidCd env.diskInfoRe m x.1 checkArch)
      (env.cdSearch ×ˢ env.distros) c
  (found.filter fun x => drive originalExe = drive x.1, c)

/-- The search for media in `fetch_basic_info`, before the distro is chosen; the distros have just been
made, so that they have no metalinks. -/
def fetchBasicInfo (w : World δ) : World δ :=
  let checkArch := w.settings.arch = "i386"
  let (iso, c) := findAnyIso env w.media w.info.isoPath checkArch w.choice.caches
  let (cd, c) := findAnyCd env w.media w.settings.originalExe checkArch c
  { w with
    settings := { w.settings with checkArch }
    choice := { w.choice with distro := none, metalink := fun _ => none, caches := c }
    info :=
      { isoPath := iso.map Prod.fst
        isoDistro := iso.map Prod.snd
        cdPath := cd.map Prod.fst
        cdDistro := cd.map Prod.snd } }

/-- What has been found before, if it was for `d` and is still there, or else what a search finds. -/
def foundOr [DecidableEq δ] (d : δ) (path : Option Path) (distro : Option δ) (there : Path → Bool)
    (find : Caches → Option Path × Caches) (c : Caches) : Option Path × Caches :=
  match path.filter fun p => distro = some d ∧ there p with
  | some p => (some p, c)
  | none => find c

/-- `cache_cd_path`, once the distro `d` has been chosen. -/
def cacheCdPath [DecidableEq δ] (d : δ) (w : World δ) : World δ :=
  let checkArch := w.settings.checkArch
  let (cd, c) := foundOr d w.info.cdPath w.info.cdDistro (fun p => (w.media.disc p).isSome)
    (findCd env w.media d checkArch) w.choice.caches
  let (iso, c) :=
    if cd.isSome then (none, c)
    else foundOr d w.info.isoPath w.info.isoDistro (fun p => (w.media.file p).isSome)
      (findIso env w.media d checkArch) c
  { w with
    choice := { w.choice with distro := some d, caches := c }
    cdPath := cd
    isoPath := iso }

/-! ## `check_iso` -/

open Script (world state modify call)

/-- The choice of the distro as a part of the state. -/
def choosing : Script.Part (World δ) (Choice δ) where
  get := World.choice
  put choice w := { w with choice }
  get_put _ _ := rfl
  put_put _ _ _ := rfl
  put_get _ := rfl

/-- A part of a task that chooses the distro. -/
def choose {α : Type} (p : Settings → Media → ChoiceFn δ α) : Fn δ α := do
  let w ← world
  (p w.settings w.media).zoom choosing

/-- `info.distro`, which the caller uses as an object. -/
def distro : ChoiceFn δ δ := do
  match (← world).distro with
  | some d => pure d
  | none => .raise .attributeError

/-- A method of a distro that uses the caches. -/
def onCaches {α : Type} (f : Caches → α × Caches) : ChoiceFn δ α :=
  state fun w => ((f w.caches).1, { w with caches := (f w.caches).2 })

/-- `distros_dict.get`: of several distros with this name and architecture the last one. -/
def distrosDict (name arch : String) : Option δ :=
  (env.distros.filter fun d =>
    (env.distro d).name.toLower = name ∧ (env.distro d).arch = arch).getLast?

/-- `set_distro_from_arch`. -/
def setDistroFromArch (path : Path) (settings : Settings) (m : Media) : ChoiceFn δ Unit := do
  if settings.checkArch then pure ()
  else
    let d ← distro
    match ← onCaches ((env.distro d).getInfo env.diskInfoRe m path) with
    | none => .raise .typeError
    | some info =>
      if (env.distro d).arch = info.arch then pure ()
      else modify fun w =>
        { w with distro := distrosDict env (env.distro d).name.toLower info.arch }

/-- The next download. -/
def download {α : Type} (outcome : ℕ → α) : ChoiceFn δ α :=
  state fun w => (outcome w.downloads, { w with downloads := w.downloads + 1 })

/-- The download of a metalink: when it raises, the second URL is tried. -/
def downloadMetalink (d : δ) : ChoiceFn δ (Option (Option Metalink)) := do
  match ← download (env.fetchMetalink (env.distro d).metalinkUrl) with
  | some metalink => pure (some metalink)
  | none => download (env.fetchMetalink (env.distro d).metalinkUrl2)

/-- `get_metalink`. -/
def getMetalink [DecidableEq δ] : ChoiceFn δ (Option Value) := do
  let d ← distro
  match ← downloadMetalink env d with
  | none => pure none
  | some none => .raise .metalinkException
  | some (some metalink) => do
    modify fun w => { w with metalink := Function.update w.metalink d (some metalink) }
    pure none

/-- The metalink of the distro, after a task that may get it. -/
def requireMetalink [DecidableEq δ] : ChoiceFn δ (Option Metalink) := do
  match (← world).metalink (← distro) with
  | some metalink => pure (some metalink)
  | none => do
    let _ ← call true (getMetalink env)
    return (← world).metalink (← distro)

/-- `get_file_hash`. -/
def getFileHash (path : Path) (hashName : String) : Fn δ (Option Value) := do
  match (← world).media.file path with
  | none => pure none
  | some iso => .finish (pure (some (.hash (iso.digest hashName))))

/-- The hash that `check_iso` takes from a metalink: the last one of a known type, unless it is
empty. -/
def knownHash (hashes : List MetalinkHash) : Option MetalinkHash :=
  let types := ["md5", "sha1", "sha224", "sha256", "sha384", "sha512"]
  (hashes.filter fun h => h.type ∈ types).getLast?.filter fun h => h.hash ≠ ""

/-- `check_iso` up to the comparison of the hashes: its answer, or the hash to compare with. -/
def expectedHash [DecidableEq δ] (path : Path) (settings : Settings) (m : Media) :
    ChoiceFn δ (Bool ⊕ MetalinkHash) := do
  let d ← distro
  if ← onCaches ((env.distro d).isValidIso env.diskInfoRe m path false) then
    setDistroFromArch env path settings m
    if settings.skipMd5Check then pure (.inl true)
    else
      match ← requireMetalink env with
      | none => pure (.inl true)
      | some metalink => match metalink.files with
        | [] => .raise .indexError
        | file :: _ => match knownHash file.hashes with
          | none => pure (.inl true)
          | some hash => pure (.inr hash)
  else pure (.inl false)

/-- Cache the hash of a path outside `install_dir`. -/
def remember (path : Path) (hashsum : Option String) (w : World δ) : World δ :=
  if w.settings.installDir.toList <+: path.toList then w
  else { w with isoMd5Hashes := Function.update w.isoMd5Hashes path hashsum }

/-- The rest of `check_iso`: a hash that is cached is not taken again. -/
def compareHash (path : Path) (hash : MetalinkHash) : Fn δ Bool := do
  match (← world).isoMd5Hashes path with
  | some hashsum => pure (hash.hash = hashsum)
  | none =>
    let hashsum := match ← call true (getFileHash path hash.type) with
      | some (.hash h) => some h
      | _ => none
    modify (remember path hashsum)
    pure (some hash.hash = hashsum)

/-- `check_iso`. -/
def checkIso [DecidableEq δ] (path : Path) : Fn δ Bool := do
  match ← choose (expectedHash env path) with
  | .inl answer => pure answer
  | .inr hash => compareHash path hash

/-- `check_iso` as a task. -/
def checkIsoTask [DecidableEq δ] (path : Path) : Fn δ (Option Value) := do
  let answer ← checkIso env path
  modify fun w => if answer then { w with passed := (w.media.file path).toList ++ w.passed } else w
  pure (some (.bool answer))

end Backend

end Ydfs.Wubi
