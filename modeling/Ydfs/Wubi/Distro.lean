import Mathlib.Data.List.Basic
import Mathlib.Logic.Function.Basic

/-!
# Distros and the media they recognise

An ISO or a CD carries a line of disk info, from which `parse_isoinfo` reads a name, a version, a
subversion and an architecture.  The answer is cached under the path and the name of the info file,
and the cache is shared by all distros; the listing of an ISO is cached under its path.  The regular
expression of the disk info is a parameter (`re`).
-/

namespace Ydfs.Wubi

/-- Absolute paths. -/
abbrev Path := String

/-- What `parse_isoinfo` returns. -/
structure DiskInfo where
  name : String
  version : String
  subversion : Option String
  arch : String

/-- A regular file as an ISO: the names that 7z lists (none if it cannot read the file), the text
files inside, and the hash of the file for each type of hash. -/
structure Iso where
  names : List String
  text : String → Option String
  digest : String → String
  digest_ne : ∀ type, digest type ≠ ""

/-- A directory as a CD: the files below it, the text files, and the image that a copy of the drive
gives, unless it raises. -/
structure Disc where
  files : String → Bool
  text : String → Option String
  image : Option Iso
  image_text : ∀ iso, image = some iso → iso.text = text

/-- The files and the directories. -/
structure Media where
  file : Path → Option Iso
  disc : Path → Option Disc

/-- Write or remove a file. -/
def Media.set (m : Media) (path : Path) (iso : Option Iso) : Media :=
  { m with file := Function.update m.file path iso }

/-- `os.path.exists`. -/
def Media.has (m : Media) (path : Path) : Bool := (m.file path).isSome || (m.disc path).isSome

/-- The text that `get_info` reads. -/
def Media.text (m : Media) (path : Path) (infoFile : String) : Option String :=
  match m.file path with
  | some iso => iso.text infoFile
  | none => (m.disc path).bind fun disc => disc.text infoFile

/-- A section of the list of distros. -/
structure Distro where
  name : String
  version : String
  arch : String
  kernel : String
  initrd : String
  infoFile : String
  md5sums : String
  filesToCheck : List String
  metalinkUrl : String
  metalinkUrl2 : String

/-- `Distro.cache`, and the listings that the backend caches. -/
structure Caches where
  info : Path × String → Option (Option DiskInfo) := fun _ => none
  names : Path → Option (Option (List String)) := fun _ => none

/-- `str.strip`. -/
def strip (s : String) : String :=
  let isSpace c := c ∈ [' ', '\t', '\n', '\r', '\x0b', '\x0c']
  .ofList ((s.toList.dropWhile isSpace).reverse.dropWhile isSpace).reverse

/-- `strip().lower()`. -/
def canonical (s : String) : String := (strip s).toLower

namespace Distro

/-- `get_required_files`. -/
def requiredFiles (d : Distro) : List String :=
  d.filesToCheck ++ [d.kernel, d.initrd, d.infoFile, d.md5sums]

/-- `parse_isoinfo`: a text that the regular expression does not match gets the architecture of the
distro that has asked. -/
def parseIsoinfo (re : String → Option DiskInfo) (d : Distro) (text : String) : Option DiskInfo :=
  if text = "" then none
  else match re text with
    | none => some { name := "", version := "", subversion := some "", arch := d.arch }
    | some info => some { info with name := info.name.map fun c => if c = '-' then ' ' else c }

/-- `check_info`. -/
def checkInfo (d : Distro) (info : Option DiskInfo) (checkArch : Bool) : Bool :=
  match info with
  | none => false
  | some info =>
    if d.name ≠ "" ∧ info.name ≠ d.name ∧ d.version ≠ "" then false
    else if d.version ≠ "" ∧ ¬ (info.version = d.version ∨
        (d.version ++ ".").toList <+: info.version.toList) then false
    else if checkArch ∧ d.arch ≠ "" ∧ info.arch ≠ d.arch then false
    else true

variable (re : String → Option DiskInfo) (m : Media)

/-- `get_info`: the first answer for a path and an info file is kept, also when there is none. -/
def getInfo (d : Distro) (path : Path) (c : Caches) : Option DiskInfo × Caches :=
  match c.info (path, d.infoFile) with
  | some info => (info, c)
  | none =>
    let info := (m.text path d.infoFile).bind (d.parseIsoinfo re)
    (info, { c with info := Function.update c.info (path, d.infoFile) (some info) })

/-- `get_iso_file_names` of the backend, `None` and the empty list being the same to its caller: a
listing that cannot be read is not read again. -/
def getIsoFileNames (path : Path) (c : Caches) : List String × Caches :=
  match c.names path with
  | some names => (names.getD [], c)
  | none =>
    let names := ((m.file path).map Iso.names).getD []
    let cached := if names = [] then none else some names
    (names, { c with names := Function.update c.names path (some cached) })

/-- `is_valid_iso`. -/
def isValidIso (d : Distro) (path : Path) (checkArch : Bool) (c : Caches) : Bool × Caches :=
  if (m.file path).isNone then (false, c)
  else
    let (names, c) := getIsoFileNames m path c
    if names = [] then (false, c)
    else if ¬ ∀ f ∈ d.requiredFiles, canonical f ∈ names.map canonical then (false, c)
    else
      let (info, c) := d.getInfo re m path c
      (d.checkInfo info checkArch, c)

/-- `is_valid_cd`. -/
def isValidCd (d : Distro) (path : Path) (checkArch : Bool) (c : Caches) : Bool × Caches :=
  match m.disc path with
  | none => (false, c)
  | some disc =>
    if ¬ ∀ f ∈ d.requiredFiles, disc.files f then (false, c)
    else
      let (info, c) := d.getInfo re m path c
      (d.checkInfo info checkArch, c)

/-- The architecture that the disk info of a medium gives. -/
def archOf (d : Distro) (path : Path) : Option String :=
  ((m.text path d.infoFile).bind (d.parseIsoinfo re)).map DiskInfo.arch

end Distro

end Ydfs.Wubi
