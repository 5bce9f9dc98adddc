import Mathlib.Data.Char
import Mathlib.Data.List.Lex
import Mathlib.Data.List.Sort
import Ydfs.Build.Download
import Ydfs.Files.Tree

/-!
# The extraction of an archive

`build_archive` is given a file, or a URL whose file it fetches unless one of that name is among the
tarballs; whether `wget` succeeds is not looked at.  It derives a directory from the name of the
archive (`DIR2`).  If it does not exist the archive is extracted, and if it still does not exist then,
the directory is read off the log of the extraction; the branches for `.tar`, `.tar.gz` and `.tar.lz`
record that one in `data/fixdirs`.  The directory is entered and built.  Only these branches look at
the exit status of the extraction.

The protocol is a state machine over the commands of all runs.  `files` is what the extractions have
put in the directory of the sources; what the builds make of it is not followed.  A path holds no
`..`, and no word of a name is a pattern that matches a file.
-/

namespace Ydfs.Build

open FileTree

namespace Extraction

open Download (echo grep)

abbrev Name := Download.Name

abbrev Content := Download.Content

abbrev Path := List Name

/-- A member of an archive: its name, and its content unless it is a directory. -/
abbrev Member := Name × Option Content

/-- The files that have been extracted. -/
abbrev Files := Tree Name Content

/-! ### Names -/

/-- The branches for the archives of the kinds of tar and zip. -/
inductive Kind where
  | tar
  | tarLz
  | tarGz
  | zip
  | tarXz
  | tarBz
deriving DecidableEq

/-- The branches that look at the exit status of `tar` and record the directory. -/
def Kind.isCareful : Kind → Bool
  | .tar | .tarLz | .tarGz => true
  | .zip | .tarXz | .tarBz => false

/-- The first `case`: what the name ends with, the branch, and how many extensions `DIR2` loses.  The
other branches have none. -/
def patterns : List (String × Option (Kind × ℕ)) :=
  [(".dsc", none), (".tar", some (.tar, 2)), ("rar", none), (".7z", none),
    (".xz", some (.tarXz, 2)), (".tbz2", some (.tarBz, 2)), (".tar.bz2", some (.tarBz, 2)),
    (".tar.gz", some (.tarGz, 2)), ("bz2", none), (".tar.lz", some (.tarLz, 1)), ("deb", none),
    ("rpm", none), ("zip", some (.zip, 1)), (".tgz", some (.tarGz, 1))]

/-- The branch for a file, and the number of extensions. -/
def branch (file : Name) : Option (Kind × ℕ) :=
  (patterns.find? fun row => row.1.toList <:+ file).bind Prod.snd

/-- `sed 's/\.[^\.]*$//'` -/
def stripExtension (s : Name) : Name :=
  if '.' ∈ s then (s.rdropWhile (· ≠ '.')).dropLast else s

/-- The words of an unquoted variable. -/
def words (text : Name) : List Name := Download.words text

/-- An argument that is taken for a URL. -/
def isRemote (argument : Name) : Bool :=
  grep "ftp".toList (echo argument) || grep "http".toList (echo argument)

/-- A URL of a source package of Debian, which is left to `db-build-debian-dsc`. -/
def isDsc (argument : Name) : Bool := isRemote argument && grep ".dsc".toList (echo argument)

/-- `FILE`, with the value of `HOME`. -/
def fileOf (home argument : Name) : Name :=
  if isRemote argument then
    home ++ "/ydfs/tarballs/".toList ++ Download.basename (words argument)
  else argument

/-- A call of `build_archive` on an archive of one of the kinds. -/
structure Archive where
  home : Name
  argument : Name
  kind : Kind
  extensions : ℕ
  branch_eq : branch (fileOf home argument) = some (kind, extensions)

/-- `FILE` -/
def Archive.file (a : Archive) : Name := fileOf a.home a.argument

/-- `basename $FILE` -/
def Archive.name (a : Archive) : Name := Download.basename (words a.file)

/-- The special cases. -/
def forced : List (String × String) :=
  [("libclc", "libclc-0~git20140101"),
    ("xvidcore", "xvidcore"),
    ("firefox-60.9.0esr", "firefox-60.9.0"),
    ("firefox-68.3.0esr", "firefox-68.3.0"),
    ("x11-xserver-utils", "x11-xserver-utils"),
    ("x11-xkb-utils", "x11-xkb-utils"),
    ("4.0.2", "dolphin-4.0.2"),
    ("xbmc-13.1", "xbmc-13.1-Gotham"),
    ("xonotic", "Xonotic"),
    ("supertuxkart-0.8.1-src.tar.bz2", "SuperTuxKart-0.8.1"),
    ("supertuxkart-0.9", "supertuxkart-0.9"),
    ("EO-1.2", "eo"),
    ("spring", "spring_98.0"),
    ("vim-7.4", "vim74"),
    ("dossizola", "dossizola-1.0"),
    ("SFML-2.1-sources", "SFML-2.1"),
    ("SFML-2.2-sources", "SFML-2.2"),
    ("astromenace-src-1.3.2", "AstroMenace"),
    ("warsow", "source/source"),
    ("usbutils_005", "usbutils-005"),
    ("hedgewars-src-0.9.21", "hedgewars-src-0.9.21"),
    ("xmoto-0.5.11-src", "xmoto-0.5.11"),
    ("audacity-minsrc-2.0.5", "audacity-src-2.0.5"),
    ("libusb_0.1.12", "libusb-0.1.12"),
    ("attr-2.4.47", "attr-2.4.47"),
    ("acl-2.2.52", "acl-2.2.52"),
    ("Box2D_v2", "Box2D_v2.3.0"),
    ("tcl8.6.1", "tcl8.6.1"),
    ("cups-1.7.1", "cups-1.7.1"),
    ("cups-2.0.2", "cups-2.0.2"),
    ("jpegsrc", "jpeg-8"),
    ("libpaper_1.1.24+nmu2", "libpaper-1.1.24+nmu2"),
    ("pa_stable", "portaudio")]

/-- The components of a path. -/
def pathOf (s : Name) : Path := (s.splitOn '/').filter fun c => c ≠ [] ∧ c ≠ ['.']

/-- Where `tar` and `unzip` are run, beneath the directory of the sources. -/
def Archive.base (a : Archive) : Path :=
  if a.kind = .tarBz ∧ grep "midori".toList a.file then ["midori".toList] else []

/-- The words of `DIR2` before the extraction; `recorded` is what `data/fixdirs` sets it to. -/
def Archive.dir2 (a : Archive) (recorded : Option (List Name)) : List Name :=
  if a.kind = .tarBz ∧ grep "midori".toList a.file then ["midori".toList]
  else if a.kind = .zip ∧ grep "wxWidgets-3".toList a.file then ["wxWidgets".toList]
  else match (forced.filter fun row => grep row.1.toList a.file).getLast? with
    | some row => [row.2.toList]
    | none => recorded.getD (words (stripExtension^[a.extensions] a.name))

/-- The file that `tar` extracts: `lunzip` has made it of a `.tar.lz`, whose path is one word. -/
def Archive.source (a : Archive) : Name := if a.kind = .tarLz then stripExtension a.file else a.file

/-- `cut -d'/' -f1 | sort -u` of the names that have been extracted. -/
def tops (ms : List Member) : List Name :=
  ((ms.map fun m => m.1.takeWhile (· ≠ '/')).dedup).insertionSort (· ≤ ·)

/-- The words of `DIR2` from the log; `unzip` has its last line taken. -/
def fromLog (kind : Kind) (log : List Name) : List Name :=
  if kind = .zip then log.getLast?.toList.flatMap words else log.flatMap words

/-- What the file in `data/fixdirs` sets `DIR2` to: the line ends the assignment, a blank makes a
command of the rest. -/
def recordOf (log : List Name) : Option (List Name) :=
  match log.head?.map words with
  | none | some [] => some []
  | some [w] => some [w]
  | some _ => none

/-! ### Extractions -/

/-- How far an extraction has come: some members, and some bytes of the next one if that is begun. -/
structure Progress where
  members : ℕ
  bytes : Option ℕ

/-- What has been extracted then. -/
def part (ms : List Member) (written : Progress) : List Member :=
  ms.take written.members ++ match written.bytes with
    | none => []
    | some k => ((ms.drop written.members).take 1).map fun m => (m.1, m.2.map (·.take k))

/-- The files that the members become, the last of them first. -/
def unpack (base : Path) (ms : List Member) : Files :=
  (ms.map fun m => (base ++ pathOf m.1, m.2)).reverse

/-! ### The protocol -/

/-- Where the build is started: in `$HOME`, where `cd` without a word leads, or in a directory beneath
that of the sources. -/
inductive Place where
  | home
  | dir (path : Path)
deriving DecidableEq

/-- The commands of a branch, in their order. -/
inductive Phase where
  | look
  | wget
  | prepare
  | test
  | lunzip
  | extract
  | locate
  | enter

/-- A run of `build_archive`. -/
structure Process where
  archive : Archive
  dir2 : List Name
  log : List Name := []

/-- Where `build_archive` stands: no process, before a command of a branch, at the beginning of
`build_the_archive`, or in its build steps. -/
inductive Control where
  | stopped
  | before (process : Process) (phase : Phase)
  | entered (archive : Archive) (place : Place)
  | building (archive : Archive) (place : Place)

/-- The archives, the sources, what the files in `data/fixdirs` set `DIR2` to, the directories with a
`distinstall.done`, and the process. -/
structure World where
  tarballs : Name → Option (List Member) := fun _ => none
  files : Files := []
  fixdirs : Name → Option (List Name) := fun _ => none
  done : Place → Bool := fun _ => false
  control : Control := .stopped

/-- What happens: an archive is put where `build_archive` may be told to find it, `build_archive` is
started, the next command is run, `wget`, `lunzip` or the extraction succeeds or fails, the build
steps end and leave the last marker or not, or the process is killed.  A command that fails or is
killed has done some of its work or none.  A `wget` that saves the file under another name counts as
one that fails. -/
inductive Label where
  | download (file : Name)
  | run (archive : Archive)
  | command
  | succeeded
  | failed (written : Option Progress)
  | built (finished : Bool)
  | kill (written : Option Progress)

/-- `[ ! -e $DIR2 ]`, which is false of no word and an error for several. -/
def isMissing (files : Files) (base : Path) : List Name → Bool
  | [w] => ¬ Exists files (base ++ pathOf w)
  | _ => false

/-- `cd $DIR2` -/
def cd (files : Files) (base : Path) : List Name → Place
  | [] => .home
  | [w] => if IsDirectory files (base ++ pathOf w) then .dir (base ++ pathOf w) else .dir base
  | _ => .dir base

/-- How the branches enter the directory: one of midori is entered already, and one of Argyll has
been given another name (but `mv` moves that name onto itself). -/
def enter (a : Archive) (files : Files) (dir2 : List Name) : Place :=
  match a.kind with
  | .tarBz => if dir2 = ["midori".toList] then .dir a.base else cd files a.base dir2
  | .zip =>
    if dir2.any (grep "Argyll".toList) then cd files a.base ["argyllcms".toList]
    else cd files a.base dir2
  | _ => cd files a.base dir2

/-- The archive that is no source, and is installed by a script of its own. -/
def catalyst : Name := "amd-driver-installer-catalyst-13.1-legacy-linux-x86.x86_64".toList

/-- A command other than `wget` and an extraction. -/
def command (w : World) (p : Process) : Phase → Option World
  | .look => some { w with
      control := .before p (if (w.tarballs p.archive.file).isSome then .prepare else .wget) }
  | .prepare => some { w with
      files :=
        if Exists w.files p.archive.base then w.files else w.files ++ [(p.archive.base, none)]
      control := .before p .test }
  | .test => some { w with
      control :=
        if isMissing w.files p.archive.base p.dir2 then
          .before p (if p.archive.kind = .tarLz then .lunzip else .extract)
        else .before p .locate }
  | .locate =>
    if p.archive.kind = .zip ∧ p.dir2 = [catalyst] then some { w with control := .stopped }
    else if isMissing w.files p.archive.base p.dir2 then some { w with
      fixdirs :=
        if p.archive.kind.isCareful ∧ Download.isDirectory p.archive.name = false then
          Function.update w.fixdirs p.archive.name (recordOf p.log)
        else w.fixdirs
      control := .before { p with dir2 := fromLog p.archive.kind p.log } .enter }
    else some { w with control := .before p .enter }
  | .enter => some { w with control := .entered p.archive (enter p.archive w.files p.dir2) }
  | .wget => none
  | .lunzip => none
  | .extract => none

/-- `lunzip` succeeds: it makes a file that must not be there yet, and removes the other one. -/
def lunzip (w : World) (p : Process) : Option World :=
  match w.tarballs p.archive.file, w.tarballs p.archive.source with
  | some ms, none => some { w with
      tarballs :=
        Function.update (Function.update w.tarballs p.archive.source (some ms)) p.archive.file none
      control := .before p .extract }
  | _, _ => none

/-- `tar` or `unzip` writes some members and says so in the log. -/
def extract (w : World) (p : Process) (ms : List Member) (next : Process → Control) : World :=
  { w with files := unpack p.archive.base ms ++ w.files, control := next { p with log := tops ms } }

/-- What has been done of a command that is to write this. -/
def left (ms : Option (List Member)) (written : Option Progress) : Option (List Member) :=
  written.map (part (ms.getD []))

/-- `wget` leaves something of the file, or nothing. -/
def fetch (w : World) (p : Process) (ms : Option (List Member)) (next : Control) : World :=
  { w with tarballs := Function.update w.tarballs p.archive.file ms, control := next }

/-- One step; `trees` is what the archives hold that the arguments stand for. -/
def step (trees : Name → List Member) (w : World) : Label → Option World
  | .download file =>
    match w.control with
    | .stopped => some { w with tarballs := Function.update w.tarballs file (some (trees file)) }
    | _ => none
  | .run a =>
    match w.control with
    | .stopped =>
      if isDsc a.argument then some w
      else
        let process := { archive := a, dir2 := a.dir2 (w.fixdirs a.name) }
        some { w with control := .before process (if isRemote a.argument then .look else .prepare) }
    | _ => none
  | .command =>
    match w.control with
    | .before p phase => command w p phase
    | .entered a place =>
      some { w with control := if w.done place then .stopped else .building a place }
    | _ => none
  | .succeeded =>
    match w.control with
    | .before p .wget => some (fetch w p (some (trees p.archive.argument)) (.before p .prepare))
    | .before p .lunzip => lunzip w p
    | .before p .extract =>
      (w.tarballs p.archive.source).map fun ms => extract w p ms fun p => .before p .locate
    | _ => none
  | .failed written =>
    match w.control with
    | .before p .wget =>
      some (fetch w p (left (some (trees p.archive.argument)) written) (.before p .prepare))
    | .before p .lunzip => some { w with control := .before p .extract }
    | .before p .extract =>
      some (extract w p ((left (w.tarballs p.archive.source) written).getD []) fun p =>
        if p.archive.kind.isCareful then .stopped else .before p .locate)
    | _ => none
  | .built finished =>
    match w.control with
    | .building _ place => some { w with
        done := if finished then Function.update w.done place true else w.done
        control := .stopped }
    | _ => none
  | .kill written =>
    match w.control with
    | .stopped => none
    | .before p .wget => some (fetch w p (left (some (trees p.archive.argument)) written) .stopped)
    | .before p .lunzip => some { w with
        tarballs :=
          if (w.tarballs p.archive.source).isSome then w.tarballs
          else Function.update w.tarballs p.archive.source (left (w.tarballs p.archive.file) written)
        control := .stopped }
    | .before p .extract =>
      some (extract w p ((left (w.tarballs p.archive.source) written).getD []) fun _ => .stopped)
    | _ => some { w with control := .stopped }

end Extraction

end Ydfs.Build
