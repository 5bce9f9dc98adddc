import Mathlib.Data.List.Infix
import Mathlib.Data.List.TakeWhile
import Mathlib.Tactic.SplitIfs

/-!
# The test for packages that are built already

`db-autobuild` leaves a source directory alone when its package is in the output already.  It looks
for a directory of the same name in `packages-$ARCH`, for a file of `opkg` by a short name of the
package, and for a marker in the source directory.  The short name ends at the first hyphen and is
matched as the beginning of a file name, so that the files of `gimp-help` stand for `gimp`.  Between
ordinary names one package stands for another exactly if its first word, in lower case, begins with
the first word of the other's directory.  In an order of packages all are built exactly if none
stands for a later one.
-/

namespace Ydfs.Autobuild.AlreadyBuilt

abbrev Name := List Char

/-- Where the packages are built: `$HOME` and `$ARCH`. -/
structure Host where
  home : Name
  arch : Name

/-- A source directory: where it is, its name, whether there is a `build-twice` for it, whether it
has a `buildok-$ARCH`, and what follows the package's name in the file that `opkg-build` makes. -/
structure Source where
  parent : Name
  mydir : Name
  buildTwice : Bool := false
  buildok : Bool := false
  release : Name := []

/-- What has been built: the directories of `packages-$ARCH` and the files of `opkg`. -/
structure Output where
  packages : List Name := []
  opkg : List Name := []

/-! ### The name of a package -/

/-- `echo path | grep word`, for a word without special characters. -/
def grep (word path : Name) : Bool := decide (word <:+: path)

def lower (name : Name) : Name := name.map Char.toLower

/-- The directory that `make_opkg` is run in. -/
def packageDir (host : Host) (src : Source) : Name :=
  host.home ++ "/ydfs/packages-".toList ++ host.arch ++ '/' :: src.mydir

/-- `NAME` from the fields of `PKGNAME` between its hyphens: the first two if there are more. -/
def nameOfFields (pkgname : Name) : Name :=
  match pkgname.splitOn '-' with
  | a :: b :: _ :: _ => lower (a ++ '-' :: b)
  | a :: b :: [] => if b = "data".toList then pkgname else lower a
  | _ => lower pkgname

/-- The name that `make_opkg` gives to the package of a source directory. -/
def pkgname (host : Host) (src : Source) : Name :=
  let path := packageDir host src
  if grep "nvidia-".toList path then lower (src.mydir.takeWhile (· ≠ '.'))
  else if grep "NVIDIA-Linux".toList path then "nvidia".toList
  else if grep "Squeak".toList path then "squeak".toList
  else if grep "SDL2_ttf".toList path then nameOfFields "SDL2ttf".toList
  else nameOfFields (src.mydir.takeWhile (· ≠ '_'))

/-- The file that `opkg-build` makes. -/
def opkgFile (host : Host) (src : Source) : Name := pkgname host src ++ '_' :: src.release

/-! ### The test -/

/-- The paths with a short name of their own. -/
def specialNames : List (Name × Name) :=
  [("lightdm-gtk-greeter".toList, "lightdm-gtk-greeter".toList),
    ("kde-l10n".toList, "kde-l10n".toList),
    ("file".toList, "file-".toList),
    ("mesa-2".toList, "mesa-2".toList),
    ("mesa-1".toList, "mesa-1".toList),
    ("gc-".toList, "gc-".toList),
    ("gnome-vfs".toList, "gnomevfs".toList),
    ("gst-plugins-base".toList, "gst-plugins-base".toList)]

/-- `SHORTNAME`: the name up to its first hyphen, unless the path matches special names, of which the
last counts. -/
def shortname (src : Source) : Name :=
  let mypwd := src.parent ++ '/' :: src.mydir
  specialNames.foldl (fun name special => if grep special.1 mypwd then special.2 else name)
    (src.mydir.takeWhile (· ≠ '-'))

/-- A file name that the pattern `name*` stands for; a hidden file needs its dot written out. -/
def Glob (name file : Name) : Prop := name <+: file ∧ (name = [] → file.head? ≠ some '.')

instance (name file : Name) : Decidable (Glob name file) := inferInstanceAs (Decidable (_ ∧ _))

/-- What a package is found to be built by. -/
inductive Found where
  | packageDir
  | opkgFile
  | marker
deriving DecidableEq

/-- The three tests, in their order; any of them ends the script. -/
def alreadyBuilt (forcebuild : Bool) (out : Output) (src : Source) : Option Found :=
  if !forcebuild && out.packages.contains src.mydir && !src.buildTwice then some .packageDir
  else if !forcebuild && out.opkg.any (fun file => Glob (shortname src) file) then some .opkgFile
  else if !forcebuild && src.buildok then some .marker
  else none

variable {host : Host} {out : Output} {src : Source}

/-! ### The names that stand for a directory -/

/-- `$PWD` in the source directory. -/
def Source.path (src : Source) : Name := src.parent ++ '/' :: src.mydir

/-- How the files begin that stand for a source directory.  A path with special words has the
beginning of the one that is last in the list; any other has the first word of the directory. -/
inductive LookedFor (src : Source) : Name → Prop
  | special (before after : List (Name × Name)) (word beginning : Name)
      (split : specialNames = before ++ (word, beginning) :: after) (there : word <:+: src.path)
      (last : ∀ later ∈ after, ¬ later.1 <:+: src.path) : LookedFor src beginning
  | ordinary (first rest : Name) (name : src.mydir = first ++ rest) (one : '-' ∉ first)
      (whole : rest = [] ∨ rest.head? = some '-')
      (plain : ∀ word ∈ specialNames, ¬ word.1 <:+: src.path) : LookedFor src first

/-- The file is taken for one of the source directory's package. -/
def StandsFor (file : Name) (src : Source) : Prop := ∃ beginning, LookedFor src beginning ∧
  Glob beginning file

theorem takeWhile_of_whole {first rest : Name} (one : '-' ∉ first)
    (whole : rest = [] ∨ rest.head? = some '-') :
    (first ++ rest).takeWhile (· ≠ '-') = first := by
  have all : ∀ c ∈ first, decide (c ≠ '-') = true := fun c hc =>
    decide_eq_true fun hyphen => one (hyphen ▸ hc)
  rw [List.takeWhile_append_of_pos all]
  cases rest with
  | nil => simp
  | cons c rest =>
    obtain rfl : c = '-' := by simpa using whole
    simp

theorem foldl_of_plain {path : Name} {l : List (Name × Name)} (plain : ∀ s ∈ l, ¬ s.1 <:+: path)
    (name : Name) :
    l.foldl (fun name special => if grep special.1 path then special.2 else name) name = name := by
  induction l with
  | nil => rfl
  | cons s l ih =>
    obtain ⟨head, tail⟩ := List.forall_mem_cons.1 plain
    rw [List.foldl_cons, grep, decide_eq_false head]
    exact ih tail

/-- A last element with a property, or none. -/
theorem exists_last_or_none {α : Type} (p : α → Prop) [DecidablePred p] (l : List α) :
    (∃ before a after, l = before ++ a :: after ∧ p a ∧ ∀ b ∈ after, ¬ p b) ∨ ∀ b ∈ l, ¬ p b := by
  induction l with
  | nil => exact .inr (by simp)
  | cons a l ih =>
    rcases ih with ⟨before, b, after, rfl, hb, last⟩ | none
    · exact .inl ⟨a :: before, b, after, rfl, hb, last⟩
    · by_cases ha : p a
      · exact .inl ⟨[], a, l, rfl, ha, none⟩
      · exact .inr (List.forall_mem_cons.2 ⟨ha, none⟩)

theorem shortname_of_special {before after : List (Name × Name)} {word beginning : Name}
    (split : specialNames = before ++ (word, beginning) :: after) (there : word <:+: src.path)
    (last : ∀ later ∈ after, ¬ later.1 <:+: src.path) : shortname src = beginning := by
  have found : grep word src.path = true := decide_eq_true there
  rw [shortname, ← Source.path, split, List.foldl_append, List.foldl_cons, if_pos found]
  exact foldl_of_plain last _

theorem shortname_of_plain (plain : ∀ word ∈ specialNames, ¬ word.1 <:+: src.path) :
    shortname src = src.mydir.takeWhile (· ≠ '-') := foldl_of_plain plain _

theorem lookedFor_iff {beginning : Name} : LookedFor src beginning ↔ beginning = shortname src := by
  constructor
  · intro h
    cases h with
    | special before after word _ split there last =>
      exact (shortname_of_special split there last).symm
    | ordinary _ rest name one whole plain =>
      rw [shortname_of_plain plain, name, takeWhile_of_whole one whole]
  · rintro rfl
    rcases exists_last_or_none (fun s : Name × Name => s.1 <:+: src.path) specialNames with
      ⟨before, ⟨word, beginning⟩, after, split, there, last⟩ | plain
    · rw [shortname_of_special split there last]
      exact .special before after word beginning split there last
    · rw [shortname_of_plain plain]
      refine .ordinary _ (src.mydir.dropWhile (· ≠ '-'))
        (List.takeWhile_append_dropWhile).symm (fun h => ?_) ?_ plain
      · simpa using List.mem_takeWhile_imp h
      · cases rest : src.mydir.dropWhile (· ≠ '-') with
        | nil => exact .inl rfl
        | cons c rest' =>
          have hyphen := List.head?_dropWhile_not (fun c : Char => decide (c ≠ '-')) src.mydir
          rw [rest] at hyphen
          exact .inr (by simpa using hyphen)

theorem standsFor_iff {file : Name} : StandsFor file src ↔ Glob (shortname src) file := by
  simp only [StandsFor, lookedFor_iff, exists_eq_left]

/-! ### The names of ordinary packages -/

theorem prefix_append_iff_of_head {word x rest : Name} (free : ∀ c, rest.head? = some c → c ∉ word) :
    word <+: x ++ rest ↔ word <+: x := by
  refine ⟨fun h => ?_, fun h => h.trans (List.prefix_append x rest)⟩
  rcases List.prefix_or_prefix_of_prefix h (List.prefix_append x rest) with shorter | ⟨t, rfl⟩
  · exact shorter
  · have tail : t <+: rest := (List.prefix_append_right_inj x).1 h
    cases t with
    | nil => simp
    | cons c t =>
      obtain ⟨u, rfl⟩ := tail
      exact absurd (by simp) (free c rfl)

theorem splitOn_eq_cons (x : Name) :
    ∃ rest, x.splitOn '-' = x.takeWhile (· ≠ '-') :: rest := by
  induction x with
  | nil => exact ⟨[], by simp⟩
  | cons c x ih =>
    obtain ⟨rest, ih⟩ := ih
    by_cases hyphen : c = '-'
    · exact ⟨x.splitOn '-', by simp [hyphen, List.splitOn, List.splitOnP_cons_eq_if_modifyHead]⟩
    · refine ⟨rest, ?_⟩
      rw [List.splitOn, List.splitOnP_cons_eq_if_modifyHead, ← List.splitOn, ih]
      simp [hyphen]

/-- The name that `make_opkg` gives begins with the first word of what it is made from. -/
theorem nameOfFields_begins {pkgname : Name} (no_data : ∀ a, pkgname ≠ a ++ "-data".toList) :
    ∃ rest, nameOfFields pkgname = lower (pkgname.takeWhile (· ≠ '-')) ++ rest ∧
      (rest = [] ∨ rest.head? = some '-') := by
  have joined : ['-'].intercalate (pkgname.splitOn '-') = pkgname := List.intercalate_splitOn '-'
  obtain ⟨fields, split⟩ := splitOn_eq_cons pkgname
  rw [split] at joined
  rw [nameOfFields, split]
  match fields with
  | [] =>
    refine ⟨[], ?_, .inl rfl⟩
    rw [List.intercalate_singleton] at joined
    simp only [joined, List.append_nil]
  | [b] =>
    refine ⟨[], ?_, .inl rfl⟩
    dsimp only
    rw [if_neg, List.append_nil]
    rintro rfl
    exact no_data (pkgname.takeWhile (· ≠ '-')) (by simpa using joined.symm)
  | b :: _ :: _ => exact ⟨'-' :: lower b, by simp [lower], .inr rfl⟩

/-- No name of its own in `make_opkg`. -/
structure Ordinary (host : Host) (src : Source) : Prop where
  nvidia : grep "nvidia-".toList (packageDir host src) = false
  nvidiaLinux : grep "NVIDIA-Linux".toList (packageDir host src) = false
  squeak : grep "Squeak".toList (packageDir host src) = false
  sdl : grep "SDL2_ttf".toList (packageDir host src) = false
  data : ∀ a, src.mydir.takeWhile (· ≠ '_') ≠ a ++ "-data".toList

/-- An ordinary package stands for a directory exactly if its first word, in lower case, begins with
the first word of the directory. -/
theorem standsFor_package_iff {first : Source} (ordinary : Ordinary host first)
    (plain : ∀ word ∈ specialNames, ¬ word.1 <:+: src.path)
    (some_word : src.mydir.takeWhile (· ≠ '-') ≠ []) (no_version : '_' ∉ src.mydir.takeWhile (· ≠ '-')) :
    StandsFor (opkgFile host first) src ↔ src.mydir.takeWhile (· ≠ '-') <+:
      lower ((first.mydir.takeWhile (· ≠ '_')).takeWhile (· ≠ '-')) := by
  obtain ⟨rest, name, head⟩ := nameOfFields_begins ordinary.data
  have hyphen : '-' ∉ src.mydir.takeWhile (· ≠ '-') := fun h => by
    simpa using List.mem_takeWhile_imp h
  have named : pkgname host first = nameOfFields (first.mydir.takeWhile (· ≠ '_')) := by
    simp only [pkgname, ordinary.nvidia, ordinary.nvidiaLinux, ordinary.squeak, ordinary.sdl,
      Bool.false_eq_true, if_false]
  rw [standsFor_iff, shortname_of_plain plain, Glob, opkgFile, named, name, List.append_assoc,
    and_iff_left (fun none => absurd none some_word)]
  refine prefix_append_iff_of_head fun c hc => ?_
  rcases head with rfl | head
  · obtain rfl : '_' = c := by simpa using hc
    exact no_version
  · rw [List.head?_append, head, Option.some_or, Option.some.injEq] at hc
    exact hc ▸ hyphen

/-! ### One source directory -/

/-- The package of the source directory is not in the output. -/
structure Absent (host : Host) (out : Output) (src : Source) : Prop where
  package : src.mydir ∉ out.packages
  opkg : ∀ file ∈ out.opkg, ¬ pkgname host src ++ ['_'] <+: file

/-- No file of `opkg` stands for the source directory, which has not been marked. -/
structure Apart (opkg : List Name) (src : Source) : Prop where
  opkg : ∀ file ∈ opkg, ¬ StandsFor file src
  marker : src.buildok = false

theorem not_alreadyBuilt_iff :
    alreadyBuilt false out src = none ↔
      (src.mydir ∈ out.packages → src.buildTwice = true) ∧ Apart out.opkg src := by
  constructor
  · intro built
    simp only [alreadyBuilt, Bool.not_false, Bool.true_and] at built
    split_ifs at built with package opkg marker
    refine ⟨fun there => ?_, fun file there stands => ?_, Bool.not_eq_true _ ▸ marker⟩
    · simpa [there] using package
    · exact opkg (List.any_eq_true.2 ⟨file, there, decide_eq_true (standsFor_iff.1 stands)⟩)
  · rintro ⟨package, opkg, marker⟩
    simp only [alreadyBuilt, Bool.not_false, Bool.true_and]
    rw [if_neg, if_neg, if_neg]
    · simp [marker]
    · simpa [standsFor_iff] using opkg
    · simpa using package

/-- A package that is not there is built exactly if no file that is there stands for its source
directory, which has not been marked. -/
theorem absent_built_iff (absent : Absent host out src) :
    alreadyBuilt false out src = none ↔
      (∀ file ∈ out.opkg, ¬ StandsFor file src) ∧ src.buildok = false := by
  rw [not_alreadyBuilt_iff]
  exact ⟨fun h => ⟨h.2.opkg, h.2.marker⟩,
    fun h => ⟨fun there => absurd there absent.package, h.1, h.2⟩⟩

/-! ### An order of packages -/

/-- What one successful run adds to the output. -/
def autobuild (host : Host) (out : Output) (src : Source) : Output :=
  match alreadyBuilt false out src with
  | none => ⟨src.mydir :: out.packages, opkgFile host src :: out.opkg⟩
  | some _ => out

/-- None of the source directories is left out when they are built in this order. -/
def AllBuilt (host : Host) : Output → List Source → Prop
  | _, [] => True
  | out, src :: rest => alreadyBuilt false out src = none ∧ AllBuilt host (autobuild host out src) rest

/-- The first package does not stand for the second. -/
def Distinct (host : Host) (first second : Source) : Prop :=
  (first.mydir = second.mydir → second.buildTwice = true) ∧
    ¬ StandsFor (opkgFile host first) second

theorem apart_cons {file : Name} {files : List Name} :
    Apart (file :: files) src ↔ ¬ StandsFor file src ∧ Apart files src := by
  constructor
  · rintro ⟨opkg, marker⟩
    obtain ⟨first, rest⟩ := List.forall_mem_cons.1 opkg
    exact ⟨first, rest, marker⟩
  · rintro ⟨first, rest, marker⟩
    exact ⟨List.forall_mem_cons.2 ⟨first, rest⟩, marker⟩

/-- What the run of one package changes for another. -/
theorem not_alreadyBuilt_after {second : Source} (h : alreadyBuilt false out src = none) :
    alreadyBuilt false (autobuild host out src) second = none ↔
      Distinct host src second ∧ alreadyBuilt false out second = none := by
  simp only [autobuild, h, not_alreadyBuilt_iff, apart_cons, Distinct, List.mem_cons]
  constructor
  · rintro ⟨package, glob, apart⟩
    exact ⟨⟨fun same => package (.inl same.symm), glob⟩, fun there => package (.inr there), apart⟩
  · rintro ⟨⟨same, glob⟩, package, apart⟩
    exact ⟨fun there => there.elim (fun eq => same eq.symm) package, glob, apart⟩

theorem allBuilt_iff (order : List Source) :
    AllBuilt host out order ↔
      order.Pairwise (Distinct host) ∧ ∀ src ∈ order, alreadyBuilt false out src = none := by
  induction order generalizing out with
  | nil => simp [AllBuilt]
  | cons src rest ih =>
    rw [AllBuilt, ih, List.pairwise_cons, List.forall_mem_cons]
    constructor
    · rintro ⟨built, pairs, later⟩
      have after := fun src h => (not_alreadyBuilt_after built).1 (later src h)
      exact ⟨⟨fun src h => (after src h).1, pairs⟩, built, fun src h => (after src h).2⟩
    · rintro ⟨⟨first, pairs⟩, built, later⟩
      exact ⟨built, pairs, fun src h => (not_alreadyBuilt_after built).2 ⟨first src h, later src h⟩⟩

/-- From an empty output all packages of an order are built exactly if none is marked and none stands
for a later one. -/
theorem all_built_iff (order : List Source) :
    AllBuilt host {} order ↔
      order.Pairwise (Distinct host) ∧ ∀ src ∈ order, src.buildok = false := by
  have start : ∀ src, alreadyBuilt false {} src = none ↔ src.buildok = false := fun src =>
    not_alreadyBuilt_iff.trans ⟨fun h => h.2.marker, fun marker => ⟨nofun, nofun, marker⟩⟩
  simp only [allBuilt_iff, start]

/-- The manual of a program, and the program. -/
def gimpHelp : Name := "gimp-help_2.10.0_x86_64.ipk".toList

def gimp : Source where
  parent := "/home/ydfs/ydfs/build-opkg".toList
  mydir := "gimp-2.10.32".toList

def sampleHost : Host := ⟨"/home/ydfs".toList, "x86_64".toList⟩

/-- The manual stands for the program, but not for `gimmage`. -/
theorem absent_built_iff_gimp :
    ¬ (∀ file ∈ [gimpHelp], ¬ StandsFor file gimp) ∧
      ∀ file ∈ [gimpHelp], ¬ StandsFor file { gimp with mydir := "gimmage-0.2".toList } := by
  have manual : alreadyBuilt false ⟨[], [gimpHelp]⟩ gimp ≠ none := by decide
  have other : alreadyBuilt false ⟨[], [gimpHelp]⟩ { gimp with mydir := "gimmage-0.2".toList } =
      none := by decide
  have absent : Absent sampleHost ⟨[], [gimpHelp]⟩ gimp := ⟨by simp, by decide⟩
  have absent' : Absent sampleHost ⟨[], [gimpHelp]⟩ { gimp with mydir := "gimmage-0.2".toList } :=
    ⟨by simp, by decide⟩
  exact ⟨fun apart => manual ((absent_built_iff absent).2 ⟨apart, rfl⟩),
    ((absent_built_iff absent').1 other).1⟩

/-- The manual of a program stands for the program. -/
theorem gimp_not_built :
    ¬ ∀ (host : Host) (out : Output) (src : Source),
      Absent host out src → alreadyBuilt false out src = none := by
  intro sound
  have built := sound sampleHost ⟨[], [gimpHelp]⟩ gimp ⟨by simp, by decide⟩
  revert built
  decide

end Ydfs.Autobuild.AlreadyBuilt
