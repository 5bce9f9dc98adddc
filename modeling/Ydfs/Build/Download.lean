import Mathlib.Data.List.DropRight
import Mathlib.Data.Set.Insert
import Mathlib.Logic.Function.Basic
import Ydfs.Text.Split
import Ydfs.Transition.Run

/-!
# The download of a tarball

`build_from_url` fetches a tarball unless one of its name is there already, and then starts
`build_archive` on it.  A file `.start` beside the tarball says that its download has begun and not
ended.  The protocol is a state machine over the commands of all runs of `build_core`: a process can
be killed between any two of them, and `wget` with any initial part of the file written.

The marker makes up for every kill.  A `wget` that fails is another matter: the marker stays, but
what has been written is built.  So is a tarball of the same name from another URL.

`PKGURL` is all that `echo-archpkg` has printed, and it stands unquoted.  Of more than two words
`basename` makes nothing, so that the tarball is taken to be the directory of the tarballs, which is
there: nothing is fetched and `build_archive` is started on the directory.  Only of a text with a `::`
a part is taken, which may be a single word.  No word is a pattern that matches a file.
-/

namespace Ydfs.Build

open Transition

namespace Download

/-- A text, a name or a URL. -/
abbrev Name := List Char

/-- What a file holds. -/
abbrev Content := List UInt8

/-! ### Names -/

def isBlank (c : Char) : Bool := c == ' ' || c == '\t' || c == '\n'

/-- The words of an unquoted variable. -/
def words (text : Name) : List Name := Splitting.words isBlank text

/-- `echo` of an unquoted variable. -/
def echo (text : Name) : Name := [' '].intercalate (words text)

/-- What follows the last slash, slashes at the end aside. -/
def lastName (path : Name) : Name :=
  ((path.rdropWhile (· = '/')).reverse.takeWhile (· ≠ '/')).reverse

/-- What `basename` prints, which takes a name and perhaps a suffix.  A first word with a hyphen is
none of its options. -/
def basename : List Name → Name
  | [name] => if name.head? = some '-' then [] else lastName name
  | [name, suffix] =>
    if name.head? = some '-' then []
    else if suffix <:+ lastName name ∧ suffix ≠ lastName name then
      (lastName name).take ((lastName name).length - suffix.length)
    else lastName name
  | _ => []

/-- The marker of a tarball. -/
def started (tarball : Name) : Name := tarball ++ ".start".toList

/-- What becomes of `PKGURL`: of a text with a `::` the third and the fourth field are taken. -/
def urlOf (pkgurl : Name) : Name :=
  if "::".toList <:+: pkgurl then
    [':'].intercalate ((((echo pkgurl).splitOn ':').drop 2).take 2)
  else pkgurl

/-- What `wget` is told to fetch. -/
def urls (pkgurl : Name) : List Name := words (urlOf pkgurl)

/-- The name of the tarball. -/
def tarballOf (pkgurl : Name) : Name := basename (urls pkgurl)

/-- The names that lead to a directory from that of the tarballs; no name leads to itself. -/
def isDirectory (name : Name) : Bool := name = [] ∨ name = ['.'] ∨ name = ['.', '.']

/-- `grep`, for a pattern in which no character but the dot is special. -/
def grep (pattern text : Name) : Bool :=
  text.tails.any fun rest =>
    pattern.length ≤ rest.length ∧ (pattern.zip rest).all fun c => c.1 = '.' ∨ c.1 = c.2

/-- What repositories and the modules of Python and Perl are told by. -/
def elsewhere : List String := ["git://", "opkg-gtk2.git", "git+https://", "pip::", "CPAN:/"]

/-- The entries that are downloaded: no comment, no repository, no module of Python or Perl. -/
def isDownload (pkgurl : Name) : Bool :=
  (echo pkgurl).head? ≠ some '#' ∧ elsewhere.all fun pattern => !grep pattern.toList (echo pkgurl)

/-- What `echo-archpkg` prints for a package with a `PKGBUILD` that is not empty: that it fetches it if
it does, what `ls -l` says of it, the path that is sourced, what the `bash` then opened prints, and the
first source. -/
def echoArchpkg (home pkg : Name) (fetches : Bool) (ls bash : Name) (source : Option Name) : Name :=
  (if fetches then "Get ".toList ++ pkg ++ ['\n'] else []) ++ ls ++
    '\n' :: "DBG source ".toList ++ home ++ "/archpkg/".toList ++ pkg ++
      '\n' :: bash ++ (source.map (· ++ ['\n'])).getD []

/-! ### The protocol -/

/-- The commands of `build_from_url` from the first look at the tarball on, in their order. -/
inductive Phase where
  | dropEmpty
  | dropStarted
  | touch
  | wget
  | dropMarker
  | dropEmptyAgain
  | lookup
  | build
deriving DecidableEq

/-- Where `build_core` stands: no process, between two calls of `build_from_url`, or before a command
of one. -/
inductive Control where
  | stopped
  | looping
  | before (pkgurl : Name) (phase : Phase)

/-- The directory of the tarballs, whether `ydfs-error` exists, and the process. -/
structure World where
  tarballs : Name → Option Content := fun _ => none
  error : Bool := false
  control : Control := .stopped

/-- How `build_archive` ends. -/
inductive Outcome where
  | ok
  | failed
  | killed

/-- What happens: `build_core` is started, it calls `build_from_url` on an entry that is downloaded,
the next command is run, `wget` succeeds or fails with some bytes written (or no file),
`build_archive` ends and leaves the tarballs in some state, or the process is killed, during `wget`
with some bytes written.  What is written is a number of bytes for each URL. -/
inductive Label where
  | run
  | call (pkgurl : Name)
  | command
  | fetched
  | failed (written : Option (List ℕ))
  | built (outcome : Outcome) (tarballs : Name → Option Content)
  | kill (written : Option (List ℕ))

/-- `[ -e name ]`, in the directory of the tarballs. -/
def there (tarballs : Name → Option Content) (n : Name) : Bool :=
  isDirectory n || (tarballs n).isSome

/-- `test -s` or else `rm`, which does not remove a directory. -/
def dropEmpty (n : Name) (tarballs : Name → Option Content) : Name → Option Content :=
  if isDirectory n = false ∧ tarballs n = some [] then Function.update tarballs n none else tarballs

/-- What `wget` writes: one document of all it is told to fetch. -/
def document (remote : Name → Content) (pkgurl : Name) : Content := (urls pkgurl).flatMap remote

/-- What `wget` has written when it does not end. -/
def part (remote : Name → Content) (pkgurl : Name) (written : Option (List ℕ)) : Option Content :=
  written.map fun ks => (List.zipWith (fun url k => (remote url).take k) (urls pkgurl) ks).flatten

/-- A command other than `wget` and `build_archive`. -/
def command (w : World) (p : Name) : Phase → Option World
  | .dropEmpty => some { w with
      tarballs := dropEmpty (basename (words p)) w.tarballs
      control := .before p .dropStarted }
  | .dropStarted => some { w with
      tarballs :=
        if isDirectory (tarballOf p) = false ∧ (w.tarballs (started (tarballOf p))).isSome ∧
            (w.tarballs (tarballOf p)).isSome then
          Function.update w.tarballs (tarballOf p) none
        else w.tarballs
      control := .before p .touch }
  | .touch =>
    if there w.tarballs (tarballOf p) then some { w with control := .before p .dropEmptyAgain }
    else some { w with
      tarballs := Function.update w.tarballs (started (tarballOf p))
        (some ((w.tarballs (started (tarballOf p))).getD []))
      control := .before p .wget }
  | .dropMarker => some { w with
      tarballs := Function.update w.tarballs (started (tarballOf p)) none
      control := .before p .dropEmptyAgain }
  | .dropEmptyAgain => some { w with
      tarballs := dropEmpty (tarballOf p) w.tarballs
      control := .before p .lookup }
  | .lookup =>
    if there w.tarballs (tarballOf p) = false then some { w with error := true, control := .stopped }
    else if w.error then some { w with control := .stopped }
    else some { w with control := .before p .build }
  | .wget => none
  | .build => none

/-- One step; `remote` holds the complete files.  The text of a call is `PKGURL` behind the lines for
`x86_64`. -/
def step (remote : Name → Content) (w : World) : Label → Option World
  | .run =>
    match w.control with
    | .stopped => some { w with error := false, control := .looping }
    | _ => none
  | .call p =>
    match w.control with
    | .looping => if isDownload p then some { w with control := .before p .dropEmpty } else none
    | _ => none
  | .command =>
    match w.control with
    | .before p phase => command w p phase
    | _ => none
  | .fetched =>
    match w.control with
    | .before p .wget => some { w with
        tarballs := Function.update w.tarballs (tarballOf p) (some (document remote p))
        control := .before p .dropMarker }
    | _ => none
  | .failed written =>
    match w.control with
    | .before p .wget => some { w with
        tarballs := Function.update w.tarballs (tarballOf p) (part remote p written)
        control := .before p .dropEmptyAgain }
    | _ => none
  | .built outcome tarballs =>
    match w.control, outcome with
    | .before _ .build, .ok => some { w with tarballs := tarballs, control := .looping }
    | .before _ .build, .failed => some
        { tarballs := tarballs, error := true, control := .stopped }
    | .before _ .build, .killed => some { w with tarballs := tarballs, control := .stopped }
    | _, _ => none
  | .kill written =>
    match w.control with
    | .stopped => none
    | .before p .wget => some { w with
        tarballs := Function.update w.tarballs (tarballOf p) (part remote p written)
        control := .stopped }
    | .before _ .build => none
    | _ => some { w with control := .stopped }

/-! ### What is expected, and when it holds -/

/-- Whenever `build_archive` is about to be started, there is one URL, and the tarball is its complete
file. -/
def OnlyComplete (remote : Name → Content) (w : World) : Prop :=
  ∀ p, w.control = .before p .build → ∃ url, urls p = [url] ∧ isDirectory (tarballOf p) = false ∧
    w.tarballs (tarballOf p) = some (remote url)

/-- The entries have one URL each, and a name for its file.  Two of them have the same tarball only if
it is the same file, and no tarball has the name of another's marker. -/
structure Separate (remote : Name → Content) (lists : Set Name) : Prop where
  single : ∀ p ∈ lists, (∃ url, urls p = [url]) ∧ isDirectory (tarballOf p) = false
  same : ∀ p ∈ lists, ∀ q ∈ lists, tarballOf p = tarballOf q → document remote p = document remote q
  tarball_ne : ∀ p ∈ lists, ∀ q ∈ lists, tarballOf p ≠ started (tarballOf q)
  basename_ne : ∀ p ∈ lists, ∀ q ∈ lists, basename (words p) ≠ started (tarballOf q)

/-- What a step must not do: a `wget` that fails leaves nothing or everything, and `build_archive`
leaves a tarball of the lists and its marker as they are, or removes the tarball. -/
def SafeStep (remote : Name → Content) (lists : Set Name) (w : World) : Label → Prop
  | .call p => p ∈ lists
  | .failed written => ∀ p content, w.control = .before p .wget →
      part remote p written = some content → content = [] ∨ content = document remote p
  | .built _ tarballs => ∀ p ∈ lists, tarballs (tarballOf p) = none ∨
      tarballs (tarballOf p) = w.tarballs (tarballOf p) ∧
        tarballs (started (tarballOf p)) = w.tarballs (started (tarballOf p))
  | _ => True

/-! ### The invariant -/

/-- A tarball of the lists that is not empty and has no marker is complete. -/
def Sound (remote : Name → Content) (lists : Set Name) (tarballs : Name → Option Content) : Prop :=
  ∀ p ∈ lists, ∀ content, tarballs (tarballOf p) = some content → content ≠ [] →
    tarballs (started (tarballOf p)) = none → content = document remote p

/-- What is known before each command. -/
def Stage (remote : Name → Content) (tarballs : Name → Option Content) (p : Name) : Phase → Prop
  | .dropEmpty | .dropStarted => True
  | .touch => tarballs (tarballOf p) = none ∨ tarballs (started (tarballOf p)) = none
  | .wget => (tarballs (started (tarballOf p))).isSome
  | .dropMarker => tarballs (tarballOf p) = some (document remote p)
  | .dropEmptyAgain => ∀ content, tarballs (tarballOf p) = some content → content ≠ [] →
      content = document remote p
  | .lookup | .build => ∀ content, tarballs (tarballOf p) = some content →
      content = document remote p

/-- Tarballs without a marker are complete, and the process is where it knows what it has to. -/
structure Inv (remote : Name → Content) (lists : Set Name) (w : World) : Prop where
  sound : Sound remote lists w.tarballs
  stage : ∀ p phase, w.control = .before p phase →
    p ∈ lists ∧ Stage remote w.tarballs p phase ∧
      (phase = .build → (w.tarballs (tarballOf p)).isSome)

variable {remote : Name → Content} {lists : Set Name} {tarballs : Name → Option Content} {p : Name}

theorem started_injective {n m : Name} (h : started n = started m) : n = m :=
  List.append_cancel_right h

theorem started_ne (n : Name) : started n ≠ n := by
  intro h
  have length := congrArg List.length h
  simp [started] at length

/-- A file that is no marker may be removed. -/
theorem Sound.remove {n : Name} (h : Sound remote lists tarballs)
    (other : ∀ q ∈ lists, n ≠ started (tarballOf q)) :
    Sound remote lists (Function.update tarballs n none) := by
  intro q hq content found full unmarked
  rw [Function.update_of_ne (other q hq).symm] at unmarked
  by_cases hn : tarballOf q = n
  · rw [hn, Function.update_self] at found
    cases found
  · rw [Function.update_of_ne hn] at found
    exact h q hq content found full unmarked

theorem Sound.dropEmpty {n : Name} (h : Sound remote lists tarballs)
    (other : ∀ q ∈ lists, n ≠ started (tarballOf q)) :
    Sound remote lists (dropEmpty n tarballs) := by
  unfold Download.dropEmpty
  split_ifs
  · exact h.remove other
  · exact h

/-- While its marker is there, anything may be written to a tarball. -/
theorem Sound.write (h : Sound remote lists tarballs) (separate : Separate remote lists)
    (hp : p ∈ lists) (marked : (tarballs (started (tarballOf p))).isSome)
    (written : Option Content) :
    Sound remote lists (Function.update tarballs (tarballOf p) written) := by
  intro q hq content found full unmarked
  rw [Function.update_of_ne (separate.tarball_ne p hp q hq).symm] at unmarked
  by_cases hn : tarballOf q = tarballOf p
  · rw [hn] at unmarked
    rw [unmarked] at marked
    cases marked
  · rw [Function.update_of_ne hn] at found
    exact h q hq content found full unmarked

/-- A marker may be made. -/
theorem Sound.touch (h : Sound remote lists tarballs) (separate : Separate remote lists)
    (hp : p ∈ lists) (marker : Content) :
    Sound remote lists (Function.update tarballs (started (tarballOf p)) (some marker)) := by
  intro q hq content found full unmarked
  rw [Function.update_of_ne (separate.tarball_ne q hq p hp)] at found
  by_cases hn : started (tarballOf q) = started (tarballOf p)
  · rw [hn, Function.update_self] at unmarked
    cases unmarked
  · rw [Function.update_of_ne hn] at unmarked
    exact h q hq content found full unmarked

/-- The marker of a complete tarball may be removed. -/
theorem Sound.unmark (h : Sound remote lists tarballs) (separate : Separate remote lists)
    (hp : p ∈ lists) (complete : tarballs (tarballOf p) = some (document remote p)) :
    Sound remote lists (Function.update tarballs (started (tarballOf p)) none) := by
  intro q hq content found full unmarked
  rw [Function.update_of_ne (separate.tarball_ne q hq p hp)] at found
  by_cases hn : tarballOf q = tarballOf p
  · rw [hn, complete] at found
    rw [separate.same q hq p hp hn]
    exact (Option.some.inj found).symm
  · rw [Function.update_of_ne fun same => hn (started_injective same)] at unmarked
    exact h q hq content found full unmarked

/-- `build_archive` may leave the tarballs as they are, or remove them. -/
theorem Sound.built {tarballs' : Name → Option Content} (h : Sound remote lists tarballs)
    (safe : ∀ p ∈ lists, tarballs' (tarballOf p) = none ∨
      tarballs' (tarballOf p) = tarballs (tarballOf p) ∧
        tarballs' (started (tarballOf p)) = tarballs (started (tarballOf p))) :
    Sound remote lists tarballs' := by
  intro p hp content found full unmarked
  obtain missing | ⟨same, marker⟩ := safe p hp
  · rw [missing] at found
    cases found
  · exact h p hp content (same ▸ found) full (marker ▸ unmarked)

/-! ### The steps -/

/-- A tarball of the lists is no directory. -/
theorem Separate.there_eq (separate : Separate remote lists) (hp : p ∈ lists)
    (tarballs : Name → Option Content) :
    there tarballs (tarballOf p) = (tarballs (tarballOf p)).isSome := by
  rw [there, (separate.single p hp).2, Bool.false_or]

theorem dropEmpty_self {content : Content} (file : isDirectory (tarballOf p) = false)
    (h : Download.dropEmpty (tarballOf p) tarballs (tarballOf p) = some content) :
    tarballs (tarballOf p) = some content ∧ content ≠ [] := by
  unfold Download.dropEmpty at h
  split_ifs at h with empty
  · rw [Function.update_self] at h
    cases h
  · exact ⟨h, fun hc => empty ⟨file, hc ▸ h⟩⟩

variable {w w' : World}

/-- The process is before a command. -/
theorem Inv.before {phase : Phase} (sound : Sound remote lists w.tarballs)
    (control : w.control = .before p phase) (hp : p ∈ lists)
    (stage : Stage remote w.tarballs p phase)
    (found : phase = .build → (w.tarballs (tarballOf p)).isSome) : Inv remote lists w where
  sound := sound
  stage := by
    intro q phase' hq
    rw [control] at hq
    obtain ⟨rfl, rfl⟩ := Control.before.inj hq
    exact ⟨hp, stage, found⟩

/-- The process is not before a command. -/
theorem Inv.idle (sound : Sound remote lists w.tarballs)
    (control : ∀ p phase, w.control ≠ .before p phase) : Inv remote lists w :=
  ⟨sound, fun p phase h => absurd h (control p phase)⟩

/-- The commands keep the invariant. -/
theorem Inv.command {phase : Phase} (inv : Inv remote lists w)
    (separate : Separate remote lists) (control : w.control = .before p phase)
    (h : command w p phase = some w') : Inv remote lists w' := by
  obtain ⟨hp, stage, -⟩ := inv.stage p phase control
  have tarball_ne := separate.tarball_ne p hp
  have file := (separate.single p hp).2
  cases phase with
  | dropEmpty =>
    obtain rfl := Option.some.inj h
    exact .before (inv.sound.dropEmpty (separate.basename_ne p hp)) rfl hp trivial nofun
  | dropStarted =>
    obtain rfl := Option.some.inj h
    by_cases both : (w.tarballs (started (tarballOf p))).isSome ∧ (w.tarballs (tarballOf p)).isSome
    · refine .before ?_ rfl hp ?_ nofun
      · simp only [file, both, and_self, if_true]
        exact inv.sound.remove tarball_ne
      · simp only [file, both, and_self, if_true]
        exact .inl (Function.update_self ..)
    · refine .before ?_ rfl hp ?_ nofun
      · simp only [both, and_false, if_false]
        exact inv.sound
      · simp only [both, and_false, if_false]
        rw [not_and_or, Option.not_isSome_iff_eq_none, Option.not_isSome_iff_eq_none] at both
        exact both.symm
  | touch =>
    simp only [Download.command, separate.there_eq hp] at h
    split_ifs at h with there
    · obtain rfl := Option.some.inj h
      refine .before inv.sound rfl hp ?_ nofun
      intro content found full
      -- the tarball is there, so its marker is not
      rcases stage with missing | unmarked
      · rw [missing] at there
        cases there
      · exact inv.sound p hp content found full unmarked
    · obtain rfl := Option.some.inj h
      refine .before (inv.sound.touch separate hp _) rfl hp ?_ nofun
      simp only [Stage, Function.update_self, Option.isSome_some]
  | wget => cases h
  | dropMarker =>
    obtain rfl := Option.some.inj h
    refine .before (inv.sound.unmark separate hp stage) rfl hp ?_ nofun
    intro content found _
    dsimp only at found
    rw [Function.update_of_ne (started_ne _).symm] at found
    exact Option.some.inj (found.symm.trans stage)
  | dropEmptyAgain =>
    obtain rfl := Option.some.inj h
    refine .before (inv.sound.dropEmpty tarball_ne) rfl hp ?_ nofun
    intro content found
    obtain ⟨found, full⟩ := dropEmpty_self file found
    exact stage content found full
  | lookup =>
    simp only [Download.command, separate.there_eq hp] at h
    split_ifs at h with missing error
    · obtain rfl := Option.some.inj h
      exact .idle inv.sound nofun
    · obtain rfl := Option.some.inj h
      exact .idle inv.sound nofun
    · obtain rfl := Option.some.inj h
      exact .before inv.sound rfl hp stage fun _ => Bool.not_eq_false _ ▸ missing
  | build => cases h

/-- An allowed step keeps the invariant. -/
theorem Inv.step {a : Label} (inv : Inv remote lists w) (separate : Separate remote lists)
    (safe : SafeStep remote lists w a) (h : step remote w a = some w') : Inv remote lists w' := by
  cases a with
  | run =>
    simp only [Download.step] at h
    split at h
    · obtain rfl := Option.some.inj h
      exact .idle inv.sound nofun
    · cases h
  | call p =>
    simp only [Download.step] at h
    split at h
    · split_ifs at h
      obtain rfl := Option.some.inj h
      exact .before inv.sound rfl safe trivial nofun
    · cases h
  | command =>
    simp only [Download.step] at h
    split at h
    next p phase control => exact inv.command separate control h
    · cases h
  | fetched =>
    simp only [Download.step] at h
    split at h
    next p control =>
      obtain ⟨hp, marked, -⟩ := inv.stage p .wget control
      obtain rfl := Option.some.inj h
      exact .before (inv.sound.write separate hp marked _) rfl hp (Function.update_self ..) nofun
    · cases h
  | failed written =>
    simp only [Download.step] at h
    split at h
    next p control =>
      obtain ⟨hp, marked, -⟩ := inv.stage p .wget control
      obtain rfl := Option.some.inj h
      refine .before (inv.sound.write separate hp marked _) rfl hp ?_ nofun
      intro content found full
      dsimp only at found
      rw [Function.update_self] at found
      exact (safe p content control found).resolve_left full
    · cases h
  | built outcome tarballs =>
    have sound : Sound remote lists tarballs := inv.sound.built safe
    simp only [Download.step] at h
    split at h
    · obtain rfl := Option.some.inj h
      exact .idle sound nofun
    · obtain rfl := Option.some.inj h
      exact .idle sound nofun
    · obtain rfl := Option.some.inj h
      exact .idle sound nofun
    · cases h
  | kill written =>
    simp only [Download.step] at h
    split at h
    · cases h
    next p control =>
      obtain ⟨hp, marked, -⟩ := inv.stage p .wget control
      obtain rfl := Option.some.inj h
      exact .idle (inv.sound.write separate hp marked _) nofun
    · cases h
    · obtain rfl := Option.some.inj h
      exact .idle inv.sound nofun

/-- Where no failed `wget` leaves a part and no tarball is taken for another, only complete tarballs
are built. -/
theorem only_complete_downloads (remote : Name → Content) (lists : Set Name)
    (separate : Separate remote lists) (w : World)
    (h : Reaches (Download.step remote) (SafeStep remote lists) {} w) : OnlyComplete remote w := by
  have start : Inv remote lists {} := .idle (fun _ _ _ found => nomatch found) nofun
  have inv : Inv remote lists w := h.invariant start fun _ _ _ inv safe taken =>
    inv.step separate safe taken
  intro p control
  obtain ⟨hp, stage, found⟩ := inv.stage p .build control
  obtain ⟨content, hc⟩ := Option.isSome_iff_exists.1 (found rfl)
  obtain ⟨⟨url, only⟩, file⟩ := separate.single p hp
  have complete : document remote p = remote url := by
    rw [document, only, List.flatMap_singleton]
  exact ⟨url, only, file, by rw [hc, stage content hc, complete]⟩

/-- What is printed for a package whose `PKGBUILD` is of another year: with no time in the listing the
`::` comes where the fields of `cut` give the URL. -/
def dated : Name :=
  echoArchpkg "/h".toList "m4".toList false "-rw-r--r-- 1 u u 9 Nov 19  2025 /h/archpkg/m4".toList []
    (some "m4::ftp://h/m4.xz".toList)

theorem urls_dated : urls dated = ["ftp://h/m4.xz".toList] := by decide +kernel

theorem tarballOf_dated : tarballOf dated = "m4.xz".toList := by decide +kernel

theorem basename_dated : basename (words dated) = [] := by decide +kernel

theorem separate_dated (remote : Name → Content) : Separate remote {dated} where
  single := by
    rintro p rfl
    exact ⟨⟨_, urls_dated⟩, by rw [tarballOf_dated]; decide⟩
  same := by
    rintro p rfl q rfl -
    rfl
  tarball_ne := by
    rintro p rfl q rfl
    exact (started_ne _).symm
  basename_ne := by
    rintro p rfl q rfl
    rw [basename_dated]
    exact (List.append_ne_nil_of_right_ne_nil _ (by decide)).symm

/-- A download that is killed after one byte, and one that ends. -/
def interrupted : List Label :=
  [.run, .call dated, .command, .command, .command, .kill (some [1]),
    .run, .call dated, .command, .command, .command, .fetched, .command, .command, .command]

theorem isDownload_dated : isDownload dated = true := by decide +kernel

theorem only_complete_downloads_interrupted :
    ∃ w, exec (step fun _ => [1, 2]) {} interrupted = some w ∧ w.control = .before dated .build ∧
      OnlyComplete (fun _ => [1, 2]) w := by
  have file : isDirectory (tarballOf dated) = false := ((separate_dated fun _ => []).single _ rfl).2
  have directory : isDirectory [] = true := rfl
  obtain ⟨w, taken, control⟩ : ∃ w, exec (step fun _ => [1, 2]) {} interrupted = some w ∧
      w.control = .before dated .build := by
    simp [interrupted, exec_cons, step, command, there, dropEmpty, document, part, isDownload_dated,
      basename_dated, urls_dated, file, directory, started_ne, (started_ne _).symm]
  have allowed : Allowed (step fun _ => [1, 2]) (SafeStep (fun _ => [1, 2]) {dated}) {}
      interrupted := by
    simp [interrupted, Allowed, SafeStep, step, command, there, dropEmpty, document, part,
      isDownload_dated, basename_dated, urls_dated, file, directory, started_ne,
      (started_ne _).symm]
  exact ⟨w, taken, control, only_complete_downloads _ {dated} (separate_dated _) _
    (reaches_of_exec taken allowed)⟩

/-! ### What is built otherwise -/

theorem basename_of_several {ws : List Name} (h : 2 < ws.length) : basename ws = [] := by
  match ws, h with
  | _ :: _ :: _ :: _, _ => rfl

/-- Whatever `echo-archpkg` prints has more than two words. -/
theorem several_echoArchpkg (home pkg : Name) (fetches : Bool) (ls bash : Name)
    (source : Option Name) : 2 < (words (echoArchpkg home pkg fetches ls bash source)).length := by
  obtain ⟨before, after, split⟩ : ∃ before after, echoArchpkg home pkg fetches ls bash source =
      before ++ '\n' :: ("DBG".toList ++ ' ' :: ("source".toList ++ ' ' ::
        ((home ++ "/archpkg/".toList ++ pkg) ++ '\n' :: after))) :=
    ⟨(if fetches then "Get ".toList ++ pkg ++ ['\n'] else []) ++ ls,
      bash ++ (source.map (· ++ ['\n'])).getD [], by simp [echoArchpkg]⟩
  have path : words (home ++ "/archpkg/".toList ++ pkg) ≠ [] :=
    Splitting.words_ne_nil (a := '/') (by simp) rfl
  rw [split]
  simp only [words] at path ⊢
  rw [Splitting.words_append_cons rfl, Splitting.words_append_cons rfl,
    Splitting.words_append_cons rfl, Splitting.words_append_cons rfl]
  have dbg : Splitting.words isBlank "DBG".toList = ["DBG".toList] := by decide
  have source : Splitting.words isBlank "source".toList = ["source".toList] := by decide
  have := List.length_pos_iff.2 path
  rw [dbg, source]
  simp only [List.length_append, List.length_singleton]
  omega

theorem urls_of_plain {p : Name} (plain : ¬ "::".toList <:+: p) : urls p = words p := by
  rw [urls, urlOf, if_neg plain]

/-- An entry whose name leads to a directory has `build_archive` started on that. -/
theorem directory_built (remote : Name → Content) {w : World} {p : Name}
    (looping : w.control = .looping) (fine : w.error = false) (entry : isDownload p = true)
    (directory : isDirectory (tarballOf p) = true) :
    ∃ w', exec (step remote) w [.call p, .command, .command, .command, .command, .command] = some w' ∧
      w'.control = .before p .build := by
  simp [exec_cons, step, command, there, looping, fine, entry, directory]

/-- What `echo-archpkg` prints without a `::` is such an entry. -/
theorem isDirectory_echoArchpkg {home pkg ls bash : Name} {fetches : Bool} {source : Option Name}
    (plain : ¬ "::".toList <:+: echoArchpkg home pkg fetches ls bash source) :
    isDirectory (tarballOf (echoArchpkg home pkg fetches ls bash source)) = true := by
  rw [tarballOf, urls_of_plain plain, basename_of_several (several_echoArchpkg ..)]
  rfl

/-- A part of the file that `wget` has written before it fails is built. -/
theorem part_built {w : World} {p : Name} {written : Option (List ℕ)} {content : Content}
    (fetching : w.control = .before p .wget) (fine : w.error = false)
    (left : part remote p written = some content) (nonempty : content ≠ []) :
    ∃ w', exec (step remote) w [.failed written, .command, .command] = some w' ∧
      w'.control = .before p .build ∧ w'.tarballs (tarballOf p) = some content := by
  simp [exec_cons, step, command, there, dropEmpty, fetching, fine, left, nonempty]

/-- What is printed for the entry `archlinux:m4` when its `PKGBUILD` is not there yet. -/
def m4 : Name :=
  echoArchpkg "/h".toList "m4".toList true "-rw-r--r-- 1 u u 9 Nov 19 21:12 /h/archpkg/m4".toList []
    (some "https://ftp.gnu.org/gnu/m4/m4-1.4.19.tar.xz".toList)

theorem isDownload_m4 : isDownload m4 = true := by decide +kernel

theorem plain_m4 : ¬ "::".toList <:+: m4 := by decide +kernel

/-- `build_archive` is started on the directory of the tarballs. -/
theorem not_only_complete_downloads :
    ¬ ∀ remote w, Run (step remote) {} w → OnlyComplete remote w := by
  intro h
  obtain ⟨w, taken, control⟩ := directory_built (fun _ => [1]) (w := { control := .looping }) rfl rfl
    isDownload_m4 (isDirectory_echoArchpkg plain_m4)
  have run : Run (step fun _ => [1]) {} w :=
    (Reaches.tail .refl trivial (a := .run) rfl).trans (run_of_exec taken)
  obtain ⟨url, only, -⟩ := h _ w run m4 control
  have several : 2 < (urls m4).length := by
    rw [urls_of_plain plain_m4]
    exact several_echoArchpkg ..
  rw [only] at several
  exact absurd several (by simp)

end Download

end Ydfs.Build
