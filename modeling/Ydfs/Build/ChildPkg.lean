import Mathlib.Data.Finset.Card
import Mathlib.Logic.Function.Basic
import Mathlib.Tactic.SplitIfs
import Ydfs.Transition.Recursion

/-!
# `get_child_pkg` and its helpers

`build_core` walks the dependencies of a package with a recursive shell function.  All levels of the
recursion share the variables of the shell, and the directory `archpkg` is the only record of what
has been visited.  A download of a PKGBUILD may turn out differently each time it is tried, so that
its outcome depends on the number of earlier attempts.  A build is recorded in `built`; it returns or
leaves the shell (`exited`), after which nothing is done any more.
-/

namespace Ydfs.Build

open Transition

/-- A PKGBUILD as `source` sees it: the words of its array `depends`, when it sets one. -/
structure Fragment where
  depends : Option (List String)

/-- What `wget` finds: the outcome of each attempt to download a PKGBUILD.  Only finitely many
packages have one.  `exits` says of the build of `PACK`, after so many others, whether it leaves the
shell. -/
structure Repository where
  fetch : String → ℕ → Option Fragment
  exits : Option String → ℕ → Bool
  packages : Finset String
  fetch_mem : ∀ pkg k f, fetch pkg k = some f → pkg ∈ packages

/-- The array `donotbuild`. -/
def donotbuild : List String :=
  ["gtk-update-icon-cache", "gcc-libs", "sh", "libsysprof-capture", "util-linux-libs",
    "systemd-libs", "glibc"]

/-- The names that `get_alias` replaces. -/
def aliases : List (String × String) :=
  [("libkeyutils.so", "keyutils"), ("libcom_err.so", "e2fsprogs"), ("libss.so", "e2fsprogs"),
    ("libverto-module-base", "libverto"), ("libverto.so", "libverto"),
    ("libjpeg", "libjpeg-turbo"), ("libjpeg.so", "libjpeg-turbo"), ("libattr.so", "attr"),
    ("libsysprof-capture", "sysprof"), ("libidn2.so", "libidn2"),
    ("gobject-introspection-runtime", "gobject-introspection"), ("libreadline.so", "readline"),
    ("libcups", "cups"), ("libcolord", "colord"), ("libncursesw.so", "ncurses"),
    ("libexpat", "expat"), ("libexpat.so", "expat"), ("libldap", "openldap"),
    ("libfreetype.so", "freetype2"), ("util-linux-libs", "util-linux")]

/-- `get_alias`. -/
def getAlias (pkg : String) : String := (aliases.lookup pkg).getD pkg

/-- `get_special_pkg`. -/
def getSpecialPkg (pkg : String) : Bool := pkg ∈ donotbuild

/-- `ready_to_build` on the words of `$depends`: its answer, and what it leaves in `notfound`. -/
def readyToBuild : List String → Option Bool → Bool × Option Bool
  | [], notfound => (notfound != some true, notfound)
  | i :: l, _ => if i ∈ donotbuild then readyToBuild l (some false) else (false, some true)

/-- The directory `archpkg`, the attempts made for each package, the variables of the shell, the
values of `PACK` at each build, newest first, and whether the shell has been left.  `depends` is an
array of strings, each given by its words; an unset variable is `none`. -/
structure Shell where
  archpkg : String → Option Fragment := fun _ => none
  attempts : String → ℕ := fun _ => 0
  depends : List (List String) := []
  d : Option String := none
  notfound : Option Bool := none
  loop : ℕ := 0
  built : List (Option String) := []
  exited : Bool := false

namespace Shell

/-- `echo-archpkg`: download the PKGBUILD unless it is there; an empty file is removed again.  The
`bash` that it starts before it prints the source comes to its end. -/
def echoArchpkg (repo : Repository) (s : Shell) (pkg : String) : Shell :=
  if (s.archpkg pkg).isSome then s
  else { s with
    archpkg := Function.update s.archpkg pkg (repo.fetch pkg (s.attempts pkg))
    attempts := Function.update s.attempts pkg (s.attempts pkg + 1) }

/-- `source $HOME/archpkg/$pkg`: without the file, or without a line `depends`, the variable keeps
its value. -/
def source (s : Shell) (pkg : String) : Shell :=
  match s.archpkg pkg with
  | some ⟨some l⟩ => { s with depends := l.map fun w => [w] }
  | _ => s

/-- `depends=$@` with the elements of `depends` as arguments: an assignment to an array replaces its
first element. -/
def assignDepends (s : Shell) : Shell :=
  { s with depends := s.depends.flatten :: s.depends.tail }

/-- The branch of a package that is ready: `$d` is looked up, and built as `PACK`.  When `d` is not
set, `echo-archpkg` finds the directory `archpkg` itself. -/
def build (repo : Repository) (s : Shell) : Shell :=
  let found := match s.d with
    | some d => s.echoArchpkg repo d
    | none => s
  { found with built := s.d :: s.built, exited := repo.exits s.d s.built.length }

/-- `get_child_pkg` up to its loop. -/
def enter (repo : Repository) (s : Shell) : Shell :=
  if s.exited then s
  else
    let s := s.assignDepends
    let ready := readyToBuild (s.depends.headD []) s.notfound
    let s := { s with notfound := ready.2 }
    if ready.1 then s.build repo else s

/-- The words of `${depends[@]}`, as long as the shell has not been left. -/
def words (s : Shell) : List String := if s.exited then [] else s.depends.flatten

/-- The loop passes over the package. -/
def settled (s : Shell) (pkg : String) : Bool := (s.archpkg pkg).isSome || getSpecialPkg pkg

/-- One iteration of the loop. -/
def visit (repo : Repository) (s : Shell) (pkg : String) : Visit Shell :=
  if s.exited then .skip s
  else
    let d := getAlias pkg
    let s := { s with d := some d }
    if s.settled d then .skip s else .call ((s.echoArchpkg repo d).source d)

/-- `loop` counts the calls that have returned. -/
def leave (s : Shell) : Shell := if s.exited then s else { s with loop := s.loop + 1 }

end Shell

/-- `get_child_pkg "${depends[@]}"`. -/
def getChildPkg (repo : Repository) : LoopProgram Shell String where
  enter := Shell.enter repo
  words := Shell.words
  visit := Shell.visit repo
  leave := Shell.leave

/-- An entry `archlastbuild:pkg` of the list. -/
def archlastbuild (repo : Repository) (forceBuild packageExists : Bool) (pkg : String) (n : ℕ)
    (s : Shell) : Option Shell :=
  if !forceBuild && packageExists then some s
  else (getChildPkg repo).eval n ((s.echoArchpkg repo pkg).source pkg)

namespace Shell

variable {repo : Repository} {s s' t : Shell} {q w : String}

/-- Nothing has left the directory `archpkg`. -/
def Grows (s s' : Shell) : Prop := ∀ q, (s.archpkg q).isSome → (s'.archpkg q).isSome

theorem Grows.refl (s : Shell) : s.Grows s := fun _ h => h

theorem Grows.trans (h : s.Grows s') (h' : s'.Grows t) : s.Grows t := fun q hq => h' q (h q hq)

theorem Grows.settled (h : s.Grows s') (hs : s.settled q = true) : s'.settled q = true := by
  simp only [Shell.settled, Bool.or_eq_true] at hs ⊢
  exact hs.imp (h q) id

/-! ## Downloads -/

theorem echoArchpkg_of_fail (missing : s.archpkg q = none) (fail : repo.fetch q (s.attempts q) = none) :
    s.echoArchpkg repo q =
      { s with attempts := Function.update s.attempts q (s.attempts q + 1) } := by
  have same : Function.update s.archpkg q none = s.archpkg :=
    Function.update_eq_self_iff.2 missing.symm
  simp [echoArchpkg, missing, fail, same]

theorem grows_echoArchpkg (s : Shell) (q : String) : s.Grows (s.echoArchpkg repo q) := by
  intro r hr
  unfold echoArchpkg
  split_ifs with hq
  · exact hr
  · have hne : r ≠ q := by
      rintro rfl
      exact hq hr
    simpa [Function.update_of_ne hne] using hr

theorem depends_echoArchpkg (s : Shell) (q : String) :
    (s.echoArchpkg repo q).depends = s.depends := by
  unfold echoArchpkg
  split_ifs <;> rfl

theorem d_echoArchpkg (s : Shell) (q : String) : (s.echoArchpkg repo q).d = s.d := by
  unfold echoArchpkg
  split_ifs <;> rfl

theorem built_echoArchpkg (s : Shell) (q : String) : (s.echoArchpkg repo q).built = s.built := by
  unfold echoArchpkg
  split_ifs <;> rfl

theorem exited_echoArchpkg (s : Shell) (q : String) :
    (s.echoArchpkg repo q).exited = s.exited := by
  unfold echoArchpkg
  split_ifs <;> rfl

theorem attempts_le_echoArchpkg (s : Shell) (q r : String) :
    s.attempts r ≤ (s.echoArchpkg repo q).attempts r := by
  unfold echoArchpkg
  split_ifs
  · exact le_rfl
  · simp only [Function.update_apply]
    split_ifs with hr
    · subst hr
      exact Nat.le_succ _
    · exact le_rfl

theorem archpkg_echoArchpkg_of_none (s : Shell) (q : String)
    (missing : (s.echoArchpkg repo q).archpkg q = none) :
    (s.echoArchpkg repo q).archpkg = s.archpkg := by
  unfold echoArchpkg at missing ⊢
  split_ifs at missing ⊢ with hq
  · rfl
  · simp only [Function.update_self] at missing
    rw [missing]
    exact Function.update_eq_self_iff.2 (Option.not_isSome_iff_eq_none.1 hq).symm

/-- A package whose next attempt fails stays away. -/
theorem archpkg_echoArchpkg_of_fail (missing : s.archpkg q = none)
    (fail : repo.fetch q (s.attempts q) = none) (r : String) :
    (s.echoArchpkg repo r).archpkg q = none := by
  by_cases hqr : q = r
  · subst hqr
    rw [echoArchpkg_of_fail missing fail]
    exact missing
  · unfold echoArchpkg
    split_ifs
    · exact missing
    · simpa [Function.update_of_ne hqr] using missing

/-! ## Entering a call -/

/-- A download depends on the directory and on the number of attempts. -/
theorem echoArchpkg_congr (ha : t.archpkg = s.archpkg) (hk : t.attempts = s.attempts) (q : String) :
    (t.echoArchpkg repo q).archpkg = (s.echoArchpkg repo q).archpkg ∧
      (t.echoArchpkg repo q).attempts = (s.echoArchpkg repo q).attempts := by
  unfold echoArchpkg
  rw [ha, hk]
  split_ifs
  · exact ⟨ha, hk⟩
  · exact ⟨rfl, rfl⟩

theorem depends_build (s : Shell) : (s.build repo).depends = s.depends := by
  unfold build
  dsimp only
  split
  · exact depends_echoArchpkg _ _
  · rfl

/-- A call assigns `depends`, and a package that is ready is built. -/
theorem enter_eq (repo : Repository) (s : Shell) : s.enter repo = s ∨
    ∃ notfound, s.enter repo = { s.assignDepends with notfound } ∨
      s.enter repo = build repo { s.assignDepends with notfound } := by
  unfold enter
  by_cases left : s.exited = true
  · exact .inl (if_pos left)
  · rw [if_neg left]
    refine .inr ⟨(readyToBuild (s.assignDepends.depends.headD []) s.notfound).2, ?_⟩
    dsimp only
    split_ifs
    · exact .inr rfl
    · exact .inl rfl

/-- A call builds nothing but the package in `$d`. -/
theorem built_enter (repo : Repository) (s : Shell) :
    (s.enter repo).built = s.built ∨ (s.enter repo).built = s.d :: s.built := by
  obtain h | ⟨notfound, h | h⟩ := enter_eq repo s
  · rw [h]
    exact .inl rfl
  · rw [h]
    exact .inl rfl
  · rw [h]
    exact .inr rfl

/-- Nothing is built but when the list is ready. -/
theorem enter_of_not_ready (h : s.exited = false)
    (unready : (readyToBuild s.depends.flatten s.notfound).1 = false) :
    (s.enter repo).built = s.built ∧ (s.enter repo).exited = false := by
  have list : s.assignDepends.depends.headD [] = s.depends.flatten := rfl
  unfold enter
  rw [if_neg (by simp [h])]
  dsimp only
  rw [list, if_neg (by simpa [assignDepends] using unready)]
  exact ⟨rfl, h⟩

/-- A list that is ready has the package in `$d` built, which may leave the shell. -/
theorem enter_of_ready (h : s.exited = false)
    (ready : (readyToBuild s.depends.flatten s.notfound).1 = true) :
    (s.enter repo).built = s.d :: s.built ∧
      (s.enter repo).exited = repo.exits s.d s.built.length := by
  have list : s.assignDepends.depends.headD [] = s.depends.flatten := rfl
  unfold enter
  rw [if_neg (by simp [h])]
  dsimp only
  rw [list, if_pos (by simpa [assignDepends] using ready)]
  exact ⟨rfl, rfl⟩

theorem depends_enter (h : s.exited = false) :
    (s.enter repo).depends = s.depends.flatten :: s.depends.tail := by
  unfold enter
  rw [if_neg (by simp [h])]
  dsimp only
  split_ifs
  · rw [depends_build]
    rfl
  · rfl

/-- Entering a call downloads nothing but the PKGBUILD of `$d`. -/
theorem enter_cases (repo : Repository) (s : Shell) :
    ((s.enter repo).archpkg = s.archpkg ∧ (s.enter repo).attempts = s.attempts) ∨
      ∃ d, s.d = some d ∧ (s.enter repo).archpkg = (s.echoArchpkg repo d).archpkg ∧
        (s.enter repo).attempts = (s.echoArchpkg repo d).attempts := by
  obtain h | ⟨notfound, h | h⟩ := enter_eq repo s
  · rw [h]
    exact .inl ⟨rfl, rfl⟩
  · rw [h]
    exact .inl ⟨rfl, rfl⟩
  · rw [h]
    cases hd : s.d with
    | none =>
      refine .inl ?_
      simp [build, assignDepends, hd]
    | some d =>
      refine .inr ⟨d, rfl, ?_⟩
      simpa [build, assignDepends, hd] using
        echoArchpkg_congr (s := s) (t := { s.assignDepends with notfound }) rfl rfl d

theorem words_of_exited (h : s.exited = true) : s.words = [] := if_pos h

theorem words_of_not_exited (h : s.exited = false) : s.words = s.depends.flatten := by
  rw [words, if_neg (by simp [h])]

theorem enter_of_exited (h : s.exited = true) : s.enter repo = s := if_pos h

theorem words_enter (before : s.exited = false) (after : (s.enter repo).exited = false) :
    (s.enter repo).words = s.words ++ s.depends.tail.flatten := by
  rw [words_of_not_exited after, words_of_not_exited before, depends_enter before]
  rfl

/-- Entering the nested call adds no package to the list. -/
theorem mem_of_mem_words_enter (h : w ∈ (s.enter repo).words) : w ∈ s.words := by
  cases before : s.exited with
  | true => rwa [enter_of_exited before] at h
  | false =>
    cases after : (s.enter repo).exited with
    | true =>
      rw [words_of_exited after] at h
      cases h
    | false =>
      rw [words_enter before after, List.mem_append] at h
      refine h.elim id fun tail => ?_
      obtain ⟨l, hl, hw⟩ := List.mem_flatten.1 tail
      rw [words_of_not_exited before]
      exact List.mem_flatten.2 ⟨l, List.mem_of_mem_tail hl, hw⟩

theorem grows_enter (s : Shell) : s.Grows (s.enter repo) := by
  rcases enter_cases repo s with ⟨ha, -⟩ | ⟨d, -, ha, -⟩
  · exact fun q hq => ha ▸ hq
  · exact fun q hq => ha ▸ grows_echoArchpkg s d q hq

theorem attempts_le_enter (s : Shell) (q : String) :
    s.attempts q ≤ (s.enter repo).attempts q := by
  rcases enter_cases repo s with ⟨-, ha⟩ | ⟨d, -, -, ha⟩
  · rw [ha]
  · rw [ha]
    exact attempts_le_echoArchpkg s d q

theorem archpkg_enter_of_none (hd : s.d = some q) (missing : (s.enter repo).archpkg q = none) :
    (s.enter repo).archpkg = s.archpkg := by
  rcases enter_cases repo s with ⟨ha, -⟩ | ⟨d, hd', ha, -⟩
  · exact ha
  · obtain rfl : q = d := Option.some.inj (hd.symm.trans hd')
    rw [ha] at missing ⊢
    exact archpkg_echoArchpkg_of_none s q missing

theorem archpkg_enter_of_fail (missing : s.archpkg q = none)
    (fail : repo.fetch q (s.attempts q) = none) : (s.enter repo).archpkg q = none := by
  rcases enter_cases repo s with ⟨ha, -⟩ | ⟨d, -, ha, -⟩
  · rw [ha]
    exact missing
  · rw [ha]
    exact archpkg_echoArchpkg_of_fail missing fail d

/-! ## One iteration -/

/-- The state in which the loop of `t` visits the missing package `q`. -/
def load (repo : Repository) (t : Shell) (q : String) : Shell :=
  (Shell.echoArchpkg repo { t with d := some q } q).source q

theorem visit_exited (h : t.exited = true) : t.visit repo w = .skip t := if_pos h

theorem visit_settled (here : t.exited = false) (h : t.settled (getAlias w) = true) :
    t.visit repo w = .skip { t with d := some (getAlias w) } := by
  rw [visit, if_neg (by simp [here])]
  exact if_pos h

theorem visit_missing (here : t.exited = false) (h : t.settled (getAlias w) = false) :
    t.visit repo w = .call (t.load repo (getAlias w)) := by
  rw [visit, if_neg (by simp [here])]
  exact if_neg (by exact Bool.eq_false_iff.1 h)

/-- A package that is visited is missing. -/
theorem missing_of_visit (hv : t.visit repo w = .call s') : t.exited = false ∧
    t.settled (getAlias w) = false ∧ s' = t.load repo (getAlias w) := by
  rcases Bool.eq_false_or_eq_true t.exited with left | here
  · cases (visit_exited left).symm.trans hv
  · cases hw : t.settled (getAlias w) with
    | true => cases (visit_settled here hw).symm.trans hv
    | false =>
      cases (visit_missing here hw).symm.trans hv
      exact ⟨here, rfl, rfl⟩

/-- A package that is passed over is settled, as long as the shell has not been left. -/
theorem settled_of_skip (hv : t.visit repo w = .skip s') : t.exited = true ∧ s' = t ∨
    t.exited = false ∧ t.settled (getAlias w) = true ∧ s' = { t with d := some (getAlias w) } := by
  rcases Bool.eq_false_or_eq_true t.exited with left | here
  · cases (visit_exited left).symm.trans hv
    exact .inl ⟨left, rfl⟩
  · cases hw : t.settled (getAlias w) with
    | true =>
      cases (visit_settled here hw).symm.trans hv
      exact .inr ⟨here, rfl, rfl⟩
    | false => cases (visit_missing here hw).symm.trans hv

theorem archpkg_of_not_settled (h : s.settled q = false) : s.archpkg q = none := by
  simp only [settled, Bool.or_eq_false_iff, Option.isSome_eq_false_iff, Option.isNone_iff_eq_none]
    at h
  exact h.1

theorem source_of_none (h : s.archpkg q = none) : s.source q = s := by
  unfold source
  rw [h]

theorem load_of_fail (missing : t.archpkg q = none) (fail : repo.fetch q (t.attempts q) = none) :
    t.load repo q =
      { t with d := some q, attempts := Function.update t.attempts q (t.attempts q + 1) } := by
  have same := echoArchpkg_of_fail (s := { t with d := some q }) missing fail
  rw [load, same]
  exact source_of_none missing

theorem archpkg_source (s : Shell) (q : String) : (s.source q).archpkg = s.archpkg := by
  unfold source
  split <;> rfl

theorem d_load (t : Shell) (q : String) : (t.load repo q).d = some q := by
  unfold load source
  split
  · exact d_echoArchpkg _ q
  · exact d_echoArchpkg _ q

theorem built_load (t : Shell) (q : String) : (t.load repo q).built = t.built := by
  unfold load source
  split
  · exact built_echoArchpkg _ q
  · exact built_echoArchpkg _ q

theorem exited_load (t : Shell) (q : String) : (t.load repo q).exited = t.exited := by
  unfold load source
  split
  · exact exited_echoArchpkg _ q
  · exact exited_echoArchpkg _ q

theorem grows_load (t : Shell) (q : String) : t.Grows (t.load repo q) := by
  intro r hr
  rw [load, archpkg_source]
  exact grows_echoArchpkg { t with d := some q } q r hr

theorem archpkg_load_of_success (missing : t.archpkg q = none) {f : Fragment}
    (found : repo.fetch q (t.attempts q) = some f) : (t.load repo q).archpkg q = some f := by
  rw [load, archpkg_source]
  simp [echoArchpkg, missing, found]

end Shell

end Ydfs.Build
