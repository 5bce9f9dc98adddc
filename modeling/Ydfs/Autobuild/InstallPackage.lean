import Ydfs.Autobuild.MakeOpkg
import Ydfs.Build.Uninstall
import Ydfs.Files.Disk
import Ydfs.Text.Split

/-!
# The files of a package

After a build, `ydfs-install-package` copies what is newer than the start of the build from `$PREFIX`
into the directory of the package, where an earlier build may have left something.  The paths that
`find` prints are read line by line, and tested and copied one by one: a directory is made, a file is
copied, and a link is put in the place of the copy.  The tests follow links, so that a link to a
directory ends up as a directory, and the parent directory is made for files only.  For paths of one
word the package is exactly what is newer if there is no link to a directory, the parent of each
dangling link is there before it, and all that an earlier build has left is overwritten.
-/

namespace Ydfs.Autobuild.InstallPackage

open Build.Uninstall (Name Path Plain isBlank isPattern plainLetter values)
open FileDisk (Disk Node isDirectory makeAll way)

abbrev Word := List Char

/-- The path that a text leads to from a directory. -/
def resolve (dir : Path) (text : Word) : Path :=
  (text.splitOn '/').foldl (fun p name =>
    if name = [] ∨ name = ['.'] then p
    else if name = ['.', '.'] then p.dropLast
    else p ++ [name]) dir

/-! ### Files -/

/-- Where a link leads. -/
inductive Target (κ : Type) where
  | directory
  | file (content : κ)
  | missing

/-- What is at a path under `$PREFIX`. -/
inductive Entry (κ : Type) where
  | directory
  | file (content : κ)
  | link (text : Name) (target : Target κ)

/-- A file or a link in the directory of the package. -/
inductive Stored (κ : Type) where
  | content (c : κ)
  | link (text : Name)
deriving DecidableEq

/-- The directory of the package. -/
abbrev Package (κ : Type) := Disk Name (Stored κ)

variable {κ : Type}

/-- What is in the directory of the package before: nothing at first, and what an earlier build has
left when the package is built again for `FORCEBUILD` or `build-twice`.  Above all that is there is a
directory. -/
structure Earlier (κ : Type) where
  package : Package κ
  root : package [] = some .directory
  above : ∀ p n, package (p ++ [n]) ≠ none → package p = some .directory

/-- Nothing has been built before. -/
def Earlier.nothing : Earlier κ where
  package := FileDisk.empty
  root := rfl
  above p n there := by simp [FileDisk.empty] at there

theorem Earlier.above_of_prefix (old : Earlier κ) {p q : Path} (there : old.package p ≠ none)
    (way : q <+: p) (ne : q ≠ p) : old.package q = some .directory := by
  induction p using List.reverseRecOn with
  | nil => exact absurd (List.prefix_nil.1 way) ne
  | append_singleton p n ih =>
    have parent := old.above p n there
    by_cases same : q = p
    · rw [same, parent]
    · have shorter : q <+: p := (List.prefix_concat_iff.1 way).resolve_left ne
      exact ih (by rw [parent]; exact Option.some_ne_none _) shorter same

namespace Entry

/-- `[ -d path ]`. -/
def isDirectory : Entry κ → Bool
  | directory | link _ .directory => true
  | _ => false

/-- The content of a path with `[ -f path ]`. -/
def content : Entry κ → Option κ
  | file c | link _ (.file c) => some c
  | _ => none

/-- The text of a path with `[ -h path ]`. -/
def text : Entry κ → Option Name
  | link text _ => some text
  | _ => none

/-- The same in the package. -/
def same : Entry κ → Node (Stored κ)
  | directory => .directory
  | file c => .file (.content c)
  | link text _ => .file (.link text)

end Entry

/-- A path as it is written. -/
def line (p : Path) : Word := p.flatMap fun n => '/' :: n

/-- What is under `$PREFIX` after the build, in the order of `find`, in which a directory comes before
all that it contains. -/
structure Installation (κ : Type) where
  root : Path
  paths : List Path
  entry : Path → Option (Entry κ)
  newer : Path → Bool
  mem_paths : ∀ p, p ∈ paths ↔ (entry p).isSome
  entry_root : entry root = some .directory
  root_ne : root ≠ []
  root_head : root.head? ≠ some "CONTROL".toList
  ordered : paths.Pairwise fun q p => ¬ p <+: q
  below : ∀ p ∈ paths, root <+: p
  directories : ∀ p ∈ paths, ∀ q, root <+: q → q <+: p → q ≠ p → entry q = some .directory

/-- `find $PREFIX -newer`. -/
def found (t : Installation κ) : List Path := t.paths.filter t.newer

/-! ### Commands -/

inductive Command where
  | install
  | cp
  | cpA

/-- What a run depends on besides: whether `$MODULE` is `opkg`; what `make_opkg` writes, and the path
that it removes; what is at other paths; the paths that a pattern matches, in the package or not; and
what the commands do with other operands than one path (or one and its copy), or with a link of the
package in the place of the copy. -/
structure Surroundings (κ : Type) where
  opkg : Bool
  control : κ
  postinst : Option κ
  infoDir : Path
  elsewhere : Word → Option (Entry κ)
  glob : Bool → Word → Package κ → List Word
  several : Command → List Word → Package κ → Bool × Package κ
  through : Path → κ → Package κ → Bool × Package κ
  leads : Path → Package κ → Bool

/-- `dirname`. -/
def dirname (w : Word) : Word :=
  let parent := ((w.rdropWhile (· = '/')).rdropWhile (· ≠ '/')).rdropWhile (· = '/')
  if parent ≠ [] then parent else if w.head? = some '/' then ['/'] else ['.']

variable (env : Surroundings κ) (t : Installation κ)

/-- What is at a path, as far as the tests see. -/
def look (file : Word) : Option (Entry κ) :=
  if line (resolve [] file) = file ∧ resolve [] file ∈ t.paths then t.entry (resolve [] file)
  else env.elsewhere file

/-- `$FILE`, or with the directory of the package before it. -/
def expand (inPackage : Bool) (pkg : Package κ) (file : Word) : List Word :=
  (Splitting.words isBlank file).flatMap fun w =>
    if isPattern w then
      match env.glob inPackage w pkg with
      | [] => [w]
      | matching => matching
    else [w]

/-- `[ -e path ]` in the package. -/
def isThere (p : Path) (pkg : Package κ) : Bool :=
  match pkg p with
  | some (.file (.link _)) => env.leads p pkg
  | node => node.isSome

/-- `install -d` of one directory. -/
def makeDirectory (p : Path) (pkg : Package κ) : Bool × Package κ :=
  let pkg := makeAll (way p) pkg
  (isDirectory pkg p, pkg)

/-- `install -d` with the path. -/
def install (file : Word) (pkg : Package κ) : Bool × Package κ :=
  match expand env true pkg file with
  | [w] => makeDirectory (resolve [] w) pkg
  | ws => env.several .install ws pkg

/-- A copy goes into a directory that stands in its place, and it needs one to be in. -/
def place (p : Path) (src : Word) (node : Stored κ) (pkg : Package κ) : Bool × Package κ :=
  let p := if isDirectory pkg p then p ++ [MakeOpkg.basename src] else p
  if isDirectory pkg p = false ∧ isDirectory pkg p.dropLast then (true, FileDisk.put p node pkg)
  else (false, pkg)

/-- `cp`, which writes through a link. -/
def cp (file : Word) (pkg : Package κ) : Bool × Package κ :=
  match expand env false pkg file, expand env true pkg file with
  | [src], [dst] =>
    match (look env t src).bind Entry.content, pkg (resolve [] dst) with
    | none, _ => (false, pkg)
    | some c, some (.file (.link _)) => env.through (resolve [] dst) c pkg
    | some c, _ => place (resolve [] dst) src (.content c) pkg
  | srcs, dsts => env.several .cp (srcs ++ dsts) pkg

/-- `cp -a` of a link, which takes the place of a file. -/
def cpA (file : Word) (pkg : Package κ) : Bool × Package κ :=
  match expand env false pkg file, expand env true pkg file with
  | [src], [dst] =>
    match (look env t src).bind Entry.text with
    | none => env.several .cpA [src, dst] pkg
    | some text => place (resolve [] dst) src (.link text) pkg
  | srcs, dsts => env.several .cpA (srcs ++ dsts) pkg

/-! ### `ydfs-install-package` -/

/-- The package, and whether `.ydfs-error` is there. -/
structure State (κ : Type) where
  package : Package κ
  ydfsError : Bool

/-- The part for files: the parent directory is made first. -/
def copyFile (file : Word) (s : State κ) : State κ :=
  let parent := resolve [] (MakeOpkg.substitution ((expand env false s.package file).map dirname))
  let pkg := if isThere env parent s.package then s.package else (makeDirectory parent s.package).2
  { package := (cp env t file pkg).2, ydfsError := false }

/-- The loop with one path, and whether it goes on (`exit 24` leaves the pipeline). -/
def body (file : Word) (s : State κ) : State κ × Bool :=
  let is := look env t file
  let made := if is.any Entry.isDirectory then install env file s.package else (false, s.package)
  let s := { s with package := made.2 }
  if made.1 then (s, true)
  else
    let s := if (is.bind Entry.content).isSome then copyFile env t file s else s
    let linked := if (is.bind Entry.text).isSome then cpA env t file s.package else (false, s.package)
    let s := { s with package := linked.2 }
    (s, linked.1 || isThere env (resolve [] file) s.package)

/-- The loop. -/
def loop : List Word → State κ → State κ
  | [], s => s
  | file :: files, s => match body env t file s with
    | (s, true) => loop files s
    | (s, false) => s

/-- What `make_opkg` does in the directory of the package. -/
def makeOpkg (pkg : Package κ) : Package κ := fun p =>
  if p = ["CONTROL".toList] then some .directory
  else if p = ["CONTROL".toList, "control".toList] then some (.file (.content env.control))
  else if p = ["CONTROL".toList, "postinst".toList] ∧ env.postinst.isSome then
    env.postinst.map fun c => .file (.content c)
  else if p = env.infoDir ∧ isDirectory pkg p = false then none
  else pkg p

/-- The state after the loop. -/
def packaged (old : Earlier κ) : State κ :=
  loop env t (values (((found t).map line).flatMap fun l => l ++ ['\n'])) ⟨old.package, true⟩

/-- `ydfs-install-package`: the exit code if it fails, and the package. -/
def installPackage (old : Earlier κ) : Option ℕ × Package κ :=
  let s := packaged env t old
  if s.ydfsError then (some 25, s.package)
  else if env.opkg then (none, makeOpkg env s.package)
  else (none, s.package)

/-! ### Paths -/

variable {env : Surroundings κ} {t : Installation κ} {p q : Path}

theorem line_concat (p : Path) (n : Name) : line (p ++ [n]) = line p ++ '/' :: n := by
  simp [line]

/-- The names that follow something of no effect are gone through one by one. -/
theorem resolve_names {first : Name} (skipped : first = [] ∨ first = ['.']) (plain : Plain p)
    (dir : Path) : resolve dir (first ++ p.flatMap fun name => '/' :: name) = dir ++ p := by
  have fields : (first ++ p.flatMap fun name => '/' :: name).splitOn '/' = first :: p := by
    have free : '/' ∉ first := by
      rcases skipped with rfl | rfl <;> simp
    rw [Build.Uninstall.slashes_eq_intercalate]
    exact List.splitOn_intercalate _
      (List.forall_mem_cons.2 ⟨free, fun n hn => (plain n hn).slash⟩) (by simp)
  have names : ∀ (p : Path) (dir : Path), Plain p →
      p.foldl (fun p name =>
        if name = [] ∨ name = ['.'] then p
        else if name = ['.', '.'] then p.dropLast
        else p ++ [name]) dir = dir ++ p := by
    intro p
    induction p with
    | nil => simp
    | cons name p ih =>
      intro dir plain
      obtain ⟨first, others⟩ := List.forall_mem_cons.1 plain
      rw [List.foldl_cons, if_neg (not_or.2 ⟨first.ne, first.here⟩), if_neg first.parent,
        ih _ others, List.append_assoc, List.singleton_append]
  rw [resolve, fields, List.foldl_cons, if_pos skipped, names p dir plain]

theorem resolve_line (plain : Plain p) : resolve [] (line p) = p :=
  resolve_names (.inl rfl) plain []

theorem letter_line (plain : Plain p) : ∀ c ∈ line p, plainLetter c = true := by
  intro c mem
  obtain ⟨n, hn, hc⟩ := List.mem_flatMap.1 mem
  rcases List.mem_cons.1 hc with rfl | hc
  · decide
  · exact (plain n hn).letters c hc

theorem line_ne (ne : p ≠ []) : line p ≠ [] := by
  cases p with
  | nil => exact absurd rfl ne
  | cons n p => simp [line]

/-- A path of plain letters is one word. -/
theorem expand_line (plain : Plain p) (ne : p ≠ []) (inPackage : Bool) (pkg : Package κ) :
    expand env inPackage pkg (line p) = [line p] := by
  have letters := letter_line plain
  have word : Splitting.words isBlank (line p) = [line p] := by
    rw [Splitting.words, List.splitOnP_eq_singleton fun c mem =>
      Build.Uninstall.isBlank_of_plainLetter (letters c mem)]
    simp [line_ne ne]
  have ordinary : isPattern (line p) = false := by
    obtain ⟨n, q, rfl⟩ := List.exists_cons_of_ne_nil ne
    exact Build.Uninstall.isPattern_plain fun c mem => letters c (List.mem_cons_of_mem _ mem)
  rw [expand, word, List.flatMap_singleton, ordinary]
  rfl

theorem rdropWhile_line (plain : Plain p) : (line p).rdropWhile (· = '/') = line p := by
  rcases List.eq_nil_or_concat' p with rfl | ⟨q, n, rfl⟩
  · rfl
  · have name := plain n (by simp)
    rcases List.eq_nil_or_concat' n with rfl | ⟨m, c, rfl⟩
    · exact absurd rfl name.ne
    · have last : ¬ decide (c = '/') = true := by
        intro slash
        exact name.slash (by simp [of_decide_eq_true slash])
      rw [line_concat, ← List.cons_append, ← List.append_assoc,
        List.rdropWhile_concat_neg (· = '/') _ _ last]

theorem dirname_line {n : Name} (plain : Plain (p ++ [n])) :
    dirname (line (p ++ [n])) = if p = [] then ['/'] else line p := by
  have name : ∀ c ∈ n.reverse, decide (c ≠ '/') = true := by
    intro c mem
    refine decide_eq_true ?_
    rintro rfl
    exact (plain n (by simp)).slash (List.mem_reverse.1 mem)
  have cut : (line (p ++ [n])).rdropWhile (· ≠ '/') = line p ++ ['/'] := by
    rw [line_concat, List.rdropWhile, List.reverse_append, List.reverse_cons, List.append_assoc,
      List.dropWhile_append_of_pos name]
    simp
  rw [dirname, rdropWhile_line plain, cut, List.rdropWhile_concat_pos _ _ _ (by simp),
    rdropWhile_line fun m mem => plain m (List.mem_append_left _ mem)]
  by_cases empty : p = []
  · simp [empty, line]
  · simp [empty, line_ne empty]

/-- The parent directory, as the shell finds it. -/
theorem resolve_dirname {n : Name} (plain : Plain (p ++ [n])) (inPackage : Bool) (pkg : Package κ) :
    resolve [] (MakeOpkg.substitution
      ((expand env inPackage pkg (line (p ++ [n]))).map dirname)) = p := by
  have parent : Plain p := fun m mem => plain m (List.mem_append_left _ mem)
  rw [expand_line plain (by simp), List.map_singleton, dirname_line plain, MakeOpkg.substitution,
    List.intercalate_singleton]
  split_ifs with empty
  · rw [empty]
    decide
  · rw [List.rdropWhile_eq_self_iff.2, resolve_line parent]
    intro ne newline
    have letter := letter_line parent _ (List.getLast_mem ne)
    rw [of_decide_eq_true newline] at letter
    revert letter
    decide

/-! ### The package while the loop runs -/

/-- What the loop puts in the place of an entry. -/
def Entry.made : Entry κ → Node (Stored κ)
  | .link _ .directory => .directory
  | e => e.same

theorem Entry.made_of_isDirectory (e : Entry κ) (is : e.isDirectory = true) :
    e.made = .directory := by
  cases e with
  | directory => rfl
  | file c => cases is
  | link text target =>
    cases target with
    | directory => rfl
    | file c => cases is
    | missing => cases is

/-- An entry is a directory for the tests, or a file, or a dangling link. -/
theorem Entry.kinds (e : Entry κ) : e.isDirectory = true ∧ e.content = none ∨
    (∃ c, e.content = some c) ∨ ∃ text, e = .link text .missing := by
  cases e with
  | directory => exact .inl ⟨rfl, rfl⟩
  | file c => exact .inr (.inl ⟨c, rfl⟩)
  | link text target =>
    cases target with
    | directory => exact .inl ⟨rfl, rfl⟩
    | file c => exact .inr (.inl ⟨c, rfl⟩)
    | missing => exact .inr (.inr ⟨text, rfl⟩)

/-- The package with the paths that are done, the directories on the way to them, and what has been
there before. -/
def packed (t : Installation κ) (old : Earlier κ) (done : List Path) : Package κ := fun p =>
  if p ∈ done then (t.entry p).map Entry.made
  else if ∃ q ∈ done, p <+: q then some .directory
  else old.package p

/-- A link that leads nowhere. -/
def Dangling (t : Installation κ) (p : Path) : Prop :=
  ∃ text, t.entry p = some (.link text .missing)

/-- The parent directory is there in time. -/
def HasParent (old : Earlier κ) (done : List Path) (p : Path) : Prop :=
  (∃ q ∈ done, p.dropLast <+: q) ∨ isDirectory old.package p.dropLast = true

instance (old : Earlier κ) (done : List Path) (p : Path) : Decidable (HasParent old done p) :=
  inferInstanceAs (Decidable ((∃ q ∈ done, _) ∨ _))

/-- Each copy can take the place of what has been there before: no file is where a directory goes or on
the way to a copy, no directory is where a file or a link goes, and no link is where a file is copied,
which would be written through it. -/
structure Overwritable (t : Installation κ) (old : Earlier κ) : Prop where
  way : ∀ p ∈ found t, ∀ q, q <+: p → q ≠ p →
    old.package q = none ∨ old.package q = some .directory
  directory : ∀ p ∈ found t, (t.entry p).any Entry.isDirectory = true →
    old.package p = none ∨ old.package p = some .directory
  content : ∀ p ∈ found t, ∀ c, (t.entry p).bind Entry.content = some c →
    old.package p = none ∨ ∃ c', old.package p = some (.file (.content c'))
  missing : ∀ p ∈ found t, Dangling t p → old.package p ≠ some .directory

/-- `[ -f path ]` for one of the paths. -/
def AnyFile (t : Installation κ) (ps : List Path) : Prop :=
  ∃ p ∈ ps, ∃ c, (t.entry p).bind Entry.content = some c

variable {old : Earlier κ} {done rest : List Path}

theorem packed_nil (t : Installation κ) (old : Earlier κ) : packed t old [] = old.package := by
  funext p
  simp [packed]

theorem mem_paths_of_found (h : p ∈ found t) : p ∈ t.paths := List.mem_of_mem_filter h

/-- Where nothing but a file is, and the parent is there, a copy is put. -/
theorem place_put {pkg : Package κ} (free : isDirectory pkg p = false)
    (parent : isDirectory pkg p.dropLast = true) (src : Word) (node : Stored κ) :
    place p src node pkg = (true, FileDisk.put p node pkg) := by
  simp [place, free, parent]

section Next

variable (h : found t = done ++ p :: rest)

include h

theorem next_found : p ∈ found t := h ▸ by simp

theorem next_mem : p ∈ t.paths := mem_paths_of_found (next_found h)

theorem done_mem (hq : q ∈ done) : q ∈ t.paths := mem_paths_of_found (h ▸ by simp [hq])

theorem next_ne : p ≠ [] := by
  rintro rfl
  exact t.root_ne (List.prefix_nil.1 (t.below _ (next_mem h)))

/-- Nothing that is done is at the path or below it. -/
theorem not_done_below (hq : q ∈ done) : ¬ p <+: q := by
  have ordered : (done ++ p :: rest).Pairwise fun q p => ¬ p <+: q := h ▸ t.ordered.filter _
  exact (List.pairwise_append.1 ordered).2.2 q hq p List.mem_cons_self

theorem entry_of_done (hq : q ∈ done) (way : q <+: p) : t.entry q = some .directory :=
  t.directories p (next_mem h) q (t.below q (done_mem h hq)) way
    (fun same => not_done_below h (same ▸ hq) List.prefix_rfl)

/-- What is on the way to a path, and at it. -/
theorem packed_way (way : q <+: p) : packed t old done q =
    if ∃ r ∈ done, q <+: r then some .directory else old.package q := by
  by_cases mem : q ∈ done
  · have there : ∃ r ∈ done, q <+: r := ⟨q, mem, List.prefix_rfl⟩
    rw [packed, if_pos mem, entry_of_done h mem way, if_pos there]
    rfl
  · rw [packed, if_neg mem]

theorem packed_next : packed t old done p = old.package p := by
  rw [packed_way h List.prefix_rfl, if_neg]
  rintro ⟨q, hq, below⟩
  exact not_done_below h hq below

theorem packed_free (way : q <+: p)
    (free : old.package q = none ∨ old.package q = some .directory) :
    packed t old done q = none ∨ packed t old done q = some .directory := by
  rw [packed_way h way]
  split_ifs
  · exact .inr rfl
  · exact free

theorem packed_root : packed t old done [] = some .directory := by
  rw [packed_way h List.nil_prefix]
  split_ifs
  · rfl
  · exact old.root

theorem packed_concat (q : Path) :
    packed t old (done ++ [p]) q = if q = p then (t.entry p).map Entry.made
      else if q <+: p then some .directory else packed t old done q := by
  by_cases same : q = p
  · rw [if_pos same, same, packed, if_pos (by simp)]
  · rw [if_neg same]
    by_cases mem : q ∈ done
    · rw [packed, if_pos (List.mem_append_left _ mem), packed, if_pos mem]
      split_ifs with way
      · rw [entry_of_done h mem way]
        rfl
      · rfl
    · have new : q ∉ done ++ [p] := by simp [mem, same]
      rw [packed, if_neg new, packed, if_neg mem]
      by_cases way : q <+: p
      · rw [if_pos way, if_pos ⟨p, by simp, way⟩]
      · simp [way, or_and_right, exists_or]

theorem look_next (plain : Plain p) : look env t (line p) = t.entry p := by
  rw [look, resolve_line plain, if_pos ⟨rfl, next_mem h⟩]

theorem makeDirectory_packed (way : q <+: p)
    (free : ∀ r, r <+: q → old.package r = none ∨ old.package r = some .directory) :
    makeDirectory q (packed t old done) =
      (true, fun r => if r <+: q then some .directory else packed t old done r) := by
  have root : isDirectory (packed t old done) [] = true :=
    FileDisk.isDirectory_iff.2 (packed_root h)
  have made : makeAll (FileDisk.way q) (packed t old done) =
      fun r => if r <+: q then some .directory else packed t old done r :=
    funext (FileDisk.makeAll_way root fun r hr => packed_free h (hr.trans way) (free r hr))
  rw [makeDirectory, made, FileDisk.isDirectory_iff.2]
  rw [if_pos List.prefix_rfl]

/-- A directory is made if it is not there. -/
theorem parent_packed (way : q <+: p)
    (free : ∀ r, r <+: q → old.package r = none ∨ old.package r = some .directory) :
    (if isThere env q (packed t old done) then packed t old done
      else (makeDirectory q (packed t old done)).2) =
      fun r => if r <+: q then some .directory else packed t old done r := by
  rw [makeDirectory_packed h way free]
  split_ifs with there
  · funext r
    split_ifs with onWay
    · rw [packed_way h (onWay.trans way)]
      split_ifs with known
      · rfl
      · have unknown : ¬ ∃ s ∈ done, q <+: s := fun ⟨s, hs, below⟩ =>
          known ⟨s, hs, onWay.trans below⟩
        rw [isThere, packed_way h way, if_neg unknown] at there
        have directory : old.package q = some .directory := by
          refine (free q List.prefix_rfl).resolve_left fun none => ?_
          rw [none] at there
          cases there
        by_cases same : r = q
        · rw [same, directory]
        · exact old.above_of_prefix (by simp [directory]) onWay same
    · rfl
  · rfl

theorem expand_next (plain : Plain p) (inPackage : Bool) (pkg : Package κ) :
    expand env inPackage pkg (line p) = [line p] := expand_line plain (next_ne h) inPackage pkg

/-- The step for a directory, or a link to one. -/
theorem body_directory (fits : Overwritable t old) (plain : Plain p) {e : Entry κ}
    (he : t.entry p = some e) (is : e.isDirectory = true) (ydfsError : Bool) :
    body env t (line p) ⟨packed t old done, ydfsError⟩ =
      (⟨packed t old (done ++ [p]), ydfsError⟩, true) := by
  have free : ∀ r, r <+: p → old.package r = none ∨ old.package r = some .directory := by
    intro r way
    by_cases same : r = p
    · rw [same]
      exact fits.directory p (next_found h) (by rw [he]; exact is)
    · exact fits.way p (next_found h) r way same
  have grown : packed t old (done ++ [p]) =
      fun r => if r <+: p then some .directory else packed t old done r := by
    funext r
    rw [packed_concat h, he, Option.map_some, e.made_of_isDirectory is]
    by_cases same : r = p
    · simp [same]
    · simp [same]
  have installed : install env (line p) (packed t old done) =
      (true, packed t old (done ++ [p])) := by
    rw [install, expand_next h plain]
    dsimp only
    rw [resolve_line plain, makeDirectory_packed h List.prefix_rfl free, grown]
  rw [body, look_next h plain, he]
  simp [is, installed]

theorem dropLast_ne : p.dropLast ≠ p := by
  intro same
  have length := congrArg List.length same
  have pos := List.length_pos_iff.2 (next_ne h)
  rw [List.length_dropLast] at length
  omega

theorem dropLast_prefix_iff (ne : q ≠ p) : q <+: p.dropLast ↔ q <+: p := by
  obtain ⟨parent, n, rfl⟩ := (List.eq_nil_or_concat' p).resolve_left (next_ne h)
  rw [List.dropLast_concat, List.prefix_concat_iff, or_iff_right ne]

/-- A copy in a package that has the directories on the way to it. -/
theorem put_packed {pkg : Package κ} {node : Stored κ}
    (node_eq : (t.entry p).map Entry.made = some (.file node))
    (rest : ∀ r ≠ p, pkg r = if r <+: p.dropLast then some .directory else packed t old done r) :
    FileDisk.put p node pkg = packed t old (done ++ [p]) := by
  funext r
  rw [packed_concat h]
  by_cases same : r = p
  · rw [if_pos same, same, FileDisk.put_self, node_eq]
  · rw [if_neg same, FileDisk.put_of_ne same, rest r same]
    simp only [dropLast_prefix_iff h same]

/-- The package with the directories on the way to a copy. -/
theorem copyFile_next (env : Surroundings κ) (fits : Overwritable t old) (plain : Plain p)
    {e : Entry κ} (he : t.entry p = some e) {c : κ} (content : e.content = some c)
    (ydfsError : Bool) :
    ∃ pkg : Package κ, copyFile env t (line p) ⟨packed t old done, ydfsError⟩ =
        ⟨FileDisk.put p (.content c) pkg, false⟩ ∧
      ∀ r, pkg r = if r <+: p.dropLast then some .directory else packed t old done r := by
  have free : ∀ r, r <+: p.dropLast → old.package r = none ∨ old.package r = some .directory := by
    intro r way
    refine fits.way p (next_found h) r (way.trans (List.dropLast_prefix p)) ?_
    rintro rfl
    exact dropLast_ne h ((List.dropLast_prefix r).eq_of_length_le way.length_le)
  have here : old.package p = none ∨ ∃ c', old.package p = some (.file (.content c')) :=
    fits.content p (next_found h) c (by rw [he]; exact content)
  obtain ⟨parent, n, rfl⟩ := (List.eq_nil_or_concat' p).resolve_left (next_ne h)
  rw [List.dropLast_concat] at free
  refine ⟨fun r => if r <+: parent then some .directory else packed t old done r, ?_, ?_⟩
  · have outside : ¬ parent ++ [n] <+: parent := fun longer => by
      have length := longer.length_le
      rw [List.length_append, List.length_singleton] at length
      omega
    have kept : (if parent ++ [n] <+: parent then some Node.directory
        else packed t old done (parent ++ [n])) = old.package (parent ++ [n]) := by
      rw [if_neg outside, packed_next h]
    rw [copyFile, resolve_dirname plain, parent_packed h (List.prefix_append _ _) free, cp,
      expand_next h plain, expand_next h plain]
    dsimp only
    rw [look_next h plain, he, Option.bind_some, content, resolve_line plain, kept]
    have placed : place (parent ++ [n]) (line (parent ++ [n])) (.content c)
        (fun r => if r <+: parent then some .directory else packed t old done r) =
        (true, FileDisk.put (parent ++ [n]) (.content c)
          fun r => if r <+: parent then some .directory else packed t old done r) := by
      refine place_put ?_ ?_ _ _
      · rw [isDirectory, kept]
        rcases here with none | ⟨c', is⟩
        · rw [none]
        · rw [is]
      · rw [List.dropLast_concat, FileDisk.isDirectory_iff, if_pos List.prefix_rfl]
    rcases here with none | ⟨c', is⟩
    · rw [none]
      dsimp only
      rw [placed]
    · rw [is]
      dsimp only
      rw [placed]
  · intro r
    rw [List.dropLast_concat]

/-- The copy of a link. -/
theorem cpA_next (plain : Plain p) {text : Name} {target : Target κ}
    (he : t.entry p = some (.link text target)) (pkg : Package κ) :
    cpA env t (line p) pkg = place p (line p) (.link text) pkg := by
  rw [cpA, expand_next h plain, expand_next h plain]
  dsimp only
  rw [look_next h plain, he, resolve_line plain]
  rfl

/-- Where there is no parent directory, nothing is. -/
theorem unknown_next (unknown : ¬ HasParent old done p) : old.package p = none := by
  obtain ⟨parent, n, rfl⟩ := (List.eq_nil_or_concat' p).resolve_left (next_ne h)
  by_contra there
  have above := old.above parent n there
  refine unknown (.inr ?_)
  rw [List.dropLast_concat, FileDisk.isDirectory_iff, above]

/-- The step for a file, or a link to one: the link takes the place of the copy. -/
theorem body_file (fits : Overwritable t old) (plain : Plain p) {e : Entry κ}
    (he : t.entry p = some e) {c : κ} (content : e.content = some c) (ydfsError : Bool) :
    body env t (line p) ⟨packed t old done, ydfsError⟩ =
      (⟨packed t old (done ++ [p]), false⟩, true) := by
  obtain ⟨pkg, copied, rest⟩ := copyFile_next h env fits plain he content ydfsError
  have others : ∀ r ≠ p, FileDisk.put p (.content c) pkg r =
      if r <+: p.dropLast then some .directory else packed t old done r := fun r ne => by
    rw [FileDisk.put_of_ne ne, rest]
  have parent : isDirectory (FileDisk.put p (.content c) pkg) p.dropLast = true := by
    rw [FileDisk.isDirectory_iff, others _ (dropLast_ne h), if_pos List.prefix_rfl]
  have noDirectory : isDirectory (FileDisk.put p (.content c) pkg) p = false := by
    rw [isDirectory, FileDisk.put_self]
  cases e with
  | directory => cases content
  | file c' =>
    obtain rfl : c' = c := Option.some.inj content
    have made : (t.entry p).map Entry.made = some (.file (.content c')) := by
      rw [he]
      rfl
    have whole := put_packed h made fun r _ => rest r
    have there : isThere env p (packed t old (done ++ [p])) = true := by
      rw [← whole, isThere, FileDisk.put_self]
      rfl
    rw [body, look_next h plain, he]
    simp [Entry.isDirectory, Entry.content, Entry.text, copied, whole, resolve_line plain, there]
  | link text target =>
    cases target with
    | directory => cases content
    | missing => cases content
    | file c' =>
      have made : (t.entry p).map Entry.made = some (.file (.link text)) := by
        rw [he]
        rfl
      have whole := put_packed h made others
      have linked : cpA env t (line p) (FileDisk.put p (.content c) pkg) =
          (true, packed t old (done ++ [p])) := by
        rw [cpA_next h plain he, place_put noDirectory parent, whole]
      rw [body, look_next h plain, he]
      simp [Entry.isDirectory, Entry.content, Entry.text, copied, linked]

/-- The step for a dangling link, which needs its parent directory. -/
theorem body_missing (env : Surroundings κ) (fits : Overwritable t old) (plain : Plain p)
    {text : Name} (he : t.entry p = some (.link text .missing)) (ydfsError : Bool) :
    body env t (line p) ⟨packed t old done, ydfsError⟩ =
      if HasParent old done p then (⟨packed t old (done ++ [p]), ydfsError⟩, true)
      else (⟨packed t old done, ydfsError⟩, false) := by
  have free : isDirectory (packed t old done) p = false := by
    have other := fits.missing p (next_found h) ⟨text, he⟩
    rw [← Bool.not_eq_true, FileDisk.isDirectory_iff, packed_next h]
    exact other
  have parent : isDirectory (packed t old done) p.dropLast = true ↔ HasParent old done p := by
    rw [FileDisk.isDirectory_iff, packed_way h (List.dropLast_prefix p), HasParent,
      FileDisk.isDirectory_iff]
    split_ifs with known
    · simp [known]
    · simp [known]
  split_ifs with known
  · have made : (t.entry p).map Entry.made = some (.file (.link text)) := by
      rw [he]
      rfl
    have whole : FileDisk.put p (.link text) (packed t old done) = packed t old (done ++ [p]) := by
      refine put_packed h made fun r ne => ?_
      split_ifs with onWay
      · have there := FileDisk.isDirectory_iff.1 (parent.2 known)
        rw [packed_way h (List.dropLast_prefix p)] at there
        rw [packed_way h (onWay.trans (List.dropLast_prefix p))]
        split_ifs with way
        · rfl
        · have none : ¬ ∃ q ∈ done, p.dropLast <+: q := fun ⟨q, hq, below⟩ =>
            way ⟨q, hq, onWay.trans below⟩
          rw [if_neg none] at there
          by_cases same : r = p.dropLast
          · rw [same, there]
          · exact old.above_of_prefix (by simp [there]) onWay same
      · rfl
    have linked : cpA env t (line p) (packed t old done) = (true, packed t old (done ++ [p])) := by
      rw [cpA_next h plain he, place_put free (parent.2 known), whole]
    rw [body, look_next h plain, he]
    simp [Entry.isDirectory, Entry.content, Entry.text, linked]
  · have linked : cpA env t (line p) (packed t old done) = (false, packed t old done) := by
      rw [cpA_next h plain he, place]
      simp [free, parent, known]
    have gone : isThere env p (packed t old done) = false := by
      rw [isThere, packed_next h, unknown_next h known]
      rfl
    rw [body, look_next h plain, he]
    simp [Entry.isDirectory, Entry.content, Entry.text, linked, resolve_line plain, gone]

end Next

/-! ### The whole loop -/

/-- One step of the loop. -/
theorem body_next (env : Surroundings κ) (fits : Overwritable t old)
    (h : found t = done ++ p :: rest) (plain : Plain p) (ydfsError : Bool) :
    (Dangling t p ∧ ¬ HasParent old done p ∧
        body env t (line p) ⟨packed t old done, ydfsError⟩ = (⟨packed t old done, ydfsError⟩, false)) ∨
      (Dangling t p → HasParent old done p) ∧
        ∃ ydfsError', body env t (line p) ⟨packed t old done, ydfsError⟩ =
            (⟨packed t old (done ++ [p]), ydfsError'⟩, true) ∧
          (ydfsError' = false ↔ ydfsError = false ∨ AnyFile t [p]) := by
  obtain ⟨e, he⟩ := Option.isSome_iff_exists.1 ((t.mem_paths p).1 (next_mem h))
  have anyFile : AnyFile t [p] ↔ ∃ c, e.content = some c := by simp [AnyFile, he]
  rcases e.kinds with ⟨directory, noFile⟩ | ⟨c, content⟩ | ⟨text, rfl⟩
  · refine .inr ⟨?_, ydfsError, body_directory h fits plain he directory ydfsError, ?_⟩
    · rintro ⟨text, link⟩
      obtain rfl := Option.some.inj (he.symm.trans link)
      cases directory
    · simp [anyFile, noFile]
  · refine .inr ⟨?_, false, body_file h fits plain he content ydfsError, ?_⟩
    · rintro ⟨text, link⟩
      obtain rfl := Option.some.inj (he.symm.trans link)
      cases content
    · simp [anyFile, content]
  · have step := body_missing h env fits plain he ydfsError
    by_cases known : HasParent old done p
    · rw [if_pos known] at step
      refine .inr ⟨fun _ => known, ydfsError, step, ?_⟩
      simp [anyFile, Entry.content]
    · rw [if_neg known] at step
      exact .inl ⟨⟨text, he⟩, known, step⟩

/-- The run from some path on: it gets through, or stops at a dangling link. -/
theorem loop_rest (env : Surroundings κ) (fits : Overwritable t old)
    (h : found t = done ++ rest) (plain : ∀ p ∈ rest, Plain p) (ydfsError : Bool) :
    (∃ before p after, found t = before ++ p :: after ∧ Dangling t p ∧ ¬ HasParent old before p ∧
        (loop env t (rest.map line) ⟨packed t old done, ydfsError⟩).package = packed t old before) ∨
      (∀ before p after, rest = before ++ p :: after → Dangling t p → HasParent old (done ++ before) p) ∧
        ∃ ydfsError', loop env t (rest.map line) ⟨packed t old done, ydfsError⟩ =
            ⟨packed t old (found t), ydfsError'⟩ ∧
          (ydfsError' = false ↔ ydfsError = false ∨ AnyFile t rest) := by
  induction rest generalizing done ydfsError with
  | nil =>
    refine .inr ⟨fun before p after empty => by simp at empty, ydfsError, ?_, ?_⟩
    · rw [h, List.append_nil]
      rfl
    · simp [AnyFile]
  | cons p rest ih =>
    rcases body_next env fits h (plain p List.mem_cons_self) ydfsError with
      ⟨dangling, unknown, step⟩ | ⟨known, ydfsError₁, step, flag⟩
    · refine .inl ⟨done, p, rest, h, dangling, unknown, ?_⟩
      rw [List.map_cons, loop, step]
    · rw [List.map_cons, loop, step]
      have h' : found t = done ++ [p] ++ rest := by rw [h, List.append_assoc, List.singleton_append]
      rcases ih h' (fun q hq => plain q (List.mem_cons_of_mem _ hq)) ydfsError₁ with
        stopped | ⟨parents, ydfsError₂, result, flag₂⟩
      · exact .inl stopped
      · refine .inr ⟨?_, ydfsError₂, result, ?_⟩
        · intro before q after split dangling
          cases before with
          | nil =>
            obtain ⟨rfl, -⟩ := List.cons.inj split
            simpa using known dangling
          | cons p' before =>
            obtain ⟨rfl, tail⟩ := List.cons.inj split
            simpa using parents before q after tail dangling
        · rw [flag₂, flag, or_assoc]
          simp [AnyFile]

/-! ### The package -/

/-- All that is newer is in the package as it is, and nothing else but the directories on the way. -/
def Exact (t : Installation κ) (pkg : Package κ) : Prop :=
  (∀ p ∈ found t, pkg p = (t.entry p).map Entry.same) ∧
    ∀ p, pkg p ≠ none → p ∈ found t ∨
      pkg p = some .directory ∧ (p = [] ∨ ∃ q ∈ found t, p <+: q)

/-- What has been there before is newer again, or a directory on the way. -/
def NoLeftover (t : Installation κ) (old : Earlier κ) : Prop :=
  ∀ p, old.package p ≠ none → p ∈ found t ∨
    old.package p = some .directory ∧ (p = [] ∨ ∃ q ∈ found t, p <+: q)

/-- All paths are one word each, there is no link to a directory, the parent of each dangling link is
there before it, `make_opkg` is not called (it is for the module `opkg`, if there is a file), and all
that has been there before is overwritten. -/
structure Packageable (env : Surroundings κ) (t : Installation κ) (old : Earlier κ) : Prop where
  words : ∀ p ∈ found t, Plain p
  links : ∀ p ∈ found t, ∀ text, t.entry p ≠ some (.link text .directory)
  parents : ∀ before p after, found t = before ++ p :: after → Dangling t p →
    HasParent old before p
  files : env.opkg = true → ¬ AnyFile t (found t)
  overwritable : Overwritable t old
  leftover : NoLeftover t old

theorem Entry.made_eq_same {e : Entry κ} (other : ∀ text, e ≠ .link text .directory) :
    e.made = e.same := by
  cases e with
  | directory => rfl
  | file c => rfl
  | link text target =>
    cases target with
    | directory => exact absurd rfl (other text)
    | file c => rfl
    | missing => rfl

theorem exact_packed_iff (fits : Overwritable t old) : Exact t (packed t old (found t)) ↔
    (∀ p ∈ found t, ∀ text, t.entry p ≠ some (.link text .directory)) ∧ NoLeftover t old := by
  constructor
  · intro exact_
    refine ⟨fun p hp text he => ?_, fun p there => ?_⟩
    · have same := exact_.1 p hp
      rw [packed, if_pos hp, he] at same
      cases same
    · by_cases hp : p ∈ found t
      · exact .inl hp
      · by_cases way : ∃ q ∈ found t, p <+: q
        · obtain ⟨q, hq, below⟩ := way
          have directory := (fits.way q hq p below fun same => hp (same ▸ hq)).resolve_left there
          exact .inr ⟨directory, .inr ⟨q, hq, below⟩⟩
        · have kept : packed t old (found t) p = old.package p := by
            rw [packed, if_neg hp, if_neg way]
          rw [← kept] at there ⊢
          exact exact_.2 p there
  · rintro ⟨links, leftover⟩
    refine ⟨fun p hp => ?_, fun p there => ?_⟩
    · rw [packed, if_pos hp]
      cases he : t.entry p with
      | none => rfl
      | some e =>
        rw [Option.map_some, Option.map_some, Entry.made_eq_same]
        intro text link
        exact links p hp text (he.trans (congrArg some link))
    · by_cases hp : p ∈ found t
      · exact .inl hp
      · rw [packed, if_neg hp] at there ⊢
        split_ifs at there ⊢ with way
        · exact .inr ⟨rfl, .inr way⟩
        · exact leftover p there

/-- `make_opkg` leaves what is under `$PREFIX`, but for one file that it may remove. -/
theorem makeOpkg_below (env : Surroundings κ) (way : t.root <+: p) (pkg : Package κ) :
    makeOpkg env pkg p = none ∨ makeOpkg env pkg p = pkg p := by
  have head : p.head? ≠ some "CONTROL".toList := by
    obtain ⟨below, rfl⟩ := way
    rw [List.head?_append_of_ne_nil _ t.root_ne]
    exact t.root_head
  have other : ∀ names : Path, p ≠ "CONTROL".toList :: names := fun names same =>
    head (by rw [same]; rfl)
  rw [makeOpkg, if_neg (other _), if_neg (other _), if_neg fun h => other _ h.1]
  split_ifs
  · exact .inl rfl
  · exact .inr rfl

theorem not_exact_makeOpkg (pkg : Package κ) : ¬ Exact t (makeOpkg env pkg) := by
  rintro ⟨-, nothing⟩
  have control : makeOpkg env pkg ["CONTROL".toList, "control".toList] =
      some (.file (.content env.control)) := by
    rw [makeOpkg, if_neg (by simp), if_pos rfl]
  rcases nothing _ (by rw [control]; simp) with mem | ⟨directory, -⟩
  · have below := t.below _ (mem_paths_of_found mem)
    obtain ⟨n, root, hr⟩ := List.exists_cons_of_ne_nil t.root_ne
    rw [hr, List.cons_prefix_cons] at below
    exact t.root_head (by rw [hr, below.1]; rfl)
  · rw [control] at directory
    cases directory

theorem exact_iff_of_plain (plain : ∀ p ∈ found t, Plain p) (fits : Overwritable t old) :
    Exact t (installPackage env t old).2 ↔ Packageable env t old := by
  have lines : ∀ l ∈ (found t).map line, ∀ c ∈ l, plainLetter c = true := by
    intro l mem
    obtain ⟨p, hp, rfl⟩ := List.mem_map.1 mem
    exact letter_line (plain p hp)
  have run := loop_rest env fits (List.nil_append (found t)).symm plain true
  rw [packed_nil, ← Build.Uninstall.values_lines lines] at run
  rw [installPackage]
  change (∃ before p after, _ ∧ _ ∧ _ ∧ (packaged env t old).package = _) ∨
    _ ∧ ∃ ydfsError', packaged env t old = _ ∧ _ at run
  rcases run with ⟨before, p, after, split, ⟨text, he⟩, unknown, stopped⟩ |
    ⟨parents, ydfsError, through, flag⟩
  · have next : packed t old before p = none := by
      rw [packed_next split, unknown_next split unknown]
    have missing : ∀ pkg : Package κ, pkg p = none → ¬ Exact t pkg := by
      rintro pkg none_ ⟨same, -⟩
      have copied := same p (split ▸ by simp)
      rw [none_, he] at copied
      cases copied
    refine iff_of_false ?_ fun fits => unknown (fits.parents before p after split ⟨text, he⟩)
    rw [stopped]
    split_ifs
    · exact missing _ next
    · apply missing
      rcases makeOpkg_below env (t.below p (next_mem split)) (packed t old before) with gone | kept
      · exact gone
      · exact kept.trans next
    · exact missing _ next
  · have opkg : ydfsError = false ↔ AnyFile t (found t) := by simpa using flag
    have ends : Exact t (packed t old (found t)) →
        (env.opkg = true → ¬ AnyFile t (found t)) → Packageable env t old := fun exact_ files => by
      obtain ⟨links, leftover⟩ := (exact_packed_iff fits).1 exact_
      exact ⟨plain, links, parents, files, fits, leftover⟩
    have fine : Packageable env t old → Exact t (packed t old (found t)) := fun ok =>
      (exact_packed_iff fits).2 ⟨ok.links, ok.leftover⟩
    rw [through]
    cases ydfsError with
    | true =>
      have noFile : ¬ AnyFile t (found t) := fun any => by simpa using opkg.2 any
      rw [if_pos rfl]
      exact ⟨fun exact_ => ends exact_ fun _ => noFile, fine⟩
    | false =>
      have any : AnyFile t (found t) := opkg.1 rfl
      dsimp only
      rw [if_neg Bool.false_ne_true]
      split_ifs with module
      · exact iff_of_false (not_exact_makeOpkg _) fun ok => ok.files module any
      · exact ⟨fun exact_ => ends exact_ fun is => absurd is module, fine⟩

/-- A directory with a library and a link to something. -/
def linked (target : Target ℕ) : Installation ℕ where
  root := ["x86".toList]
  paths := [["x86".toList], ["x86".toList, "lib".toList], ["x86".toList, "lib64".toList]]
  entry p :=
    if p = ["x86".toList] then some .directory
    else if p = ["x86".toList, "lib".toList] then some (.file 7)
    else if p = ["x86".toList, "lib64".toList] then some (.link "lib".toList target)
    else none
  newer _ := true
  mem_paths p := by
    simp only [List.mem_cons, List.not_mem_nil, or_false]
    split_ifs <;> simp_all
  entry_root := rfl
  root_ne := by decide
  root_head := by decide
  ordered := by decide
  below := by decide
  directories p hp q below way ne := by
    have top : ∀ p ∈ [["x86".toList], ["x86".toList, "lib".toList], ["x86".toList, "lib64".toList]],
        ∀ q ∈ p.inits, ["x86".toList] <+: q → q ≠ p → q = ["x86".toList] := by decide
    rw [top p hp q ((List.mem_inits _ _).2 way) below ne, if_pos rfl]

/-- A run that packages are not for `opkg`. -/
def plainRun : Surroundings ℕ where
  opkg := false
  control := 0
  postinst := none
  infoDir := []
  elsewhere _ := none
  glob _ _ _ := []
  several _ _ pkg := (false, pkg)
  through _ _ pkg := (false, pkg)
  leads _ _ := false

/-- The library from an earlier build. -/
def earlierLibrary : Earlier ℕ where
  package
    | [] => some .directory
    | [top] => if top = "x86".toList then some .directory else none
    | [top, name] =>
      if top = "x86".toList ∧ name = "lib".toList then some (.file (.content 6)) else none
    | _ => none
  root := rfl
  above p n there := by
    rcases p with _ | ⟨top, _ | ⟨name, _ | ⟨other, p⟩⟩⟩
    · rfl
    · have known : top = "x86".toList ∧ n = "lib".toList := by
        by_contra unknown
        exact there (if_neg unknown)
      exact if_pos known.1
    · exact absurd rfl there
    · exact absurd rfl there

end Ydfs.Autobuild.InstallPackage
