import Mathlib.Data.List.DropRight
import Mathlib.Tactic.SplitIfs
import Ydfs.Files.Links
import Ydfs.Files.Tree

/-!
# Removing a package

`uninstall-package` goes through the recorded tree of a package and removes each of its files from the
root, then does the same under `$HOME/ydfs/modules`, and last removes the package's own directories.
The names are read line by line and stand unquoted behind the slash of the root: a name with a blank, a
backslash or a letter of a pattern does not stand for its own file.  A tree without such names is
removed completely.  Nothing asks whether another package has a file of the same name, and a link that
the root has where the tree has a directory is removed with all that is found through it.
-/

namespace Ydfs.Build.Uninstall

open Links

abbrev Text := List Char

abbrev Name := List Char

abbrev Path := List Name

abbrev Kind := Node Name

/-- The paths of a directory, or of the whole root. -/
abbrev Tree := List (Path × Kind)

/-- A path as the system takes it. -/
abbrev Parts := List (Component Name)

/-- What is at a place. -/
def look (root : Tree) (p : Path) : Option Kind := root.lookup p

/-- Where a path leads; the system follows forty links. -/
def locate (root : Tree) (last : Bool) (parts : Parts) : Option (Way Name) :=
  walk (look root) last 40 [] parts

/-- `[ -f path ]` -/
def isFile (root : Tree) (parts : Parts) : Bool :=
  (locate root true parts).any fun w => look root w.place == some .file

/-- `[ -h path ]` -/
def isLink (root : Tree) (parts : Parts) : Bool :=
  (locate root false parts).any fun w =>
    match look root w.place with
    | some (.link _ _) => true
    | _ => false

def rm (root : Tree) (parts : Parts) : Tree :=
  match locate root false parts with
  | some w =>
    if look root w.place = some .directory then root else root.filter fun e => e.1 != w.place
  | none => root

/-- `rm -fR` -/
def rmTree (root : Tree) (parts : Parts) : Tree :=
  match locate root false parts with
  | some w => root.filter fun e => !decide (w.place <+: e.1)
  | none => root

/-! ### Names that go through the shell -/

/-- A path as `find` prints it. -/
def findText (p : Path) : Text := '.' :: p.flatMap fun name => '/' :: name

def find (tree : Tree) : Text := ([] :: tree.map Prod.fst).flatMap fun p => findText p ++ ['\n']

/-- The lines that `read` takes, where a backslash makes the next letter literal or joins the lines. -/
def readLines : List (Char × Bool) → Text → List (List (Char × Bool))
  | line, '\\' :: '\n' :: rest => readLines line rest
  | line, '\\' :: c :: rest => readLines (line ++ [(c, true)]) rest
  | line, '\n' :: rest => line :: readLines [] rest
  | line, c :: rest => readLines (line ++ [(c, false)]) rest
  | _, [] => []

def isBlank (c : Char) : Bool := c == ' ' || c == '\t' || c == '\n'

/-- The value of the variable: the line without blanks at its ends, unless they are literal. -/
def value (line : List (Char × Bool)) : Text :=
  ((line.dropWhile fun c => !c.2 && isBlank c.1).rdropWhile fun c => !c.2 && isBlank c.1).map Prod.fst

/-- What `while read file` goes through. -/
def values (text : Text) : List Text := (readLines [] text).map value

/-- The words of `"/"$file`. -/
def words (file : Text) : List Text := (('/' :: file).splitOnP isBlank).filter fun w => !w.isEmpty

/-- A name between slashes. -/
def part (name : Name) : Component Name :=
  if name = [] ∨ name = ['.'] then .stay else if name = ['.', '.'] then .up else .down name

/-- The path that a text stands for. -/
def components (text : Text) : Parts := (text.splitOn '/').map part

def isPattern (word : Text) : Bool := word.any fun c => c == '*' || c == '?' || c == '['

section Script

-- `fnmatch pattern name`: the name matches the pattern
variable (fnmatch : Name → Name → Bool)

/-- The names in a directory. -/
def names (root : Tree) (dir : Parts) : List Name :=
  match locate root true dir with
  | some w => root.filterMap fun e => if e.1.dropLast = w.place then e.1.getLast? else none
  | none => []

/-- The paths that match a pattern, part by part from a directory. -/
def glob (root : Tree) : Parts → Parts → List Parts
  | here, [] => [here]
  | here, .stay :: rest => glob root (here ++ [.stay]) rest
  | here, .up :: rest => glob root (here ++ [.up]) rest
  | here, .down name :: rest =>
    if isPattern name then
      ((names root here).filter (fnmatch name)).flatMap fun n => glob root (here ++ [.down n]) rest
    else if (locate root false (here ++ [.down name])).isSome then
      glob root (here ++ [.down name]) rest
    else []

/-- A pattern behind a directory stands for the paths that match it, or for itself if there are none. -/
def expand (root : Tree) (dir : Parts) (word : Text) : List Parts :=
  if isPattern word && !(glob fnmatch root dir (components word)).isEmpty then
    glob fnmatch root dir (components word)
  else [dir ++ components word]

/-- The arguments that the unquoted `"/"$file` stands for. -/
def arguments (root : Tree) (file : Text) : List Parts := (words file).flatMap (expand fnmatch root [])

/-- The body of the first loop.  With other than one argument the tests fail, or `rm` does. -/
def removeFile (root : Tree) (file : Text) : Tree :=
  let root := match arguments fnmatch root file with
    | [p] => if isFile root p then rm root p else root
    | _ => root
  match arguments fnmatch root file with
  | [p] => if isLink root p then rm root p else root
  | _ => root

/-- `$HOME` and `$ARCH`. -/
structure Host where
  home : Path
  arch : Name

/-- The path of names. -/
def downs (p : Path) : Parts := p.map .down

def Host.modules (host : Host) : Path := host.home ++ ["ydfs".toList, "modules".toList]

/-- The arguments of `rm "$HOME/ydfs/modules/"$file`; but for those of the first word they are names
in the record. -/
def moduleArguments (host : Host) (root : Tree) (file : Text) : List Parts :=
  (words file).head?.toList.flatMap (expand fnmatch root (downs host.modules))

/-- The body of the second loop, where the name is quoted in the tests. -/
def removeModule (host : Host) (root : Tree) (file : Text) : Tree :=
  let p := downs host.modules ++ components ('/' :: file)
  let root := if isFile root p then (moduleArguments fnmatch host root file).foldl rm root else root
  if isLink root p then (moduleArguments fnmatch host root file).foldl rm root else root

/-- What is visible in the directory `home` of a tree. -/
def visible (tree : Tree) : List Name :=
  tree.filterMap fun e => match e.1 with
    | [dir, name] => if dir = "home".toList ∧ name.head? ≠ some '.' then some name else none
    | _ => none

/-- What the second `find` goes through: `cd home/*` succeeds for a single directory, or for a link to
one, behind which there is `elsewhere` (the tree again if `cd` fails). -/
def homeTree (elsewhere tree : Tree) : Tree :=
  match visible tree with
  | [name] =>
    match look tree ["home".toList, name] with
    | some .directory =>
      tree.filterMap fun e => match e.1 with
        | dir :: user :: p => if dir = "home".toList ∧ user = name ∧ p ≠ [] then some (p, e.2) else none
        | _ => none
    | some (.link _ _) => elsewhere
    | _ => tree
  | _ => tree

def Host.packageDir (host : Host) (pkg : Name) : Path :=
  host.home ++ ["ydfs".toList, "packages-".toList ++ host.arch, pkg]

def Host.buildDir (host : Host) (pkg : Name) : Path :=
  host.home ++ ["ydfs".toList, "build-".toList ++ host.arch, pkg]

def Host.srcDir (host : Host) (pkg : Name) : Path := host.home ++ ["ydfs".toList, "src".toList, pkg]

/-- `uninstall-package pkg`, for a package with a recorded tree. -/
def uninstall (elsewhere : Tree) (host : Host) (pkg : Name) (tree root : Tree) : Tree :=
  let root := (values (find tree)).foldl (removeFile fnmatch) root
  let root := (values (find (homeTree elsewhere tree))).foldl (removeModule fnmatch host) root
  let root :=
    if (locate root true (downs (host.buildDir pkg))).isSome then
      rmTree root (downs (host.buildDir pkg))
    else rmTree root (downs (host.srcDir pkg))
  rmTree root (downs (host.packageDir pkg))

end Script

variable {fnmatch : Name → Name → Bool} {elsewhere : Tree} {host : Host} {pkg : Name}
  {tree root root' root'' : Tree} {p q v : Path} {parts : Parts} {text rest : Text}

/-! ### Names that stand for themselves -/

/-- A letter that neither `read` nor the shell treats in a special way. -/
def plainLetter (c : Char) : Bool :=
  !isBlank c && c != '\\' && c != '*' && c != '?' && c != '['

/-- A file name of such letters. -/
structure PlainName (name : Name) : Prop where
  letters : ∀ c ∈ name, plainLetter c = true
  slash : '/' ∉ name
  ne : name ≠ []
  here : name ≠ ['.']
  parent : name ≠ ['.', '.']

instance (name : Name) : Decidable (PlainName name) :=
  decidable_of_iff (name.all plainLetter = true ∧ '/' ∉ name ∧ name ≠ [] ∧ name ≠ ['.'] ∧
      name ≠ ['.', '.'])
    ⟨fun ⟨letters, slash, ne, here, parent⟩ => ⟨List.all_eq_true.1 letters, slash, ne, here, parent⟩,
      fun h => ⟨List.all_eq_true.2 h.letters, h.slash, h.ne, h.here, h.parent⟩⟩

def Plain (p : Path) : Prop := ∀ name ∈ p, PlainName name

instance (p : Path) : Decidable (Plain p) := inferInstanceAs (Decidable (∀ name ∈ p, PlainName name))

theorem slashes_eq_intercalate (first : Name) (p : Path) :
    (first ++ p.flatMap fun name => '/' :: name) = ['/'].intercalate (first :: p) := by
  induction p generalizing first with
  | nil => simp
  | cons name p ih =>
    rw [List.intercalate_cons_of_ne_nil (List.cons_ne_nil _ _), ← ih name]
    simp

theorem plainLetter_findText (plain : Plain p) : ∀ c ∈ findText p, plainLetter c = true := by
  intro c hc
  obtain rfl | hc := List.mem_cons.1 hc
  · rfl
  · obtain ⟨name, hn, hc⟩ := List.mem_flatMap.1 hc
    obtain rfl | hc := List.mem_cons.1 hc
    · rfl
    · exact (plain name hn).letters c hc

theorem plainLetter_ne {c d : Char} (hc : plainLetter c = true) (hd : plainLetter d = false) : c ≠ d := by
  rintro rfl
  rw [hc] at hd
  cases hd

theorem isBlank_of_plainLetter {c : Char} (h : plainLetter c = true) : isBlank c = false := by
  cases blank : isBlank c with
  | false => rfl
  | true => simp [plainLetter, blank] at h

/-- A line of plain letters is read as it is. -/
theorem readLines_plain (plain : ∀ c ∈ text, plainLetter c = true) (line : List (Char × Bool))
    (rest : Text) :
    readLines line (text ++ '\n' :: rest) =
      (line ++ text.map fun c => (c, false)) :: readLines [] rest := by
  induction text generalizing line with
  | nil => simp [readLines]
  | cons c text ih =>
    obtain ⟨first, others⟩ := List.forall_mem_cons.1 plain
    have step : readLines line (c :: (text ++ '\n' :: rest)) =
        readLines (line ++ [(c, false)]) (text ++ '\n' :: rest) := by
      have slash := plainLetter_ne first (d := '\\') rfl
      have newline := plainLetter_ne first (d := '\n') rfl
      rw [readLines.eq_def]
      split <;> simp_all
    rw [List.cons_append, step, ih others, List.map_cons, List.append_assoc, List.singleton_append]

theorem value_plain (plain : ∀ c ∈ text, plainLetter c = true) :
    value (text.map fun c => (c, false)) = text := by
  have solid : ∀ c ∈ text.map fun c => (c, false), ¬ (!c.2 && isBlank c.1) = true := by
    intro c hc
    obtain ⟨d, hd, rfl⟩ := List.mem_map.1 hc
    simp [isBlank_of_plainLetter (plain d hd)]
  rw [value, List.dropWhile_eq_self_iff.2 fun h => solid _ (List.getElem_mem h),
    List.rdropWhile_eq_self_iff.2 fun h => solid _ (List.getLast_mem h), List.map_map]
  exact List.map_id text

/-- What a loop goes through. -/
theorem values_lines {lines : List Text} (plain : ∀ l ∈ lines, ∀ c ∈ l, plainLetter c = true) :
    values (lines.flatMap fun l => l ++ ['\n']) = lines := by
  induction lines with
  | nil => rfl
  | cons l lines ih =>
    obtain ⟨letters, others⟩ := List.forall_mem_cons.1 plain
    rw [List.flatMap_cons, List.append_assoc, List.singleton_append, values, readLines_plain letters,
      List.map_cons, List.nil_append, value_plain letters]
    exact congrArg _ (ih others)

theorem values_flatMap {ps : List Path} (plain : ∀ p ∈ ps, Plain p) :
    values (ps.flatMap fun p => findText p ++ ['\n']) = ps.map findText := by
  have letters : ∀ l ∈ ps.map findText, ∀ c ∈ l, plainLetter c = true := by
    intro l mem
    obtain ⟨p, hp, rfl⟩ := List.mem_map.1 mem
    exact plainLetter_findText (plain p hp)
  rw [← values_lines letters, List.flatMap_map]

theorem words_plain (plain : ∀ c ∈ text, plainLetter c = true) : words text = ['/' :: text] := by
  have solid : ∀ c ∈ '/' :: text, isBlank c = false :=
    List.forall_mem_cons.2 ⟨rfl, fun c hc => isBlank_of_plainLetter (plain c hc)⟩
  rw [words, List.splitOnP_eq_singleton solid]
  rfl

theorem part_plain {name : Name} (plain : PlainName name) : part name = .down name := by
  rw [part, if_neg (not_or.2 ⟨plain.ne, plain.here⟩), if_neg plain.parent]

/-- Behind a slash a path of plain names stands for its names. -/
theorem components_findText (plain : Plain p) :
    components ('/' :: findText p) = .stay :: .stay :: downs p := by
  have fields : ('/' :: findText p).splitOn '/' = [] :: ['.'] :: p := by
    have whole : '/' :: findText p = ['/'].intercalate ([] :: ['.'] :: p) := by
      rw [← slashes_eq_intercalate]
      simp [findText]
    rw [whole]
    refine List.splitOn_intercalate _ (List.forall_mem_cons.2 ⟨by simp, ?_⟩) (by simp)
    exact List.forall_mem_cons.2 ⟨by simp, fun n hn => (plain n hn).slash⟩
  have names : p.map part = downs p := List.map_congr_left fun n hn => part_plain (plain n hn)
  rw [components, fields, List.map_cons, List.map_cons, names]
  rfl

theorem isPattern_plain (plain : ∀ c ∈ text, plainLetter c = true) : isPattern ('/' :: text) = false := by
  rw [isPattern, List.any_eq_false]
  refine List.forall_mem_cons.2 ⟨by decide, fun c hc => ?_⟩
  have letter := plain c hc
  simp [plainLetter_ne letter (d := '*') rfl, plainLetter_ne letter (d := '?') rfl,
    plainLetter_ne letter (d := '[') rfl]

/-- A path of plain names behind a directory. -/
def under (dir p : Path) : Parts := downs dir ++ .stay :: .stay :: downs p

/-- A path of plain names stands for itself, whatever there is. -/
theorem expand_findText (fnmatch : Name → Name → Bool) (plain : Plain p) (root : Tree) (dir : Path) :
    (words (findText p)).flatMap (expand fnmatch root (downs dir)) = [under dir p] := by
  have letters := plainLetter_findText plain
  rw [words_plain letters, List.flatMap_singleton, expand, isPattern_plain letters,
    components_findText plain]
  rfl

/-! ### What is removed -/

/-- Two roots differ only in places that are gone. -/
def Prunes (root root' : Tree) (gone : Path → Prop) : Prop :=
  ∀ p, look root' p = look root p ∨ look root' p = none ∧ gone p

/-- The path leads to a regular file or a link, at this place. -/
def Leads (root : Tree) (parts : Parts) (p : Path) : Prop :=
  (∃ w, locate root false parts = some w ∧ w.place = p) ∧
    ∃ kind, look root p = some kind ∧ kind ≠ .directory

/-- A regular file or a link is there. -/
def There (root : Tree) (p : Path) : Prop := ∃ v, Leads root (downs p) v

/-- The place is one that the path leads to, or is beneath that. -/
def Beneath (root : Tree) (parts : Parts) (p : Path) : Prop :=
  ∃ w, locate root false parts = some w ∧ w.place <+: p

section Prunes

variable {gone gone' : Path → Prop}

theorem Prunes.refl (root : Tree) (gone : Path → Prop) : Prunes root root gone := fun _ => .inl rfl

theorem Prunes.trans (h : Prunes root root' gone) (h' : Prunes root' root'' gone) :
    Prunes root root'' gone := by
  intro p
  obtain same | ⟨nothing, mem⟩ := h' p
  · rw [same]
    exact h p
  · exact .inr ⟨nothing, mem⟩

theorem Prunes.mono (h : Prunes root root' gone) (hg : ∀ p, gone p → gone' p) :
    Prunes root root' gone' :=
  fun p => (h p).imp_right fun ⟨nothing, mem⟩ => ⟨nothing, hg p mem⟩

theorem Prunes.pruned (h : Prunes root root' gone) : Pruned (look root) (look root') :=
  fun p => (h p).imp_right And.left

theorem Prunes.locate {w : Way Name} {last : Bool} (h : Prunes root root' gone)
    (found : locate root' last parts = some w) : Uninstall.locate root last parts = some w :=
  walk_pruned h.pruned found

/-- A path that leads somewhere has led there before. -/
theorem Prunes.leads (h : Prunes root root' gone) (leads : Leads root' parts p) :
    Leads root parts p := by
  obtain ⟨⟨w, found, place⟩, kind, there, other⟩ := leads
  exact ⟨⟨w, h.locate found, place⟩, kind, h.pruned.eq there, other⟩

theorem Prunes.beneath (h : Prunes root root' gone) (beneath : Beneath root' parts p) :
    Beneath root parts p := by
  obtain ⟨w, found, place⟩ := beneath
  exact ⟨w, h.locate found, place⟩

end Prunes

theorem look_filter (keep : Path → Bool) (root : Tree) (p : Path) :
    look (root.filter fun e => keep e.1) p = if keep p then look root p else none :=
  FileTree.lookup_filter keep root p

/-- `rm` takes away what the path leads to. -/
theorem prunes_rm (root : Tree) (parts : Parts) : Prunes root (rm root parts) (Leads root parts) := by
  unfold rm
  split
  next w found =>
    split_ifs with directory
    · exact .refl _ _
    · intro p
      rw [look_filter (fun q => q != w.place)]
      by_cases same : p = w.place
      · cases there : look root p with
        | none => simp
        | some kind =>
          refine .inr ⟨by simp [same], ⟨w, found, same.symm⟩, kind, there, ?_⟩
          rintro rfl
          exact directory (same ▸ there)
      · exact .inl (by simp [same])
  · exact .refl _ _

theorem look_rm {w : Way Name} (found : locate root false parts = some w)
    (other : look root w.place ≠ some .directory) : look (rm root parts) w.place = none := by
  unfold rm
  simp only [found, if_neg other, look_filter (fun q => q != w.place)]
  simp

theorem prunes_rmTree (root : Tree) (parts : Parts) :
    Prunes root (rmTree root parts) (Beneath root parts) := by
  unfold rmTree
  split
  next w found =>
    intro p
    rw [look_filter (fun q => !decide (w.place <+: q))]
    by_cases beneath : w.place <+: p
    · exact .inr ⟨by simp [beneath], w, found, beneath⟩
    · exact .inl (by simp [beneath])
  · exact .refl _ _

/-- Both tests and their `rm`. -/
def removePath (root : Tree) (parts : Parts) : Tree :=
  let root := if isFile root parts then rm root parts else root
  if isLink root parts then rm root parts else root

theorem prunes_if_rm (b : Bool) (root : Tree) (parts : Parts) :
    Prunes root (if b then rm root parts else root) (Leads root parts) := by
  cases b with
  | true => exact prunes_rm root parts
  | false => exact .refl _ _

theorem prunes_removePath (root : Tree) (parts : Parts) :
    Prunes root (removePath root parts) (Leads root parts) := by
  have first := prunes_if_rm (isFile root parts) root parts
  exact first.trans ((prunes_if_rm _ _ _).mono fun _ leads => first.leads leads)

/-- A path leads to nothing that has been removed. -/
theorem not_leads_if_rm {b : Bool} (test : Leads root parts p → b = true) :
    ¬ Leads (if b then rm root parts else root) parts p := by
  intro leads
  have before := (prunes_if_rm b root parts).leads leads
  rw [test before, if_pos rfl] at leads
  obtain ⟨⟨w, found, rfl⟩, kind, there, other⟩ := before
  obtain ⟨-, kind', left, -⟩ := leads
  rw [look_rm found fun directory => other (Option.some.inj (there.symm.trans directory))] at left
  cases left

theorem not_leads_removePath (root : Tree) (parts : Parts) (p : Path) :
    ¬ Leads (removePath root parts) parts p := by
  intro leads
  have first := prunes_if_rm (isFile root parts) root parts
  have between := (prunes_if_rm _ _ _).leads leads
  have before := first.leads between
  obtain ⟨⟨w, found, rfl⟩, kind, there, other⟩ := between
  cases kind with
  | directory => exact other rfl
  | file =>
    have left : Leads (if isFile root parts then rm root parts else root) parts w.place :=
      ⟨⟨w, found, rfl⟩, _, there, other⟩
    refine not_leads_if_rm ?_ left
    intro _
    have noLink : ∀ fromRoot target, look root w.place ≠ some (.link fromRoot target) := by
      intro fromRoot target link
      rw [first.pruned.eq there] at link
      cases link
    have same : locate root true parts = some w := walk_last (first.locate found) noLink
    rw [isFile, same]
    simp [first.pruned.eq there]
  | link fromRoot target =>
    refine not_leads_if_rm ?_ leads
    intro _
    rw [isLink, found]
    simp [there]

/-- A loop that removes one path after another. -/
theorem prunes_foldl (paths : List Parts) (root : Tree) :
    Prunes root (paths.foldl removePath root) fun p => ∃ parts ∈ paths, Leads root parts p := by
  induction paths generalizing root with
  | nil => exact .refl _ _
  | cons parts paths ih =>
    have first := prunes_removePath root parts
    refine (first.mono fun p leads => ⟨parts, List.mem_cons_self, leads⟩).trans ((ih _).mono ?_)
    rintro p ⟨parts', mem, leads⟩
    exact ⟨parts', List.mem_cons_of_mem _ mem, first.leads leads⟩

theorem not_leads_foldl {paths : List Parts} (mem : parts ∈ paths) (root : Tree) (p : Path) :
    ¬ Leads (paths.foldl removePath root) parts p := by
  induction paths generalizing root with
  | nil => cases mem
  | cons first paths ih =>
    obtain rfl | mem := List.mem_cons.1 mem
    · exact fun leads => not_leads_removePath root _ p ((prunes_foldl paths _).leads leads)
    · exact ih mem _

/-! ### The whole script -/

/-- All names of a tree are plain. -/
def PlainTree (tree : Tree) : Prop := ∀ e ∈ tree, Plain e.1

/-- The paths that `find` prints, from the directory itself on. -/
def found (tree : Tree) : List Path := [] :: tree.map Prod.fst

theorem PlainTree.found (plain : PlainTree tree) : ∀ p ∈ found tree, Plain p := by
  refine List.forall_mem_cons.2 ⟨nofun, fun p hp => ?_⟩
  obtain ⟨e, he, rfl⟩ := List.mem_map.1 hp
  exact plain e he

theorem PlainTree.values (plain : PlainTree tree) :
    values (find tree) = (Uninstall.found tree).map findText :=
  values_flatMap plain.found

theorem PlainTree.homeTree (plain : PlainTree tree) (away : PlainTree elsewhere) :
    PlainTree (homeTree elsewhere tree) := by
  rw [Uninstall.homeTree]
  split
  · split
    · rintro ⟨p, kind⟩ inside
      obtain ⟨⟨path, kind'⟩, he, same⟩ := List.mem_filterMap.1 inside
      match path, same with
      | dir :: user :: rest, same =>
        obtain ⟨-, same⟩ := Option.ite_none_right_eq_some.1 same
        obtain ⟨rfl, rfl⟩ := Prod.mk.inj (Option.some.inj same)
        exact fun name hn => plain _ he name (List.mem_cons_of_mem _ (List.mem_cons_of_mem _ hn))
    · exact away
    · exact plain
  · exact plain

/-- A loop over plain names whose body removes one path for each of them. -/
theorem foldl_values (plain : PlainTree tree) {remove : Tree → Text → Tree} {target : Path → Parts}
    (body : ∀ root p, Plain p → remove root (findText p) = removePath root (target p)) (root : Tree) :
    (values (find tree)).foldl remove root = ((found tree).map target).foldl removePath root := by
  rw [plain.values, List.foldl_map, List.foldl_map]
  exact List.foldl_ext _ _ _ fun root p hp => body root p (plain.found p hp)

/-- The first loop. -/
theorem removeFile_findText (root : Tree) (p : Path) (plain : Plain p) :
    removeFile fnmatch root (findText p) = removePath root (under [] p) := by
  have whole : ∀ root, arguments fnmatch root (findText p) = [under [] p] :=
    fun root => expand_findText fnmatch plain root []
  simp only [removeFile, whole, removePath]

/-- The second loop. -/
theorem removeModule_findText (root : Tree) (p : Path) (plain : Plain p) :
    removeModule fnmatch host root (findText p) = removePath root (under host.modules p) := by
  have whole : ∀ root, moduleArguments fnmatch host root (findText p) = [under host.modules p] := by
    intro root
    have letters := plainLetter_findText plain
    have word := expand_findText fnmatch plain root host.modules
    rw [words_plain letters] at word
    rw [moduleArguments, words_plain letters]
    exact word
  simp only [removeModule, whole, components_findText plain, removePath, List.foldl_cons,
    List.foldl_nil]
  rfl

theorem leads_under : Leads root (under [] p) v ↔ Leads root (downs p) v := by
  have same : locate root false (under [] p) = locate root false (downs p) :=
    (walk_stay _).trans (walk_stay _)
  rw [Leads, Leads, same]

/-- The places that the script takes away: where the paths of the tree lead from the root and from the
modules, and all in the package's own directories. -/
def Lost (elsewhere : Tree) (host : Host) (pkg : Name) (tree root : Tree) (v : Path) : Prop :=
  (∃ q ∈ found tree, Leads root (downs q) v) ∨
    (∃ q ∈ found (homeTree elsewhere tree), Leads root (under host.modules q) v) ∨
      ∃ d ∈ [host.buildDir pkg, host.srcDir pkg, host.packageDir pkg], Beneath root (downs d) v

/-- The package's own directories are removed last. -/
theorem prunes_own (root : Tree) :
    Prunes root
      (rmTree (if (locate root true (downs (host.buildDir pkg))).isSome then
          rmTree root (downs (host.buildDir pkg)) else rmTree root (downs (host.srcDir pkg)))
        (downs (host.packageDir pkg)))
      fun v => ∃ d ∈ [host.buildDir pkg, host.srcDir pkg, host.packageDir pkg],
        Beneath root (downs d) v := by
  have last : ∀ {root'}, (Prunes root root' fun v => ∃ d ∈ [host.buildDir pkg, host.srcDir pkg,
      host.packageDir pkg], Beneath root (downs d) v) →
      Prunes root (rmTree root' (downs (host.packageDir pkg))) fun v => ∃ d ∈ [host.buildDir pkg,
        host.srcDir pkg, host.packageDir pkg], Beneath root (downs d) v :=
    fun first => first.trans ((prunes_rmTree _ _).mono fun v beneath =>
      ⟨_, by simp, first.beneath beneath⟩)
  split_ifs
  · exact last ((prunes_rmTree _ _).mono fun v beneath => ⟨_, by simp, beneath⟩)
  · exact last ((prunes_rmTree _ _).mono fun v beneath => ⟨_, by simp, beneath⟩)

/-- Nothing but the lost places changes, and no path of the tree leads to anything. -/
theorem prunes_uninstall (fnmatch : Name → Name → Bool) (host : Host) (pkg : Name)
    (plain : PlainTree tree) (away : PlainTree elsewhere) (root : Tree) :
    Prunes root (uninstall fnmatch elsewhere host pkg tree root)
        (Lost elsewhere host pkg tree root) ∧
      ∀ p ∈ found tree, ¬ There (uninstall fnmatch elsewhere host pkg tree root) p := by
  let first := ((found tree).map (under [])).foldl removePath root
  let second := ((found (homeTree elsewhere tree)).map (under host.modules)).foldl removePath first
  have result : uninstall fnmatch elsewhere host pkg tree root =
      rmTree (if (locate second true (downs (host.buildDir pkg))).isSome then
          rmTree second (downs (host.buildDir pkg)) else rmTree second (downs (host.srcDir pkg)))
        (downs (host.packageDir pkg)) := by
    simp only [uninstall, foldl_values plain removeFile_findText,
      foldl_values (plain.homeTree away) removeModule_findText, first, second]
  have tree_ : Prunes root first (Lost elsewhere host pkg tree root) := by
    refine (prunes_foldl _ _).mono ?_
    rintro v ⟨parts, mem, leads⟩
    obtain ⟨q, hq, rfl⟩ := List.mem_map.1 mem
    exact .inl ⟨q, hq, leads_under.1 leads⟩
  have modules : Prunes first second (Lost elsewhere host pkg tree root) := by
    refine (prunes_foldl _ _).mono ?_
    rintro v ⟨parts, mem, leads⟩
    obtain ⟨q, hq, rfl⟩ := List.mem_map.1 mem
    exact .inr (.inl ⟨q, hq, tree_.leads leads⟩)
  have own : Prunes second (uninstall fnmatch elsewhere host pkg tree root)
      (Lost elsewhere host pkg tree root) := by
    rw [result]
    refine (prunes_own _).mono ?_
    rintro v ⟨d, hd, beneath⟩
    exact .inr (.inr ⟨d, hd, (tree_.trans modules).beneath beneath⟩)
  refine ⟨(tree_.trans modules).trans own, ?_⟩
  rintro p hp ⟨v, leads⟩
  exact not_leads_foldl (List.mem_map_of_mem hp) root v
    ((modules.trans own).leads (leads_under.2 leads))

/-- What is seen on the way to a path. -/
def seen (root : Tree) (p : Path) : List Path := (locate root false (downs p)).elim [] Way.seen

/-- A file stays when nothing on the way to it goes. -/
theorem Prunes.there {gone : Path → Prop} (h : Prunes root root' gone) (there : There root p)
    (kept : ∀ v ∈ seen root p, ¬ gone v) : There root' p := by
  obtain ⟨v, ⟨w, found, rfl⟩, kind, at_, other⟩ := there
  have same : ∀ v ∈ w.seen, look root' v = look root v := by
    intro v hv
    exact (h v).resolve_right fun gone => kept v (by rw [seen, found]; exact hv) gone.2
  refine ⟨w.place, ⟨w, walk_congr found same, rfl⟩, kind, ?_, other⟩
  rw [same _ (walk_place found), at_]

/-- The tree of a package with one program. -/
def programTree : Tree := [([['b', 'i', 'n']], .directory), ([['b', 'i', 'n'], ['a', 'r']], .file)]

theorem plainTree_program : PlainTree programTree := by
  have bin : PlainName ['b', 'i', 'n'] :=
    ⟨List.all_eq_true.1 rfl, by decide, by decide, by decide, by decide⟩
  have ar : PlainName ['a', 'r'] :=
    ⟨List.all_eq_true.1 rfl, by decide, by decide, by decide, by decide⟩
  refine List.forall_mem_cons.2 ⟨?_, List.forall_mem_singleton.2 ?_⟩
  · exact List.forall_mem_singleton.2 bin
  · exact List.forall_mem_cons.2 ⟨bin, List.forall_mem_singleton.2 ar⟩

def sampleHost : Host := ⟨["home".toList], "x86".toList⟩

/-- The tree has a regular file or a link of this path. -/
def Lists (tree : Tree) (p : Path) : Prop := ∃ kind, (p, kind) ∈ tree ∧ kind ≠ .directory

/-- What would be exact: the files of the package are gone unless another one has them, and those of
the others are left. -/
def Exact (tree root root' : Tree) (others : List Tree) : Prop :=
  (∀ e ∈ tree, There root' e.1 → ∃ other ∈ others, Lists other e.1) ∧
    ∀ other ∈ others, ∀ p, Lists other p → There root p → There root' p

end Ydfs.Build.Uninstall
