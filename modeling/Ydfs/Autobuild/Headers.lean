import Mathlib.Tactic.SplitIfs
import Ydfs.Files.Moves
import Ydfs.Transition.Run

/-!
# Headers moved aside

Some packages do not build against the headers of another one that is already installed.  For their
builds `db-autobuild` moves these headers to a disabled name, and every run that gets as far as the
restore block moves them back.  Three headers are missing from the block, and some packages are
configured ahead of it.
-/

namespace Ydfs.Autobuild

open Transition FileMoves

namespace Headers

abbrev Path := List String

/-- What a run asks about its source directory: `pwd | grep pattern` or `[ -e path ]`. -/
inductive Test where
  | pwd (pattern : String)
  | file (path : String)

/-- The source directory of a package, by the outcome of the tests. -/
abbrev Source := Test → Bool

/-- The directory `$HOME/$ARCH/include`.  Of `google`, `util` and `disabled-lua`, into which the
script reaches, the entries are listed one by one; of every other directory all at once. -/
abbrev Include := Files String String

/-- What a line of the script does with the headers.  `builds` stands for the branches between two
such lines, in which a package may be built and installed, and the run may end. -/
inductive Action where
  | builds (configures : Bool)
  | hide (headers : List (Path × Path))
  | hideLua (mkdir : Bool)
  | restore
  | exit

/-- A line and the test it depends on. -/
structure Line where
  test : Option Test := none
  action : Action

/-! ### Moving aside -/

/-- `mv place disabled && mv place disabled && ..` -/
def hide : Include → List (Path × Path) → Include
  | files, [] => files
  | files, (place, disabled) :: headers =>
    match mv files place disabled with
    | some files => hide files headers
    | none => files

def disabledLua : Path := ["disabled-lua"]

def isLua (name : String) : Bool := "lua".toList.isPrefixOf name.toList

/-- `include/lua*` -/
def luaHeaders (files : Include) : List String :=
  files.keys.filterMap fun
    | [name] => if isLua name then some name else none
    | _ => none

/-- `include/disabled-lua/*` -/
def disabledHeaders (files : Include) : List String :=
  files.keys.filterMap fun
    | [dir, name] => if dir = "disabled-lua" then some name else none
    | _ => none

/-- `mv` with several names, each to where `to` says, and whether all have been moved. -/
def renameAll (src dst : String → Path) (files : Include) (names : List String) : Include × Bool :=
  names.foldl (fun (files, ok) name =>
    match rename files (src name) (dst name) with
    | some files => (files, ok)
    | none => (files, false)) (files, true)

def inInclude (name : String) : Path := [name]

def inDisabledLua (name : String) : Path := ["disabled-lua", name]

/-- Something is there or beneath. -/
def there (files : Include) (p : Path) : Bool := files.keys.any fun q => p.isPrefixOf q

/-- `mkdir include/disabled-lua`, or `install -d` when it may exist. -/
def makeDisabledLua (mkdir : Bool) (files : Include) : Option Include :=
  if there files disabledLua then
    if mkdir ∨ ((files.lookup disabledLua).isSome ∧ isDirectory files disabledLua = false) then none
    else some files
  else some (files.insert disabledLua (.directory []))

/-- `mkdir disabled-lua && mv lua* disabled-lua && mv lauxlib.h disabled-lua`; an `mv` without any
`lua*` fails. -/
def hideLua (mkdir : Bool) (files : Include) : Include :=
  match makeDisabledLua mkdir files with
  | none => files
  | some files =>
    let (files', all) := renameAll inInclude inDisabledLua files (luaHeaders files)
    if all ∧ luaHeaders files ≠ [] then
      (rename files' (inInclude "lauxlib.h") (inDisabledLua "lauxlib.h")).getD files'
    else files'

/-! ### Moving back -/

/-- The lines of the restore block before the one for Lua: disabled name and place. -/
def restoresBeforeLua : List (Path × Path) :=
  [(["fmt-disabled"], ["fmt"]),
    (["ode-disabled"], ["ode"]),
    (["rapidjson-disabled"], ["rapidjson"]),
    (["enet-disabled"], ["enet"]),
    (["mbedtls-disabled"], ["mbedtls"]),
    (["GLES3-disabled"], ["GLES3"]),
    (["irrlicht-disabled"], ["irrlicht"])]

/-- The lines after it. -/
def restoresAfterLua : List (Path × Path) :=
  [(["tinyxml-disabled.h"], ["tinyxml.h"]),
    (["zita-resampler-disabled"], ["zita-resampler"]),
    (["fluidsynth-disabled"], ["fluidsynth"]),
    (["fluidsynth-disabled.h"], ["fluidsynth.h"]),
    (["vamp-hostsdk-disabled"], ["vamp-hostsdk"]),
    (["vamp-sdk-disabled"], ["vamp-sdk"]),
    (["libavcodec-disabled"], ["libavcodec"]),
    (["gtest-disabled"], ["gtest"]),
    (["gmock-disabled"], ["gmock"]),
    (["libavutil-disabled"], ["libavutil"]),
    (["png-disabled.h"], ["png.h"]),
    (["libavformat-disabled"], ["libavformat"]),
    (["libswscale-disabled"], ["libswscale"]),
    (["unicode-disabled"], ["unicode"]),
    (["openssl-disabled"], ["openssl"]),
    (["google", "protobuf-disabled"], ["google", "protobuf"]),
    (["GLES2-disabled"], ["GLES2"]),
    (["GL-disabled"], ["GL"])]

def restores : List (Path × Path) := restoresBeforeLua ++ restoresAfterLua

/-- `[ -e disabled ] && mv disabled place`; without anything there the `mv` does nothing. -/
def putBack (files : Include) (header : Path × Path) : Include :=
  (mv files header.1 header.2).getD files

/-- `[ -e disabled-lua ] && mv disabled-lua/* include && rmdir disabled-lua` -/
def restoreLua (files : Include) : Include :=
  if there files disabledLua then
    let (files', all) := renameAll inDisabledLua inInclude files (disabledHeaders files)
    if all ∧ disabledHeaders files ≠ [] then files'.erase disabledLua else files'
  else files

/-- The last two lines of the block, which free two names for good. -/
def renames : List (Path × Path) :=
  [(["utils.h"], ["utils-cdparanoia.h"]),
    (["util", "debug.h"], ["util", "debug-samba.h"])]

def restoreBlock (files : Include) : Include :=
  renames.foldl putBack
    (restoresAfterLua.foldl putBack (restoreLua (restoresBeforeLua.foldl putBack files)))

/-! ### The script -/

/-- The lines of an `if` block. -/
def ifFile (path : String) (actions : List Action) : List Line :=
  actions.map fun action => { test := some (.file path), action }

def always (action : Action) : Line := { action }

def onPwd (pattern : String) (action : Action) : Line := { test := some (.pwd pattern), action }

def onFile (path : String) (action : Action) : Line := { test := some (.file path), action }

/-- What comes before the restore block. -/
def earlyLines : List Line :=
  [always (.builds false)] ++
  ifFile "minetest.conf.example"
    [.hide [(["irrlicht"], ["irrlicht-disabled"])], .builds true, .exit] ++
  [always (.builds true),
    onPwd "xorg-server" (.hide [(["gc.h"], ["gc.h-disabled"])])]

/-- The branches up to `scripts/includes/xbmc`. -/
def branchLines : List Line :=
  [always (.builds true)] ++
  ifFile "src/surge-xt/SurgeSynthEditor.cpp"
    [.hide [(["fmt"], ["fmt-disabled"])], .hideLua false, .builds true,
      .hide [(["tinyxml.h"], ["tinyxml-disabled.h"])], .builds false, .exit] ++
  ifFile "vstgui.surge"
    [.builds true, .hide [(["tinyxml.h"], ["tinyxml-disabled.h"])], .builds false, .exit] ++
  [always (.builds true)] ++
  ifFile "qtbase/src/corelib/Qt5CoreMacros.cmake"
    [.hide [(["unicode"], ["unicode-disabled"])], .builds true, .exit] ++
  [always (.builds true),
    onPwd "xbmc" (.hide [(["fmt"], ["fmt-disabled"])]),
    always (.builds true)]

/-- The lines before CMake and `configure`, and the ones for two games. -/
def lateLines : List Line :=
  [onPwd "gst-plugins-base" (.hide [(["GLES3"], ["GLES3-disabled"])]),
    onPwd "gst-plugins-base" (.hide [(["GLES2"], ["GLES2-disabled"])]),
    onPwd "ardour" (.hide [(["zita-resampler"], ["zita-resampler-disabled"])]),
    onPwd "assimp" (.hide [(["rapidjson"], ["rapidjson-disabled"])]),
    onPwd "warzone" (.hide [(["fmt"], ["fmt-disabled"])]),
    onPwd "ardour" (.hide [(["fluidsynth"], ["fluidsynth-disabled"])]),
    onPwd "ardour" (.hide [(["fluidsynth.h"], ["fluidsynth-disabled.h"])]),
    onPwd "kwin-" (.hide [(["udev.h"], ["udev-disabled.h"])]),
    onPwd "xmoto" (.hideLua true),
    onPwd "xmoto" (.hide [(["ode"], ["ode-disabled"])]),
    onPwd "kino-1.3" (.hide
      [(["libavcodec"], ["libavcodec-disabled"]),
        (["libavutil"], ["libavutil-disabled"]),
        (["libavformat"], ["libavformat-disabled"]),
        (["libswscale"], ["libswscale-disabled"])]),
    onFile "deps/npm/node_modules/node-gyp/gyp/.github/workflows/nodejs-windows.yml"
      (.hide [(["gtest"], ["gtest-disabled"])]),
    onFile "src/mixxx.cpp" (.hide [(["gtest"], ["gtest-disabled"])]),
    onFile "src/mixxx.cpp" (.hide [(["util", "time.h"], ["util", "time.h-disabled"])]),
    onFile "src/mixxx.cpp" (.hide [(["gmock"], ["gmock-disabled"])]),
    onFile "samples/data/opencv-logo.png"
      (.hide [(["google", "protobuf"], ["google", "protobuf-disabled"])]),
    always (.builds true),
    onFile "data/supertuxkart.desktop" (.hide [(["enet"], ["enet-disabled"])]),
    always (.builds true)] ++
  ifFile "build/workspaces/update-workspaces.sh"
    [.hide [(["mbedtls"], ["mbedtls-disabled"])], .hideLua false, .builds true, .exit] ++
  [always (.builds false)]

def script : List Line := earlyLines ++ [always .restore] ++ branchLines ++ lateLines

/-! ### Runs -/

/-- A run: the lines to come, whether the restore block is still ahead, whether the run is at a
configure step, and what it has moved aside itself. -/
structure Build where
  source : Source
  rest : List Line := script
  ahead : Bool := true
  configuring : Bool := false
  hidden : List Path := []

/-- The include directory and the run that is going on.  Two fields are for the record: `moved` has
what was last moved aside from each place, or `none` when a build has installed something there
since, and `owed` has the places that runs now over have moved something aside from since a run was
last at the restore block. -/
structure World where
  files : Include
  run : Option Build := none
  moved : Path → Option (Option (Entry String String)) := fun _ => none
  owed : List Path := []

inductive Label where
  | start (source : Source)
  | next
  | configure
  | install (path : Path) (entry : Entry String String)
  | exit

/-- What was there before and is gone. -/
def gone (before after : Include) : List Path :=
  before.keys.filter fun p => (after.lookup p).isNone

/-- The action of the next line, if its test passes. -/
def Build.action (run : Build) : Option Action :=
  run.rest.head?.bind fun line => if line.test.all run.source then some line.action else none

def Build.goOn (run : Build) : Build := { run with rest := run.rest.tail, configuring := false }

/-- A step that moves headers aside. -/
def World.stow (w : World) (run : Build) (files : Include) : World where
  files := files
  run := some { run with hidden := gone w.files files ++ run.hidden }
  moved := fun p => if p ∈ gone w.files files then some (w.files.lookup p) else w.moved p
  owed := w.owed

/-- The run ends. -/
def World.finish (w : World) (run : Build) : World :=
  { w with run := none, owed := run.hidden ++ w.owed }

def World.perform (w : World) (run : Build) : Option Action → World
  | none | some (.builds _) => { w with run := some run.goOn }
  | some (.hide headers) => w.stow run.goOn (hide w.files headers)
  | some (.hideLua mkdir) => w.stow run.goOn (hideLua mkdir w.files)
  | some .restore => { w with
      files := restoreBlock w.files
      run := some { run.goOn with ahead := false }
      owed := [] }
  | some .exit => w.finish run

/-- The run is between two lines that move headers. -/
def Build.builds (run : Build) : Bool :=
  match run.action with
  | some (.builds _) => true
  | _ => false

/-- The run is where packages are configured. -/
def Build.configures (run : Build) : Bool :=
  match run.action with
  | some (.builds configures) => configures
  | _ => false

/-- No package installs a header under one of these names. -/
def disabledName (p : Path) : Bool :=
  p ∈ restores.map Prod.fst ∨ p.head? = some "disabled-lua"

/-- One step.  The runs come one after the other. -/
def step (w : World) : Label → Option World
  | .start source =>
    match w.run with
    | none => some { w with run := some { source } }
    | some _ => none
  | .next =>
    match w.run with
    | none => none
    | some run => if run.rest = [] then none else some (w.perform run run.action)
  | .configure =>
    match w.run with
    | none => none
    | some run =>
      if run.configures then some { w with run := some { run with configuring := true } } else none
  | .install p e =>
    match w.run with
    | none => none
    | some run =>
      if run.builds ∧ disabledName p = false then
        some { w with
          files := w.files.insert p e
          run := some { run with configuring := false }
          moved := fun q => if q = p then (w.moved p).map fun _ => none else w.moved q }
      else none
  | .exit =>
    match w.run with
    | none => none
    | some run => if run.builds ∨ run.rest = [] then some (w.finish run) else none

/-! ### What is expected -/

/-- At a configure step whatever an earlier run has moved aside is at its place again, the very entry
unless a build has installed another one there since.  What the run has moved aside itself is left
out. -/
def HidingUndone (w : World) : Prop :=
  ∀ run ∈ w.run, run.configuring = true → ∀ x due, w.moved x = some due → x ∉ run.hidden →
    ∃ e, w.files.lookup x = some e ∧ ∀ e' ∈ due, e = e'

/-- The headers that are moved aside and never back. -/
def forgotten : List Path := [["gc.h"], ["udev.h"], ["util", "time.h"]]

/-- None of the forgotten headers is moved, and none of the others into a directory that already
stands under its disabled name. -/
def SafeHide : Include → List (Path × Path) → Prop
  | _, [] => True
  | files, (place, disabled) :: headers =>
    ∀ files' ∈ mv files place disabled,
      place ∉ forgotten ∧ isDirectory files disabled = false ∧ SafeHide files' headers

instance SafeHide.decidable :
    (files : Include) → (headers : List (Path × Path)) → Decidable (SafeHide files headers)
  | _, [] => isTrue trivial
  | files, (place, disabled) :: headers =>
    have (files' : Include) : Decidable (SafeHide files' headers) :=
      SafeHide.decidable files' headers
    inferInstanceAs (Decidable (∀ files' ∈ mv files place disabled,
      place ∉ forgotten ∧ isDirectory files disabled = false ∧ SafeHide files' headers))

/-- Headers are moved aside in the way of `SafeHide`, and a package that is configured ahead of the
restore block is not built while headers are owed. -/
def SafeStep (w : World) : Label → Prop
  | .next =>
    match w.run.bind Build.action with
    | some (.hide headers) => SafeHide w.files headers
    | _ => True
  | .configure => ∀ run ∈ w.run, run.ahead = true → w.owed = []
  | _ => True

instance SafeStep.decidable (w : World) : (a : Label) → Decidable (SafeStep w a)
  | .next =>
    show Decidable (match w.run.bind Build.action with
      | some (.hide headers) => SafeHide w.files headers
      | _ => True) from
    match w.run.bind Build.action with
    | some (.hide headers) => SafeHide.decidable w.files headers
    | none | some (.builds _) | some (.hideLua _) | some .restore | some .exit => isTrue trivial
  | .configure => inferInstanceAs (Decidable (∀ run ∈ w.run, run.ahead = true → w.owed = []))
  | .start _ | .install _ _ | .exit => isTrue trivial

variable {w w' : World} {files files' : Include} {run : Build} {a : Label} {x d p : Path}

/-! ### Places and disabled names -/

/-- A header of Lua, which is moved with the others of them. -/
def luaHeader (name : String) : Bool := isLua name || name = "lauxlib.h"

/-- The lines move back what is at `disabled` to `place`, or the line for Lua does. -/
def MovedBack (lines : List (Path × Path)) (place disabled : Path) : Prop :=
  (disabled, place) ∈ lines ∨
    ∃ name, luaHeader name = true ∧ place = inInclude name ∧ disabled = inDisabledLua name

/-- The place of a header and the disabled name from which the block restores it. -/
abbrev Restored : Path → Path → Prop := MovedBack restores

/-- No header of Lua, and nothing in `disabled-lua`. -/
def plain : Path → Bool
  | [name] => !luaHeader name
  | [dir, _] => dir ≠ "disabled-lua"
  | _ => true

/-- Every header that the script moves aside on its own is in the restore block, under the same
names, but for the forgotten ones. -/
theorem hide_lines : ∀ line ∈ script, ∀ headers, line.action = .hide headers →
    ∀ place disabled, (place, disabled) ∈ headers →
      plain disabled = true ∧ (place ∉ forgotten → (disabled, place) ∈ restores) := by
  have checked : script.all (fun line => match line.action with
      | .hide headers => headers.all fun (place, disabled) =>
        plain disabled && (decide (place ∈ forgotten) || decide ((disabled, place) ∈ restores))
      | _ => true) = true := by decide
  intro line hline headers act place disabled mem
  have here := List.all_eq_true.1 checked line hline
  simp only [act] at here
  have header := List.all_eq_true.1 here _ mem
  simp only [Bool.and_eq_true, Bool.or_eq_true, decide_eq_true_eq] at header
  exact ⟨header.1, header.2.resolve_left⟩

theorem plain_names : ∀ header ∈ restores ++ renames,
    plain header.1 = true ∧ plain header.2 = true := by
  decide

theorem ne_inInclude_of_plain {name : String} (hp : plain p = true) (lua : luaHeader name = true) :
    p ≠ inInclude name := by
  rintro rfl
  simp [plain, inInclude, lua] at hp

theorem ne_inDisabledLua_of_plain (hp : plain p = true) (name : String) :
    p ≠ inDisabledLua name := by
  rintro rfl
  simp [plain, inDisabledLua] at hp

/-- No name is used twice, and no place is a disabled name. -/
theorem movedBack_pairing : Pairing (MovedBack (restores ++ renames)) where
  cross h h' := by
    have apart : ∀ header ∈ restores ++ renames, ∀ header' ∈ restores ++ renames,
        header.2 ≠ header'.1 := by decide
    obtain mem | ⟨name, lua, rfl, rfl⟩ := h
    · obtain mem' | ⟨name', lua', rfl, rfl⟩ := h'
      · exact apart _ mem _ mem'
      · exact ne_inDisabledLua_of_plain (plain_names _ mem).2 name'
    · obtain mem' | ⟨name', lua', rfl, rfl⟩ := h'
      · exact (ne_inInclude_of_plain (plain_names _ mem').1 lua).symm
      · simp [inInclude, inDisabledLua]
  left h h' := by
    have nodup : ((restores ++ renames).map Prod.snd).Nodup := by decide
    obtain mem | ⟨name, lua, rfl, rfl⟩ := h
    · obtain mem' | ⟨name', lua', rfl, rfl⟩ := h'
      · exact congrArg Prod.fst (List.inj_on_of_nodup_map nodup mem mem' rfl)
      · exact absurd rfl (ne_inInclude_of_plain (plain_names _ mem).2 lua')
    · obtain mem' | ⟨name', lua', same, rfl⟩ := h'
      · exact absurd rfl (ne_inInclude_of_plain (plain_names _ mem').2 lua)
      · cases same
        rfl
  right h h' := by
    have nodup : ((restores ++ renames).map Prod.fst).Nodup := by decide
    obtain mem | ⟨name, lua, rfl, rfl⟩ := h
    · obtain mem' | ⟨name', lua', rfl, rfl⟩ := h'
      · exact congrArg Prod.snd (List.inj_on_of_nodup_map nodup mem mem' rfl)
      · exact absurd rfl (ne_inDisabledLua_of_plain (plain_names _ mem).1 name')
    · obtain mem' | ⟨name', lua', rfl, same⟩ := h'
      · exact absurd rfl (ne_inDisabledLua_of_plain (plain_names _ mem').1 name)
      · cases same
        rfl

theorem MovedBack.of_restored (h : Restored x d) : MovedBack (restores ++ renames) x d :=
  h.imp_left fun mem => List.mem_append_left _ mem

theorem restored_pairing : Pairing Restored := movedBack_pairing.mono MovedBack.of_restored

/-! ### Moving aside keeps the headers -/

theorem stows_hide {headers : List (Path × Path)} (safe : SafeHide files headers)
    (known : ∀ place disabled, (place, disabled) ∈ headers → place ∉ forgotten →
      (disabled, place) ∈ restores) : Stows Restored files (hide files headers) := by
  induction headers generalizing files with
  | nil => exact .refl files
  | cons header headers ih =>
    obtain ⟨place, disabled⟩ := header
    simp only [hide]
    cases moved : mv files place disabled with
    | none => exact .refl files
    | some files' =>
      obtain ⟨named, free, safe⟩ := safe files' moved
      have paired : Restored place disabled := .inl (known _ _ List.mem_cons_self named)
      have rest := ih safe fun place' disabled' mem => known _ _ (List.mem_cons_of_mem _ mem)
      exact (Stows.of_mv restored_pairing paired free moved).trans rest

/-- One of several names. -/
def renameEach (src dst : String → Path) (files : Include) (name : String) : Include :=
  (rename files (src name) (dst name)).getD files

/-- One name after the other, whatever has become of the ones before. -/
theorem renameAll_fst (src dst : String → Path) (files : Include) (names : List String) :
    (renameAll src dst files names).1 = names.foldl (renameEach src dst) files := by
  have any (ok : Bool) : (names.foldl (fun (files, ok) name =>
      match rename files (src name) (dst name) with
      | some files => (files, ok)
      | none => (files, false)) (files, ok)).1 = names.foldl (renameEach src dst) files := by
    induction names generalizing files ok with
    | nil => rfl
    | cons name names ih =>
      simp only [List.foldl_cons, renameEach]
      cases rename files (src name) (dst name) with
      | none => exact ih files false
      | some files' => exact ih files' ok
  exact any true

theorem mem_luaHeaders {name : String} (h : name ∈ luaHeaders files) : luaHeader name = true := by
  obtain ⟨p, -, is⟩ := List.mem_filterMap.1 h
  split at is
  · split_ifs at is with lua
    obtain rfl := Option.some.inj is
    simp [luaHeader, lua]
  · cases is

theorem stows_renameEach {name : String} (lua : luaHeader name = true) (files : Include) :
    Stows Restored files (renameEach inInclude inDisabledLua files name) := by
  unfold renameEach
  cases moved : rename files (inInclude name) (inDisabledLua name) with
  | none => exact .refl files
  | some files' => exact .of_rename restored_pairing (.inr ⟨name, lua, rfl, rfl⟩) moved

theorem stows_luaHeaders (files : Include) :
    Stows Restored files (renameAll inInclude inDisabledLua files (luaHeaders files)).1 := by
  rw [renameAll_fst]
  exact .foldl (fun _ mem => stows_renameEach (mem_luaHeaders mem)) files

theorem disabledLua_ne (h : MovedBack (restores ++ renames) x d) :
    x ≠ disabledLua ∧ d ≠ disabledLua := by
  have named : ∀ header ∈ restores ++ renames, header.2 ≠ disabledLua ∧ header.1 ≠ disabledLua := by
    decide
  obtain mem | ⟨name, lua, rfl, rfl⟩ := h
  · exact named _ mem
  · refine ⟨?_, by simp [inDisabledLua, disabledLua]⟩
    rintro ⟨⟩
    exact absurd lua (by decide)

theorem stows_makeDisabledLua {mkdir : Bool} (h : makeDisabledLua mkdir files = some files') :
    Stows Restored files files' := by
  unfold makeDisabledLua at h
  split_ifs at h
  · obtain rfl := Option.some.inj h
    exact .refl files
  · obtain rfl := Option.some.inj h
    refine ⟨fun paired => .inl ?_, fun {p} before after => ?_⟩
    · obtain ⟨hx, hd⟩ := disabledLua_ne paired.of_restored
      exact ⟨AList.lookup_insert_ne hx, AList.lookup_insert_ne hd⟩
    · rw [AList.lookup_insert_eq_none] at after
      simp [after.2] at before

theorem stows_hideLua (mkdir : Bool) (files : Include) :
    Stows Restored files (hideLua mkdir files) := by
  unfold hideLua
  cases made : makeDisabledLua mkdir files with
  | none => exact .refl files
  | some files' =>
    have moved := (stows_makeDisabledLua made).trans (stows_luaHeaders files')
    dsimp only
    split_ifs
    · exact moved.trans (stows_renameEach (by decide) _)
    · exact moved

/-! ### The restore block -/

theorem restoresBeforeLua_subset : restoresBeforeLua ⊆ restores ++ renames :=
  List.Subset.trans (List.subset_append_left _ _) (List.subset_append_left _ _)

theorem restoresAfterLua_subset : restoresAfterLua ⊆ restores ++ renames :=
  List.Subset.trans (List.subset_append_right _ _) (List.subset_append_left _ _)

theorem renames_subset : renames ⊆ restores ++ renames := List.subset_append_right _ _

theorem restores_putBack {lines : List (Path × Path)} (sub : lines ⊆ restores ++ renames)
    (paired : MovedBack (restores ++ renames) x d) (files : Include) :
    Restores x d files (lines.foldl putBack files) :=
  .foldl (fun _ mem _ => .of_mv movedBack_pairing paired (.inl (sub mem))) files

theorem returns_putBack {lines : List (Path × Path)} (sub : lines ⊆ restores ++ renames)
    (mem : (d, x) ∈ lines) (files : Include) : Returns x d files (lines.foldl putBack files) := by
  have paired : MovedBack (restores ++ renames) x d := .inl (sub mem)
  exact .foldl (fun _ mem' _ => .of_mv movedBack_pairing paired (.inl (sub mem'))) mem
    (fun _ => .of_mv movedBack_pairing paired) files

theorem mem_disabledHeaders {name : String} :
    name ∈ disabledHeaders files ↔ (files.lookup (inDisabledLua name)).isSome := by
  rw [AList.lookup_isSome, AList.mem_keys, disabledHeaders, List.mem_filterMap]
  constructor
  · rintro ⟨p, mem, is⟩
    split at is
    · split_ifs at is with dir
      subst dir
      obtain rfl := Option.some.inj is
      exact mem
    · cases is
  · intro mem
    exact ⟨_, mem, rfl⟩

theorem there_disabledLua {name : String} (h : (files.lookup (inDisabledLua name)).isSome) :
    there files disabledLua = true := by
  rw [AList.lookup_isSome, AList.mem_keys] at h
  exact List.any_eq_true.2 ⟨_, h, by simp [disabledLua, inDisabledLua]⟩

/-- Only headers of Lua are in `disabled-lua`. -/
def LuaOnly (files : Include) : Prop :=
  ∀ name, luaHeader name = false → files.lookup (inDisabledLua name) = none

theorem LuaOnly.mem {name : String} (only : LuaOnly files) (h : name ∈ disabledHeaders files) :
    luaHeader name = true := by
  by_contra other
  have missing := only name (Bool.eq_false_iff.2 other)
  simp [mem_disabledHeaders, missing] at h

theorem restores_renameEach {name : String} (lua : luaHeader name = true)
    (paired : MovedBack (restores ++ renames) x d) (files : Include) :
    Restores x d files (renameEach inDisabledLua inInclude files name) :=
  .of_rename movedBack_pairing paired (.inr ⟨name, lua, rfl, rfl⟩)

theorem restores_disabledHeaders (only : LuaOnly files)
    (paired : MovedBack (restores ++ renames) x d) :
    Restores x d files (renameAll inDisabledLua inInclude files (disabledHeaders files)).1 := by
  rw [renameAll_fst]
  exact .foldl (fun _ mem => restores_renameEach (only.mem mem) paired) files

theorem returns_disabledHeaders {name : String} (only : LuaOnly files)
    (mem : name ∈ disabledHeaders files) :
    Returns (inInclude name) (inDisabledLua name) files
      (renameAll inDisabledLua inInclude files (disabledHeaders files)).1 := by
  have paired : MovedBack (restores ++ renames) (inInclude name) (inDisabledLua name) :=
    .inr ⟨name, only.mem mem, rfl, rfl⟩
  rw [renameAll_fst]
  exact .foldl (fun _ mem' => restores_renameEach (only.mem mem') paired) mem
    (fun _ => .of_rename movedBack_pairing paired) files

/-- `rmdir` concerns none of the headers. -/
theorem restores_erase (paired : MovedBack (restores ++ renames) x d) (files : Include) :
    Restores x d files (files.erase disabledLua) :=
  .of_lookup (AList.lookup_erase_ne (disabledLua_ne paired).1)
    (AList.lookup_erase_ne (disabledLua_ne paired).2)

theorem restores_restoreLua (only : LuaOnly files) (paired : MovedBack (restores ++ renames) x d) :
    Restores x d files (restoreLua files) := by
  have moved := restores_disabledHeaders only paired
  unfold restoreLua
  dsimp only
  split_ifs
  · exact moved.trans (restores_erase paired _)
  · exact moved
  · exact .refl files

theorem returns_restoreLua {name : String} (only : LuaOnly files)
    (lua : luaHeader name = true) :
    Returns (inInclude name) (inDisabledLua name) files (restoreLua files) := by
  have paired : MovedBack (restores ++ renames) (inInclude name) (inDisabledLua name) :=
    .inr ⟨name, lua, rfl, rfl⟩
  refine ⟨restores_restoreLua only paired, fun away => ?_⟩
  have aside : (files.lookup (inDisabledLua name)).isSome := by simp [away.2]
  have moved := returns_disabledHeaders only (mem_disabledHeaders.2 aside)
  unfold restoreLua
  rw [if_pos (there_disabledLua aside)]
  dsimp only
  split_ifs
  · exact (moved.trans_restores (restores_erase paired _)).back away
  · exact moved.back away

theorem LuaOnly.mv (only : LuaOnly files) {src dst : Path} (hd : plain dst = true) :
    LuaOnly ((mv files src dst).getD files) := fun name other =>
  mv_none (only name other) (ne_inDisabledLua_of_plain hd name).symm

theorem LuaOnly.hide {headers : List (Path × Path)} (only : LuaOnly files)
    (known : ∀ place disabled, (place, disabled) ∈ headers → plain disabled = true) :
    LuaOnly (hide files headers) := by
  induction headers generalizing files with
  | nil => exact only
  | cons header headers ih =>
    obtain ⟨place, disabled⟩ := header
    have first : LuaOnly ((FileMoves.mv files place disabled).getD files) :=
      only.mv (known _ _ List.mem_cons_self)
    simp only [Headers.hide]
    cases moved : FileMoves.mv files place disabled with
    | none => exact only
    | some files' =>
      simp only [moved, Option.getD_some] at first
      exact ih first fun place' disabled' mem => known _ _ (List.mem_cons_of_mem _ mem)

theorem LuaOnly.renameEach {name : String} (lua : luaHeader name = true) (only : LuaOnly files) :
    LuaOnly (renameEach inInclude inDisabledLua files name) := by
  refine fun name' other => rename_none (only name' other) ?_
  intro same
  obtain rfl : name' = name := by simpa [inDisabledLua] using same
  simp [lua] at other

theorem LuaOnly.makeDisabledLua {mkdir : Bool} (only : LuaOnly files)
    (h : makeDisabledLua mkdir files = some files') : LuaOnly files' := by
  unfold Headers.makeDisabledLua at h
  split_ifs at h
  · obtain rfl := Option.some.inj h
    exact only
  · obtain rfl := Option.some.inj h
    intro name other
    rw [AList.lookup_insert_ne (by simp [inDisabledLua, disabledLua])]
    exact only name other

theorem LuaOnly.hideLua (mkdir : Bool) (only : LuaOnly files) : LuaOnly (hideLua mkdir files) := by
  unfold Headers.hideLua
  cases made : Headers.makeDisabledLua mkdir files with
  | none => exact only
  | some files' =>
    have moved : LuaOnly (renameAll inInclude inDisabledLua files' (luaHeaders files')).1 := by
      rw [renameAll_fst]
      exact List.foldlRecOn _ _ (only.makeDisabledLua made) fun _ only' _ mem =>
        only'.renameEach (mem_luaHeaders mem)
    dsimp only
    split_ifs
    · exact moved.renameEach (by decide)
    · exact moved

theorem LuaOnly.putBack {lines : List (Path × Path)} (only : LuaOnly files)
    (sub : lines ⊆ restores ++ renames) : LuaOnly (lines.foldl putBack files) :=
  List.foldlRecOn lines _ only fun _ only' _ mem => only'.mv (plain_names _ (sub mem)).2

theorem LuaOnly.restoreLua (only : LuaOnly files) : LuaOnly (restoreLua files) := by
  have moved : LuaOnly (renameAll inDisabledLua inInclude files (disabledHeaders files)).1 := by
    rw [renameAll_fst]
    refine List.foldlRecOn _ _ only fun _ only' name _ name' other => ?_
    exact rename_none (only' name' other) (by simp [inDisabledLua, inInclude])
  unfold Headers.restoreLua
  dsimp only
  split_ifs
  · intro name other
    rw [AList.lookup_erase_ne (by simp [inDisabledLua, disabledLua])]
    exact moved name other
  · exact moved
  · exact only

theorem LuaOnly.restoreBlock (only : LuaOnly files) : LuaOnly (restoreBlock files) :=
  (((only.putBack restoresBeforeLua_subset).restoreLua).putBack restoresAfterLua_subset).putBack
    renames_subset

/-- After the restore block every header that has been moved aside is back. -/
theorem returns_restoreBlock (only : LuaOnly files) (paired : Restored x d) :
    Returns x d files (restoreBlock files) := by
  have before := restoresBeforeLua_subset
  have after := restoresAfterLua_subset
  have listed := paired.of_restored
  have only' := only.putBack before
  have last := restores_putBack renames_subset listed
    (restoresAfterLua.foldl putBack (restoreLua (restoresBeforeLua.foldl putBack files)))
  refine Returns.trans_restores ?_ last
  obtain mem | ⟨name, lua, rfl, rfl⟩ := paired
  · obtain mem | mem := List.mem_append.1 mem
    · exact ((returns_putBack before mem files).trans_restores
        (restores_restoreLua only' listed)).trans_restores (restores_putBack after listed _)
    · exact ((restores_putBack before listed files).trans
        (restores_restoreLua only' listed)).trans_returns (returns_putBack after mem _)
  · exact ((restores_putBack before listed files).trans_returns
      (returns_restoreLua only' lua)).trans_restores (restores_putBack after listed _)

/-! ### Every run -/

/-- What has been moved aside from `x` is in one of its two places, unless a build has installed
something there. -/
def Accounted (files : Include) (x d : Path) : Option (Entry String String) → Prop
  | none => (files.lookup x).isSome
  | some e => Placed x d e files ∨ Away x d e files

theorem Accounted.of_lookup {due : Option (Entry String String)} (h : Accounted files x d due)
    (hx : files'.lookup x = files.lookup x) (hd : files'.lookup d = files.lookup d) :
    Accounted files' x d due := by
  cases due with
  | none => simpa [Accounted, hx] using h
  | some e => simpa [Accounted, Placed, Away, hx, hd] using h

/-- Everything moved aside is accounted for, and in place unless it is owed or hidden by the run that
is going on. -/
structure Kept (w : World) : Prop where
  luaOnly : LuaOnly w.files
  accounted : ∀ {x due}, w.moved x = some due → ∃ d, Restored x d ∧ Accounted w.files x d due
  settled : ∀ {x e}, w.moved x = some (some e) → x ∉ w.owed →
    (∀ run ∈ w.run, x ∉ run.hidden) → w.files.lookup x = some e

/-- What a run knows of itself. -/
structure OnTrack (w : World) : Prop where
  lines : ∀ run ∈ w.run, run.rest ⊆ script
  passed : ∀ run ∈ w.run, run.ahead = false → w.owed = []
  configured : ∀ run ∈ w.run, run.configuring = true → w.owed = []

theorem mem_gone : p ∈ gone files files' ↔ (files.lookup p).isSome ∧ files'.lookup p = none := by
  rw [AList.lookup_isSome, AList.mem_keys, gone, List.mem_filter, Option.isNone_iff_eq_none]

theorem lookup_of_not_gone (stows : Stows Restored files files') (paired : Restored x d)
    (h : x ∉ gone files files') :
    files'.lookup x = files.lookup x ∧ files'.lookup d = files.lookup d := by
  obtain same | ⟨e, before, away⟩ := stows.pair paired
  · exact same
  · exact absurd (mem_gone.2 ⟨by simp [before], away.1⟩) h

theorem Kept.stow (kept : Kept w) (now : w.run = some run) (only : LuaOnly files')
    (stows : Stows Restored w.files files') {run' : Build} (hidden : run'.hidden = run.hidden) :
    Kept (w.stow run' files') := by
  refine ⟨only, fun {x due} moved => ?_, fun {x e} moved owed hidden' => ?_⟩
  · simp only [World.stow] at moved ⊢
    split_ifs at moved with went
    · obtain ⟨before, after⟩ := mem_gone.1 went
      obtain ⟨d, paired⟩ := stows.gone before after
      obtain rfl := Option.some.inj moved
      refine ⟨d, paired, ?_⟩
      obtain ⟨same, -⟩ | ⟨e, there, away⟩ := stows.pair paired
      · rw [← same, after] at before
        cases before
      · rw [there]
        exact .inr away
    · obtain ⟨d, paired, accounted⟩ := kept.accounted moved
      obtain ⟨hx, hd⟩ := lookup_of_not_gone stows paired went
      exact ⟨d, paired, accounted.of_lookup hx hd⟩
  · have out := hidden' _ rfl
    simp only [List.mem_append, not_or] at out
    simp only [World.stow, if_neg out.1] at moved ⊢
    obtain ⟨d, paired, -⟩ := kept.accounted moved
    rw [(lookup_of_not_gone stows paired out.1).1]
    refine kept.settled moved owed fun run₀ this => ?_
    obtain rfl : run = run₀ := Option.some.inj (now.symm.trans this)
    rw [← hidden]
    exact out.2

/-- When all is back nothing is owed. -/
theorem Kept.allBack (kept : Kept w) (only : LuaOnly files')
    (returns : ∀ {x d}, Restored x d → Returns x d w.files files') {run' : Build} :
    Kept { w with files := files', run := some run', owed := [] } := by
  refine ⟨only, fun {x due} moved => ?_, fun {x e} moved _ _ => ?_⟩
  · obtain ⟨d, paired, accounted⟩ := kept.accounted moved
    refine ⟨d, paired, ?_⟩
    cases due with
    | none => exact (returns paired).there accounted
    | some e => exact .inl (accounted.elim (returns paired).placed (returns paired).back)
  · obtain ⟨d, paired, accounted⟩ := kept.accounted moved
    exact (accounted.elim (returns paired).placed (returns paired).back).1

theorem ne_of_disabledName (paired : Restored x d) (h : disabledName p = false) : d ≠ p := by
  rintro rfl
  simp only [disabledName, decide_eq_false_iff_not, not_or] at h
  obtain mem | ⟨name, -, -, rfl⟩ := paired
  · exact h.1 (List.mem_map_of_mem mem)
  · exact h.2 rfl

theorem Kept.install (kept : Kept w) (now : w.run = some run) {e : Entry String String}
    (name : disabledName p = false) {run' : Build} (hidden : run'.hidden = run.hidden) :
    Kept { w with
      files := w.files.insert p e
      run := some run'
      moved := fun q => if q = p then (w.moved p).map fun _ => none else w.moved q } := by
  refine ⟨fun lua other => ?_, fun {x due} moved => ?_, fun {x e'} moved owed hidden' => ?_⟩
  · rw [AList.lookup_insert_ne]
    · exact kept.luaOnly lua other
    · rintro rfl
      simp only [disabledName, decide_eq_false_iff_not, not_or] at name
      exact name.2 rfl
  · dsimp only at moved ⊢
    split_ifs at moved with same
    · subst same
      obtain ⟨due', moved', rfl⟩ := Option.map_eq_some_iff.1 moved
      obtain ⟨d, paired, -⟩ := kept.accounted moved'
      exact ⟨d, paired, by simp [Accounted]⟩
    · obtain ⟨d, paired, accounted⟩ := kept.accounted moved
      exact ⟨d, paired, accounted.of_lookup (AList.lookup_insert_ne same)
        (AList.lookup_insert_ne (ne_of_disabledName paired name))⟩
  · dsimp only at moved ⊢
    split_ifs at moved with same
    · obtain ⟨due', -, none⟩ := Option.map_eq_some_iff.1 moved
      cases none
    · rw [AList.lookup_insert_ne same]
      refine kept.settled moved owed fun run₀ this => ?_
      obtain rfl : run = run₀ := Option.some.inj (now.symm.trans this)
      rw [← hidden]
      exact hidden' _ rfl

theorem Kept.start : Kept { files := ∅ } :=
  ⟨fun _ _ => rfl, nofun, nofun⟩

/-- A step that leaves the headers as they are, in a run that goes on. -/
theorem Kept.goOn (kept : Kept w) (now : w.run = some run) {run' : Build}
    (hidden : run'.hidden = run.hidden) : Kept { w with run := some run' } := by
  refine ⟨kept.luaOnly, kept.accounted, fun moved owed hidden' => ?_⟩
  refine kept.settled moved owed fun run₀ this => ?_
  obtain rfl : run = run₀ := Option.some.inj (now.symm.trans this)
  rw [← hidden]
  exact hidden' _ rfl

theorem Kept.finish (kept : Kept w) (now : w.run = some run) : Kept (w.finish run) := by
  refine ⟨kept.luaOnly, kept.accounted, fun moved owed _ => ?_⟩
  simp only [World.finish, List.mem_append, not_or] at owed
  refine kept.settled moved owed.2 fun run₀ this => ?_
  obtain rfl : run = run₀ := Option.some.inj (now.symm.trans this)
  exact owed.1

theorem action_mem {action : Action} (lines : run.rest ⊆ script)
    (h : run.action = some action) : ∃ line ∈ script, line.action = action := by
  obtain ⟨line, head, is⟩ := Option.bind_eq_some_iff.1 h
  refine ⟨line, lines (List.mem_of_mem_head? head), ?_⟩
  split_ifs at is
  exact Option.some.inj is

theorem SafeStep.hide {headers : List (Path × Path)} (safe : SafeStep w .next)
    (now : w.run = some run) (does : run.action = some (.hide headers)) :
    SafeHide w.files headers := by
  simpa only [SafeStep, now, Option.bind_some, does] using safe

theorem Kept.perform (kept : Kept w) (track : OnTrack w) (now : w.run = some run)
    (safe : SafeStep w .next) : Kept (w.perform run run.action) := by
  cases does : run.action with
  | none => exact kept.goOn now rfl
  | some action =>
    cases action with
    | builds _ => exact kept.goOn now rfl
    | hide headers =>
      obtain ⟨line, mem, act⟩ := action_mem (track.lines run now) does
      have known := hide_lines line mem headers act
      exact kept.stow now (kept.luaOnly.hide fun _ _ h => (known _ _ h).1)
        (stows_hide (safe.hide now does) fun _ _ h => (known _ _ h).2) rfl
    | hideLua mkdir =>
      exact kept.stow now (kept.luaOnly.hideLua mkdir) (stows_hideLua mkdir w.files) rfl
    | restore =>
      exact kept.allBack kept.luaOnly.restoreBlock (returns_restoreBlock kept.luaOnly)
    | exit => exact kept.finish now

/-- What a step does: a run starts, or the one that is going on does something. -/
theorem step_cases (h : step w a = some w') :
    (∃ source, a = .start source ∧ w.run = none ∧ w' = { w with run := some { source } }) ∨
    ∃ run, w.run = some run ∧
      ((a = .next ∧ w' = w.perform run run.action) ∨
      (a = .configure ∧ w' = { w with run := some { run with configuring := true } }) ∨
      (∃ p e, a = .install p e ∧ disabledName p = false ∧ w' = { w with
        files := w.files.insert p e
        run := some { run with configuring := false }
        moved := fun q => if q = p then (w.moved p).map fun _ => none else w.moved q }) ∨
      (a = .exit ∧ w' = w.finish run)) := by
  cases a with
  | start source =>
    simp only [step] at h
    split at h <;> cases h
    next idle => exact .inl ⟨source, rfl, idle, rfl⟩
  | next =>
    simp only [step] at h
    split at h
    · cases h
    next run now =>
      split_ifs at h
      exact .inr ⟨run, now, .inl ⟨rfl, (Option.some.inj h).symm⟩⟩
  | configure =>
    simp only [step] at h
    split at h
    · cases h
    next run now =>
      split_ifs at h
      exact .inr ⟨run, now, .inr (.inl ⟨rfl, (Option.some.inj h).symm⟩)⟩
  | install p e =>
    simp only [step] at h
    split at h
    · cases h
    next run now =>
      split_ifs at h with free
      exact .inr ⟨run, now,
        .inr (.inr (.inl ⟨p, e, rfl, free.2, (Option.some.inj h).symm⟩))⟩
  | exit =>
    simp only [step] at h
    split at h
    · cases h
    next run now =>
      split_ifs at h
      exact .inr ⟨run, now, .inr (.inr (.inr ⟨rfl, (Option.some.inj h).symm⟩))⟩

theorem Kept.step (kept : Kept w) (track : OnTrack w) (safe : SafeStep w a)
    (h : step w a = some w') : Kept w' := by
  obtain ⟨source, rfl, idle, rfl⟩ | ⟨run, now, did⟩ := step_cases h
  · exact ⟨kept.luaOnly, kept.accounted, fun moved owed _ =>
      kept.settled moved owed (by simp [idle])⟩
  obtain ⟨rfl, rfl⟩ | ⟨rfl, rfl⟩ | ⟨p, e, rfl, name, rfl⟩ | ⟨rfl, rfl⟩ := did
  · exact kept.perform track now safe
  · exact kept.goOn now rfl
  · exact kept.install now name rfl
  · exact kept.finish now

theorem OnTrack.of_run {run' : Build} (now : w.run = some run') (lines : run'.rest ⊆ script)
    (passed : run'.ahead = false → w.owed = [])
    (configured : run'.configuring = true → w.owed = []) : OnTrack w := by
  refine ⟨fun run₀ this => ?_, fun run₀ this => ?_, fun run₀ this => ?_⟩
  all_goals obtain rfl : run' = run₀ := Option.some.inj (now.symm.trans this)
  · exact lines
  · exact passed
  · exact configured

theorem OnTrack.idle (idle : w.run = none) : OnTrack w :=
  ⟨by simp [idle], by simp [idle], by simp [idle]⟩

theorem OnTrack.perform (track : OnTrack w) (now : w.run = some run) :
    OnTrack (w.perform run run.action) := by
  have lines : run.goOn.rest ⊆ script :=
    fun _ mem => track.lines run now (List.mem_of_mem_tail mem)
  have passed : run.goOn.ahead = false → w.owed = [] := track.passed run now
  cases run.action with
  | none => exact .of_run rfl lines passed nofun
  | some action =>
    cases action with
    | builds _ => exact .of_run rfl lines passed nofun
    | hide headers => exact .of_run rfl lines passed nofun
    | hideLua mkdir => exact .of_run rfl lines passed nofun
    | restore => exact .of_run rfl lines (fun _ => rfl) nofun
    | exit => exact .idle rfl

theorem OnTrack.step (track : OnTrack w) (safe : SafeStep w a) (h : step w a = some w') :
    OnTrack w' := by
  obtain ⟨source, rfl, -, rfl⟩ | ⟨run, now, did⟩ := step_cases h
  · exact .of_run rfl (List.Subset.refl script) nofun nofun
  obtain ⟨rfl, rfl⟩ | ⟨rfl, rfl⟩ | ⟨p, e, rfl, -, rfl⟩ | ⟨rfl, rfl⟩ := did
  · exact track.perform now
  · refine .of_run rfl (track.lines run now) (track.passed run now) fun _ => ?_
    cases ahead : run.ahead with
    | true => exact safe run now ahead
    | false => exact track.passed run now ahead
  · exact .of_run rfl (track.lines run now) (track.passed run now) nofun
  · exact .idle rfl

/-- In every run of runs in the way of `SafeStep`, what has been moved aside is back at every
configure step. -/
theorem hiding_undone (h : Reaches step SafeStep { files := ∅ } w) : HidingUndone w := by
  obtain ⟨kept, track⟩ := h.invariant (I := fun w => Kept w ∧ OnTrack w) ⟨.start, .idle rfl⟩
    fun _ _ _ inv safe taken => ⟨inv.1.step inv.2 safe taken, inv.2.step safe taken⟩
  intro run now configuring x due moved hidden
  have nothingOwed := track.configured run now configuring
  cases due with
  | none =>
    obtain ⟨d, -, there⟩ := kept.accounted moved
    obtain ⟨e, there⟩ := Option.isSome_iff_exists.1 there
    exact ⟨e, there, nofun⟩
  | some e =>
    refine ⟨e, kept.settled moved (by simp [nothingOwed]) fun run₀ this => ?_, ?_⟩
    · obtain rfl : run = run₀ := Option.some.inj (now.symm.trans this)
      exact hidden
    · rintro _ ⟨⟩
      rfl

/-! ### Two runs of runs -/

/-- A source directory that only this `grep` finds. -/
def named (pattern : String) : Source
  | .pwd p => p = pattern
  | .file _ => false

/-- A package without lines of its own installs a header. -/
def installed (p : Path) : List Label :=
  [.start fun _ => false, .install p (.file ""), .exit]

/-- The lines up to the end of the restore block. -/
def toRestored : List Label := List.replicate 7 .next

/-- A package without lines of its own gets as far as its configure step. -/
def configured : List Label := .start (fun _ => false) :: toRestored ++ [.configure]

/-- XBMC is built, which moves `fmt` aside, and then another package. -/
def xbmc : List Label :=
  installed ["fmt"] ++ .start (named "xbmc") :: List.replicate 24 .next ++ .exit :: configured

set_option maxRecDepth 4000 in
theorem hiding_undone_xbmc : ∃ w, exec step { files := ∅ } xbmc = some w ∧ HidingUndone w := by
  have ends : (exec step { files := ∅ } xbmc).isSome = true := by decide
  obtain ⟨w, run⟩ := Option.isSome_iff_exists.1 ends
  exact ⟨w, run, hiding_undone (reaches_of_exec run (by decide))⟩

/-- The X server is built, which moves `gc.h` aside, and then another package. -/
def xorgServer : List Label :=
  installed ["gc.h"] ++ .start (named "xorg-server") :: toRestored ++ .exit :: configured

set_option maxRecDepth 4000 in
theorem gc_header_missing : ¬ ∀ w, Run step { files := ∅ } w → HidingUndone w := by
  intro undone
  have ends : (exec step { files := ∅ } xorgServer).map (fun w =>
      w.run.any (fun run => run.configuring && run.hidden.isEmpty) &&
        (w.moved ["gc.h"]).isSome && (w.files.lookup ["gc.h"]).isNone) = some true := by decide
  obtain ⟨w, run, seen⟩ := Option.map_eq_some_iff.1 ends
  simp only [Bool.and_eq_true, Option.any_eq_true] at seen
  obtain ⟨⟨⟨now, is, configuring, nothing⟩, moved⟩, missing⟩ := seen
  obtain ⟨due, moved⟩ := Option.isSome_iff_exists.1 moved
  obtain ⟨e, found, -⟩ := undone w (run_of_exec run) now is configuring ["gc.h"] due moved
    (by simp [List.isEmpty_iff.1 nothing])
  simp [found] at missing

end Headers

end Ydfs.Autobuild
