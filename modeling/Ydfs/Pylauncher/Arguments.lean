import Mathlib.Data.List.DropRight
import Ydfs.Text.CommandLine
import Ydfs.Text.Optparse

/-!
# The arguments of the application

The self-extracting header starts `pylauncher` with its own arguments, `pylauncher` starts `pyrun`
with them, and `pyrun` hands them to Python.  Each of the first two joins them into a command line
without quotes, which the next one cuts again, and the last one writes them to an array of 100.  So
they arrive exactly if each of them is plain, there are at most 95, and the longer one of the command
lines is not too long for a process.  The path of the executable is quoted, and the application gets it
back from an option that comes first; of several options of this name it takes the last.
-/

namespace Ydfs.Pylauncher.Arguments

open CommandLine

/-- White space for `strip`. -/
def isSpace (c : Char) : Bool :=
  c == ' ' || c == '\t' || c == '\n' || c == '\r' || c == '\x0b' || c == '\x0c'

/-- A full path as Windows returns it for a file: there are no quotes in it, it does not end in a
backslash, and there is no white space around it. -/
structure FilePath where
  chars : Word
  unquoted : '"' ∉ chars
  ends : chars.getLast? ≠ some '\\'
  begins : ∀ c ∈ chars.head?, isSpace c = false
  trimmed : ∀ c ∈ chars.getLast?, isSpace c = false

/-! ### The processes -/

def quoted (path : Word) : Word := '"' :: (path ++ ['"'])

/-- `"%s" "%s" "%s"`, and each argument behind a blank. -/
def commandLine (program targetdir exefile : Word) (args : List Word) : List Char :=
  quoted program ++ (' ' :: quoted targetdir) ++ (' ' :: quoted exefile) ++ join args

/-- `CreateProcess` takes less than 32767 letters; the new process has its arguments from the
runtime. -/
def createProcess (stays : Bool) (cmd : List Char) : Option (List Word) :=
  if cmd.length < 32767 then some (arguments stays cmd) else none

/-- The arguments that `pylauncher` is started with. -/
def header (stays : Bool) (targetdir exefile : Word) (args : List Word) : Option (List Word) :=
  createProcess stays (commandLine (targetdir ++ ".exe".toList) targetdir exefile args)

/-- The arguments that `pyrun` is started with. -/
def pylauncher (stays : Bool) : List Word → Option (List Word)
  | targetdir :: exefile :: args =>
    createProcess stays (commandLine (targetdir ++ "\\pyrun.exe".toList) targetdir exefile args)
  | _ => none

/-- The array that `Py_Main` is called with, and whether all was written inside of it. -/
structure Call where
  argv : List Word
  inBounds : Bool

/-- `argv[nargs] = av[i]; nargs++` for an array of 100. -/
def Call.push (call : Call) (arg : Word) : Call :=
  ⟨call.argv ++ [arg], call.inBounds && decide (call.argv.length < 100)⟩

def exefileOption (exefile : Word) : Word := "--exefile=".toList ++ quoted exefile

/-- The call of `Py_Main`, where `self` is the path of `pyrun`. -/
def pyrun (self : Word) : List Word → Option Call
  | _ :: exefile :: args =>
    some (args.foldl Call.push
      ⟨[self, "-S".toList, "-OO".toList, "main.pyo".toList, exefileOption exefile], true⟩)
  | _ => none

/-- From the start of the executable to Python. -/
def run (stays : Bool) (self : Word) (targetdir exefile : FilePath) (args : List Word) :
    Option Call := do
  let launched ← header stays targetdir.chars exefile.chars args
  let started ← pylauncher stays launched
  pyrun self started

/-! ### The application -/

def strip (text : Word) : Word := (text.dropWhile isSpace).rdropWhile isSpace

def isQuote (c : Char) : Bool := c == '"' || c == '\''

/-- The options of the application, where `isInt` are the words that Python reads as integers. -/
def options (isInt : Word → Bool) : Optparse.Options :=
  [("--quiet".toList, .flag), ("--verbose".toList, .flag), ("--install".toList, .flag),
    ("--uninstall".toList, .flag), ("--cdmenu".toList, .flag), ("--cdboot".toList, .flag),
    ("--showinfo".toList, .flag), ("--nobittorrent".toList, .flag), ("--32bit".toList, .flag),
    ("--skipmd5check".toList, .flag), ("--skipsizecheck".toList, .flag),
    ("--skipmemorycheck".toList, .flag), ("--noninteractive".toList, .flag),
    ("--test".toList, .flag), ("--debug".toList, .flag), ("--drive".toList, .value fun _ => true),
    ("--size".toList, .value isInt), ("--locale".toList, .value fun _ => true),
    ("--force-wubi".toList, .flag), ("--language".toList, .value fun _ => true),
    ("--username".toList, .value fun _ => true), ("--password".toList, .value fun _ => true),
    ("--distro".toList, .value fun _ => true), ("--accessibility".toList, .value fun _ => true),
    ("--webproxy".toList, .value fun _ => true), ("--isopath".toList, .value fun _ => true),
    ("--dimagepath".toList, .value fun _ => true), ("--exefile".toList, .value fun _ => true),
    ("--log-file".toList, .value fun _ => true), ("--interface".toList, .value fun _ => true),
    ("--help".toList, .exits), ("--version".toList, .exits)]

/-- `original_exe`; a value of white space alone has no first letter. -/
def originalExe (value : Word) : Option Word :=
  if value = [] then some value
  else do
    let first ← (strip value).head?
    let last ← (strip value).getLast?
    if isQuote first && isQuote last then some (strip (strip value).tail.dropLast) else some value

/-! ### What is expected -/

/-- The application gets the path from its arguments, unless it ends when it reads them. -/
def Recovers (isInt : Word → Bool) (exefile : FilePath) (argv : List Word) : Prop :=
  ∀ read, Optparse.processArgs (options isInt) argv = some read →
    (Optparse.lastValue "--exefile".toList read).bind originalExe = some exefile.chars

/-- Python is called with the arguments of the executable behind the added option, from which the
application gets the path; all writes are inside of the array. -/
def Forwarded (isInt : Word → Bool) (self : Word) (exefile : FilePath) (args : List Word)
    (call : Option Call) : Prop :=
  ∃ option, call = some
      ⟨[self, "-S".toList, "-OO".toList, "main.pyo".toList, option] ++ args, true⟩ ∧
    Recovers isInt exefile (option :: args)

/-- None of the arguments is read as the option for the path, or the last that is gives the path. -/
def KeepsExefile (isInt : Word → Bool) (exefile : FilePath) (args : List Word) : Prop :=
  ∀ read, Optparse.processArgs (options isInt) args = some read →
    ∀ value, Optparse.lastValue "--exefile".toList read = some value →
      originalExe value = some exefile.chars

/-- The command line for `pyrun`, the longer one, is not too long. -/
def Fits (targetdir exefile : FilePath) (args : List Word) : Prop :=
  (commandLine (targetdir.chars ++ "\\pyrun.exe".toList) targetdir.chars exefile.chars args).length <
    32767

variable {stays : Bool} {self : Word} {targetdir exefile : FilePath} {args : List Word}
  {isInt : Word → Bool}

/-! ### The command lines -/

theorem commandLine_eq (program targetdir exefile : Word) (args : List Word) :
    commandLine program targetdir exefile args =
      '"' :: (program ++ '"' :: ' ' :: '"' :: (targetdir ++
        '"' :: ' ' :: '"' :: (exefile ++ '"' :: join args))) := by
  simp [commandLine, quoted]

theorem separate_blank (line : List Char) : Separate (' ' :: line) := by
  rintro c ⟨⟩
  rfl

theorem arguments_commandLine {program : Word} (free : '"' ∉ program) (targetdir exefile : FilePath)
    (args : List Word) :
    arguments stays (commandLine program targetdir.chars exefile.chars args) =
      targetdir.chars :: exefile.chars :: cut stays args := by
  rw [arguments, commandLine_eq, behindProgram_quoted free (separate_blank _),
    scan_outside_blank rfl, scan_quoted targetdir.unquoted targetdir.ends (separate_blank _),
    scan_outside_blank rfl, scan_quoted exefile.unquoted exefile.ends (separate_join args), cut]

theorem length_commandLine (program targetdir exefile : Word) (args : List Word) :
    (commandLine program targetdir exefile args).length =
      program.length + targetdir.length + exefile.length + weight args + 8 := by
  simp only [commandLine, quoted, List.length_append, List.length_cons, List.length_nil, length_join]
  omega

theorem createProcess_eq_some {cmd : List Char} {av : List Word} :
    createProcess stays cmd = some av ↔ cmd.length < 32767 ∧ arguments stays cmd = av := by
  rw [createProcess, Option.ite_none_right_eq_some, Option.some_inj]

theorem not_mem_append_name {path name : Word} (free : '"' ∉ path) (name_free : '"' ∉ name) :
    '"' ∉ path ++ name :=
  fun quote => (List.mem_append.1 quote).elim free name_free

theorem header_eq_some {launched : List Word} :
    header stays targetdir.chars exefile.chars args = some launched ↔
      (commandLine (targetdir.chars ++ ".exe".toList) targetdir.chars exefile.chars args).length <
          32767 ∧
        launched = targetdir.chars :: exefile.chars :: cut stays args := by
  rw [header, createProcess_eq_some,
    arguments_commandLine (not_mem_append_name targetdir.unquoted (by decide)), eq_comm (b := launched)]

theorem pylauncher_eq_some {started : List Word} :
    pylauncher stays (targetdir.chars :: exefile.chars :: args) = some started ↔
      Fits targetdir exefile args ∧
        started = targetdir.chars :: exefile.chars :: cut stays args := by
  rw [pylauncher, createProcess_eq_some,
    arguments_commandLine (not_mem_append_name targetdir.unquoted (by decide)), eq_comm (b := started),
    Fits]

/-- The command line of the header is shorter. -/
theorem Fits.header (fits : Fits targetdir exefile args) :
    (commandLine (targetdir.chars ++ ".exe".toList) targetdir.chars exefile.chars args).length <
      32767 := by
  have names : ".exe".toList.length = 4 ∧ "\\pyrun.exe".toList.length = 10 := by decide
  rw [Fits, length_commandLine, List.length_append, names.2] at fits
  rw [length_commandLine, List.length_append, names.1]
  omega

/-! ### The array -/

theorem foldl_push (call : Call) (args : List Word) :
    args.foldl Call.push call =
      ⟨call.argv ++ args,
        call.inBounds && (args.isEmpty || decide (call.argv.length + args.length ≤ 100))⟩ := by
  induction args generalizing call with
  | nil => simp
  | cons a args ih =>
    have bounds : (decide (call.argv.length < 100) &&
        (args.isEmpty || decide (call.argv.length + 1 + args.length ≤ 100))) =
        decide (call.argv.length + (args.length + 1) ≤ 100) := by
      cases args with
      | nil => exact Bool.and_true _
      | cons b args =>
        rw [List.isEmpty_cons, Bool.false_or, Bool.eq_iff_iff, Bool.and_eq_true]
        simp only [decide_eq_true_eq, List.length_cons]
        omega
    rw [List.foldl_cons, ih]
    simp [Call.push, Bool.and_assoc, bounds]

/-- The call of Python: five arguments of its own, and room for 95. -/
theorem pyrun_eq (self targetdir exefile : Word) (args : List Word) :
    pyrun self (targetdir :: exefile :: args) =
      some ⟨[self, "-S".toList, "-OO".toList, "main.pyo".toList, exefileOption exefile] ++ args,
        decide (args.length ≤ 95)⟩ := by
  have room : (args.isEmpty || decide (5 + args.length ≤ 100)) = decide (args.length ≤ 95) := by
    cases args with
    | nil => rfl
    | cons a args =>
      rw [List.isEmpty_cons, Bool.false_or, decide_eq_decide]
      omega
  rw [pyrun, foldl_push, Bool.true_and, ← room]
  rfl

/-! ### The path of the executable -/

theorem strip_of_trimmed {text : Word} (begins : ∀ c ∈ text.head?, isSpace c = false)
    (ends : ∀ c ∈ text.getLast?, isSpace c = false) : strip text = text := by
  have front : text.dropWhile isSpace = text := by
    cases text with
    | nil => rfl
    | cons c text => exact List.dropWhile_cons_of_neg (by simp [begins c rfl])
  rw [strip, front, List.rdropWhile_eq_self_iff]
  intro ne
  rw [ends _ (List.getLast?_eq_some_getLast ne)]
  decide

/-- The path is got from its quotes. -/
theorem originalExe_quoted (exefile : FilePath) :
    originalExe (quoted exefile.chars) = some exefile.chars := by
  have last : (quoted exefile.chars).getLast? = some '"' :=
    List.getLast?_concat (l := '"' :: exefile.chars)
  have outer : strip (quoted exefile.chars) = quoted exefile.chars :=
    strip_of_trimmed (by rintro c ⟨⟩; rfl) (by rw [last]; rintro c ⟨⟩; rfl)
  have inner : strip (quoted exefile.chars).tail.dropLast = exefile.chars := by
    rw [quoted, List.tail_cons, List.dropLast_concat]
    exact strip_of_trimmed exefile.begins exefile.trimmed
  rw [originalExe, if_neg (by simp [quoted]), outer, last, inner]
  rfl

/-- The added option is read first. -/
theorem processArgs_exefileOption (exefile : Word) (args : List Word) :
    Optparse.processArgs (options isInt) (exefileOption exefile :: args) =
      (Optparse.processArgs (options isInt) args).map
        (("--exefile".toList, some (quoted exefile)) :: ·) := by
  have is : Optparse.matchAbbrev (options isInt) "--exefile".toList =
      some ("--exefile".toList, .value fun _ => true) :=
    Optparse.matchAbbrev_self rfl
  have split : exefileOption exefile = "--exefile".toList ++ '=' :: quoted exefile := rfl
  rw [split]
  exact Optparse.processArgs_cons_value ⟨"exefile".toList, rfl⟩ (by decide) is rfl args

/-- The application gets the path back exactly if no later argument puts something else in its
place. -/
theorem recovers_iff :
    Recovers isInt exefile (exefileOption exefile.chars :: args) ↔
      KeepsExefile isInt exefile args := by
  have added : ∀ read : List (Word × Option Word),
      (Optparse.lastValue "--exefile".toList
          (("--exefile".toList, some (quoted exefile.chars)) :: read)).bind originalExe =
        some exefile.chars ↔
      ∀ value, Optparse.lastValue "--exefile".toList read = some value →
        originalExe value = some exefile.chars := by
    intro read
    rw [Optparse.lastValue_cons]
    cases Optparse.lastValue "--exefile".toList read with
    | none => simp [originalExe_quoted]
    | some value => simp
  simp only [Recovers, KeepsExefile, processArgs_exefileOption]
  constructor
  · intro recovers read is
    exact (added read).1 (recovers _ (by rw [is]; rfl))
  · intro keeps read is
    obtain ⟨read', is', rfl⟩ := Option.map_eq_some_iff.1 is
    exact (added read').2 (keeps read' is')

/-- A shortened option is taken, too. -/
example : Optparse.processArgs (options fun _ => true) ["--exe=E:\\other.exe".toList] =
    some [("--exefile".toList, some "E:\\other.exe".toList)] := by decide

/-- No argument puts something else in the place of the path if none begins like its option. -/
theorem keepsExefile_of_absent
    (absent : ∀ a ∈ args, ['-', '-'] <+: a → ¬ Optparse.nameOf a <+: "--exefile".toList) :
    KeepsExefile isInt exefile args := by
  intro read is value last
  rw [Optparse.lastValue_eq_none is absent] at last
  cases last

/-! ### From the executable to Python -/

/-- What Python is called with, if it is called. -/
theorem run_eq_some {call : Call} :
    run stays self targetdir exefile args = some call ↔
      (commandLine (targetdir.chars ++ ".exe".toList) targetdir.chars exefile.chars args).length <
          32767 ∧
        Fits targetdir exefile (cut stays args) ∧
        call = ⟨[self, "-S".toList, "-OO".toList, "main.pyo".toList, exefileOption exefile.chars] ++
            cut stays (cut stays args), decide ((cut stays (cut stays args)).length ≤ 95)⟩ := by
  simp only [run, Option.bind_eq_bind, Option.bind_eq_some_iff, header_eq_some]
  constructor
  · rintro ⟨launched, ⟨fits, rfl⟩, started, start, call⟩
    obtain ⟨fits', rfl⟩ := pylauncher_eq_some.1 start
    rw [pyrun_eq, Option.some_inj] at call
    exact ⟨fits, fits', call.symm⟩
  · rintro ⟨fits, fits', rfl⟩
    exact ⟨_, ⟨fits, rfl⟩, _, pylauncher_eq_some.2 ⟨fits', rfl⟩, pyrun_eq ..⟩

/-- The arguments of the executable arrive exactly if they are plain, no more than 95, and fit into a
command line; the application gets the path of the executable exactly if none of them puts something
else in its place. -/
theorem forwarded_iff :
    Forwarded isInt self exefile args (run stays self targetdir exefile args) ↔
      (∀ a ∈ args, Plain a) ∧ args.length ≤ 95 ∧ Fits targetdir exefile args ∧
        KeepsExefile isInt exefile args := by
  constructor
  · rintro ⟨option, called, recovers⟩
    obtain ⟨-, fits, call⟩ := run_eq_some.1 called
    rw [Call.mk.injEq] at call
    obtain ⟨argv, room⟩ := call
    have arrived : (cut stays)^[1 + 1] args = args := (List.append_inj argv rfl).2.symm
    have added : option = exefileOption exefile.chars := by
      simpa using (List.append_inj argv rfl).1
    have plain := (cut_iterate_iff stays 1 args).1 arrived
    have unchanged : cut stays args = args := cut_of_plain plain
    rw [unchanged] at fits room
    rw [unchanged] at room
    rw [added, recovers_iff] at recovers
    exact ⟨plain, of_decide_eq_true room.symm, fits, recovers⟩
  · rintro ⟨plain, room, fits, keeps⟩
    refine ⟨_, ?_, recovers_iff.2 keeps⟩
    rw [run_eq_some, cut_of_plain plain, cut_of_plain plain, decide_eq_true room]
    exact ⟨fits.header, fits, rfl⟩

/-- A user name with a blank in it comes as two arguments. -/
theorem username_cut :
    ¬ ∀ (isInt : Word → Bool) (stays : Bool) (self : Word) (targetdir exefile : FilePath)
        (args : List Word),
      Forwarded isInt self exefile args (run stays self targetdir exefile args) := by
  intro forwarded
  let path : FilePath := ⟨"C:\\wubi.exe".toList, by decide, by decide, by rintro c ⟨⟩; rfl,
    by rintro c ⟨⟩; rfl⟩
  obtain ⟨option, called, -⟩ :=
    forwarded (fun _ => true) true [] path path ["--username=John Smith".toList]
  obtain ⟨-, -, call⟩ := run_eq_some.1 called
  rw [Call.mk.injEq] at call
  have arrived := (List.append_inj call.1 rfl).2
  revert arrived
  decide

end Ydfs.Pylauncher.Arguments
