import Mathlib.Data.List.Infix
import Mathlib.Logic.Function.Basic
import Mathlib.Tactic.SplitIfs
import Ydfs.Transition.Run

/-!
# The steps of `build_from_source`

`build_from_source` runs the scripts of six steps in a fixed order, each followed by a `touch` of
the marker `$STEP.done`; a step whose marker exists is skipped, and a script that fails ends the
run.  A package directory is a state machine over the shell commands of all runs on it: the process
can be killed between any two of them, and started again.  The `echo` between the test of a marker and
`continue` is taken to succeed.  The invariant is that the markers are exactly those of an initial part
of the order, and that the loop stands at the end of that part whenever it runs a script.
-/

namespace Ydfs.Build

open Transition

/-- The steps of a build. -/
inductive Step where
  | prepare
  | configure
  | postConfigure
  | build
  | install
  | distinstall
  deriving DecidableEq

/-- The order of the `for` loop. -/
def Step.order : List Step := [prepare, configure, postConfigure, build, install, distinstall]

/-- The steps that come before `st`. -/
def Step.earlier (st : Step) : List Step := Step.order.takeWhile (· ≠ st)

/-- The script of a step: the trigger of the package when there is one, else the default. -/
inductive Script where
  | trigger
  | default

/-- Which script is run, given whether the trigger exists. -/
def Script.select (trigger : Bool) : Script := if trigger then .trigger else .default

/-- Where the process stands.  `idle` keeps the exit status of the last process that ended by
itself; `testing` is in front of the steps that are left. -/
inductive Control where
  | idle (status : Option ℕ)
  | testing (rest : List Step)
  | running (st : Step) (rest : List Step)
  | touching (st : Step) (rest : List Step)

/-- A script was started, or it exited with a status. -/
inductive Entry where
  | started (st : Step) (script : Script)
  | exited (st : Step) (status : ℕ)

/-- A package directory: its markers, the process at work on it, and the log of all runs, newest
entry first. -/
structure Package where
  done : Step → Bool := fun _ => false
  control : Control := .idle none
  log : List Entry := []

/-- The commands of the shell, with what they find or return. -/
inductive Command where
  | buildFromSource
  | buildTheArchive
  | test (trigger : Bool)
  | exit (status : ℕ)
  | touch
  | kill

namespace Package

/-- One command.  `build_the_archive` exits at once when the last marker exists. -/
def step (s : Package) : Command → Option Package
  | .buildFromSource =>
    match s.control with
    | .idle _ => some { s with control := .testing Step.order }
    | _ => none
  | .buildTheArchive =>
    match s.control with
    | .idle _ =>
      if s.done .distinstall then some { s with control := .idle (some 0) }
      else some { s with control := .testing Step.order }
    | _ => none
  | .test trigger =>
    match s.control with
    | .testing [] => some { s with control := .idle (some 0) }
    | .testing (st :: rest) =>
      if s.done st then some { s with control := .testing rest }
      else some { s with
        control := .running st rest
        log := .started st (.select trigger) :: s.log }
    | _ => none
  | .exit status =>
    match s.control with
    | .running st rest => some { s with
        control := if status = 0 then .touching st rest else .idle (some status)
        log := .exited st status :: s.log }
    | _ => none
  | .touch =>
    match s.control with
    | .touching st rest => some { s with
        done := Function.update s.done st true
        control := .testing rest }
    | _ => none
  | .kill =>
    match s.control with
    | .idle _ => none
    | _ => some { s with control := .idle none }

/-- The markers that exist, in the order of the steps. -/
def markers (s : Package) : List Step := Step.order.filter s.done

/-- The step from `s` to `s'` starts the script of `st`. -/
def Starts (s s' : Package) (st : Step) : Prop := ∃ script, s'.log = .started st script :: s.log

end Package

/-- What one command can do. -/
inductive Stepped (s : Package) : Command → Package → Prop
  | start {c r} : s.control = .idle r → c = .buildFromSource ∨ c = .buildTheArchive →
      Stepped s c { s with control := .testing Step.order }
  | buildt {r} : s.control = .idle r → s.done .distinstall →
      Stepped s .buildTheArchive { s with control := .idle (some 0) }
  | ended {trigger} : s.control = .testing [] →
      Stepped s (.test trigger) { s with control := .idle (some 0) }
  | skip {trigger st rest} : s.control = .testing (st :: rest) → s.done st = true →
      Stepped s (.test trigger) { s with control := .testing rest }
  | run {trigger st rest} : s.control = .testing (st :: rest) → s.done st = false →
      Stepped s (.test trigger) { s with
        control := .running st rest
        log := .started st (.select trigger) :: s.log }
  | succeed {st rest} : s.control = .running st rest →
      Stepped s (.exit 0) { s with
        control := .touching st rest
        log := .exited st 0 :: s.log }
  | fail {st rest status} : s.control = .running st rest → status ≠ 0 →
      Stepped s (.exit status) { s with
        control := .idle (some status)
        log := .exited st status :: s.log }
  | touch {st rest} : s.control = .touching st rest →
      Stepped s .touch { s with
        done := Function.update s.done st true
        control := .testing rest }
  | kill : Stepped s .kill { s with control := .idle none }

theorem stepped_of_step {s s' : Package} {c : Command} (h : s.step c = some s') :
    Stepped s c s' := by
  cases c with
  | buildFromSource =>
    simp only [Package.step] at h
    split at h <;> cases h
    exact .start ‹_› (.inl rfl)
  | buildTheArchive =>
    simp only [Package.step] at h
    split at h <;> try cases h
    split_ifs at h with buildt <;> cases h
    · exact .buildt ‹_› buildt
    · exact .start ‹_› (.inr rfl)
  | test trigger =>
    simp only [Package.step] at h
    split at h
    · cases h
      exact .ended ‹_›
    · split_ifs at h with marked <;> cases h
      · exact .skip ‹_› marked
      · exact .run ‹_› (Bool.eq_false_iff.2 marked)
    · cases h
  | exit status =>
    simp only [Package.step] at h
    split at h <;> cases h
    split_ifs with zero
    · subst zero
      exact .succeed ‹_›
    · exact .fail ‹_› zero
  | touch =>
    simp only [Package.step] at h
    split at h <;> cases h
    exact .touch ‹_›
  | kill =>
    simp only [Package.step] at h
    split at h <;> cases h
    exact .kill

/-! ## The markers are those of an initial part of the order -/

theorem Step.nodup_order : Step.order.Nodup := by decide

/-- Splitting the order at a step gives the steps before it. -/
theorem Step.earlier_eq {before rest : List Step} {st : Step}
    (h : Step.order = before ++ st :: rest) : st.earlier = before := by
  have fresh : st ∉ before := fun hst =>
    (List.nodup_append.1 (h ▸ Step.nodup_order)).2.2 st hst st (.head _) rfl
  rw [Step.earlier, h, List.takeWhile_append_of_pos fun u hu => ?_]
  · simp
  · simp only [ne_eq, decide_not, Bool.not_eq_eq_eq_not, Bool.not_true, decide_eq_false_iff_not]
    rintro rfl
    exact fresh hu

namespace Package

variable {s s' : Package}

/-- The markers are exactly those of `before`, and `rest` is left. -/
structure DoneTo (done : Step → Bool) (before rest : List Step) : Prop where
  order : Step.order = before ++ rest
  iff : ∀ st, done st = true ↔ st ∈ before

/-- What the position of the process says about the markers. -/
def AtControl (s : Package) : Control → Prop
  | .idle status => status = some 0 → ∀ st, s.done st = true
  | .testing rest => ∃ before, Step.order = before ++ rest ∧ ∀ st ∈ before, s.done st = true
  | .running st rest => ∃ before, DoneTo s.done before (st :: rest)
  | .touching st rest => .exited st 0 ∈ s.log ∧ ∃ before, DoneTo s.done before (st :: rest)

/-- The invariant of a package directory. -/
structure Resumable (s : Package) : Prop where
  doneTo : ∃ before rest, DoneTo s.done before rest
  exited : ∀ st, s.done st = true → .exited st 0 ∈ s.log
  control : s.AtControl s.control

namespace DoneTo

variable {done : Step → Bool} {before rest : List Step} {st : Step}

/-- When all steps before `st` have a marker and `st` has none, these are the only markers. -/
theorem stops {p r : List Step} (h : DoneTo done p r) (order : Step.order = before ++ st :: rest)
    (marked : ∀ u ∈ before, done u = true) (unmarked : done st = false) :
    DoneTo done before (st :: rest) := by
  refine ⟨order, fun u => ⟨fun hu => ?_, marked u⟩⟩
  rcases List.append_eq_append_iff.1 (h.order.symm.trans order) with ⟨l, rfl, -⟩ | ⟨l, hp, hl⟩
  · exact List.mem_append_left _ ((h.iff u).1 hu)
  · cases l with
    | nil =>
      rw [List.append_nil] at hp
      exact hp ▸ (h.iff u).1 hu
    | cons v l =>
      obtain rfl : st = v := by simp only [List.cons_append, List.cons.injEq] at hl; exact hl.1
      simp [(h.iff st).2 (by simp [hp])] at unmarked

/-- A marker is added to those of the steps before it. -/
theorem touch (h : DoneTo done before (st :: rest)) :
    DoneTo (Function.update done st true) (before ++ [st]) rest := by
  refine ⟨by simp [h.order], fun u => ?_⟩
  simp only [Function.update_apply, List.mem_append, List.mem_singleton, ← h.iff u]
  split_ifs with hu <;> simp [hu]

/-- Nothing is left when the last marker exists. -/
theorem rest_eq_nil (h : DoneTo done before rest) (last : done .distinstall = true) :
    rest = [] := by
  by_contra hne
  have here : rest.getLast hne = Step.distinstall := by
    have hl := congrArg List.getLast? h.order
    rw [List.getLast?_append_of_ne_nil _ hne, List.getLast?_eq_some_getLast hne] at hl
    exact (Option.some.inj hl).symm
  have disjoint := (List.nodup_append.1 (h.order ▸ Step.nodup_order)).2.2
  exact disjoint _ ((h.iff _).1 last) _ (List.getLast_mem hne) here.symm

theorem filter_eq (h : DoneTo done before rest) : Step.order.filter done = before := by
  have disjoint := (List.nodup_append.1 (h.order ▸ Step.nodup_order)).2.2
  have marked : before.filter done = before :=
    List.filter_eq_self.2 fun st hst => (h.iff st).2 hst
  have unmarked : rest.filter done = [] := List.filter_eq_nil_iff.2 fun st hst hd =>
    disjoint st ((h.iff st).1 hd) st hst rfl
  rw [h.order, List.filter_append, marked, unmarked, List.append_nil]

end DoneTo

/-- When the loop has passed every step, all have a marker. -/
theorem mem_of_order_eq {before : List Step} (h : Step.order = before ++ []) (st : Step) :
    st ∈ before := by
  rw [List.append_nil] at h
  exact h ▸ (by cases st <;> decide)

namespace Resumable

theorem of_fresh : Resumable {} where
  doneTo := ⟨[], Step.order, rfl, by simp⟩
  exited := by simp
  control := by simp [AtControl]

/-- The process moves on, and the markers stay. -/
theorem of_control (h : s.Resumable) {c : Control} (here : s.AtControl c) :
    Resumable { s with control := c } :=
  ⟨h.doneTo, h.exited, by cases c <;> exact here⟩

/-- The process moves on and writes to the log, and the markers stay. -/
theorem of_log (h : s.Resumable) {c : Control} {e : Entry}
    (here : AtControl { s with control := c, log := e :: s.log } c) :
    Resumable { s with control := c, log := e :: s.log } :=
  ⟨h.doneTo, fun st hst => .tail _ (h.exited st hst), here⟩

/-- Every command keeps the invariant. -/
theorem of_stepped {c : Command} (h : s.Resumable) (hs : Stepped s c s') : s'.Resumable := by
  have here := h.control
  cases hs with
  | start => exact h.of_control ⟨[], rfl, by simp⟩
  | buildt _ last =>
    obtain ⟨before, rest, doneTo⟩ := h.doneTo
    obtain rfl := doneTo.rest_eq_nil last
    exact h.of_control fun _ st => (doneTo.iff st).2 (mem_of_order_eq doneTo.order st)
  | ended hc =>
    rw [hc] at here
    obtain ⟨before, order, marked⟩ := here
    exact h.of_control fun _ st => marked st (mem_of_order_eq order st)
  | @skip _ st rest hc mark =>
    rw [hc] at here
    obtain ⟨before, order, marked⟩ := here
    refine h.of_control ⟨before ++ [st], by simp [order], fun u hu => ?_⟩
    rcases List.mem_append.1 hu with hu | hu
    · exact marked u hu
    · exact List.mem_singleton.1 hu ▸ mark
  | run hc unmarked =>
    rw [hc] at here
    obtain ⟨before, order, marked⟩ := here
    obtain ⟨p, r, doneTo⟩ := h.doneTo
    exact h.of_log ⟨before, doneTo.stops order marked unmarked⟩
  | succeed hc =>
    rw [hc] at here
    exact h.of_log ⟨.head _, here⟩
  | fail hc failed => exact h.of_log fun zero => absurd (Option.some.inj zero) failed
  | @touch st rest hc =>
    rw [hc] at here
    obtain ⟨exited, before, doneTo⟩ := here
    have touched := doneTo.touch
    refine ⟨⟨_, _, touched⟩, fun u hu => ?_, before ++ [st], touched.order,
      fun u hu => (touched.iff u).2 hu⟩
    rcases List.mem_append.1 ((touched.iff u).1 hu) with hu | hu
    · exact h.exited u ((doneTo.iff u).2 hu)
    · exact List.mem_singleton.1 hu ▸ exited
  | kill => exact h.of_control fun none => by cases none

theorem of_run (h : Run step {} s) : s.Resumable :=
  h.invariant of_fresh fun _ _ _ hi _ hs => hi.of_stepped (stepped_of_step hs)

theorem markers_prefix (h : s.Resumable) : s.markers <+: Step.order := by
  obtain ⟨before, rest, doneTo⟩ := h.doneTo
  rw [markers, doneTo.filter_eq, doneTo.order]
  exact List.prefix_append before rest

/-- The script that a command starts: its step has no marker, and all steps before it have. -/
theorem starts {c : Command} {st : Step} (h : s.Resumable) (hs : Stepped s c s')
    (started : s.Starts s' st) : s.done st = false ∧ ∀ u ∈ st.earlier, s.done u = true := by
  obtain ⟨script, log⟩ := started
  have here := h.control
  cases hs with
  | run hc unmarked =>
    rw [hc] at here
    obtain ⟨before, order, done⟩ := here
    simp only [List.cons.injEq, Entry.started.injEq, and_true] at log
    obtain ⟨rfl, -⟩ := log
    exact ⟨unmarked, Step.earlier_eq order ▸ done⟩
  | succeed => simp at log
  | fail => simp at log
  | start | buildt | ended | skip | touch | kill => simp at log

end Resumable

end Package

open Package

/-- `build_from_source` resumes: after any runs on a fresh package directory the markers are those of
an initial part of the order, and a command that starts a script starts that of a step without
marker all of whose earlier steps have exited with status 0. -/
theorem build_from_source_resumes {s : Package} (h : Run step {} s) :
    s.markers <+: Step.order ∧
      ∀ c s' st, s.step c = some s' → s.Starts s' st →
        s.done st = false ∧ ∀ u ∈ st.earlier, .exited u 0 ∈ s.log := by
  have resumable := Resumable.of_run h
  refine ⟨resumable.markers_prefix, fun c s' st hs started => ?_⟩
  obtain ⟨unmarked, done⟩ := resumable.starts (stepped_of_step hs) started
  exact ⟨unmarked, fun u hu => resumable.exited u (done u hu)⟩

/-- A build killed while `configure` runs starts `configure` again, and not `prepare`. -/
theorem build_from_source_resumes_after_kill :
    ∃ s s', exec step {} [.buildFromSource, .test true, .exit 0, .touch, .test false, .kill,
        .buildTheArchive, .test true] = some s ∧ s.step (.test false) = some s' ∧
      s.markers <+: Step.order ∧ s.Starts s' .configure ∧ s.done .configure = false ∧
      ∀ u ∈ Step.configure.earlier, .exited u 0 ∈ s.log := by
  refine ⟨_, _, rfl, rfl, ?_⟩
  have resumes := build_from_source_resumes (run_of_exec (show exec step {} [.buildFromSource,
    .test true, .exit 0, .touch, .test false, .kill, .buildTheArchive, .test true] = some _
    from rfl))
  have starts := resumes.2 (.test false) _ .configure rfl ⟨.default, rfl⟩
  exact ⟨resumes.1, ⟨.default, rfl⟩, starts⟩

/-- A process that ends with status 0 leaves every marker behind, also when it exits early because
`distinstall.done` exists. -/
theorem built_of_status_zero {s : Package} (h : Run step {} s) (zero : s.control = .idle (some 0))
    (st : Step) : s.done st = true ∧ .exited st 0 ∈ s.log := by
  have resumable := Resumable.of_run h
  have all : s.AtControl (.idle (some 0)) := zero ▸ resumable.control
  exact ⟨all rfl st, resumable.exited st (all rfl st)⟩

end Ydfs.Build
