import Mathlib.Data.List.Basic
import Ydfs.TaskList.Starts

/-!
# The error of the root

The handler of `__call__` stores the exception of a required task on the root, whatever is there
already.  So at every point of a run the error of the root is the exception that a required function
raised last, and `run_tasks` raises that one again.
-/

namespace Ydfs.TaskList

open Transition

variable {ε ν : Type} {s s' : State ε ν}

/-- The exception of a required task, if the entry reports one. -/
def Event.requiredError : Event ε → Option ε
  | failed _ true e => some e
  | _ => none

namespace State

/-- The exceptions that functions of required tasks have raised, in this order. -/
def requiredErrors (s : State ε ν) : List ε := (s.log.filterMap Event.requiredError).reverse

/-- What `run_tasks` does with the error of its task list when the progress page is gone: an
`exc_info` triple is raised again. -/
def runTasks (s : State ε ν) : Except ε Unit :=
  match (s.task []).error with
  | none => .ok ()
  | some e => .error e

theorem requiredErrors_skip {e : Event ε} (h : s'.log = e :: s.log) (he : e.requiredError = none) :
    s'.requiredErrors = s.requiredErrors := by
  rw [requiredErrors, h, List.filterMap_cons_none he]
  rfl

theorem requiredErrors_snoc {e : Event ε} {x : ε} (h : s'.log = e :: s.log)
    (he : e.requiredError = some x) : s'.requiredErrors = s.requiredErrors ++ [x] := by
  rw [requiredErrors, h, List.filterMap_cons_some he, List.reverse_cons]
  rfl

theorem mem_requiredErrors {e : ε} : e ∈ s.requiredErrors ↔ ∃ t, .failed t true e ∈ s.log := by
  simp only [requiredErrors, List.mem_reverse, List.mem_filterMap]
  constructor
  · rintro ⟨x, hx, he⟩
    unfold Event.requiredError at he
    split at he
    · exact ⟨_, Option.some.inj he ▸ hx⟩
    · cases he
  · rintro ⟨t, ht⟩
    exact ⟨_, ht, rfl⟩

theorem requiredErrors_eq_nil : s.requiredErrors = [] ↔ ¬ s.RequiredFailed := by
  rw [List.eq_nil_iff_forall_not_mem]
  simp only [mem_requiredErrors, RequiredFailed]
  exact ⟨fun h ⟨t, e, he⟩ => h e ⟨t, he⟩, fun h e ⟨t, he⟩ => h ⟨t, e, he⟩⟩

/-- The root is required, and its error is the exception raised last by a required function. -/
structure LastError (s : State ε ν) : Prop where
  required : (s.task []).isRequired = true
  error : (s.task []).error = s.requiredErrors.getLast?

namespace LastError

theorem of_initial (h : Initial s) (root : (s.task []).isRequired = true) : s.LastError where
  required := root
  error := by simp [h.error, requiredErrors, h.log]

/-- No required function has raised, and the root keeps its error. -/
theorem of_eq (h : s.LastError) (hr : (s'.task []).isRequired = (s.task []).isRequired)
    (he : (s'.task []).error = (s.task []).error) (hl : s'.requiredErrors = s.requiredErrors) :
    s'.LastError :=
  ⟨hr.trans h.required, by rw [he, hl, h.error]⟩

/-- An update of a task that leaves its error and `is_required` as they are. -/
theorem of_update {t : Pos} {x : Task ε ν} (h : s.LastError)
    (hs : s'.task = Function.update s.task t x) (hr : x.isRequired = (s.task t).isRequired)
    (he : x.error = (s.task t).error) (hl : s'.requiredErrors = s.requiredErrors) :
    s'.LastError := by
  refine h.of_eq ?_ ?_ hl
  · rw [hs, Function.update_apply]
    split_ifs with ht
    · rw [hr, ht]
    · rfl
  · rw [hs, Function.update_apply]
    split_ifs with ht
    · rw [he, ht]
    · rfl

theorem finish (h : s.LastError) (t : Pos) : (s.finish t).LastError := by
  unfold State.finish
  split_ifs
  · exact h
  · exact h.of_update rfl rfl rfl (requiredErrors_skip rfl rfl)

theorem cancel (h : s.LastError) (t : Pos) : (s.cancel t).LastError :=
  h.of_update rfl rfl rfl (requiredErrors_skip rfl rfl)

theorem addSubtask (h : s.LastError) (u : Pos) (r : Bool) (z : ℚ) :
    (s.addSubtask u r z).LastError := by
  have grown : (s.setTask u { s.task u with subtasks := (s.task u).subtasks + 1 }).LastError :=
    h.of_update rfl rfl rfl rfl
  exact grown.of_eq rfl rfl rfl

/-- A task that starts forgets its error; when the root starts, no function has raised yet. -/
theorem call (h : s.LastError) (hw : s.WellFormed) (t : Pos) : (s.call t).LastError := by
  unfold State.call
  split_ifs with hc
  · have same : (s.begin t).requiredErrors = s.requiredErrors := requiredErrors_skip rfl rfl
    cases t with
    | nil =>
      have fresh : s.requiredErrors = [] := requiredErrors_eq_nil.2 fun hf =>
        (hw.root_over (.inl hf)).1 ((callable_iff _).1 hc).1
      exact ⟨h.required, by rw [same, fresh]; rfl⟩
    | cons i p => exact h.of_eq rfl rfl same
  · exact h.of_eq rfl rfl rfl

/-- The exception of a required task replaces the error of the root. -/
theorem functionRaised (h : s.LastError) (t : Pos) (K : List Frame) (e : ε) :
    (s.functionRaised t K e).LastError := by
  cases hr : (s.task t).isRequired with
  | true =>
    have marked : (s.markFailed t e).requiredErrors = s.requiredErrors ++ [e] :=
      requiredErrors_snoc (log_markFailed t e) (by rw [hr]; rfl)
    have required : ((s.markFailed t e).task []).isRequired = true := by
      simp only [markFailed, record, setTask, Function.update_apply]
      split_ifs
      · exact hr
      · exact h.required
    have onRoot : ((s.markFailed t e).setRootError e).LastError := by
      refine ⟨required, ?_⟩
      have same : ((s.markFailed t e).setRootError e).requiredErrors = s.requiredErrors ++ [e] :=
        marked
      rw [same, List.getLast?_concat]
      rfl
    rw [functionRaised_required K e hr]
    exact (onRoot.cancel []).of_eq rfl rfl rfl
  | false =>
    rw [functionRaised_optional K e hr]
    cases t with
    | nil => simp [h.required] at hr
    | cons i p =>
      exact h.of_eq rfl rfl (requiredErrors_skip (log_markFailed _ e) (by rw [hr]; rfl))

theorem of_stepped {a : Action ε ν} (h : s.LastError) (hw : s.WellFormed)
    (hstep : Stepped s a s') : s'.LastError := by
  cases hstep with
  | run => exact h.call hw []
  | cancelFromUi => exact h.cancel []
  | @next t i c K hs hi =>
    exact (h.of_update rfl rfl rfl rfl : (s.looping t i c K).LastError).call (hw.looping hs) _
  | @done t i c K => exact (h.finish t).of_eq rfl rfl rfl
  | addSubtask u r z => exact h.addSubtask u r z
  | call u => exact h.call hw u
  | setProgress u c z =>
    unfold State.setProgress
    split_ifs
    · exact h.of_eq rfl rfl rfl
    · exact h.of_update rfl rfl rfl rfl
    · exact h.of_update rfl rfl rfl rfl
  | finish u => exact (h.finish u).of_eq rfl rfl rfl
  | cancel u => exact (h.cancel u).of_eq rfl rfl rfl
  | ret v => exact h.of_update rfl rfl rfl rfl
  | raise e => exact h.functionRaised ..

theorem of_run {s₀ : State ε ν} (h₀ : Initial s₀) (root : (s₀.task []).isRequired = true)
    (h : Run State.step s₀ s) : s.LastError := by
  have both := h.invariant (I := fun s => s.WellFormed ∧ s.LastError)
    ⟨.of_initial h₀, of_initial h₀ root⟩ fun _ _ _ hi _ hs =>
      ⟨hi.1.of_stepped (stepped_of_step hs), hi.2.of_stepped hi.1 (stepped_of_step hs)⟩
  exact both.2

end LastError

theorem runTasks_eq_error {e : ε} : s.runTasks = .error e ↔ (s.task []).error = some e := by
  unfold runTasks
  cases (s.task []).error <;> simp

end State

/-- At every point of a run of a task list the error of the root is empty exactly when no required
function has raised, and otherwise it is the exception of the required function that raised last,
which `run_tasks` raises again. -/
theorem root_error {s₀ : State ε ν} (h₀ : Initial s₀) (root : (s₀.task []).isRequired = true)
    (h : Run State.step s₀ s) :
    ((s.task []).error = none ↔ ¬ s.RequiredFailed) ∧
      (s.task []).error = s.requiredErrors.getLast? ∧
      ∀ e, s.runTasks = .error e ↔ s.requiredErrors.getLast? = some e := by
  have last := (State.LastError.of_run h₀ root h).error
  refine ⟨?_, last, fun e => ?_⟩
  · rw [last, List.getLast?_eq_none_iff, State.requiredErrors_eq_nil]
  · rw [State.runTasks_eq_error, last]

/-- A subtask fails, and then the function that called it. -/
def failedTwice : List (Action String Unit) :=
  [.run, .act (.ret none), .tick, .act (.addSubtask [0] true 1), .act (.call [0, 0]),
    .act (.raise "download failed"),
    .act (.raise "Could not retrieve the required installation files"), .tick]

/-- The error of the enclosing function is the one that is left. -/
theorem root_error_failed_twice :
    ∃ s, exec State.step (taskList true [(true, 1)] : State String Unit) failedTwice = some s ∧
      (s.task []).error = some "Could not retrieve the required installation files" := by
  refine ⟨_, rfl, ?_⟩
  have reached := run_of_exec (show exec State.step
    (taskList true [(true, 1)] : State String Unit) failedTwice = some _ from rfl)
  exact (root_error (initial_taskList ..) rfl reached).2.1.trans rfl

/-- The first exception does not survive in every run. -/
theorem not_first_root_error :
    ¬ ∀ s₀ s : State String Unit, Initial s₀ → (s₀.task []).isRequired = true →
      Run State.step s₀ s → s.stack = [] →
        (s.task []).error = s.requiredErrors.head? := by
  intro h
  have reached := run_of_exec (show exec State.step
    (taskList true [(true, 1)] : State String Unit) failedTwice = some _ from rfl)
  have first := h _ _ (initial_taskList ..) rfl reached rfl
  exact absurd first (by decide)

end Ydfs.TaskList
