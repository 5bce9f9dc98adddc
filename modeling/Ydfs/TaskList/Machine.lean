import Mathlib.Data.List.Infix
import Mathlib.Data.Rat.Defs
import Mathlib.Logic.Function.Basic
import Ydfs.Transition.Run

/-!
# The task list as a re-entrant state machine

A `Task` has an associated function and a list of subtasks that only grows.  Tasks are named by
their position: `[]` is the root task list and `i :: p` is the `i`-th entry of `subtasks` of the
task at `p`, so that the parent of `i :: p` is `p` and the ancestors of a task are the suffixes of
its position.

The calls that are in progress form a stack.  A frame is either the associated function of a task
(`body`), or the `for` loop of `_run_subtasks` at some index, run either by `__call__` or by
`set_progress` (`loop`).  While a function is on top of the stack it may do anything (`Op`); the
machine accepts every order of operations, on any task of the tree.  A loop on top of the stack
advances by itself (`tick`), and the frontend may cancel the root between any two steps.  The
prologue of `__call__`, from its guard to the start of the function, is one step.
-/

namespace Ydfs.TaskList

/-- Position of a task in the tree. -/
abbrev Pos := List ℕ

/-- The status of a task. -/
inductive Status where
  | inactive
  | active
  | completed
  | failed
  | cancelled
  deriving DecidableEq

/-- The attributes of a task that the control flow reads or writes.  Of the subtasks only their
number is stored, the subtask `i` of the task at `p` being the task at `i :: p`. -/
structure Task (ε ν : Type) where
  isRequired : Bool := true
  size : ℚ := 1
  completed : ℚ := 0
  lastCompleted : ℚ := 0
  status : Status := .inactive
  subtasks : ℕ := 0
  currentSubtask : Option ℕ := none
  associatedFunctionResult : Option ν := none
  error : Option ε := none

/-- On whose behalf `_run_subtasks` runs. -/
inductive Caller where
  | call
  | setProgress
  deriving DecidableEq

/-- A call in progress. -/
inductive Frame where
  | body (t : Pos)
  | loop (t : Pos) (i : ℕ) (c : Caller)
  deriving DecidableEq

/-- The task a frame belongs to. -/
@[simp]
def Frame.task : Frame → Pos
  | body t => t
  | loop t _ _ => t

/-- What the task list logs: a function starts, a task finishes, is cancelled, or its function
raises (with `is_required` of the task). -/
inductive Event (ε : Type) where
  | running (t : Pos)
  | finished (t : Pos)
  | cancelling (t : Pos)
  | failed (t : Pos) (isRequired : Bool) (e : ε)

/-- What a call of a task or of `set_progress` returned: `None`, `True` (the function has to
terminate), or the result of an associated function. -/
inductive Reply (ν : Type) where
  | none
  | stop
  | result (v : ν)

/-- A result of an associated function as the caller of the task sees it. -/
def Reply.ofResult {ν : Type} : Option ν → Reply ν
  | .none => .none
  | .some v => .result v

/-- The task tree, the `_stopped_event` of a `ThreadedTaskList` root, the calls in progress, the
value returned last, and the log, newest entry first. -/
structure State (ε ν : Type) where
  task : Pos → Task ε ν
  threaded : Bool
  stopped : Bool := false
  stack : List Frame := []
  reply : Reply ν := .none
  log : List (Event ε) := []

namespace State

variable {ε ν : Type} (s : State ε ν)

/-- The status of the task at `t`. -/
def status (t : Pos) : Status := (s.task t).status

/-- There is a task at this position. -/
def has : Pos → Bool
  | [] => true
  | i :: p => i < (s.task p).subtasks && has p

/-- `is_active`: the task and all its ancestors are ACTIVE. -/
def isActive : Pos → Bool
  | [] => s.status [] = .active
  | i :: p => s.status (i :: p) = .active && isActive p

/-- `is_cancelled`: the task or one of its ancestors is CANCELLED; a threaded root is also
cancelled once its stop event is set. -/
def isCancelled : Pos → Bool
  | [] => s.stopped || s.status [] = .cancelled
  | i :: p => s.status (i :: p) = .cancelled || isCancelled p

/-- `self.parent` is absent or active. -/
def parentActive : Pos → Bool
  | [] => true
  | _ :: p => s.isActive p

/-- The guard of `__call__`. -/
def callable (t : Pos) : Bool := s.status t = .inactive && s.parentActive t

/-- Replace the attributes of one task. -/
def setTask (t : Pos) (x : Task ε ν) : State ε ν := { s with task := Function.update s.task t x }

/-- Append a line to the log. -/
def record (e : Event ε) : State ε ν := { s with log := e :: s.log }

/-- `add_subtask`: a new task at the end of `subtasks` of `u`. -/
def addSubtask (u : Pos) (isRequired : Bool) (size : ℚ) : State ε ν :=
  let n := (s.task u).subtasks
  (s.setTask u { s.task u with subtasks := n + 1 }).setTask (n :: u) { isRequired, size }

/-- `finish`. -/
def finish (t : Pos) : State ε ν :=
  if s.status t = .completed then s
  else (s.setTask t { s.task t with completed := (s.task t).size, status := .completed }).record
    (.finished t)

/-- `cancel`; the root of a threaded list also sets its stop event. -/
def cancel (t : Pos) : State ε ν :=
  { s.setTask t { s.task t with status := .cancelled } with
    stopped := s.stopped || (s.threaded && t = [])
    log := .cancelling t :: s.log }

/-- The part of `__call__` from the guard to the start of the associated function. -/
def begin (t : Pos) : State ε ν :=
  { s.setTask t { s.task t with error := none, status := .active } with
    stack := .body t :: s.stack
    log := .running t :: s.log }

/-- `__call__`: a task that is not INACTIVE, or whose ancestors are not all ACTIVE, returns
`None` at once. -/
def call (t : Pos) : State ε ν := if s.callable t then s.begin t else { s with reply := .none }

/-- The new size that `set_progress` stores: `None` and `0` keep the old one. -/
def newSize (u : Pos) (size : Option ℚ) : ℚ :=
  match size with
  | some z => if z = 0 then (s.task u).size else z
  | none => (s.task u).size

/-- `set_progress`: a cancelled task is told to stop; reaching the size runs the subtasks. -/
def setProgress (u : Pos) (completed : ℚ) (size : Option ℚ) : State ε ν :=
  if s.isCancelled u then { s with reply := .stop }
  else
    let s' := s.setTask u { s.task u with
      lastCompleted := (s.task u).completed
      completed := completed
      size := s.newSize u size }
    if s.newSize u size ≤ completed then { s' with stack := .loop u 0 .setProgress :: s.stack }
    else { s' with reply := .none }

/-- The associated function of `t` returned `v`: store the result and run the subtasks. -/
def functionReturned (t : Pos) (K : List Frame) (v : Option ν) : State ε ν :=
  { s.setTask t { s.task t with associatedFunctionResult := v } with
    stack := .loop t 0 .call :: K }

/-- The associated function of `t` raised `e`.  A required task leaves its error on the root,
cancels the root and returns; otherwise the result is `None` and the subtasks run. -/
def functionRaised (t : Pos) (K : List Frame) (e : ε) : State ε ν :=
  let s' := (s.setTask t { s.task t with error := some e, status := .failed }).record
    (.failed t (s.task t).isRequired e)
  if (s.task t).isRequired then
    { (s'.setTask [] { s'.task [] with error := some e }).cancel [] with
      stack := K
      reply := .none }
  else s'.functionReturned t K none

/-- The loop of `_run_subtasks` of `t` calls subtask `i`. -/
def nextSubtask (t : Pos) (i : ℕ) (c : Caller) (K : List Frame) : State ε ν :=
  State.call { s.setTask t { s.task t with currentSubtask := some i } with
    stack := .loop t (i + 1) c :: K } (i :: t)

/-- The loop of `_run_subtasks` of `t` is over: `finish`, then `__call__` returns the result of the
associated function and `set_progress` returns `None`. -/
def loopDone (t : Pos) (c : Caller) (K : List Frame) : State ε ν :=
  { s.finish t with
    stack := K
    reply := match c with
      | .call => .ofResult (s.task t).associatedFunctionResult
      | .setProgress => .none }

end State

/-- What an associated function may do next. -/
inductive Op (ε ν : Type) where
  | addSubtask (u : Pos) (isRequired : Bool) (size : ℚ)
  | call (u : Pos)
  | setProgress (u : Pos) (completed : ℚ) (size : Option ℚ)
  | finish (u : Pos)
  | cancel (u : Pos)
  | ret (v : Option ν)
  | raise (e : ε)

/-- The labels of the machine: the call of the root, a cancel from the frontend, one iteration of
the loop on top of the stack, one operation of the function on top of the stack. -/
inductive Action (ε ν : Type) where
  | run
  | cancelFromUi
  | tick
  | act (op : Op ε ν)

namespace State

variable {ε ν : Type}

/-- One operation of the function of `t`, which is on top of the stack `body t :: K`. -/
def perform (s : State ε ν) (t : Pos) (K : List Frame) : Op ε ν → Option (State ε ν)
  | .addSubtask u r z => if s.has u then some (s.addSubtask u r z) else none
  | .call u => if s.has u then some (s.call u) else none
  | .setProgress u c z => if s.has u then some (s.setProgress u c z) else none
  | .finish u => if s.has u then some { s.finish u with reply := .none } else none
  | .cancel u => if s.has u then some { s.cancel u with reply := .none } else none
  | .ret v => some (s.functionReturned t K v)
  | .raise e => some (s.functionRaised t K e)

/-- One step of the task list. -/
def step (s : State ε ν) : Action ε ν → Option (State ε ν)
  | .run =>
    match s.stack with
    | [] => some (s.call [])
    | _ :: _ => none
  | .cancelFromUi => some (s.cancel [])
  | .tick =>
    match s.stack with
    | .loop t i c :: K =>
      if i < (s.task t).subtasks then some (s.nextSubtask t i c K) else some (s.loopDone t c K)
    | _ => none
  | .act op =>
    match s.stack with
    | .body t :: K => s.perform t K op
    | _ => none

end State

/-- A task tree before its root is run: no task has been touched. -/
structure Initial {ε ν : Type} (s : State ε ν) : Prop where
  inactive : ∀ t, s.status t = .inactive
  error : ∀ t, (s.task t).error = none
  stopped : s.stopped = false
  stack : s.stack = []
  log : s.log = []

/-- `TaskList` and `ThreadedTaskList`: a required root over the given tasks, each with its
`is_required` and its size. -/
def taskList {ε ν : Type} (threaded : Bool) (tasks : List (Bool × ℚ)) : State ε ν where
  threaded := threaded
  task
    | [] => { subtasks := tasks.length }
    | [i] => match tasks[i]? with
      | some (isRequired, size) => { isRequired, size }
      | none => {}
    | _ => {}

theorem initial_taskList {ε ν : Type} (threaded : Bool) (tasks : List (Bool × ℚ)) :
    Initial (taskList threaded tasks : State ε ν) := by
  have fresh : ∀ t, ((taskList threaded tasks : State ε ν).task t).status = .inactive ∧
      ((taskList threaded tasks : State ε ν).task t).error = none := by
    rintro (_ | ⟨i, _ | ⟨j, t⟩⟩)
    · exact ⟨rfl, rfl⟩
    · simp only [taskList]
      split <;> exact ⟨rfl, rfl⟩
    · exact ⟨rfl, rfl⟩
  exact ⟨fun t => (fresh t).1, fun t => (fresh t).2, rfl, rfl, rfl⟩

/-- What one step can do, by the label. -/
inductive Stepped {ε ν : Type} (s : State ε ν) : Action ε ν → State ε ν → Prop
  | run : s.stack = [] → Stepped s .run (s.call [])
  | cancelFromUi : Stepped s .cancelFromUi (s.cancel [])
  | next {t i c K} : s.stack = .loop t i c :: K → i < (s.task t).subtasks →
      Stepped s .tick (s.nextSubtask t i c K)
  | done {t i c K} : s.stack = .loop t i c :: K → (s.task t).subtasks ≤ i →
      Stepped s .tick (s.loopDone t c K)
  | addSubtask {t K} (u r z) : s.stack = .body t :: K → s.has u →
      Stepped s (.act (.addSubtask u r z)) (s.addSubtask u r z)
  | call {t K} (u) : s.stack = .body t :: K → s.has u → Stepped s (.act (.call u)) (s.call u)
  | setProgress {t K} (u c z) : s.stack = .body t :: K → s.has u →
      Stepped s (.act (.setProgress u c z)) (s.setProgress u c z)
  | finish {t K} (u) : s.stack = .body t :: K → s.has u →
      Stepped s (.act (.finish u)) { s.finish u with reply := .none }
  | cancel {t K} (u) : s.stack = .body t :: K → s.has u →
      Stepped s (.act (.cancel u)) { s.cancel u with reply := .none }
  | ret {t K} (v) : s.stack = .body t :: K →
      Stepped s (.act (.ret v)) (s.functionReturned t K v)
  | raise {t K} (e) : s.stack = .body t :: K →
      Stepped s (.act (.raise e)) (s.functionRaised t K e)

/-- Every step is one of these. -/
theorem stepped_of_step {ε ν : Type} {s s' : State ε ν} {a : Action ε ν}
    (h : s.step a = some s') : Stepped s a s' := by
  cases a with
  | run =>
    cases hs : s.stack with
    | nil => simp only [State.step, hs, Option.some.injEq] at h; exact h ▸ .run hs
    | cons f K => simp [State.step, hs] at h
  | cancelFromUi => exact Option.some.inj h ▸ .cancelFromUi
  | tick =>
    match hs : s.stack with
    | [] => simp [State.step, hs] at h
    | .body t :: K => simp [State.step, hs] at h
    | .loop t i c :: K =>
      simp only [State.step, hs] at h
      split_ifs at h with hi
      · exact Option.some.inj h ▸ .next hs hi
      · exact Option.some.inj h ▸ .done hs (Nat.le_of_not_lt hi)
  | act op =>
    match hs : s.stack with
    | [] => simp [State.step, hs] at h
    | .loop t i c :: K => simp [State.step, hs] at h
    | .body t :: K =>
      simp only [State.step, hs] at h
      cases op with
      | addSubtask u r z =>
        simp only [State.perform, Option.ite_none_right_eq_some, Option.some.injEq] at h
        exact h.2 ▸ .addSubtask u r z hs h.1
      | call u =>
        simp only [State.perform, Option.ite_none_right_eq_some, Option.some.injEq] at h
        exact h.2 ▸ .call u hs h.1
      | setProgress u c z =>
        simp only [State.perform, Option.ite_none_right_eq_some, Option.some.injEq] at h
        exact h.2 ▸ .setProgress u c z hs h.1
      | finish u =>
        simp only [State.perform, Option.ite_none_right_eq_some, Option.some.injEq] at h
        exact h.2 ▸ .finish u hs h.1
      | cancel u =>
        simp only [State.perform, Option.ite_none_right_eq_some, Option.some.injEq] at h
        exact h.2 ▸ .cancel u hs h.1
      | ret v => exact Option.some.inj h ▸ .ret v hs
      | raise e => exact Option.some.inj h ▸ .raise e hs

/-! ## What the operations leave unchanged -/

namespace State

variable {ε ν : Type} {s s' : State ε ν}

theorem has_congr (h : ∀ p, (s'.task p).subtasks = (s.task p).subtasks) : s'.has = s.has := by
  funext p
  induction p with
  | nil => rfl
  | cons i p ih => simp only [has, h, ih]

theorem isActive_congr (h : s'.status = s.status) : s'.isActive = s.isActive := by
  funext p
  induction p with
  | nil => simp only [isActive, h]
  | cons i p ih => simp only [isActive, h, ih]

/-- A task is active when it and all its ancestors are ACTIVE. -/
theorem isActive_iff (t : Pos) : s.isActive t ↔ ∀ p, p <:+ t → s.status p = .active := by
  induction t with
  | nil => simp [isActive]
  | cons i t ih => simp [isActive, ih, List.suffix_cons_iff]

theorem parentActive_iff (t : Pos) :
    s.parentActive t ↔ ∀ p, p <:+ t → p ≠ t → s.status p = .active := by
  cases t with
  | nil => simp +contextual [parentActive]
  | cons i t =>
    simp only [parentActive, isActive_iff, List.suffix_cons_iff]
    constructor
    · rintro h p (rfl | hp) hne
      · exact absurd rfl hne
      · exact h p hp
    · intro h p hp
      refine h p (.inr hp) ?_
      rintro rfl
      exact absurd hp.length_le (by simp)

theorem callable_iff (t : Pos) : s.callable t ↔ s.status t = .inactive ∧ s.parentActive t := by
  simp [callable]

/-- Only the attributes of `t` have changed. -/
theorem status_of_update {t : Pos} {x : Task ε ν} {st : Status}
    (h : s'.task = Function.update s.task t x) (hx : x.status = st) :
    s'.status = Function.update s.status t st := by
  funext u
  simp only [status, h, Function.update_apply]
  split_ifs
  · exact hx
  · rfl

theorem status_eq_of_update {t : Pos} {x : Task ε ν} (h : s'.task = Function.update s.task t x)
    (hx : x.status = s.status t) : s'.status = s.status :=
  (status_of_update h hx).trans (Function.update_eq_self t s.status)

theorem has_of_update {t : Pos} {x : Task ε ν} (h : s'.task = Function.update s.task t x)
    (hx : x.subtasks = (s.task t).subtasks) : s'.has = s.has := by
  refine has_congr fun p => ?_
  rw [h, Function.update_apply]
  split_ifs with hp
  · rw [hx, hp]
  · rfl

@[simp]
theorem log_setTask (t : Pos) (x : Task ε ν) : (s.setTask t x).log = s.log := rfl

@[simp]
theorem stack_setTask (t : Pos) (x : Task ε ν) : (s.setTask t x).stack = s.stack := rfl

end State

end Ydfs.TaskList
