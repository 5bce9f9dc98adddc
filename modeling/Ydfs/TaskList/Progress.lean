import Mathlib.Tactic.SplitIfs
import Ydfs.TaskList.Machine

/-!
# How a step moves the tree

For each operation of the machine: what it does to the statuses, to the tree and to the log.  From
these, `Later s s'`: a step keeps every task in the tree, never makes a started task INACTIVE again,
and never makes a task that is neither INACTIVE nor ACTIVE (`Status.Over`) ACTIVE again.
-/

namespace Ydfs.TaskList

variable {ε ν : Type} {s s' s'' : State ε ν}

/-- COMPLETED, FAILED or CANCELLED. -/
def Status.Over (x : Status) : Prop := x ≠ .inactive ∧ x ≠ .active

namespace State

/-! ## The statuses after each operation -/

@[simp]
theorem status_reply (r : Reply ν) : ({ s with reply := r } : State ε ν).status = s.status := rfl

@[simp]
theorem status_stack (K : List Frame) (r : Reply ν) :
    ({ s with stack := K, reply := r } : State ε ν).status = s.status := rfl

theorem status_finish (t : Pos) :
    (s.finish t).status = Function.update s.status t .completed := by
  unfold finish
  split_ifs with hc
  · exact (Function.update_eq_self_iff.2 hc.symm).symm
  · exact status_of_update rfl rfl

theorem status_cancel (t : Pos) :
    (s.cancel t).status = Function.update s.status t .cancelled := status_of_update rfl rfl

theorem status_begin (t : Pos) :
    (s.begin t).status = Function.update s.status t .active := status_of_update rfl rfl

theorem status_call (t : Pos) :
    (s.call t).status =
      if s.callable t then Function.update s.status t .active else s.status := by
  unfold call
  split_ifs
  · exact status_begin t
  · rfl

theorem status_addSubtask (u : Pos) (r : Bool) (z : ℚ) :
    (s.addSubtask u r z).status =
      Function.update s.status ((s.task u).subtasks :: u) .inactive := by
  have grown : (s.setTask u { s.task u with subtasks := (s.task u).subtasks + 1 }).status =
      s.status := status_eq_of_update rfl rfl
  rw [← grown]
  exact status_of_update rfl rfl

theorem status_setProgress (u : Pos) (c : ℚ) (z : Option ℚ) :
    (s.setProgress u c z).status = s.status := by
  unfold setProgress
  split_ifs
  · rfl
  · exact status_eq_of_update rfl rfl
  · exact status_eq_of_update rfl rfl

theorem status_functionReturned (t : Pos) (K : List Frame) (v : Option ν) :
    (s.functionReturned t K v).status = s.status := status_eq_of_update rfl rfl

/-- The state after the handler of `__call__` has marked the task FAILED. -/
def markFailed (s : State ε ν) (t : Pos) (e : ε) : State ε ν :=
  (s.setTask t { s.task t with error := some e, status := .failed }).record
    (.failed t (s.task t).isRequired e)

/-- The error of the root, as a failing required task sets it. -/
def setRootError (s : State ε ν) (e : ε) : State ε ν :=
  s.setTask [] { s.task [] with error := some e }

theorem functionRaised_required {t : Pos} (K : List Frame) (e : ε)
    (hr : (s.task t).isRequired = true) :
    s.functionRaised t K e =
      { (((s.markFailed t e).setRootError e).cancel []) with stack := K, reply := .none } := by
  unfold functionRaised
  rw [if_pos hr]
  rfl

theorem functionRaised_optional {t : Pos} (K : List Frame) (e : ε)
    (hr : (s.task t).isRequired = false) :
    s.functionRaised t K e = (s.markFailed t e).functionReturned t K none := by
  unfold functionRaised
  rw [if_neg (by simp [hr])]
  rfl

theorem status_markFailed (t : Pos) (e : ε) :
    (s.markFailed t e).status = Function.update s.status t .failed := status_of_update rfl rfl

theorem status_setRootError (e : ε) : (s.setRootError e).status = s.status :=
  status_eq_of_update rfl rfl

theorem status_functionRaised (t : Pos) (K : List Frame) (e : ε) :
    (s.functionRaised t K e).status =
      if (s.task t).isRequired then
        Function.update (Function.update s.status t .failed) [] .cancelled
      else Function.update s.status t .failed := by
  split_ifs with hr
  · rw [functionRaised_required K e hr]
    refine (status_cancel []).trans ?_
    rw [status_setRootError, status_markFailed]
  · rw [functionRaised_optional K e (Bool.eq_false_iff.2 hr), status_functionReturned,
      status_markFailed]

theorem status_loopDone (t : Pos) (c : Caller) (K : List Frame) :
    (s.loopDone t c K).status = Function.update s.status t .completed := status_finish t

/-- The state in which the loop of `t` calls its next subtask. -/
def looping (s : State ε ν) (t : Pos) (i : ℕ) (c : Caller) (K : List Frame) : State ε ν :=
  { s.setTask t { s.task t with currentSubtask := some i } with stack := .loop t (i + 1) c :: K }

theorem nextSubtask_eq (t : Pos) (i : ℕ) (c : Caller) (K : List Frame) :
    s.nextSubtask t i c K = (s.looping t i c K).call (i :: t) := rfl

theorem status_looping (t : Pos) (i : ℕ) (c : Caller) (K : List Frame) :
    (s.looping t i c K).status = s.status := status_eq_of_update rfl rfl

/-! ## The tree after each operation -/

theorem has_finish (t : Pos) : (s.finish t).has = s.has := by
  unfold finish
  split_ifs
  · rfl
  · exact has_of_update rfl rfl

theorem has_cancel (t : Pos) : (s.cancel t).has = s.has := has_of_update rfl rfl

theorem has_begin (t : Pos) : (s.begin t).has = s.has := has_of_update rfl rfl

theorem has_call (t : Pos) : (s.call t).has = s.has := by
  unfold call
  split_ifs
  · exact has_begin t
  · exact has_congr fun _ => rfl

theorem has_setProgress (u : Pos) (c : ℚ) (z : Option ℚ) : (s.setProgress u c z).has = s.has := by
  unfold setProgress
  split_ifs
  · exact has_congr fun _ => rfl
  · exact has_of_update rfl rfl
  · exact has_of_update rfl rfl

theorem has_functionReturned (t : Pos) (K : List Frame) (v : Option ν) :
    (s.functionReturned t K v).has = s.has := has_of_update rfl rfl

theorem has_markFailed (t : Pos) (e : ε) : (s.markFailed t e).has = s.has := has_of_update rfl rfl

theorem has_setRootError (e : ε) : (s.setRootError e).has = s.has := has_of_update rfl rfl

theorem has_functionRaised (t : Pos) (K : List Frame) (e : ε) :
    (s.functionRaised t K e).has = s.has := by
  cases hr : (s.task t).isRequired with
  | true =>
    rw [functionRaised_required K e hr]
    have same : ({ (((s.markFailed t e).setRootError e).cancel []) with
        stack := K, reply := .none } : State ε ν).has =
        (((s.markFailed t e).setRootError e).cancel []).has := has_congr fun _ => rfl
    rw [same, has_cancel, has_setRootError, has_markFailed]
  | false => rw [functionRaised_optional K e hr, has_functionReturned, has_markFailed]

theorem has_looping (t : Pos) (i : ℕ) (c : Caller) (K : List Frame) :
    (s.looping t i c K).has = s.has := has_of_update rfl rfl

/-- The position at which `add_subtask` puts the new task was free. -/
theorem not_has_new (u : Pos) : s.has ((s.task u).subtasks :: u) = false := by
  simp [has]

theorem subtasks_addSubtask {u p : Pos} {r : Bool} {z : ℚ} (hp : s.has p) :
    ((s.addSubtask u r z).task p).subtasks =
      if p = u then (s.task u).subtasks + 1 else (s.task p).subtasks := by
  have hne : p ≠ (s.task u).subtasks :: u := by
    rintro rfl
    simp [not_has_new] at hp
  simp only [addSubtask, setTask, Function.update_of_ne hne, Function.update_apply]
  split_ifs <;> rfl

theorem has_addSubtask {u p : Pos} {r : Bool} {z : ℚ} (hp : s.has p) :
    (s.addSubtask u r z).has p := by
  induction p with
  | nil => rfl
  | cons i p ih =>
    simp only [has, Bool.and_eq_true, decide_eq_true_eq] at hp ⊢
    refine ⟨?_, ih hp.2⟩
    rw [subtasks_addSubtask hp.2]
    split_ifs with hpu
    · subst hpu
      omega
    · exact hp.1

/-! ## The log and the stack after each operation -/

theorem log_finish (t : Pos) :
    (s.finish t).log = if s.status t = .completed then s.log else .finished t :: s.log := by
  unfold finish
  split_ifs <;> rfl

@[simp]
theorem log_cancel (t : Pos) : (s.cancel t).log = .cancelling t :: s.log := rfl

theorem log_call (t : Pos) :
    (s.call t).log = if s.callable t then .running t :: s.log else s.log := by
  unfold call
  split_ifs <;> rfl

@[simp]
theorem log_addSubtask (u : Pos) (r : Bool) (z : ℚ) : (s.addSubtask u r z).log = s.log := rfl

@[simp]
theorem log_setProgress (u : Pos) (c : ℚ) (z : Option ℚ) : (s.setProgress u c z).log = s.log := by
  unfold setProgress
  split_ifs <;> rfl

@[simp]
theorem log_functionReturned (t : Pos) (K : List Frame) (v : Option ν) :
    (s.functionReturned t K v).log = s.log := rfl

theorem log_markFailed (t : Pos) (e : ε) :
    (s.markFailed t e).log = .failed t (s.task t).isRequired e :: s.log := rfl

theorem log_functionRaised (t : Pos) (K : List Frame) (e : ε) :
    (s.functionRaised t K e).log =
      if (s.task t).isRequired then .cancelling [] :: .failed t true e :: s.log
      else .failed t false e :: s.log := by
  split_ifs with hr
  · rw [functionRaised_required K e hr, ← hr]
    rfl
  · rw [functionRaised_optional K e (Bool.eq_false_iff.2 hr), log_functionReturned, log_markFailed,
      Bool.eq_false_iff.2 hr]

@[simp]
theorem log_looping (t : Pos) (i : ℕ) (c : Caller) (K : List Frame) :
    (s.looping t i c K).log = s.log := rfl

theorem stack_call (t : Pos) :
    (s.call t).stack = if s.callable t then .body t :: s.stack else s.stack := by
  unfold call
  split_ifs <;> rfl

@[simp]
theorem stack_finish (t : Pos) : (s.finish t).stack = s.stack := by
  unfold finish
  split_ifs <;> rfl

@[simp]
theorem stack_addSubtask (u : Pos) (r : Bool) (z : ℚ) : (s.addSubtask u r z).stack = s.stack := rfl

theorem stack_setProgress (u : Pos) (c : ℚ) (z : Option ℚ) :
    (s.setProgress u c z).stack =
      if s.isCancelled u = false ∧ s.newSize u z ≤ c then .loop u 0 .setProgress :: s.stack
      else s.stack := by
  unfold setProgress
  cases s.isCancelled u with
  | true => simp
  | false => by_cases hz : s.newSize u z ≤ c <;> simp [hz]

@[simp]
theorem stack_functionReturned (t : Pos) (K : List Frame) (v : Option ν) :
    (s.functionReturned t K v).stack = .loop t 0 .call :: K := rfl

theorem stack_functionRaised (t : Pos) (K : List Frame) (e : ε) :
    (s.functionRaised t K e).stack =
      if (s.task t).isRequired then K else .loop t 0 .call :: K := by
  unfold functionRaised
  split_ifs <;> rfl

@[simp]
theorem stack_looping (t : Pos) (i : ℕ) (c : Caller) (K : List Frame) :
    (s.looping t i c K).stack = .loop t (i + 1) c :: K := rfl

end State

/-! ## Statuses only move forward -/

/-- `s'` is later than `s`: no task leaves the tree, no started task is INACTIVE again, no task that
is over is ACTIVE or INACTIVE again, and nothing leaves the log. -/
structure Later (s s' : State ε ν) : Prop where
  has : ∀ t, s.has t → s'.has t
  started : ∀ t, s.has t → s.status t ≠ .inactive → s'.status t ≠ .inactive
  isOver : ∀ t, s.has t → (s.status t).Over → (s'.status t).Over
  log : ∀ e ∈ s.log, e ∈ s'.log

namespace Later

theorem refl (s : State ε ν) : Later s s :=
  ⟨fun _ h => h, fun _ _ h => h, fun _ _ h => h, fun _ h => h⟩

theorem trans (h : Later s s') (h' : Later s' s'') : Later s s'' where
  has t ht := h'.has t (h.has t ht)
  started t ht hs := h'.started t (h.has t ht) (h.started t ht hs)
  isOver t ht ho := h'.isOver t (h.has t ht) (h.isOver t ht ho)
  log e he := h'.log e (h.log e he)

/-- Nothing but attributes that do not matter here has changed. -/
theorem of_eq (hs : s'.status = s.status) (hh : s'.has = s.has) (hl : s'.log = s.log) :
    Later s s' :=
  ⟨fun _ ht => hh ▸ ht, fun _ _ h => hs ▸ h, fun _ _ h => hs ▸ h, fun _ he => hl ▸ he⟩

/-- Some tasks have become COMPLETED, FAILED or CANCELLED. -/
theorem of_over (hs : ∀ t, s'.status t = s.status t ∨ (s'.status t).Over) (hh : s'.has = s.has)
    (hl : ∀ e ∈ s.log, e ∈ s'.log) : Later s s' where
  has _ ht := hh ▸ ht
  started t _ h := (hs t).elim (fun e => e ▸ h) And.left
  isOver t _ h := (hs t).elim (fun e => e ▸ h) id
  log := hl

theorem over_update {f : Pos → Status} {t u : Pos} {st : Status} (h : st.Over) :
    Function.update f t st u = f u ∨ (Function.update f t st u).Over := by
  rw [Function.update_apply]
  split_ifs
  · exact .inr h
  · exact .inl rfl

theorem finish (s : State ε ν) (t : Pos) : Later s (s.finish t) := by
  refine of_over (fun u => ?_) (State.has_finish t) fun e he => ?_
  · rw [State.status_finish]
    exact over_update ⟨by simp, by simp⟩
  · rw [State.log_finish]
    split_ifs
    · exact he
    · exact .tail _ he

theorem cancel (s : State ε ν) (t : Pos) : Later s (s.cancel t) := by
  refine of_over (fun u => ?_) (State.has_cancel t) fun e he => .tail _ he
  rw [State.status_cancel]
  exact over_update ⟨by simp, by simp⟩

/-- Only an INACTIVE task becomes ACTIVE. -/
theorem call (s : State ε ν) (t : Pos) : Later s (s.call t) := by
  by_cases hc : s.callable t
  · have inactive := ((State.callable_iff t).1 hc).1
    have status : ∀ u, (s.call t).status u = if u = t then .active else s.status u := by
      intro u
      rw [State.status_call, if_pos hc, Function.update_apply]
    refine ⟨fun u hu => State.has_call (s := s) t ▸ hu, fun u _ h => ?_, fun u _ h => ?_, ?_⟩
    · rw [status]
      split_ifs
      · simp
      · exact h
    · rw [status]
      split_ifs with hu
      · exact absurd (hu ▸ inactive) h.1
      · exact h
    · intro e he
      rw [State.log_call, if_pos hc]
      exact .tail _ he
  · unfold State.call
    rw [if_neg hc]
    exact of_eq rfl (State.has_congr fun _ => rfl) rfl

theorem addSubtask (s : State ε ν) (u : Pos) (r : Bool) (z : ℚ) :
    Later s (s.addSubtask u r z) := by
  have same : ∀ t, s.has t → (s.addSubtask u r z).status t = s.status t := by
    intro t ht
    rw [State.status_addSubtask, Function.update_of_ne]
    rintro rfl
    simp [State.not_has_new] at ht
  exact ⟨fun _ => State.has_addSubtask, fun t ht h => same t ht ▸ h, fun t ht h => same t ht ▸ h,
    fun _ he => he⟩

theorem functionRaised (s : State ε ν) (t : Pos) (K : List Frame) (e : ε) :
    Later s (s.functionRaised t K e) := by
  refine of_over (fun u => ?_) (State.has_functionRaised ..) fun x hx => ?_
  · rw [State.status_functionRaised]
    have failed : Function.update s.status t .failed u = s.status u ∨
        (Function.update s.status t .failed u).Over := over_update ⟨by simp, by simp⟩
    split_ifs
    · rw [Function.update_apply _ []]
      split_ifs
      · exact .inr ⟨by simp, by simp⟩
      · exact failed
    · exact failed
  · rw [State.log_functionRaised]
    split_ifs
    · exact .tail _ (.tail _ hx)
    · exact .tail _ hx

theorem looping (s : State ε ν) (t : Pos) (i : ℕ) (c : Caller) (K : List Frame) :
    Later s (s.looping t i c K) :=
  of_eq (State.status_looping ..) (State.has_looping ..) rfl

/-- Every step leads to a later state. -/
theorem of_stepped {a : Action ε ν} (h : Stepped s a s') : Later s s' := by
  cases h with
  | run => exact call s []
  | cancelFromUi => exact cancel s []
  | next hs hi => exact (looping ..).trans (call ..)
  | done hs hi => exact (finish s _).trans (of_eq rfl (State.has_congr fun _ => rfl) rfl)
  | addSubtask u r z => exact addSubtask s u r z
  | call u => exact call s u
  | setProgress u c z =>
    exact of_eq (State.status_setProgress ..) (State.has_setProgress ..) (State.log_setProgress ..)
  | finish u => exact (finish s u).trans (of_eq rfl (State.has_congr fun _ => rfl) rfl)
  | cancel u => exact (cancel s u).trans (of_eq rfl (State.has_congr fun _ => rfl) rfl)
  | ret v =>
    exact of_eq (State.status_functionReturned ..) (State.has_functionReturned ..) rfl
  | raise e => exact functionRaised ..

end Later

end Ydfs.TaskList
