import Ydfs.TaskList.Progress

/-!
# When associated functions start

The invariant `WellFormed` of the task list: the calls in progress are calls of tasks of the tree,
every entry of the log is reflected in the statuses (`Justified`), and no function has started
twice.  It holds of a fresh tree and every step keeps it.  Hence a function starts at most once, with
all ancestors of its task ACTIVE, and never after a required task has failed or the root has been
cancelled.
-/

namespace Ydfs.TaskList

open Transition

variable {ε ν : Type} {s s' : State ε ν}

/-- The entry "Running t" of the log. -/
def Event.isRunning (t : Pos) : Event ε → Bool
  | running u => u = t
  | _ => false

namespace State

/-- How often the associated function of `t` has started. -/
def starts (s : State ε ν) (t : Pos) : ℕ := s.log.countP (Event.isRunning t)

/-- What an entry of the log says about the statuses. -/
def Justified (s : State ε ν) : Event ε → Prop
  | .running t => s.has t ∧ s.status t ≠ .inactive
  | .finished t => s.has t
  | .cancelling t => s.has t ∧ (s.status t).Over
  | .failed t isRequired _ =>
    s.has t ∧ (s.status t).Over ∧ (isRequired = true → .cancelling [] ∈ s.log)

theorem Justified.later {e : Event ε} (h : s.Justified e) (hl : Later s s') : s'.Justified e := by
  cases e with
  | running t => exact ⟨hl.has t h.1, hl.started t h.1 h.2⟩
  | finished t => exact hl.has t h
  | cancelling t => exact ⟨hl.has t h.1, hl.isOver t h.1 h.2⟩
  | failed t r e => exact ⟨hl.has t h.1, hl.isOver t h.1 h.2.1, fun hr => hl.log _ (h.2.2 hr)⟩

/-- The invariant of the task list. -/
structure WellFormed (s : State ε ν) : Prop where
  frames : ∀ f ∈ s.stack, s.has f.task
  bodies : ∀ t, .body t ∈ s.stack → .running t ∈ s.log
  entries : ∀ e ∈ s.log, s.Justified e
  once : ∀ t, s.starts t ≤ 1
  finished : ∀ t, s.status t = .completed → .finished t ∈ s.log

namespace WellFormed

theorem of_initial (h : Initial s) : s.WellFormed where
  frames := by simp [h.stack]
  bodies := by simp [h.stack]
  entries := by simp [h.log]
  once := by simp [starts, h.log]
  finished t ht := by simp [h.inactive t] at ht

theorem status_ne_of_body {t : Pos} (h : s.WellFormed) (ht : .body t ∈ s.stack) :
    s.status t ≠ .inactive :=
  (h.entries _ (h.bodies t ht)).2

/-- A step that starts no function: the frames it adds are loops of tasks of the tree, and the
entries it adds to the log are justified. -/
theorem of_later (h : s.WellFormed) (hl : Later s s')
    (frames : ∀ f ∈ s'.stack, f ∈ s.stack ∨ ∃ t i c, f = .loop t i c ∧ s.has t)
    (entries : ∀ e ∈ s'.log, e ∈ s.log ∨ s'.Justified e)
    (starts : ∀ t, s'.starts t = s.starts t)
    (finished : ∀ t, s'.status t = .completed →
      s.status t = .completed ∨ .finished t ∈ s'.log) : s'.WellFormed where
  frames f hf := by
    rcases frames f hf with hf | ⟨t, i, c, rfl, ht⟩
    · exact hl.has _ (h.frames f hf)
    · exact hl.has t ht
  bodies t ht := by
    rcases frames _ ht with ht | ⟨_, _, _, hf, -⟩
    · exact hl.log _ (h.bodies t ht)
    · cases hf
  entries e he := (entries e he).elim (fun he => (h.entries e he).later hl) id
  once t := starts t ▸ h.once t
  finished t ht := (finished t ht).elim (fun hc => hl.log _ (h.finished t hc)) id

/-- A step that changes neither a status nor the tree nor the log. -/
theorem of_eq (h : s.WellFormed) (hs : s'.status = s.status) (hh : s'.has = s.has)
    (hl : s'.log = s.log)
    (frames : ∀ f ∈ s'.stack, f ∈ s.stack ∨ ∃ t i c, f = .loop t i c ∧ s.has t) :
    s'.WellFormed :=
  h.of_later (.of_eq hs hh hl) frames (fun _ he => .inl (hl ▸ he))
    (fun t => by simp only [State.starts, hl]) fun t ht => .inl (by rw [← hs]; exact ht)

/-- Only the stack has changed, and it has no new frames. -/
theorem of_stack (h : s.WellFormed) {K : List Frame} (r : Reply ν) (hK : K ⊆ s.stack) :
    ({ s with stack := K, reply := r } : State ε ν).WellFormed :=
  h.of_eq rfl (has_congr fun _ => rfl) rfl fun _ hf => .inl (hK hf)

theorem finish {t : Pos} (h : s.WellFormed) (ht : s.has t) : (s.finish t).WellFormed := by
  have hl := Later.finish s t
  refine h.of_later hl (fun f hf => .inl (stack_finish (s := s) t ▸ hf)) (fun e he => ?_)
    (fun u => ?_) fun u hu => ?_
  · rw [log_finish] at he
    split_ifs at he
    · exact .inl he
    · rcases List.mem_cons.1 he with rfl | he
      · exact .inr (hl.has t ht)
      · exact .inl he
  · simp only [starts, log_finish]
    split_ifs
    · rfl
    · simp [Event.isRunning]
  · rw [status_finish, Function.update_apply] at hu
    split_ifs at hu with hut
    · subst hut
      by_cases hc : s.status u = .completed
      · exact .inl hc
      · exact .inr (by simp [log_finish, hc])
    · exact .inl hu

theorem cancel {t : Pos} (h : s.WellFormed) (ht : s.has t) : (s.cancel t).WellFormed := by
  have hl := Later.cancel s t
  refine h.of_later hl (fun f hf => .inl hf) (fun e he => ?_) (fun u => ?_) fun u hu => ?_
  · rcases List.mem_cons.1 he with rfl | he
    · refine .inr ⟨hl.has t ht, ?_⟩
      rw [status_cancel, Function.update_self]
      exact ⟨by simp, by simp⟩
    · exact .inl he
  · simp [starts, Event.isRunning]
  · rw [status_cancel, Function.update_apply] at hu
    split_ifs at hu
    exact .inl hu

/-- The guard of `__call__`: the function that starts has not started before. -/
theorem call {t : Pos} (h : s.WellFormed) (ht : s.has t) : (s.call t).WellFormed := by
  by_cases hc : s.callable t
  · have hl := Later.call s t
    have inactive := ((callable_iff t).1 hc).1
    have fresh : .running t ∉ s.log := fun he => (h.entries _ he).2 inactive
    have stack : (s.call t).stack = .body t :: s.stack := by rw [stack_call, if_pos hc]
    have log : (s.call t).log = .running t :: s.log := by rw [log_call, if_pos hc]
    have status : (s.call t).status = Function.update s.status t .active := by
      rw [status_call, if_pos hc]
    refine ⟨fun f hf => ?_, fun u hu => ?_, fun e he => ?_, fun u => ?_, fun u hu => ?_⟩
    · rcases List.mem_cons.1 (stack ▸ hf) with rfl | hf
      · exact hl.has t ht
      · exact hl.has _ (h.frames f hf)
    · rw [log]
      rcases List.mem_cons.1 (stack ▸ hu) with hu | hu
      · cases hu
        exact .head _
      · exact .tail _ (h.bodies u hu)
    · rcases List.mem_cons.1 (log ▸ he) with rfl | he
      · refine ⟨hl.has t ht, ?_⟩
        rw [status, Function.update_self]
        simp
      · exact (h.entries e he).later hl
    · simp only [starts, log, List.countP_cons]
      by_cases hu : t = u
      · subst hu
        have none : s.log.countP (Event.isRunning t) = 0 := by
          rw [List.countP_eq_zero]
          rintro (u | u | u | u) he
          · simp only [Event.isRunning, decide_eq_true_eq]
            rintro rfl
            exact fresh he
          all_goals simp [Event.isRunning]
        simp [none, Event.isRunning]
      · simpa [starts, Event.isRunning, hu] using h.once u
    · rw [status, Function.update_apply] at hu
      split_ifs at hu
      rw [log]
      exact .tail _ (h.finished u hu)
  · unfold State.call
    rw [if_neg hc]
    exact h.of_eq rfl (has_congr fun _ => rfl) rfl fun _ hf => .inl hf

theorem addSubtask (h : s.WellFormed) (u : Pos) (r : Bool) (z : ℚ) :
    (s.addSubtask u r z).WellFormed := by
  refine h.of_later (.addSubtask s u r z) (fun _ hf => .inl hf) (fun _ he => .inl he)
    (fun _ => rfl) fun t ht => ?_
  rw [status_addSubtask, Function.update_apply] at ht
  split_ifs at ht
  exact .inl ht

theorem functionRaised {t : Pos} {K : List Frame} (e : ε) (h : s.WellFormed)
    (hs : s.stack = .body t :: K) : (s.functionRaised t K e).WellFormed := by
  have hl := Later.functionRaised s t K e
  have ht : s.has t := h.frames (.body t) (hs ▸ .head _)
  have isOver : ((s.functionRaised t K e).status t).Over := by
    rw [status_functionRaised]
    split_ifs
    · rw [Function.update_apply]
      split_ifs
      · exact ⟨by simp, by simp⟩
      · rw [Function.update_self]
        exact ⟨by simp, by simp⟩
    · rw [Function.update_self]
      exact ⟨by simp, by simp⟩
  refine h.of_later hl (fun f hf => ?_) (fun x hx => ?_) (fun u => ?_) fun u hu => ?_
  · rw [stack_functionRaised] at hf
    split_ifs at hf
    · exact .inl (hs ▸ .tail _ hf)
    · rcases List.mem_cons.1 hf with rfl | hf
      · exact .inr ⟨t, 0, .call, rfl, ht⟩
      · exact .inl (hs ▸ .tail _ hf)
  · have log := log_functionRaised (s := s) t K e
    rw [log] at hx
    split_ifs at log hx with hr
    · rcases List.mem_cons.1 hx with rfl | hx
      · refine .inr ⟨rfl, ?_⟩
        rw [status_functionRaised, if_pos hr, Function.update_self]
        exact ⟨by simp, by simp⟩
      · rcases List.mem_cons.1 hx with rfl | hx
        · exact .inr ⟨hl.has t ht, isOver, fun _ => log ▸ .head _⟩
        · exact .inl hx
    · rcases List.mem_cons.1 hx with rfl | hx
      · exact .inr ⟨hl.has t ht, isOver, by simp⟩
      · exact .inl hx
  · simp only [starts, log_functionRaised]
    split_ifs <;> simp [Event.isRunning]
  · rw [status_functionRaised] at hu
    split_ifs at hu
    · simp only [Function.update_apply] at hu
      split_ifs at hu
      exact .inl hu
    · rw [Function.update_apply] at hu
      split_ifs at hu
      exact .inl hu

theorem looping {t : Pos} {i : ℕ} {c : Caller} {K : List Frame} (h : s.WellFormed)
    (hs : s.stack = .loop t i c :: K) : (s.looping t i c K).WellFormed := by
  refine h.of_eq (status_looping ..) (has_looping ..) rfl fun f hf => ?_
  rcases List.mem_cons.1 hf with rfl | hf
  · exact .inr ⟨t, i + 1, c, rfl, h.frames (.loop t i c) (hs ▸ .head _)⟩
  · exact .inl (hs ▸ .tail _ hf)

/-- Every step keeps the invariant. -/
theorem of_stepped {a : Action ε ν} (h : s.WellFormed) (hstep : Stepped s a s') :
    s'.WellFormed := by
  cases hstep with
  | run => exact h.call rfl
  | cancelFromUi => exact h.cancel rfl
  | @next t i c K hs hi =>
    have ht : s.has t := h.frames (.loop t i c) (hs ▸ .head _)
    refine (h.looping hs).call ?_
    rw [has_looping]
    simp [has, hi, ht]
  | @done t i c K hs hi =>
    refine WellFormed.of_stack (h.finish (h.frames (.loop t i c) (hs ▸ .head _))) _ ?_
    rw [stack_finish, hs]
    exact List.subset_cons_self _ _
  | addSubtask u r z => exact h.addSubtask u r z
  | call u hs hu => exact h.call hu
  | setProgress u c z hs hu =>
    refine h.of_eq (status_setProgress ..) (has_setProgress ..) (log_setProgress ..) fun f hf => ?_
    rw [stack_setProgress] at hf
    split_ifs at hf
    · rcases List.mem_cons.1 hf with rfl | hf
      · exact .inr ⟨u, 0, .setProgress, rfl, hu⟩
      · exact .inl hf
    · exact .inl hf
  | finish u hs hu => exact (h.finish hu).of_stack _ (List.Subset.refl _)
  | cancel u hs hu => exact (h.cancel hu).of_stack _ (List.Subset.refl _)
  | @ret t K v hs =>
    refine h.of_eq (status_functionReturned ..) (has_functionReturned ..) rfl fun f hf => ?_
    rcases List.mem_cons.1 hf with rfl | hf
    · exact .inr ⟨t, 0, .call, rfl, h.frames (.body t) (hs ▸ .head _)⟩
    · exact .inl (hs ▸ .tail _ hf)
  | raise e hs => exact h.functionRaised e hs

/-- The invariant holds in every state that a fresh task tree reaches. -/
theorem of_run {s₀ : State ε ν} (h₀ : Initial s₀) (h : Run State.step s₀ s) : s.WellFormed :=
  h.invariant (of_initial h₀) fun _ _ _ hw _ hs => hw.of_stepped (stepped_of_step hs)

end WellFormed

/-! ## Starting a function -/

/-- A required task has failed. -/
def RequiredFailed (s : State ε ν) : Prop := ∃ t e, .failed t true e ∈ s.log

/-- The root has been cancelled. -/
def RootCancelled (s : State ε ν) : Prop := .cancelling [] ∈ s.log

theorem starts_begin (t u : Pos) :
    (s.begin t).starts u = s.starts u + if t = u then 1 else 0 := by
  simp [starts, begin, List.countP_cons, Event.isRunning]

theorem starts_finish (t u : Pos) : (s.finish t).starts u = s.starts u := by
  simp only [starts, log_finish]
  split_ifs
  · rfl
  · simp [Event.isRunning]

/-- The only steps that start a function are the calls of callable tasks. -/
theorem callable_of_starts_lt {a : Action ε ν} {t : Pos} (h : Stepped s a s')
    (ht : s.starts t < s'.starts t) : s.callable t := by
  have call : ∀ (r : State ε ν) (u : Pos), r.starts t = s.starts t → r.status = s.status →
      r.starts t < (r.call u).starts t → s.callable t := by
    intro r u _ hs hlt
    unfold State.call at hlt
    split_ifs at hlt with hc
    · rw [starts_begin] at hlt
      split_ifs at hlt with hu
      · subst hu
        rw [callable_iff] at hc ⊢
        refine ⟨hs ▸ hc.1, ?_⟩
        rw [parentActive_iff] at hc ⊢
        exact fun p hp hne => hs ▸ hc.2 p hp hne
      · omega
    · exact absurd hlt (lt_irrefl _)
  cases h with
  | run => exact call s [] rfl rfl ht
  | cancelFromUi => simp [starts, Event.isRunning] at ht
  | @next t i c K hs hi => exact call (s.looping t i c K) _ rfl (status_looping ..) ht
  | done => exact absurd (starts_finish (s := s) _ t ▸ ht) (lt_irrefl _)
  | addSubtask => exact absurd ht (lt_irrefl _)
  | call u => exact call s u rfl rfl ht
  | setProgress u c z => simp [starts] at ht
  | finish u => exact absurd (starts_finish (s := s) u t ▸ ht) (lt_irrefl _)
  | cancel u => simp [starts, Event.isRunning] at ht
  | ret => exact absurd ht (lt_irrefl _)
  | raise e =>
    simp only [starts, log_functionRaised] at ht
    split_ifs at ht <;> simp [Event.isRunning] at ht

/-- Once the root is over, no task is callable. -/
theorem not_callable_of_over {t : Pos} (h : (s.status []).Over) : ¬ s.callable t := by
  rw [callable_iff, parentActive_iff]
  rintro ⟨inactive, active⟩
  by_cases ht : t = []
  · subst ht
    exact h.1 inactive
  · exact h.2 (active [] (List.nil_suffix) (Ne.symm ht))

theorem WellFormed.root_over (h : s.WellFormed) (hc : s.RequiredFailed ∨ s.RootCancelled) :
    (s.status []).Over := by
  have cancelled : .cancelling [] ∈ s.log := by
    rcases hc with ⟨t, e, he⟩ | hc
    · exact (h.entries _ he).2.2 rfl
    · exact hc
  exact (h.entries _ cancelled).2

end State

/-- In every run of a task tree an associated function starts at most once, it starts only while all
ancestors of its task are ACTIVE, and none starts once a required task has failed or the root has
been cancelled. -/
theorem function_starts {s₀ : State ε ν} (h₀ : Initial s₀) (h : Run State.step s₀ s) :
    (∀ t, s.starts t ≤ 1) ∧
      ∀ a s', s.step a = some s' → ∀ t, s.starts t < s'.starts t →
        (∀ p, p <:+ t → p ≠ t → s.status p = .active) ∧
          ¬ s.RequiredFailed ∧ ¬ s.RootCancelled := by
  have wf := State.WellFormed.of_run h₀ h
  refine ⟨wf.once, fun a s' hs t ht => ?_⟩
  have callable := State.callable_of_starts_lt (stepped_of_step hs) ht
  refine ⟨(State.parentActive_iff t).1 ((State.callable_iff t).1 callable).2, ?_, ?_⟩
  · exact fun hf => State.not_callable_of_over (wf.root_over (.inl hf)) callable
  · exact fun hc => State.not_callable_of_over (wf.root_over (.inr hc)) callable

/-- The first task of a threaded list starts, under an ACTIVE root. -/
theorem function_starts_first_task :
    ∃ s, exec State.step (taskList true [(true, 1), (true, 1)] : State Unit Unit)
        [.run, .act (.ret none)] = some s ∧
      s.starts [] ≤ 1 ∧ s.status [] = .active := by
  refine ⟨_, rfl, ?_⟩
  have reached := run_of_exec (show exec State.step
    (taskList true [(true, 1), (true, 1)] : State Unit Unit) [.run, .act (.ret none)] = some _
    from rfl)
  have starts := function_starts (initial_taskList ..) reached
  exact ⟨starts.1 [], (starts.2 .tick _ rfl [0] (by decide)).1 [] (by decide) (by decide)⟩

end Ydfs.TaskList
