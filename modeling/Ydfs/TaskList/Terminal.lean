import Ydfs.TaskList.Starts

/-!
# Which runs keep FAILED and CANCELLED terminal

`finish` only checks for COMPLETED, so the end of `__call__` turns a FAILED or CANCELLED task into a
COMPLETED one: an optional task whose function raised is finished after its subtasks, and when a
task is cancelled every call in progress below it still runs to its `finish`.  The statuses are
terminal in every run that avoids this (`Respectful`): only functions of required tasks raise, a
task is cancelled only when the calls in progress below it have already completed, and no function
reports the completion of a task that has ended.
-/

namespace Ydfs.TaskList

open Transition

variable {ε ν : Type} {s s' : State ε ν}

/-- According to the log `l`, newest entry first, the function of `t` has raised, or `t` was
cancelled before it finished, directly or through an ancestor. -/
def Ended : List (Event ε) → Pos → Prop
  | [], _ => False
  | .failed u _ _ :: l, t => u = t ∨ Ended l t
  | .cancelling p :: l, t => (p <:+ t ∧ .finished t ∉ l) ∨ Ended l t
  | .running _ :: l, t => Ended l t
  | .finished _ :: l, t => Ended l t

/-- A task that has ended is never COMPLETED. -/
def EndedTerminal (s : State ε ν) : Prop := ∀ t, Ended s.log t → s.status t ≠ .completed

theorem Ended.cons {l : List (Event ε)} {t : Pos} (e : Event ε) (h : Ended l t) :
    Ended (e :: l) t := by
  cases e with
  | failed u r x => exact .inr h
  | cancelling p => exact .inr h
  | running u => exact h
  | finished u => exact h

theorem Ended.append {l : List (Event ε)} {t : Pos} (l' : List (Event ε)) (h : Ended l t) :
    Ended (l' ++ l) t := by
  induction l' with
  | nil => exact h
  | cons e l' ih => exact ih.cons e

/-- Which entries end a task. -/
theorem ended_iff {l : List (Event ε)} {t : Pos} :
    Ended l t ↔ (∃ r e, .failed t r e ∈ l) ∨
      ∃ p l₁ l₂, p <:+ t ∧ l = l₁ ++ .cancelling p :: l₂ ∧ .finished t ∉ l₂ := by
  constructor
  · intro h
    induction l with
    | nil => exact h.elim
    | cons e l ih =>
      have older : Ended l t → (∃ r x, .failed t r x ∈ e :: l) ∨
          ∃ p l₁ l₂, p <:+ t ∧ e :: l = l₁ ++ .cancelling p :: l₂ ∧ .finished t ∉ l₂ := fun hl =>
        (ih hl).imp (fun ⟨r, x, hx⟩ => ⟨r, x, .tail _ hx⟩) fun ⟨p, l₁, l₂, hp, hl, hf⟩ =>
          ⟨p, e :: l₁, l₂, hp, congrArg (e :: ·) hl, hf⟩
      cases e with
      | failed u r x =>
        rcases h with rfl | h
        · exact .inl ⟨r, x, .head _⟩
        · exact older h
      | cancelling p =>
        rcases h with ⟨hp, hf⟩ | h
        · exact .inr ⟨p, [], l, hp, rfl, hf⟩
        · exact older h
      | running u => exact older h
      | finished u => exact older h
  · rintro (⟨r, e, he⟩ | ⟨p, l₁, l₂, hp, rfl, hf⟩)
    · obtain ⟨l₁, l₂, rfl⟩ := List.append_of_mem he
      exact Ended.append l₁ (.inl rfl)
    · exact Ended.append l₁ (.inl ⟨hp, hf⟩)

/-- `cancel` of `p` reaches no call in progress but those of completed tasks. -/
def CancelRespected (s : State ε ν) (p : Pos) : Prop :=
  ∀ f ∈ s.stack, p <:+ f.task → s.status f.task = .completed

/-- The step does not lead to a `finish` of a task that has ended. -/
def Respectful (s : State ε ν) : Action ε ν → Prop
  | .cancelFromUi => CancelRespected s []
  | .act (.cancel u) => CancelRespected s u
  | .act (.raise _) => ∀ t K, s.stack = .body t :: K →
      (s.task t).isRequired ∧ ∀ f ∈ K, s.status f.task = .completed
  | .act (.finish u) => ¬ Ended s.log u
  | .act (.setProgress u c z) => s.isCancelled u = false → s.newSize u z ≤ c → ¬ Ended s.log u
  | _ => True

namespace State

/-! ## The stack of calls -/

/-- Below the body of a task there are only frames of other tasks. -/
def Distinct : List Frame → Prop
  | [] => True
  | .body t :: K => (∀ f ∈ K, f.task ≠ t) ∧ Distinct K
  | .loop _ _ _ :: K => Distinct K

/-- The frames below the top belong to tasks that have been started, and no function is in progress
twice. -/
structure Layered (s : State ε ν) : Prop where
  below : ∀ f ∈ s.stack.tail, s.status f.task ≠ .inactive
  distinct : Distinct s.stack

theorem Distinct.tail : ∀ {f : Frame} {K : List Frame}, Distinct (f :: K) → Distinct K
  | .body _, _, h => h.2
  | .loop _ _ _, _, h => h

namespace Layered

theorem of_initial (h : Initial s) : s.Layered := by
  refine ⟨?_, ?_⟩ <;> simp [h.stack, Distinct]

/-- The frames below the new top were there before, and their tasks had been started. -/
theorem of_later (h : s.WellFormed) (hl : Later s s')
    (tail : ∀ f ∈ s'.stack.tail, f ∈ s.stack ∧ s.status f.task ≠ .inactive)
    (distinct : Distinct s'.stack) : s'.Layered :=
  ⟨fun f hf => hl.started _ (h.frames f (tail f hf).1) (tail f hf).2, distinct⟩

/-- Every frame under a body on top belongs to a started task, and so does the top. -/
theorem started_of_body {t : Pos} {K : List Frame} (h : s.Layered) (hw : s.WellFormed)
    (hs : s.stack = .body t :: K) : ∀ f ∈ s.stack, s.status f.task ≠ .inactive := by
  intro f hf
  rcases List.mem_cons.1 (hs ▸ hf) with rfl | hf
  · exact hw.status_ne_of_body (hs ▸ .head _)
  · exact h.below f (by rw [hs]; exact hf)

theorem call {t : Pos} (h : s.Layered) (hw : s.WellFormed)
    (started : s.callable t → ∀ f ∈ s.stack, s.status f.task ≠ .inactive) :
    (s.call t).Layered := by
  by_cases hc : s.callable t
  · have stack : (s.call t).stack = .body t :: s.stack := by rw [stack_call, if_pos hc]
    refine of_later hw (.call s t) (fun f hf => ?_) ?_
    · rw [stack] at hf
      exact ⟨hf, started hc f hf⟩
    · rw [stack]
      refine ⟨fun f hf => ?_, h.distinct⟩
      rintro rfl
      exact started hc f hf ((callable_iff _).1 hc).1
  · unfold State.call
    rw [if_neg hc]
    exact ⟨h.below, h.distinct⟩

/-- The stack only loses frames from its top. -/
theorem pop {f : Frame} {K : List Frame} (h : s.Layered) (hw : s.WellFormed) (hl : Later s s')
    (hs : s.stack = f :: K) (hK : s'.stack = K) : s'.Layered := by
  refine of_later hw hl (fun g hg => ?_) ?_
  · have hg : g ∈ K := List.mem_of_mem_tail (hK ▸ hg)
    exact ⟨hs ▸ .tail _ hg, h.below g (by rw [hs]; exact hg)⟩
  · rw [hK]
    exact (hs ▸ h.distinct : Distinct (f :: K)).tail

/-- A frame on top is replaced by a loop. -/
theorem toLoop {f : Frame} {K : List Frame} {t : Pos} {i : ℕ} {c : Caller} (h : s.Layered)
    (hw : s.WellFormed) (hl : Later s s') (hs : s.stack = f :: K)
    (hK : s'.stack = .loop t i c :: K) : s'.Layered := by
  refine of_later hw hl (fun g hg => ?_) ?_
  · have hg : g ∈ K := by rw [hK] at hg; exact hg
    exact ⟨hs ▸ .tail _ hg, h.below g (by rw [hs]; exact hg)⟩
  · rw [hK]
    exact (hs ▸ h.distinct : Distinct (f :: K)).tail

/-- The stack is unchanged. -/
theorem same (h : s.Layered) (hw : s.WellFormed) (hl : Later s s') (hs : s'.stack = s.stack) :
    s'.Layered := by
  refine of_later hw hl (fun f hf => ?_) (hs ▸ h.distinct)
  rw [hs] at hf
  exact ⟨List.mem_of_mem_tail hf, h.below f hf⟩

/-- Every step keeps the stack layered. -/
theorem of_stepped {a : Action ε ν} (h : s.Layered) (hw : s.WellFormed)
    (hstep : Stepped s a s') : s'.Layered := by
  have later := Later.of_stepped hstep
  cases hstep with
  | run hs => exact h.call hw fun _ => by simp [hs]
  | cancelFromUi => exact h.same hw later rfl
  | @next t i c K hs hi =>
    have looping := h.toLoop hw (Later.looping s t i c K) hs rfl
    refine looping.call (hw.looping hs) fun hc f hf => ?_
    rcases List.mem_cons.1 hf with rfl | hf
    · -- the guard of the call has found the task of the loop ACTIVE
      have active := (isActive_iff t).1 ((callable_iff (i :: t)).1 hc).2 t (List.suffix_refl t)
      simp [active]
    · exact looping.below f hf
  | done hs hi => exact h.pop hw later hs rfl
  | addSubtask => exact h.same hw later rfl
  | call u hs hu => exact h.call hw fun _ => h.started_of_body hw hs
  | setProgress u c z hs hu =>
    by_cases hc : s.isCancelled u = false ∧ s.newSize u z ≤ c
    · have stack : (s.setProgress u c z).stack = .loop u 0 .setProgress :: s.stack := by
        rw [stack_setProgress, if_pos hc]
      refine of_later hw later (fun f hf => ?_) (stack ▸ h.distinct)
      rw [stack] at hf
      exact ⟨hf, h.started_of_body hw hs f hf⟩
    · exact h.same hw later (by rw [stack_setProgress, if_neg hc])
  | finish u => exact h.same hw later (stack_finish u)
  | cancel u => exact h.same hw later rfl
  | ret v hs => exact h.toLoop hw later hs rfl
  | @raise t K e hs =>
    have stack := stack_functionRaised (s := s) t K e
    split_ifs at stack
    · exact h.pop hw later hs stack
    · exact h.toLoop hw later hs stack

end Layered

/-! ## Respectful runs -/

/-- The invariant of respectful runs: no call in progress is a call of a task that has ended. -/
structure Respected (s : State ε ν) : Prop where
  wellFormed : s.WellFormed
  layered : s.Layered
  live : ∀ f ∈ s.stack, ¬ Ended s.log f.task
  terminal : EndedTerminal s

/-- A callable task has not ended. -/
theorem WellFormed.not_ended_of_callable {t : Pos} (h : s.WellFormed) (hc : s.callable t) :
    ¬ Ended s.log t := by
  rw [callable_iff, parentActive_iff] at hc
  intro he
  rcases ended_iff.1 he with ⟨r, e, he⟩ | ⟨p, l₁, l₂, hp, hl, -⟩
  · exact (h.entries _ he).2.1.1 hc.1
  · have isOver := (h.entries (.cancelling p) (by simp [hl])).2
    by_cases hpt : p = t
    · exact isOver.1 (hpt ▸ hc.1)
    · exact isOver.2 (hc.2 p hp hpt)

end State

open State

theorem EndedTerminal.of_eq (h : EndedTerminal s) (hs : s'.status = s.status)
    (hl : s'.log = s.log) : EndedTerminal s' := by
  unfold EndedTerminal
  rw [hs, hl]
  exact h

theorem EndedTerminal.finish {t : Pos} (h : EndedTerminal s) (ht : ¬ Ended s.log t) :
    EndedTerminal (s.finish t) := by
  intro u hu
  have ended : Ended s.log u := by
    rw [log_finish] at hu
    split_ifs at hu <;> exact hu
  rw [status_finish, Function.update_apply]
  split_ifs with hut
  · exact absurd (hut ▸ ended) ht
  · exact h u ended

/-- A cancel only marks tasks that have not finished. -/
theorem EndedTerminal.cancel {t : Pos} (h : EndedTerminal s) (hw : s.WellFormed) :
    EndedTerminal (s.cancel t) := by
  intro u hu
  rw [status_cancel, Function.update_apply]
  split_ifs
  · simp
  · rcases hu with ⟨-, hu⟩ | hu
    · exact fun hc => hu (hw.finished u hc)
    · exact h u hu

theorem EndedTerminal.call {t : Pos} (h : EndedTerminal s) : EndedTerminal (s.call t) := by
  intro u hu
  have ended : Ended s.log u := by
    rw [log_call] at hu
    split_ifs at hu <;> exact hu
  rw [status_call]
  split_ifs
  · rw [Function.update_apply]
    split_ifs
    · simp
    · exact h u ended
  · exact h u ended

theorem ended_call {t u : Pos} : Ended (s.call t).log u ↔ Ended s.log u := by
  rw [log_call]
  split_ifs <;> rfl

theorem ended_finish {t u : Pos} : Ended (s.finish t).log u ↔ Ended s.log u := by
  rw [log_finish]
  split_ifs <;> rfl

theorem unended_call {t : Pos} (hw : s.WellFormed) (live : ∀ f ∈ s.stack, ¬ Ended s.log f.task) :
    ∀ f ∈ (s.call t).stack, ¬ Ended (s.call t).log f.task := by
  intro f hf
  rw [ended_call]
  rw [stack_call] at hf
  split_ifs at hf with hc
  · rcases List.mem_cons.1 hf with rfl | hf
    · exact hw.not_ended_of_callable hc
    · exact live f hf
  · exact live f hf

theorem unended_cancel {p : Pos} (hw : s.WellFormed) (live : ∀ f ∈ s.stack, ¬ Ended s.log f.task)
    (hp : CancelRespected s p) : ∀ f ∈ s.stack, ¬ Ended (s.cancel p).log f.task := by
  rintro f hf (⟨hpf, unfinished⟩ | he)
  · exact unfinished (hw.finished _ (hp f hf hpf))
  · exact live f hf he

/-- A required task fails: every other call in progress is a call of a completed task. -/
theorem respected_raise {t : Pos} {K : List Frame} (e : ε) (h : s.Respected)
    (hs : s.stack = .body t :: K) (hr : (s.task t).isRequired)
    (hK : ∀ f ∈ K, s.status f.task = .completed) :
    (∀ f ∈ K, ¬ Ended (s.functionRaised t K e).log f.task) ∧
      EndedTerminal (s.functionRaised t K e) := by
  have others : ∀ f ∈ K, f.task ≠ t := (hs ▸ h.layered.distinct : Distinct (.body t :: K)).1
  refine ⟨fun f hf => ?_, fun u => ?_⟩
  · rw [log_functionRaised, if_pos hr]
    rintro (⟨-, unfinished⟩ | rfl | he)
    · exact unfinished (.tail _ (h.wellFormed.finished _ (hK f hf)))
    · exact others f hf rfl
    · exact h.live f (hs ▸ .tail _ hf) he
  · rw [log_functionRaised, if_pos hr, status_functionRaised, if_pos hr]
    simp only [Function.update_apply]
    rintro (⟨-, unfinished⟩ | rfl | he)
    · split_ifs
      · simp
      · simp
      · exact fun hc => unfinished (.tail _ (h.wellFormed.finished _ hc))
    · simp only [if_true]
      split_ifs <;> simp
    · split_ifs
      · simp
      · simp
      · exact h.terminal u he

namespace State.Respected

theorem of_initial (h : Initial s) : s.Respected where
  wellFormed := .of_initial h
  layered := .of_initial h
  live := by simp [h.stack]
  terminal t ht := by simp [h.log, Ended] at ht

/-- A respectful step keeps the invariant. -/
theorem of_stepped {a : Action ε ν} (h : s.Respected) (ha : Respectful s a)
    (hstep : Stepped s a s') : s'.Respected := by
  have wellFormed := h.wellFormed.of_stepped hstep
  have layered := h.layered.of_stepped h.wellFormed hstep
  suffices (∀ f ∈ s'.stack, ¬ Ended s'.log f.task) ∧ EndedTerminal s' from
    ⟨wellFormed, layered, this.1, this.2⟩
  cases hstep with
  | run => exact ⟨unended_call h.wellFormed h.live, h.terminal.call⟩
  | cancelFromUi => exact ⟨unended_cancel h.wellFormed h.live ha, h.terminal.cancel h.wellFormed⟩
  | @next t i c K hs hi =>
    refine ⟨unended_call (h.wellFormed.looping hs) fun f hf => ?_,
      EndedTerminal.call (h.terminal.of_eq (status_looping ..) rfl)⟩
    rcases List.mem_cons.1 hf with rfl | hf
    · exact h.live (.loop t i c) (hs ▸ .head _)
    · exact h.live f (hs ▸ .tail _ hf)
  | @done t i c K hs hi =>
    have live := h.live (.loop t i c) (hs ▸ .head _)
    exact ⟨fun f hf => (ended_finish (s := s)).not.2 (h.live f (hs ▸ .tail _ hf)),
      (h.terminal.finish live).of_eq rfl rfl⟩
  | addSubtask u r z =>
    refine ⟨h.live, fun t ht => ?_⟩
    rw [status_addSubtask, Function.update_apply]
    split_ifs
    · simp
    · exact h.terminal t ht
  | call u => exact ⟨unended_call h.wellFormed h.live, h.terminal.call⟩
  | setProgress u c z hs hu =>
    refine ⟨fun f hf => ?_, h.terminal.of_eq (status_setProgress ..) (log_setProgress ..)⟩
    rw [log_setProgress]
    rw [stack_setProgress] at hf
    split_ifs at hf with hc
    · rcases List.mem_cons.1 hf with rfl | hf
      · exact ha hc.1 hc.2
      · exact h.live f hf
    · exact h.live f hf
  | finish u =>
    refine ⟨fun f hf => (ended_finish (s := s)).not.2 (h.live f ?_),
      (h.terminal.finish ha).of_eq rfl rfl⟩
    rw [← stack_finish (s := s) u]
    exact hf
  | cancel u =>
    exact ⟨unended_cancel h.wellFormed h.live ha, (h.terminal.cancel h.wellFormed).of_eq rfl rfl⟩
  | @ret t K v hs =>
    refine ⟨fun f hf => ?_, h.terminal.of_eq (status_functionReturned ..) rfl⟩
    rcases List.mem_cons.1 hf with rfl | hf
    · exact h.live (.body t) (hs ▸ .head _)
    · exact h.live f (hs ▸ .tail _ hf)
  | @raise t K e hs =>
    obtain ⟨hr, hK⟩ := ha t K hs
    have raised := respected_raise e h hs hr hK
    refine ⟨fun f hf => raised.1 f ?_, raised.2⟩
    rwa [stack_functionRaised, if_pos hr] at hf

end State.Respected

/-- In every run whose steps are all respectful, a task that has failed or has been cancelled before
it completed is not COMPLETED, in every state reached. -/
theorem ended_terminal_of_respectful {s₀ : State ε ν} (h₀ : Initial s₀)
    (h : Reaches State.step Respectful s₀ s) : EndedTerminal s :=
  (h.invariant (Respected.of_initial h₀)
    fun _ _ _ hi ha hs => hi.of_stepped ha (stepped_of_step hs)).terminal

/-- A respectful run that ends a task: the first function cancels the second task. -/
theorem ended_terminal_cancelled_subtask :
    ∃ s, exec State.step (taskList true [(true, 1), (true, 1)] : State Unit Unit)
        [.run, .act (.ret none), .tick, .act (.cancel [1]), .act (.ret none), .tick, .tick,
          .tick] = some s ∧ Ended s.log [1] ∧ s.status [1] ≠ .completed := by
  refine ⟨_, rfl, ended_iff.2 (.inr ⟨[1], [_, _], [_, _], List.suffix_refl _, rfl, by simp⟩), ?_⟩
  have reached := reaches_of_exec (G := Respectful) (show exec State.step
    (taskList true [(true, 1), (true, 1)] : State Unit Unit)
    [.run, .act (.ret none), .tick, .act (.cancel [1]), .act (.ret none), .tick, .tick,
      .tick] = some _ from rfl)
    ⟨trivial, trivial, trivial, by unfold Respectful CancelRespected; decide, trivial, trivial,
      trivial, trivial, trivial⟩
  exact ended_terminal_of_respectful (initial_taskList ..) reached [1]
    (ended_iff.2 (.inr ⟨[1], [_, _], [_, _], List.suffix_refl _, rfl, by simp⟩))

/-- The statuses are not terminal in every run: an optional task whose function raised is
COMPLETED at the end of its call. -/
theorem not_ended_terminal :
    ¬ ∀ s₀ s : State Unit Unit, Initial s₀ → Run State.step s₀ s → EndedTerminal s := by
  intro h
  have reached := run_of_exec (show exec State.step
    (taskList true [(false, 1)] : State Unit Unit)
    [.run, .act (.ret none), .tick, .act (.raise ()), .tick] = some _ from rfl)
  exact h _ _ (initial_taskList ..) reached [0]
    (ended_iff.2 (.inl ⟨false, (), .tail _ (.head _)⟩)) (by decide)

end Ydfs.TaskList
