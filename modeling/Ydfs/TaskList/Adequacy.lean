import Ydfs.TaskList.Script

/-!
# Scripts on the machine

`Plays` says how the machine of the task list runs a script: each `subtask` is an `add_subtask` and
a call, and the script goes on with the reply of the machine.  The theorem `plays_eval` shows that
`eval` predicts this: from a state that looks like the tree of the script (`Mirrors`), the machine
plays the script to the result, the world and the tree that `eval` computes, and leaves all tasks
alone that are not below its own (`Framed`), but for the root, which it may cancel.
-/

namespace Ydfs.TaskList

open Transition State

variable {σ ε ν α : Type} {s s' s'' : State ε ν} {t u : Pos} {K : List Frame}

/-- The value that a call has returned. -/
def Reply.value : Reply ν → Option ν
  | result v => .some v
  | _ => .none

/-- How a function ends. -/
def Op.ending : Except ε (Option ν) → Op ε ν
  | .ok v => .ret v
  | .error e => .raise e

/-- The machine runs a script for the function of `t`, on top of the stack `K`. -/
inductive Plays : {α : Type} → Script σ ε ν α → Pos → List Frame → σ → State ε ν → Except ε α → σ →
    State ε ν → Prop
  | pure {α : Type} {t K w s} (a : α) : Plays (.pure a) t K w s (.ok a) w s
  | raise {α : Type} {t K w s} (e : ε) : Plays (.raise e : Script σ ε ν α) t K w s (.error e) w s
  | get {α : Type} {k : σ → Script σ ε ν α} {t K w s r w' s'} :
      Plays (k w) t K w s r w' s' → Plays (.get k) t K w s r w' s'
  | set {α : Type} {k : Script σ ε ν α} {t K w s r w' s'} (v : σ) :
      Plays k t K v s r w' s' → Plays (.set v k) t K w s r w' s'
  | finish {α : Type} {k : Script σ ε ν α} {t K w s s₁ r w' s'} :
      s.step (.act (.finish t)) = some s₁ → Plays k t K w s₁ r w' s' →
      Plays (.finish k) t K w s r w' s'
  | refused {α : Type} {isRequired body} {k : Option ν → Script σ ε ν α} {t K w s s₁ r w' s'} :
      exec State.step s [.act (.addSubtask t isRequired 1),
        .act (.call ((s.task t).subtasks :: t))] = some s₁ →
      s₁.stack = .body t :: K → Plays (k s₁.reply.value) t K w s₁ r w' s' →
      Plays (.subtask isRequired body k) t K w s r w' s'
  | called {α : Type} {isRequired body} {k : Option ν → Script σ ε ν α}
      {t K w s s₁ s₂ s₃ s₄ o w₁ n r w' s'} :
      exec State.step s [.act (.addSubtask t isRequired 1),
        .act (.call ((s.task t).subtasks :: t))] = some s₁ →
      Plays body ((s.task t).subtasks :: t) (.body t :: K) w s₁ o w₁ s₂ →
      s₂.step (.act (.ending o)) = some s₃ → exec State.step s₃ (List.replicate n .tick) = some s₄ →
      s₄.stack = .body t :: K → Plays (k s₄.reply.value) t K w₁ s₄ r w' s' →
      Plays (.subtask isRequired body k) t K w s r w' s'

/-- What the machine plays is a run. -/
theorem Plays.run {p : Script σ ε ν α} {w w' : σ} {r : Except ε α} (h : Plays p t K w s r w' s') :
    Run State.step s s' := by
  induction h with
  | pure | raise => exact .refl
  | get _ ih | set _ _ ih => exact ih
  | finish hs _ ih => exact (Reaches.tail .refl trivial hs).trans ih
  | refused hs _ _ ih => exact (run_of_exec hs).trans ih
  | called hs _ hend hticks _ _ ihbody ih =>
    exact (((run_of_exec hs).trans (ihbody.tail trivial hend)).trans (run_of_exec hticks)).trans ih

theorem Later.of_run (h : Run State.step s s') : Later s s' :=
  h.invariant (.refl s) fun _ _ _ later _ taken => later.trans (.of_stepped (stepped_of_step taken))

/-- The state looks like `tree` to the function of `t`; what is not ACTIVE is over, and no subtask
of `t` is left to be started. -/
structure Mirrors (s : State ε ν) (t : Pos) (tree : TreeView ε) : Prop where
  has : s.has t
  nonroot : t ≠ []
  active : tree.parents = true → ∀ p, p <:+ t → p ≠ t → s.status p = .active
  cancelled : tree.parents = false → ∃ p, p <:+ t ∧ p ≠ t ∧ (s.status p).Over
  own : tree.own = true → s.status t = .active
  finished : tree.own = false → (s.status t).Over
  error : (s.task []).error = tree.error
  quiet : ∀ i < (s.task t).subtasks, s.status (i :: t) ≠ .inactive ∨
    ∃ p, p <:+ t ∧ (s.status p).Over

/-- The steps from `s` to `s'` leave the tasks alone that are not at or below `t`, but for the
root. -/
structure Framed (t : Pos) (s s' : State ε ν) : Prop where
  others : ∀ u, u ≠ [] → ¬ t <:+ u → s'.task u = s.task u
  required : (s'.task t).isRequired = (s.task t).isRequired

namespace Framed

theorem refl (t : Pos) (s : State ε ν) : Framed t s s := ⟨fun _ _ _ => rfl, rfl⟩

theorem trans (h : Framed t s s') (h' : Framed t s' s'') : Framed t s s'' where
  others u hu ht := (h'.others u hu ht).trans (h.others u hu ht)
  required := h'.required.trans h.required

end Framed

/-! ## The loop after a function -/

theorem callable_congr (h : s'.status = s.status) : s'.callable = s.callable := by
  funext t
  cases t <;> simp only [callable, parentActive, isActive_congr h, h]

/-- A task is not callable when the task itself has been started, or an ancestor is over. -/
theorem not_callable_of_quiet {i : ℕ}
    (h : s.status (i :: t) ≠ .inactive ∨ ∃ p, p <:+ t ∧ (s.status p).Over) :
    ¬ s.callable (i :: t) := by
  rw [callable_iff]
  rintro ⟨inactive, parents⟩
  rcases h with started | ⟨p, hp, isOver⟩
  · exact started inactive
  · exact isOver.2 ((isActive_iff t).1 parents p hp)

/-- A loop none of whose remaining subtasks is callable just finishes its task. -/
theorem drain {i : ℕ} (hs : s.stack = .loop t i .call :: K)
    (quiet : ∀ j < (s.task t).subtasks, ¬ s.callable (j :: t)) :
    ∃ n s', exec State.step s (List.replicate n .tick) = some s' ∧ s'.stack = K ∧
      s'.reply.value = (s.task t).associatedFunctionResult ∧ s'.status t = .completed ∧
      (s'.task t).subtasks = (s.task t).subtasks ∧ ∀ u, u ≠ t → s'.task u = s.task u := by
  generalize hk : (s.task t).subtasks - i = k
  induction k generalizing s i with
  | zero =>
    have last : (s.task t).subtasks ≤ i := by omega
    have taken : s.step .tick = some (s.loopDone t .call K) := by
      simp only [State.step, hs, if_neg (Nat.not_lt.2 last)]
    refine ⟨1, s.loopDone t .call K, by simp [exec_cons, taken], rfl, ?_, ?_, ?_, fun u hu => ?_⟩
    · cases hv : (s.task t).associatedFunctionResult <;> simp [loopDone, hv, Reply.ofResult, Reply.value]
    · rw [status_loopDone, Function.update_self]
    · by_cases hc : s.status t = .completed <;> simp [loopDone, State.finish, hc, setTask, record]
    · by_cases hc : s.status t = .completed <;> simp [loopDone, State.finish, hc, hu, setTask, record]
  | succ k ih =>
    have next : i < (s.task t).subtasks := by omega
    set s₁ : State ε ν := { s.looping t i .call K with reply := .none } with hs₁
    have same : s₁.callable = s.callable := callable_congr (status_looping t i .call K)
    have taken : s.step .tick = some s₁ := by
      have refused : ¬ (s.looping t i .call K).callable (i :: t) := by
        rw [callable_congr (status_looping t i .call K)]
        exact quiet i next
      simp only [State.step, hs, if_pos next, nextSubtask_eq, State.call, if_neg refused, hs₁]
    have own : s₁.task t = { s.task t with currentSubtask := some i } := by
      simp [hs₁, looping, setTask]
    have others : ∀ u, u ≠ t → s₁.task u = s.task u := fun u hu => by
      simp [hs₁, looping, setTask, hu]
    obtain ⟨n, s', ticks, stack, reply, status, size, rest⟩ :=
      ih (s := s₁) (i := i + 1) rfl (by rw [own]; simpa only [same] using quiet)
        (by rw [own]; show (s.task t).subtasks - (i + 1) = k; omega)
    rw [own] at reply size
    refine ⟨n + 1, s', ?_, stack, reply, status, size, fun u hu => ?_⟩
    · rw [List.replicate_succ, exec_cons, taken]
      exact ticks
    · exact (rest u hu).trans (others u hu)

/-- The ancestors of a task are there. -/
theorem has_of_suffix (hu : u <:+ t) (ht : s.has t) : s.has u := by
  induction t with
  | nil =>
    rw [List.suffix_nil.1 hu]
    rfl
  | cons i t ih =>
    rcases List.suffix_cons_iff.1 hu with rfl | hu
    · exact ht
    · exact ih hu (Bool.and_eq_true_iff.1 ht).2

/-! ## One call of a subtask -/

namespace Mirrors

variable {tree : TreeView ε} {n : ℕ}

/-- After a function that has not raised for good, the loop over its subtasks finishes the task. -/
theorem looped (h : Mirrors s t tree) (hs : s'.stack = .loop t 0 .call :: K)
    (has : s'.has = s.has) (size : (s'.task t).subtasks = (s.task t).subtasks)
    (isOver : (s.status t).Over → (s'.status t).Over) (others : ∀ u, u ≠ t → s'.task u = s.task u) :
    ∃ k r, exec State.step s' (List.replicate k .tick) = some r ∧ r.stack = K ∧
      r.reply.value = (s'.task t).associatedFunctionResult ∧
      (∀ u, u ≠ t → u ≠ [] → r.task u = s.task u) ∧
      Mirrors r t { parents := tree.parents, own := false, error := tree.error } := by
  have status : ∀ u, u ≠ t → s'.status u = s.status u := fun u hu => by
    simp only [State.status, others u hu]
  have quiet : ∀ i < (s'.task t).subtasks, s'.status (i :: t) ≠ .inactive ∨
      ∃ p, p <:+ t ∧ (s'.status p).Over := by
    intro i hi
    refine (h.quiet i (size ▸ hi)).imp (fun started => ?_) ?_
    · rwa [status _ (List.cons_ne_self i t)]
    · rintro ⟨p, hp, hover⟩
      refine ⟨p, hp, ?_⟩
      by_cases hpt : p = t
      · exact hpt ▸ isOver (hpt ▸ hover)
      · rwa [status p hpt]
  obtain ⟨k, r, ticks, stack, value, completed, size', rest⟩ :=
    TaskList.drain hs fun j hj => not_callable_of_quiet (quiet j hj)
  have task : ∀ u, u ≠ t → r.task u = s.task u := fun u hu => (rest u hu).trans (others u hu)
  have final : ∀ u, u ≠ t → r.status u = s.status u := fun u hu => by
    simp only [State.status, task u hu]
  have done : (r.status t).Over := by simp [completed, Status.Over]
  refine ⟨k, r, ticks, stack, value, fun u hu _ => task u hu, ?_⟩
  exact
    { has := (Later.of_run (run_of_exec ticks)).has t (has ▸ h.has)
      nonroot := h.nonroot
      active := fun hp p hpt hne => (final p hne).trans (h.active hp p hpt hne)
      cancelled := fun hp => by
        obtain ⟨p, hpt, hne, hover⟩ := h.cancelled hp
        exact ⟨p, hpt, hne, by rwa [final p hne]⟩
      own := fun hown => by cases hown
      finished := fun _ => done
      error := (congrArg Task.error (task [] h.nonroot.symm)).trans h.error
      quiet := fun _ _ => .inr ⟨t, List.suffix_refl t, done⟩ }

/-- The function of a subtask ends, and control is back at the caller. -/
theorem ended (h : Mirrors s t tree) (hs : s.stack = .body t :: K) (r : Except ε (Option ν)) :
    ∃ s₁ k s', s.step (.act (.ending r)) = some s₁ ∧
      exec State.step s₁ (List.replicate k .tick) = some s' ∧ s'.stack = K ∧
      s'.reply.value = Script.value r ∧ (∀ u, u ≠ t → u ≠ [] → s'.task u = s.task u) ∧
      Mirrors s' t { Script.leave (s.task t).isRequired r tree with own := false } := by
  cases r with
  | ok v =>
    obtain ⟨k, s', ticks, stack, value, others, mirrors⟩ := h.looped
      (show (s.functionReturned t K v).stack = .loop t 0 .call :: K from rfl)
      (has_functionReturned ..)
      (by simp [functionReturned, setTask]) (by rw [status_functionReturned]; exact id)
      fun u hu => by simp [functionReturned, setTask, hu]
    refine ⟨_, k, s', by simp only [State.step, hs]; rfl, ticks, stack, ?_, others, mirrors⟩
    simpa [functionReturned, setTask, Script.value] using value
  | error e =>
    have step : s.step (.act (.ending (.error e))) = some (s.functionRaised t K e) := by
      simp only [State.step, hs]
      rfl
    cases hr : (s.task t).isRequired with
    | false =>
      rw [functionRaised_optional K e hr] at step
      obtain ⟨k, s', ticks, stack, value, others, mirrors⟩ := h.looped
        (show ((s.markFailed t e).functionReturned t K none).stack = .loop t 0 .call :: K from rfl)
        ((has_functionReturned ..).trans (has_markFailed t e))
        (by simp [functionReturned, markFailed, setTask, record])
        (by simp [status_functionReturned, status_markFailed, Status.Over])
        fun u hu => by simp [functionReturned, markFailed, setTask, record, hu]
      refine ⟨_, k, s', step, ticks, stack, ?_, others, mirrors⟩
      simpa [functionReturned, setTask, Script.value] using value
    | true =>
      have root : (s.functionRaised t K e).status [] = .cancelled := by
        simp [status_functionRaised, hr]
      have hover : ((s.functionRaised t K e).status []).Over := by simp [root, Status.Over]
      refine ⟨_, 0, _, step, rfl, ?_, ?_, fun u hu hu' => ?_, ?_⟩
      · rw [functionRaised_required K e hr]
      · rw [functionRaised_required K e hr]
        rfl
      · rw [functionRaised_required K e hr]
        simp [State.cancel, setRootError, markFailed, setTask, record, hu, hu']
      · exact
          { has := (has_functionRaised (s := s) t K e).symm ▸ h.has
            nonroot := h.nonroot
            active := fun hp => by cases hp
            cancelled := fun _ => ⟨[], List.nil_suffix, h.nonroot.symm, hover⟩
            own := fun hown => by cases hown
            finished := fun _ => by
              simp [status_functionRaised, hr, h.nonroot, Status.Over]
            error := by
              rw [functionRaised_required K e hr]
              simp [State.cancel, setRootError, setTask, Script.leave]
            quiet := fun _ _ => .inr ⟨[], List.nil_suffix, hover⟩ }

/-- What the caller sees once the function of its subtask has ended. -/
theorem parent (h : Mirrors s (n :: t) tree) (nonroot : t ≠ []) (own : s.status t = .active)
    (size : (s.task t).subtasks = n + 1) (started : s.status (n :: t) ≠ .inactive)
    (quiet : ∀ i < n, s.status (i :: t) ≠ .inactive ∨ ∃ p, p <:+ t ∧ (s.status p).Over) :
    Mirrors s t { parents := tree.parents, error := tree.error } where
  has := (Bool.and_eq_true_iff.1 h.has).2
  nonroot := nonroot
  active ht p hp _ := h.active ht p (hp.trans (List.suffix_cons n t)) (by
    rintro rfl
    exact absurd hp.length_le (by simp))
  cancelled ht := by
    obtain ⟨p, hp, hne, isOver⟩ := h.cancelled ht
    rcases List.suffix_cons_iff.1 hp with rfl | hp
    · exact absurd rfl hne
    · refine ⟨p, hp, ?_, isOver⟩
      rintro rfl
      exact isOver.2 own
  own _ := own
  finished h := by cases h
  error := h.error
  quiet i hi := by
    rcases Nat.lt_or_eq_of_le (Nat.le_of_lt_succ (size ▸ hi)) with hi | rfl
    · exact quiet i hi
    · exact .inl started

end Mirrors

/-! ## Whole scripts -/

/-- A function adds a subtask to its own task and calls it. -/
theorem exec_addSubtask_call (hs : s.stack = .body t :: K) (ht : s.has t) (isRequired : Bool) :
    exec State.step s [.act (.addSubtask t isRequired 1),
      .act (.call ((s.task t).subtasks :: t))] =
      some ((s.addSubtask t isRequired 1).call ((s.task t).subtasks :: t)) := by
  have there : (s.addSubtask t isRequired 1).has ((s.task t).subtasks :: t) := by
    simp [has, subtasks_addSubtask ht, has_addSubtask ht]
  have stack : (s.addSubtask t isRequired 1).stack = .body t :: K := hs
  simp only [exec_cons, State.step, hs, State.perform, ht, stack, there, if_true, Option.bind_some,
    exec_nil]

/-- The tasks after `add_subtask`, but for the new one and its parent. -/
theorem task_addSubtask {isRequired : Bool} (hu : u ≠ t) (hn : u ≠ (s.task t).subtasks :: t) :
    (s.addSubtask t isRequired 1).task u = s.task u := by
  simp [State.addSubtask, setTask, hu, hn]

theorem task_addSubtask_self {isRequired : Bool} : (s.addSubtask t isRequired 1).task t =
    { s.task t with subtasks := (s.task t).subtasks + 1 } := by
  simp [State.addSubtask, setTask, (List.cons_ne_self _ t).symm]

theorem task_addSubtask_new {isRequired : Bool} :
    (s.addSubtask t isRequired 1).task ((s.task t).subtasks :: t) = { isRequired, size := 1 } := by
  simp [State.addSubtask, setTask]

theorem status_addSubtask_of_suffix {isRequired : Bool} (hu : u <:+ t) :
    (s.addSubtask t isRequired 1).status u = s.status u := by
  rw [status_addSubtask, Function.update_of_ne]
  rintro rfl
  exact absurd hu.length_le (by simp)

namespace Mirrors

variable {tree : TreeView ε}

theorem reply (h : Mirrors s t tree) (r : Reply ν) : Mirrors { s with reply := r } t tree where
  has := by
    have same : ({ s with reply := r } : State ε ν).has = s.has := has_congr fun _ => rfl
    exact (congrFun same t).trans h.has
  nonroot := h.nonroot
  active := h.active
  cancelled := h.cancelled
  own := h.own
  finished := h.finished
  error := h.error
  quiet := h.quiet

theorem finish (h : Mirrors s t tree) : Mirrors (s.finish t) t { tree with own := false } := by
  have status : ∀ u, u ≠ t → (s.finish t).status u = s.status u := fun u hu => by
    rw [status_finish, Function.update_of_ne hu]
  have done : ((s.finish t).status t).Over := by simp [status_finish, Status.Over]
  exact
    { has := (Later.finish s t).has t h.has
      nonroot := h.nonroot
      active := fun hp p hpt hne => (status p hne).trans (h.active hp p hpt hne)
      cancelled := fun hp => by
        obtain ⟨p, hpt, hne, hover⟩ := h.cancelled hp
        exact ⟨p, hpt, hne, by rwa [status p hne]⟩
      own := fun hown => by cases hown
      finished := fun _ => done
      error := by
        refine Eq.trans ?_ h.error
        by_cases hc : s.status t = .completed <;> simp [State.finish, hc, setTask, record, h.nonroot.symm]
      quiet := fun _ _ => .inr ⟨t, List.suffix_refl t, done⟩ }

/-- The new subtask is callable when all that the tree of its parent says is ACTIVE. -/
theorem callable_new (h : Mirrors s t tree) (isRequired : Bool) :
    (s.addSubtask t isRequired 1).callable ((s.task t).subtasks :: t) =
      (tree.parents && tree.own) := by
  rw [Bool.eq_iff_iff, callable_iff, Bool.and_eq_true_iff]
  simp only [parentActive, isActive_iff]
  constructor
  · rintro ⟨-, parents⟩
    have active : ∀ p, p <:+ t → s.status p = .active := fun p hp =>
      (status_addSubtask_of_suffix hp).symm.trans (parents p hp)
    constructor
    · by_contra hp
      obtain ⟨p, hpt, -, hover⟩ := h.cancelled (by simpa using hp)
      exact hover.2 (active p hpt)
    · by_contra ho
      exact (h.finished (by simpa using ho)).2 (active t (List.suffix_refl t))
  · rintro ⟨hp, ho⟩
    refine ⟨by rw [status_addSubtask, Function.update_self], fun p hpt => ?_⟩
    rw [status_addSubtask_of_suffix hpt]
    by_cases hne : p = t
    · exact hne ▸ h.own ho
    · exact h.active hp p hpt hne

/-- What the function of a new subtask finds. -/
theorem enter (h : Mirrors s t tree) (isRequired : Bool) (hp : tree.parents = true)
    (ho : tree.own = true) :
    Mirrors ((s.addSubtask t isRequired 1).begin ((s.task t).subtasks :: t))
      ((s.task t).subtasks :: t) (Script.enter tree) where
  has := by
    rw [has_begin]
    simp [State.has, subtasks_addSubtask h.has, has_addSubtask h.has]
  nonroot := List.cons_ne_nil _ t
  active _ p hpt hne := by
    rw [status_begin, Function.update_of_ne hne]
    have callable : (s.addSubtask t isRequired 1).callable ((s.task t).subtasks :: t) = true := by
      rw [h.callable_new, hp, ho, Bool.and_self]
    exact (parentActive_iff _).1 ((callable_iff _).1 callable).2 p hpt hne
  cancelled hp := by cases hp
  own _ := by rw [status_begin, Function.update_self]
  finished ho := by cases ho
  error := by
    refine Eq.trans ?_ h.error
    simp [begin, setTask, State.addSubtask, h.nonroot.symm]
  quiet i hi := by simp [begin, setTask, State.addSubtask] at hi

/-- What the caller sees when the new subtask is not callable. -/
theorem refused (h : Mirrors s t tree) (isRequired : Bool)
    (hc : (tree.parents && tree.own) = false) : Mirrors (s.addSubtask t isRequired 1) t tree where
  has := has_addSubtask h.has
  nonroot := h.nonroot
  active hp p hpt hne := (status_addSubtask_of_suffix hpt).trans (h.active hp p hpt hne)
  cancelled hp := by
    obtain ⟨p, hpt, hne, hover⟩ := h.cancelled hp
    exact ⟨p, hpt, hne, by rwa [status_addSubtask_of_suffix hpt]⟩
  own ho := (status_addSubtask_of_suffix (List.suffix_refl t)).trans (h.own ho)
  finished ho := by
    rw [status_addSubtask_of_suffix (List.suffix_refl t)]
    exact h.finished ho
  error := by
    refine Eq.trans ?_ h.error
    simp [State.addSubtask, setTask, h.nonroot.symm]
  quiet i _ := by
    right
    rcases Bool.and_eq_false_iff.1 hc with hp | ho
    · obtain ⟨p, hpt, -, hover⟩ := h.cancelled hp
      exact ⟨p, hpt, by rwa [status_addSubtask_of_suffix hpt]⟩
    · refine ⟨t, List.suffix_refl t, ?_⟩
      rw [status_addSubtask_of_suffix (List.suffix_refl t)]
      exact h.finished ho

end Mirrors

/-- The machine plays a script as `eval` predicts. -/
theorem plays_eval (p : Script σ ε ν α) {tree : TreeView ε} (w : σ) (h : Mirrors s t tree)
    (hs : s.stack = .body t :: K) :
    ∃ s', Plays p t K w s (p.eval tree w).result (p.eval tree w).world s' ∧
      s'.stack = .body t :: K ∧ Mirrors s' t (p.eval tree w).tree ∧ Framed t s s' := by
  induction p generalizing s t K tree w with
  | pure a => exact ⟨s, .pure a, hs, h, .refl t s⟩
  | raise e => exact ⟨s, .raise e, hs, h, .refl t s⟩
  | get k ih =>
    obtain ⟨s', plays, rest⟩ := ih w w h hs
    exact ⟨s', .get plays, rest⟩
  | set v k ih =>
    obtain ⟨s', plays, rest⟩ := ih v h hs
    exact ⟨s', .set v plays, rest⟩
  | finish k ih =>
    have taken : s.step (.act (.finish t)) = some { s.finish t with reply := .none } := by
      simp only [State.step, hs, State.perform, h.has, if_true]
    obtain ⟨s', plays, stack, mirrors, framed⟩ := ih w (h.finish.reply .none)
      (show (s.finish t).stack = _ from (stack_finish t).trans hs)
    refine ⟨s', .finish taken plays, stack, mirrors, .trans ⟨fun u _ hu => ?_, ?_⟩ framed⟩
    · have hne : u ≠ t := fun e => hu (e ▸ List.suffix_refl t)
      by_cases hc : s.status t = .completed <;> simp [State.finish, hc, setTask, record, hne]
    · by_cases hc : s.status t = .completed <;> simp [State.finish, hc, setTask, record]
  | subtask r body k ihbody ih =>
    have added : Framed t s (s.addSubtask t r 1) := by
      refine ⟨fun u _ hu => task_addSubtask ?_ ?_, by rw [task_addSubtask_self]⟩
      · exact fun e => hu (e ▸ List.suffix_refl t)
      · exact fun e => hu (e ▸ List.suffix_cons _ t)
    have exec := exec_addSubtask_call hs h.has r
    cases hc : tree.parents && tree.own with
    | false =>
      rw [State.call, if_neg (by rw [h.callable_new, hc]; simp)] at exec
      obtain ⟨s', plays, stack, mirrors, framed⟩ := ih none w ((h.refused r hc).reply .none) hs
      have unchanged : Framed t (s.addSubtask t r 1) { s.addSubtask t r 1 with reply := .none } :=
        ⟨fun _ _ _ => rfl, rfl⟩
      simp only [Script.eval, hc, Bool.false_eq_true, if_false]
      exact ⟨s', .refused exec hs plays, stack, mirrors, added.trans (unchanged.trans framed)⟩
    | true =>
      obtain ⟨hp, ho⟩ := Bool.and_eq_true_iff.1 hc
      rw [State.call, if_pos (by rw [h.callable_new, hc])] at exec
      obtain ⟨s₂, plays, stack₂, mirrors₂, framed₂⟩ :=
        ihbody (K := .body t :: K) w (h.enter r hp ho) (by simp [begin, hs])
      obtain ⟨s₃, m, s₄, taken, ticks, stack₄, value, others, mirrors₄⟩ :=
        mirrors₂.ended stack₂ (body.eval (Script.enter tree) w).result
      have required : (s₂.task ((s.task t).subtasks :: t)).isRequired = r := by
        rw [framed₂.required]
        simp [begin, setTask, task_addSubtask_new]
      rw [required] at mirrors₄
      have kept : ∀ u, u ≠ [] → ¬ (s.task t).subtasks :: t <:+ u →
          s₄.task u = (s.addSubtask t r 1).task u := fun u hu hnu => by
        have hne : u ≠ (s.task t).subtasks :: t := fun e => hnu (e ▸ List.suffix_refl _)
        rw [others u hne hu, framed₂.others u hu hnu]
        simp [begin, setTask, hne]
      have own : s₄.task t = (s.addSubtask t r 1).task t :=
        kept t h.nonroot fun hsuffix => absurd hsuffix.length_le (by simp)
      have called : Framed t (s.addSubtask t r 1) s₄ :=
        ⟨fun u hu hnu => kept u hu fun hsuffix => hnu ((List.suffix_cons _ t).trans hsuffix),
          congrArg Task.isRequired own⟩
      have later : Later s s₄ :=
        (Later.of_run (run_of_exec exec)).trans ((Later.of_run plays.run).trans
          (.trans (.of_stepped (stepped_of_step taken)) (.of_run (run_of_exec ticks))))
      have quiet : ∀ i < (s.task t).subtasks, s₄.status (i :: t) ≠ .inactive ∨
          ∃ p, p <:+ t ∧ (s₄.status p).Over := by
        intro i hi
        refine (h.quiet i hi).imp (later.started _ (by simp [State.has, hi, h.has])) ?_
        rintro ⟨p, hpt, hover⟩
        exact ⟨p, hpt, later.isOver p (has_of_suffix hpt h.has) hover⟩
      have mirrors := mirrors₄.parent h.nonroot
        (by simp only [State.status, own, task_addSubtask_self]; exact h.own ho)
        (by rw [own, task_addSubtask_self]) (mirrors₄.finished rfl).1 quiet
      rw [Script.leave_own] at mirrors
      obtain ⟨s', plays', rest⟩ := ih (Script.value (body.eval (Script.enter tree) w).result)
        (body.eval (Script.enter tree) w).world mirrors stack₄
      simp only [Script.eval, hc, if_true]
      obtain ⟨stack, final, framed⟩ := rest
      exact ⟨s', .called exec plays taken ticks stack₄ (value ▸ plays'), stack, final,
        added.trans (called.trans framed)⟩

end Ydfs.TaskList
