import Ydfs.TaskList.Starts

/-!
# No task is lost

In a tame run nothing is cancelled, no function raises and each function only touches its own task.
Two invariants carry such a run.  `Orderly` is about the tree: an ACTIVE task has ACTIVE ancestors,
and the subtasks of a COMPLETED task have been started.  `Tracked` is about the calls in progress:
the tasks of the stack lie on one branch of the tree, each ACTIVE task has its call on the stack,
and a loop has started the subtasks that it has passed.  When the stack is empty again no task is
ACTIVE, and by induction over the tree all are COMPLETED.
-/

namespace Ydfs.TaskList

open Transition State

variable {ε ν : Type} {s s' : State ε ν}

/-- What a function may do in a tame run: it touches only its own task, adds no subtask to it once
it is COMPLETED, and calls `finish` only when all its subtasks have been started.  A new task may
come with subtasks of its own. -/
def Tame (s : State ε ν) : Action ε ν → Prop
  | .cancelFromUi => False
  | .act op => ∀ t K, s.stack = .body t :: K →
    match op with
    | .addSubtask u _ _ => (u = t ∧ s.status t ≠ .completed) ∨ s.status u = .inactive
    | .call u => ∃ i, u = i :: t
    | .setProgress u _ _ => u = t
    | .finish u => u = t ∧ ∀ i, s.has (i :: t) → s.status (i :: t) ≠ .inactive
    | .cancel _ => False
    | .raise _ => False
    | .ret _ => True
  | _ => True

/-! ## The tree -/

/-- The invariant of the tree in a tame run. -/
structure Orderly (s : State ε ν) : Prop where
  inTree : ∀ t, s.status t ≠ .inactive → s.has t
  ran : ∀ t, s.status t ≠ .inactive → .running t ∈ s.log
  plain : ∀ t, s.status t = .inactive ∨ s.status t = .active ∨ s.status t = .completed
  upward : ∀ t, s.status t = .active → ∀ p, p <:+ t → s.status p = .active
  children : ∀ t, s.status t = .completed → ∀ i, s.has (i :: t) → s.status (i :: t) ≠ .inactive

namespace Orderly

theorem of_initial (h : Initial s) : Orderly s where
  inTree t ht := absurd (h.inactive t) ht
  ran t ht := absurd (h.inactive t) ht
  plain t := .inl (h.inactive t)
  upward t ht := by simp [h.inactive t] at ht
  children t ht := by simp [h.inactive t] at ht

theorem of_eq (h : Orderly s) (hs : s'.status = s.status) (hh : s'.has = s.has)
    (hl : s'.log = s.log) : Orderly s' := by
  obtain ⟨inTree, ran, plain, upward, children⟩ := h
  constructor
  all_goals simp only [hs, hh, hl]; assumption

/-- A task in the tree is called: an INACTIVE one starts under ACTIVE ancestors. -/
theorem call {t : Pos} (h : Orderly s) (ht : s.has t) : Orderly (s.call t) := by
  by_cases hc : s.callable t
  · obtain ⟨inactive, active⟩ := (callable_iff t).1 hc
    rw [parentActive_iff] at active
    have status : ∀ u, (s.call t).status u = if u = t then .active else s.status u := by
      intro u
      rw [status_call, if_pos hc, Function.update_apply]
    have log : (s.call t).log = .running t :: s.log := by rw [log_call, if_pos hc]
    refine ⟨fun u hu => ?_, fun u hu => ?_, fun u => ?_, fun u hu p hp => ?_, fun u hu i hi => ?_⟩
    · rw [has_call]
      rw [status] at hu
      split_ifs at hu with hut
      · exact hut ▸ ht
      · exact h.inTree u hu
    · rw [log]
      rw [status] at hu
      split_ifs at hu with hut
      · exact hut ▸ .head _
      · exact .tail _ (h.ran u hu)
    · rw [status]
      split_ifs
      · exact .inr (.inl rfl)
      · exact h.plain u
    · rw [status] at hu ⊢
      split_ifs with hpt
      · rfl
      split_ifs at hu with hut
      · exact active p (hut ▸ hp) hpt
      · exact h.upward u hu p hp
    · rw [status] at hu ⊢
      rw [has_call] at hi
      split_ifs at hu ⊢
      · simp
      · exact h.children u hu i hi
  · unfold State.call
    rw [if_neg hc]
    exact h.of_eq rfl (has_congr fun _ => rfl) rfl

/-- A started task finishes when its subtasks have been started and no task below it is ACTIVE. -/
theorem finish {t : Pos} (h : Orderly s) (started : s.status t ≠ .inactive)
    (subtasks : ∀ i, s.has (i :: t) → s.status (i :: t) ≠ .inactive)
    (below : ∀ u, t <:+ u → u ≠ t → s.status u ≠ .active) : Orderly (s.finish t) := by
  have status : ∀ u, (s.finish t).status u = if u = t then .completed else s.status u := by
    intro u
    rw [status_finish, Function.update_apply]
  have log : ∀ e ∈ s.log, e ∈ (s.finish t).log := (Later.finish s t).log
  have moved : ∀ u, (s.finish t).status u ≠ .inactive → s.status u ≠ .inactive := by
    intro u hu
    rw [status] at hu
    split_ifs at hu with hut
    · exact hut ▸ started
    · exact hu
  refine ⟨fun u hu => ?_, fun u hu => ?_, fun u => ?_, fun u hu p hp => ?_, fun u hu i hi => ?_⟩
  · rw [has_finish]
    exact h.inTree u (moved u hu)
  · exact log _ (h.ran u (moved u hu))
  · rw [status]
    split_ifs
    · exact .inr (.inr rfl)
    · exact h.plain u
  · rw [status] at hu ⊢
    split_ifs at hu with hut
    split_ifs with hpt
    · exact absurd hu (below u (hpt ▸ hp) hut)
    · exact h.upward u hu p hp
  · rw [status] at hu ⊢
    rw [has_finish] at hi
    split_ifs with hit
    · simp
    split_ifs at hu with hut
    · subst hut
      exact subtasks i hi
    · exact h.children u hu i hi

/-- The position of a new task was INACTIVE, so that no status changes. -/
theorem status_addSubtask (h : Orderly s) (u : Pos) (r : Bool) (z : ℚ) :
    (s.addSubtask u r z).status = s.status := by
  have inactive : s.status ((s.task u).subtasks :: u) = .inactive := by
    by_contra hne
    simpa [not_has_new] using h.inTree _ hne
  rw [State.status_addSubtask, ← inactive, Function.update_eq_self]

theorem addSubtask {u : Pos} {r : Bool} {z : ℚ} (h : Orderly s) (hu : s.status u ≠ .completed) :
    Orderly (s.addSubtask u r z) := by
  have status := h.status_addSubtask u r z
  refine ⟨fun t ht => ?_, fun t ht => ?_, fun t => ?_, fun t ht p hp => ?_, fun t ht i hi => ?_⟩
  · rw [status] at ht
    exact has_addSubtask (h.inTree t ht)
  · rw [status] at ht
    exact h.ran t ht
  · rw [status]
    exact h.plain t
  · rw [status] at ht ⊢
    exact h.upward t ht p hp
  · rw [status] at ht ⊢
    have htree : s.has t := h.inTree t (by simp [ht])
    have htu : t ≠ u := by
      rintro rfl
      exact hu ht
    refine h.children t ht i ?_
    simp only [has, Bool.and_eq_true, decide_eq_true_eq] at hi ⊢
    rw [subtasks_addSubtask htree, if_neg htu] at hi
    exact ⟨hi.1, htree⟩

end Orderly

/-! ## The calls in progress -/

/-- The frame stands for the call of `t`, and not for one of its progress reports. -/
def Frame.IsCallOf (t : Pos) : Frame → Prop
  | .body u => u = t
  | .loop u _ .call => u = t
  | .loop _ _ .setProgress => False

/-- The invariant of the stack in a tame run, over the statuses `st`. -/
structure Tracked (st : Pos → Status) (K : List Frame) : Prop where
  started : ∀ t ∈ K.map Frame.task, st t ≠ .inactive
  branch : (K.map Frame.task).Pairwise fun t u => u <:+ t
  calls : ∀ t, st t = .active → ∃ f ∈ K, f.IsCallOf t
  passed : ∀ t i c, .loop t i c ∈ K → ∀ j < i, st (j :: t) ≠ .inactive

namespace Tracked

variable {st st' : Pos → Status} {K : List Frame} {t : Pos} {i : ℕ} {c : Caller}

theorem task_eq {f : Frame} (h : f.IsCallOf t) : f.task = t := by
  rcases f with u | ⟨u, j, _ | _⟩
  · exact h
  · exact h
  · exact h.elim

/-- Statuses move forward, and no task becomes ACTIVE. -/
theorem mono (h : Tracked st K) (started : ∀ u, st u ≠ .inactive → st' u ≠ .inactive)
    (active : ∀ u, st' u = .active → st u = .active) : Tracked st' K where
  started u hu := started u (h.started u hu)
  branch := h.branch
  calls u hu := h.calls u (active u hu)
  passed u i c hl j hj := started _ (h.passed u i c hl j hj)

/-- No task below the one on top is ACTIVE. -/
theorem not_active_below {f : Frame} (h : Tracked st (f :: K)) {u : Pos} (hu : f.task <:+ u)
    (hne : u ≠ f.task) : st u ≠ .active := by
  intro active
  obtain ⟨g, hg, hcall⟩ := h.calls u active
  obtain rfl := task_eq hcall
  rcases List.mem_cons.1 hg with rfl | hg
  · exact hne rfl
  · have above : g.task <:+ f.task :=
      (List.pairwise_cons.1 h.branch).1 _ (List.mem_map_of_mem hg)
    exact hne (above.eq_of_length_le hu.length_le)

/-- The calls in progress are above every subtask of the task on top. -/
theorem suffix_child {f : Frame} (h : Tracked st (f :: K)) (i : ℕ) :
    ∀ u ∈ (f :: K).map Frame.task, u <:+ i :: f.task := by
  intro u hu
  rcases List.mem_cons.1 hu with hu | hu
  · exact hu ▸ List.suffix_cons i _
  · exact ((List.pairwise_cons.1 h.branch).1 u hu).trans (List.suffix_cons i _)

/-- The function on top starts a loop over its subtasks. -/
theorem pushLoop (h : Tracked st (.body t :: K)) (c : Caller) :
    Tracked st (.loop t 0 c :: .body t :: K) := by
  refine ⟨?_, ?_, fun u hu => ?_, fun u i c hl j hj => ?_⟩
  · simpa using h.started
  · simpa using h.branch
  · obtain ⟨f, hf, hcall⟩ := h.calls u hu
    exact ⟨f, .tail _ hf, hcall⟩
  · rcases List.mem_cons.1 hl with hl | hl
    · cases hl
      exact absurd hj (Nat.not_lt_zero j)
    · exact h.passed u i c hl j hj

/-- The function on top returns, and the loop over its subtasks takes its place. -/
theorem returned (h : Tracked st (.body t :: K)) : Tracked st (.loop t 0 .call :: K) := by
  refine ⟨h.started, h.branch, fun u hu => ?_, fun u i c hl j hj => ?_⟩
  · obtain ⟨f, hf, hcall⟩ := h.calls u hu
    rcases List.mem_cons.1 hf with rfl | hf
    · exact ⟨_, .head _, hcall⟩
    · exact ⟨f, .tail _ hf, hcall⟩
  · rcases List.mem_cons.1 hl with hl | hl
    · cases hl
      exact absurd hj (Nat.not_lt_zero j)
    · exact h.passed u i c (.tail _ hl) j hj

/-- The loop on top ends; its task is not ACTIVE any more. -/
theorem pop (h : Tracked st (.loop t i c :: K)) (ht : st t ≠ .active) : Tracked st K := by
  refine ⟨fun u hu => h.started u (.tail _ hu), (List.pairwise_cons.1 h.branch).2, fun u hu => ?_,
    fun u i c hl => h.passed u i c (.tail _ hl)⟩
  obtain ⟨f, hf, hcall⟩ := h.calls u hu
  rcases List.mem_cons.1 hf with rfl | hf
  · obtain rfl := task_eq hcall
    exact absurd hu ht
  · exact ⟨f, hf, hcall⟩

/-- A loop passes a subtask that has been started; frames `L` may stand above it. -/
theorem advance (L : List Frame) (h : Tracked st (L ++ .loop t i c :: K))
    (hi : st (i :: t) ≠ .inactive) : Tracked st (L ++ .loop t (i + 1) c :: K) := by
  refine ⟨by simpa using h.started, by simpa using h.branch, fun u hu => ?_,
    fun u k d hl j hj => ?_⟩
  · obtain ⟨f, hf, hcall⟩ := h.calls u hu
    rcases List.mem_append.1 hf with hf | hf
    · exact ⟨f, List.mem_append_left _ hf, hcall⟩
    rcases List.mem_cons.1 hf with rfl | hf
    · refine ⟨.loop t (i + 1) c, by simp, ?_⟩
      cases c <;> exact hcall
    · exact ⟨f, List.mem_append_right _ (.tail _ hf), hcall⟩
  · have old : .loop u k d ∈ L ++ .loop t i c :: K → st (j :: u) ≠ .inactive := fun hl =>
      h.passed u k d hl j hj
    rcases List.mem_append.1 hl with hl | hl
    · exact old (List.mem_append_left _ hl)
    rcases List.mem_cons.1 hl with hl | hl
    · cases hl
      rcases Nat.lt_succ_iff_lt_or_eq.1 hj with hj | rfl
      · exact h.passed t i c (by simp) j hj
      · exact hi
    · exact old (List.mem_append_right _ (.tail _ hl))

/-- The function of a task below all calls in progress starts. -/
theorem start (h : Tracked st K) (below : ∀ u ∈ K.map Frame.task, u <:+ t) :
    Tracked (Function.update st t .active) (.body t :: K) := by
  have moved : ∀ u, st u ≠ .inactive → Function.update st t .active u ≠ .inactive := by
    intro u hu
    rw [Function.update_apply]
    split_ifs
    · simp
    · exact hu
  refine ⟨fun u hu => ?_, List.pairwise_cons.2 ⟨below, h.branch⟩, fun u hu => ?_,
    fun u i c hl j hj => ?_⟩
  · rcases List.mem_cons.1 hu with rfl | hu
    · simp
    · exact moved u (h.started u hu)
  · rw [Function.update_apply] at hu
    split_ifs at hu with hut
    · exact ⟨.body t, .head _, hut.symm⟩
    · obtain ⟨f, hf, hcall⟩ := h.calls u hu
      exact ⟨f, .tail _ hf, hcall⟩
  · rcases List.mem_cons.1 hl with hl | hl
    · cases hl
    · exact moved _ (h.passed u i c hl j hj)

end Tracked

/-! ## Tame runs -/

/-- The invariant of tame runs. -/
structure State.OnTrack (s : State ε ν) : Prop where
  wellFormed : s.WellFormed
  orderly : Orderly s
  tracked : Tracked s.status s.stack

namespace State.OnTrack

theorem of_initial (h : Initial s) : s.OnTrack where
  wellFormed := .of_initial h
  orderly := .of_initial h
  tracked := by
    constructor
    · simp [h.stack]
    · simp [h.stack]
    · simp [h.inactive]
    · simp [h.stack]

/-- A call of a task below all calls in progress. -/
theorem call {t : Pos} (h : s.OnTrack) (ht : s.has t)
    (below : ∀ u ∈ s.stack.map Frame.task, u <:+ t) :
    Orderly (s.call t) ∧ Tracked (s.call t).status (s.call t).stack := by
  refine ⟨h.orderly.call ht, ?_⟩
  rw [status_call, stack_call]
  split_ifs
  · exact h.tracked.start below
  · exact h.tracked

/-- The task on top finishes. -/
theorem finish {f : Frame} {K : List Frame} (h : s.OnTrack) (hs : s.stack = f :: K)
    (subtasks : ∀ i, s.has (i :: f.task) → s.status (i :: f.task) ≠ .inactive) :
    Orderly (s.finish f.task) ∧ Tracked (s.finish f.task).status s.stack := by
  have tracked : Tracked s.status (f :: K) := hs ▸ h.tracked
  refine ⟨h.orderly.finish (tracked.started _ (.head _)) subtasks
    fun u hu hne => tracked.not_active_below hu hne, ?_⟩
  rw [hs]
  refine tracked.mono (fun u hu => ?_) fun u hu => ?_
  · rw [status_finish, Function.update_apply]
    split_ifs
    · simp
    · exact hu
  · rw [status_finish, Function.update_apply] at hu
    split_ifs at hu
    exact hu

/-- A subtask of the loop on top that is still INACTIVE is callable. -/
theorem callable_next {t : Pos} {i : ℕ} {c : Caller} {K : List Frame} (h : s.OnTrack)
    (hs : s.stack = .loop t i c :: K) (hi : i < (s.task t).subtasks)
    (inactive : s.status (i :: t) = .inactive) : s.callable (i :: t) := by
  have ht : s.has t := h.wellFormed.frames (.loop t i c) (hs ▸ .head _)
  have started : s.status t ≠ .inactive :=
    h.tracked.started t (hs ▸ .head _)
  have active : s.status t = .active := by
    rcases h.orderly.plain t with ht' | ht' | ht'
    · exact absurd ht' started
    · exact ht'
    · exact absurd inactive (h.orderly.children t ht' i (by simp [has, hi, ht]))
  exact (callable_iff _).2 ⟨inactive, (isActive_iff t).2 (h.orderly.upward t active)⟩

/-- The loop on top calls its next subtask. -/
theorem next {t : Pos} {i : ℕ} {c : Caller} {K : List Frame} (h : s.OnTrack)
    (hs : s.stack = .loop t i c :: K) (hi : i < (s.task t).subtasks) :
    Orderly (s.nextSubtask t i c K) ∧
      Tracked (s.nextSubtask t i c K).status (s.nextSubtask t i c K).stack := by
  have ht : s.has t := h.wellFormed.frames (.loop t i c) (hs ▸ .head _)
  have tracked : Tracked s.status (.loop t i c :: K) := hs ▸ h.tracked
  have looping : Orderly (s.looping t i c K) :=
    h.orderly.of_eq (status_looping ..) (has_looping ..) rfl
  have callable : (s.looping t i c K).callable (i :: t) = s.callable (i :: t) := by
    simp only [State.callable, parentActive, status_looping, isActive_congr (status_looping ..)]
  rw [nextSubtask_eq]
  refine ⟨looping.call (by rw [has_looping]; simp [has, hi, ht]), ?_⟩
  rw [status_call, stack_call, callable, status_looping, stack_looping]
  by_cases inactive : s.status (i :: t) = .inactive
  · rw [if_pos (h.callable_next hs hi inactive), if_pos (h.callable_next hs hi inactive)]
    exact (tracked.start (tracked.suffix_child i)).advance [.body (i :: t)] (by simp)
  · have idle : ¬ s.callable (i :: t) := fun hc => inactive ((callable_iff _).1 hc).1
    rw [if_neg idle, if_neg idle]
    exact tracked.advance [] inactive

/-- A tame step keeps the invariant. -/
theorem of_stepped {a : Action ε ν} (h : s.OnTrack) (ha : Tame s a) (hstep : Stepped s a s') :
    s'.OnTrack := by
  have wellFormed := h.wellFormed.of_stepped hstep
  suffices Orderly s' ∧ Tracked s'.status s'.stack from ⟨wellFormed, this.1, this.2⟩
  cases hstep with
  | run hs => exact h.call rfl (by simp [hs])
  | cancelFromUi => exact ha.elim
  | next hs hi => exact h.next hs hi
  | @done t i c K hs hi =>
    have tracked : Tracked s.status (.loop t i c :: K) := hs ▸ h.tracked
    obtain ⟨orderly, finished⟩ := h.finish hs fun j hj => by
      simp only [has, Bool.and_eq_true, decide_eq_true_eq] at hj
      exact tracked.passed t i c (.head _) j (by simp only [Frame.task] at hj; omega)
    refine ⟨orderly.of_eq rfl (has_congr fun _ => rfl) rfl, ?_⟩
    rw [hs] at finished
    refine finished.pop ?_
    rw [status_finish]
    simp
  | @addSubtask t K u r z hs hu =>
    have open_ : s.status u ≠ .completed := by
      rcases ha t K hs with ⟨rfl, hu⟩ | hu
      · exact hu
      · simp [hu]
    refine ⟨h.orderly.addSubtask open_, ?_⟩
    rw [h.orderly.status_addSubtask, stack_addSubtask]
    exact h.tracked
  | @call t K u hs hu =>
    obtain ⟨i, rfl⟩ := ha t K hs
    have tracked : Tracked s.status (.body t :: K) := hs ▸ h.tracked
    exact h.call hu (hs ▸ tracked.suffix_child i)
  | @setProgress t K u c z hs hu =>
    obtain rfl : u = t := ha t K hs
    refine ⟨h.orderly.of_eq (status_setProgress ..) (has_setProgress ..) (log_setProgress ..), ?_⟩
    rw [status_setProgress, stack_setProgress]
    split_ifs
    · rw [hs]
      exact Tracked.pushLoop (hs ▸ h.tracked) _
    · exact h.tracked
  | @finish t K u hs hu =>
    obtain ⟨rfl, subtasks⟩ := ha t K hs
    obtain ⟨orderly, finished⟩ := h.finish hs subtasks
    refine ⟨orderly.of_eq rfl (has_congr fun _ => rfl) rfl, ?_⟩
    rw [status_reply]
    exact (stack_finish (s := s) u).symm ▸ finished
  | @cancel t K u hs hu => exact (ha t K hs).elim
  | @ret t K v hs =>
    refine ⟨h.orderly.of_eq (status_functionReturned ..) (has_functionReturned ..) rfl, ?_⟩
    rw [status_functionReturned, stack_functionReturned]
    exact Tracked.returned (hs ▸ h.tracked)
  | @raise t K e hs => exact (ha t K hs).elim

/-- When no call is in progress, every task of a started tree is COMPLETED. -/
theorem completed (h : s.OnTrack) (hs : s.stack = []) (hr : s.status [] ≠ .inactive) {t : Pos}
    (ht : s.has t) : s.status t = .completed := by
  have idle : ∀ u, s.status u ≠ .active := by
    intro u hu
    obtain ⟨f, hf, -⟩ := h.tracked.calls u hu
    simp [hs] at hf
  have finished : ∀ u, s.status u ≠ .inactive → s.status u = .completed := by
    intro u hu
    rcases h.orderly.plain u with hu' | hu' | hu'
    · exact absurd hu' hu
    · exact absurd hu' (idle u)
    · exact hu'
  induction t with
  | nil => exact finished [] hr
  | cons i t ih =>
    have parent : s.has t := by
      simp only [has, Bool.and_eq_true] at ht
      exact ht.2
    exact finished _ (h.orderly.children t (ih parent) i ht)

/-- A started task has run once. -/
theorem starts_eq_one (h : s.OnTrack) {t : Pos} (ht : s.status t ≠ .inactive) :
    s.starts t = 1 := by
  have ran : 0 < s.starts t :=
    List.countP_pos_iff.2 ⟨_, h.orderly.ran t ht, by simp [Event.isRunning]⟩
  have once := h.wellFormed.once t
  omega

end State.OnTrack

/-- In a tame run no task is lost: when the call of the root has returned, every task of the tree is
COMPLETED and its function has run exactly once. -/
theorem tasks_completed {s₀ : State ε ν} (h₀ : Initial s₀) (h : Reaches State.step Tame s₀ s)
    (returned : s.stack = []) (started : s.status [] ≠ .inactive) (t : Pos) (ht : s.has t) :
    s.status t = .completed ∧ s.starts t = 1 := by
  have onTrack : s.OnTrack := h.invariant (.of_initial h₀)
    fun _ _ _ hi ha hs => hi.of_stepped ha (stepped_of_step hs)
  have completed := onTrack.completed returned started ht
  exact ⟨completed, onTrack.starts_eq_one (by simp [completed])⟩

/-- A function adds a subtask and reports its whole size: the subtask runs inside the report. -/
theorem tasks_completed_added_subtask :
    ∃ s, exec State.step (taskList true [(true, 1)] : State Unit Unit)
        [.run, .act (.ret none), .tick, .act (.addSubtask [0] true 1),
          .act (.setProgress [0] 1 none), .tick, .act (.ret none), .tick, .tick, .act (.ret none),
          .tick, .tick, .tick] = some s ∧
      s.has [0, 0] ∧ s.status [0, 0] = .completed ∧ s.starts [0, 0] = 1 := by
  refine ⟨_, rfl, by decide, ?_⟩
  have reached := reaches_of_exec (G := Tame) (show exec State.step
    (taskList true [(true, 1)] : State Unit Unit)
    [.run, .act (.ret none), .tick, .act (.addSubtask [0] true 1),
      .act (.setProgress [0] 1 none), .tick, .act (.ret none), .tick, .tick, .act (.ret none),
      .tick, .tick, .tick] = some _ from rfl)
    ⟨trivial, fun _ _ _ => trivial, trivial, fun t K hs => by cases hs; exact .inl ⟨rfl, by decide⟩,
      fun t K hs => by cases hs; rfl, trivial, fun _ _ _ => trivial, trivial, trivial,
      fun _ _ _ => trivial, trivial, trivial, trivial, trivial⟩
  exact tasks_completed (initial_taskList ..) reached (by decide) (by decide) [0, 0] (by decide)

end Ydfs.TaskList
