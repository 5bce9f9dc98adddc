import Ydfs.TaskList.Percent
import Ydfs.TaskList.Progress
import Ydfs.Wubi.Utils

/-!
# Progress within the size

In every run in which `set_progress` is told of no more than the size, and no size is set below what is
completed, the percentages of all tasks stay between 0 and 1.  `get_file_hash` and `copy_file` set the
size to the whole MiB of a file and tell of every MiB that has been begun: for a file with a rest they
go on when their task is finished already.  `download` tells of whole KiB both times.
-/

namespace Ydfs.TaskList

open Transition Rounded Wubi

variable {ε ν : Type} {s s' : State ε ν} {t u p : Pos} {x : Task ε ν} {K : List Frame}

/-! ### The machine with sizes -/

/-- A step of the task list, or an assignment to the size of a task. -/
inductive Move (ε ν : Type) where
  | action (a : Action ε ν)
  | assignSize (u : Pos) (size : ℚ)

/-- The function on top of the stack assigns to `size`. -/
def State.assignSize (s : State ε ν) (u : Pos) (size : ℚ) : State ε ν :=
  s.setTask u { s.task u with size := size }

def State.move (s : State ε ν) : Move ε ν → Option (State ε ν)
  | .action a => s.step a
  | .assignSize u size =>
    match s.stack with
    | .body _ :: _ => if s.has u then some (s.assignSize u size) else none
    | _ => none

/-- What is told to a task that is not cancelled is between 0 and its size, which may be told with it;
a size is not set below what is completed, and a new task has a size that is not negative. -/
def InBounds (s : State ε ν) : Move ε ν → Prop
  | .action (.act (.setProgress u completed size)) =>
    s.isCancelled u = true ∨ 0 ≤ completed ∧ completed ≤ s.newSize u size
  | .action (.act (.addSubtask _ _ size)) => 0 ≤ size
  | .assignSize u size => (s.task u).completed ≤ size
  | _ => True

/-- A finite tree before its root is run. -/
structure Untouched (s : State ε ν) : Prop extends Initial s where
  completed : ∀ p, (s.task p).completed = 0
  size : ∀ p, 0 ≤ (s.task p).size
  finite : ∃ depth, Above s depth

/-! ### One step -/

namespace Within

theorem setTask (h : Within s) (hx : 0 ≤ x.completed ∧ x.completed ≤ x.size) :
    Within (s.setTask t x) := by
  intro p
  simp only [State.setTask, Function.update_apply]
  split_ifs
  · exact hx
  · exact h p

theorem finish (h : Within s) (t : Pos) : Within (s.finish t) := by
  unfold State.finish
  split_ifs
  · exact h
  · exact h.setTask ⟨(h t).1.trans (h t).2, le_rfl⟩

theorem cancel (h : Within s) (t : Pos) : Within (s.cancel t) := h.setTask (h t)

theorem call (h : Within s) (t : Pos) : Within (s.call t) := by
  unfold State.call
  split_ifs
  · exact h.setTask (h t)
  · exact h

theorem addSubtask (h : Within s) (u : Pos) (r : Bool) {size : ℚ} (nonneg : 0 ≤ size) :
    Within (s.addSubtask u r size) := by
  have grown : Within (s.setTask u { s.task u with subtasks := (s.task u).subtasks + 1 }) :=
    h.setTask (h u)
  have fresh : 0 ≤ ({ isRequired := r, size } : Task ε ν).completed ∧
      ({ isRequired := r, size } : Task ε ν).completed ≤ ({ isRequired := r, size } : Task ε ν).size :=
    ⟨le_rfl, nonneg⟩
  exact grown.setTask fresh

theorem setProgress (h : Within s) (u : Pos) (c : ℚ) (z : Option ℚ)
    (bounds : s.isCancelled u = true ∨ 0 ≤ c ∧ c ≤ s.newSize u z) : Within (s.setProgress u c z) := by
  unfold State.setProgress
  split_ifs with cancelled
  · exact h
  · exact h.setTask (bounds.resolve_left cancelled)
  · exact h.setTask (bounds.resolve_left cancelled)

theorem functionReturned (h : Within s) (t : Pos) (K : List Frame) (v : Option ν) :
    Within (s.functionReturned t K v) := h.setTask (h t)

theorem functionRaised (h : Within s) (t : Pos) (K : List Frame) (e : ε) :
    Within (s.functionRaised t K e) := by
  have failed : Within (s.markFailed t e) := h.setTask (h t)
  cases required : (s.task t).isRequired with
  | true =>
    rw [State.functionRaised_required K e required]
    have root : Within ((s.markFailed t e).setRootError e) := failed.setTask (failed [])
    exact root.cancel []
  | false =>
    rw [State.functionRaised_optional K e required]
    exact failed.functionReturned t K none

theorem nextSubtask (h : Within s) (t : Pos) (i : ℕ) (c : Caller) (K : List Frame) :
    Within (s.nextSubtask t i c K) :=
  call (s := s.looping t i c K) (h.setTask (h t)) (i :: t)

/-- A step that is in bounds. -/
theorem stepped {a : Action ε ν} (h : Within s) (stepped : Stepped s a s')
    (bounds : InBounds s (.action a)) : Within s' := by
  cases stepped with
  | run => exact h.call []
  | cancelFromUi => exact h.cancel []
  | @next t i c K => exact h.nextSubtask t i c K
  | @done t => exact h.finish t
  | addSubtask u r z => exact h.addSubtask u r bounds
  | call u => exact h.call u
  | setProgress u c z => exact h.setProgress u c z bounds
  | finish u => exact h.finish u
  | cancel u => exact h.cancel u
  | @ret t K v => exact h.functionReturned t K v
  | @raise t K e => exact h.functionRaised t K e

end Within

/-! ### The depth of the tree -/

/-- `add_subtask` adds one task to the tree. -/
theorem has_of_addSubtask {r : Bool} {z : ℚ} (h : (s.addSubtask u r z).has p) :
    s.has p ∨ p = (s.task u).subtasks :: u := by
  induction p with
  | nil => exact .inl rfl
  | cons i p ih =>
    simp only [State.has, Bool.and_eq_true, decide_eq_true_eq] at h ⊢
    rcases ih h.2 with has | rfl
    · have more := h.1
      rw [State.subtasks_addSubtask has] at more
      split_ifs at more with here
      · subst here
        rcases Nat.lt_succ_iff_lt_or_eq.1 more with before | rfl
        · exact .inl ⟨before, has⟩
        · exact .inr rfl
      · exact .inl ⟨more, has⟩
    · -- the new task has no subtasks
      have none := h.1
      simp [State.addSubtask, State.setTask] at none

theorem Above.of_has {depth : ℕ} (h : Above s depth) (same : s'.has = s.has) : Above s' depth := by
  intro p has
  exact h p (same ▸ has)

/-- The tree stays finite. -/
theorem Above.stepped {a : Action ε ν} {depth : ℕ} (h : Above s depth) (stepped : Stepped s a s') :
    ∃ depth', Above s' depth' := by
  cases stepped with
  | run => exact ⟨depth, h.of_has (State.has_call [])⟩
  | cancelFromUi => exact ⟨depth, h.of_has (State.has_cancel [])⟩
  | @next t i c K =>
    refine ⟨depth, h.of_has ?_⟩
    rw [State.nextSubtask_eq, State.has_call, State.has_looping]
  | @done t i c K =>
    have same : (s.loopDone t c K).has = (s.finish t).has := State.has_congr fun _ => rfl
    exact ⟨depth, h.of_has (same.trans (State.has_finish t))⟩
  | @addSubtask t K u r z stack has =>
    refine ⟨depth + 1, fun p there => ?_⟩
    rcases has_of_addSubtask there with old | rfl
    · exact Nat.lt_succ_of_lt (h p old)
    · have parent := h u has
      rw [List.length_cons]
      omega
  | call u => exact ⟨depth, h.of_has (State.has_call u)⟩
  | setProgress u c z => exact ⟨depth, h.of_has (State.has_setProgress u c z)⟩
  | finish u =>
    have same : ({ s.finish u with reply := .none } : State ε ν).has = (s.finish u).has :=
      State.has_congr fun _ => rfl
    exact ⟨depth, h.of_has (same.trans (State.has_finish u))⟩
  | cancel u =>
    have same : ({ s.cancel u with reply := .none } : State ε ν).has = (s.cancel u).has :=
      State.has_congr fun _ => rfl
    exact ⟨depth, h.of_has (same.trans (State.has_cancel u))⟩
  | @ret t K v => exact ⟨depth, h.of_has (State.has_functionReturned t K v)⟩
  | @raise t K e => exact ⟨depth, h.of_has (State.has_functionRaised t K e)⟩

/-! ### Runs -/

/-- What every state of a run in bounds satisfies. -/
def Kept (s : State ε ν) : Prop := Within s ∧ ∃ depth, Above s depth

theorem Kept.of_untouched (start : Untouched s) : Kept s := by
  refine ⟨fun p => ?_, start.finite⟩
  rw [start.completed]
  exact ⟨le_rfl, start.size p⟩

theorem Kept.moved {a : Move ε ν} (h : Kept s) (bounds : InBounds s a) (taken : s.move a = some s') :
    Kept s' := by
  obtain ⟨within, depth, above⟩ := h
  cases a with
  | action a =>
    have stepped := stepped_of_step taken
    exact ⟨within.stepped stepped bounds, above.stepped stepped⟩
  | assignSize u size =>
    rw [State.move] at taken
    split at taken
    · split_ifs at taken
      obtain rfl := Option.some.inj taken
      exact ⟨within.setTask ⟨(within u).1, bounds⟩, depth, above.of_has (State.has_of_update rfl rfl)⟩
    · cases taken

/-- In every run in bounds the percentages stay in their range. -/
theorem inRange_of_inBounds (start : Untouched s) (run : Reaches State.move InBounds s s') :
    InRange s' := by
  obtain ⟨within, depth, above⟩ :=
    run.invariant (Kept.of_untouched start) fun _ _ _ kept bounds taken => kept.moved bounds taken
  exact inRange_of_within within above

/-! ### The functions that tell of progress -/

open Wubi.Utils (Call mebibyte mebibyte_pos pieceCount hashCalls copyCalls progress)

/-- What `download` tells its task about a file of `length` bytes, with the amounts that the grabber
reports. -/
def downloadCalls (length : ℕ) (amounts : List ℕ) : List Call :=
  [.unit "KB", .size (length / 1024), .setProgress 0, .setProgress 0] ++
    amounts.map (fun amountRead => .setProgress (amountRead / 1024)) ++ [.finish]

/-- The function of a task: `get_file_hash` of a file of `length` bytes, `copy_file` of a source of
which so many pieces are read, `download`, or one that tells of no progress. -/
inductive Job where
  | hash (length : ℕ)
  | copy (fileSize reads : ℕ)
  | download (length : ℕ) (amounts : List ℕ)
  | other

def Job.calls : Job → List Call
  | hash length => hashCalls length
  | copy fileSize reads => copyCalls fileSize reads
  | download length amounts => downloadCalls length amounts
  | other => []

/-- The steps of a tree of such tasks.  A function sets the size of a task of which nothing is
completed, and tells of progress after that; a task may be added, called, finished and cancelled at any
time. -/
def Issued (job : Pos → Job) (s : State ε ν) : Move ε ν → Prop
  | .action (.act (.setProgress u completed size)) =>
    size = none ∧ ∃ k z : ℕ, completed = k ∧ .setProgress k ∈ (job u).calls ∧
      .size z ∈ (job u).calls ∧ (s.task u).size = z
  | .action (.act (.addSubtask _ _ size)) => 0 ≤ size
  | .assignSize u size =>
    (∃ z : ℕ, size = z ∧ .size z ∈ (job u).calls) ∧ (s.task u).completed = 0
  | _ => True

/-- A file that is hashed has whole MiB, no more is copied than the whole MiB of the source, and no more
KiB are downloaded than the length has. -/
def Job.Fits : Job → Prop
  | hash length => mebibyte ∣ length
  | copy fileSize reads => reads ≤ fileSize / mebibyte
  | download length amounts => ∀ amountRead ∈ amounts, amountRead / 1024 ≤ length / 1024
  | other => True

/-- The input of the function that tells of progress fits. -/
def Fitting (job : Pos → Job) : Move ε ν → Prop
  | .action (.act (.setProgress u _ _)) => (job u).Fits
  | _ => True

/-- A file that is read in pieces of one MiB has no piece that is not full. -/
theorem pieceCount_le_iff (n : ℕ) : pieceCount n ≤ n / mebibyte ↔ mebibyte ∣ n := by
  have pos := mebibyte_pos
  have split := Nat.div_add_mod n mebibyte
  have rest := Nat.mod_lt n pos
  rw [Nat.dvd_iff_mod_eq_zero, pieceCount]
  constructor
  · intro le
    by_contra some_
    have more : n / mebibyte + 1 ≤ (n + mebibyte - 1) / mebibyte := by
      rw [Nat.le_div_iff_mul_le pos, Nat.add_mul, Nat.one_mul, Nat.mul_comm]
      omega
    omega
  · intro none
    rw [← Nat.lt_succ_iff, Nat.div_lt_iff_lt_mul pos, Nat.succ_mul, Nat.mul_comm]
    omega

theorem setProgress_mem_progress {k dataRead n : ℕ} :
    .setProgress k ∈ progress dataRead n ↔ dataRead < k ∧ k ≤ dataRead + n := by
  simp only [progress, List.mem_map, Call.setProgress.injEq, exists_eq_right, List.mem_range'_1]
  omega

theorem size_not_mem_progress {z dataRead n : ℕ} : .size z ∉ progress dataRead n := by
  simp [progress]

/-- The pieces from 1 to `n` do not exceed the size `m`. -/
theorem pieces_le_iff (n m : ℕ) :
    (∀ k z, 0 < k ∧ k ≤ 0 + n → z = m → k ≤ z) ↔ n ≤ m := by
  constructor
  · intro le
    by_cases none : n = 0
    · omega
    · exact le n m (by omega) rfl
  · rintro le k _ pieces rfl
    omega

/-- The input fits exactly if no progress is told of that exceeds the size. -/
theorem Job.fits_iff (job : Job) :
    job.Fits ↔ ∀ k z, .setProgress k ∈ job.calls → .size z ∈ job.calls → k ≤ z := by
  cases job with
  | hash length =>
    simp only [Fits, calls, hashCalls, List.mem_append, List.mem_cons, List.not_mem_nil,
      setProgress_mem_progress, size_not_mem_progress, reduceCtorEq, false_or, or_false,
      Call.size.injEq]
    rw [pieces_le_iff, pieceCount_le_iff]
  | copy fileSize reads =>
    simp only [Fits, calls, copyCalls, List.mem_append, List.mem_cons, List.not_mem_nil,
      setProgress_mem_progress, size_not_mem_progress, reduceCtorEq, false_or, or_false,
      Call.size.injEq]
    rw [pieces_le_iff]
  | download length amounts =>
    simp only [Fits, calls, downloadCalls, List.mem_append, List.mem_cons, List.mem_map,
      List.not_mem_nil, reduceCtorEq, false_or, or_false, Call.size.injEq, Call.setProgress.injEq,
      and_false, exists_false]
    constructor
    · rintro le k _ ((rfl | rfl) | ⟨amount, mem, rfl⟩) rfl
      · exact Nat.zero_le _
      · exact Nat.zero_le _
      · exact le amount mem
    · intro le amount mem
      exact le _ _ (.inr ⟨amount, mem, rfl⟩) rfl
  | other => simp [Fits, calls]

/-- With inputs that fit, the functions keep in bounds. -/
theorem inBounds_of_issued {job : Pos → Job} {a : Move ε ν} (issued : Issued job s a)
    (fitting : Fitting job a) : InBounds s a := by
  cases a with
  | assignSize u size =>
    obtain ⟨⟨z, rfl, -⟩, fresh⟩ := issued
    show (s.task u).completed ≤ (z : ℚ)
    rw [fresh]
    exact Nat.cast_nonneg z
  | action a =>
    cases a with
    | run | cancelFromUi | tick => trivial
    | act op =>
      cases op with
      | setProgress u completed size =>
        obtain ⟨rfl, k, z, rfl, told, sized, is⟩ := issued
        refine .inr ⟨Nat.cast_nonneg k, ?_⟩
        show (k : ℚ) ≤ (s.task u).size
        rw [is]
        exact Nat.cast_le.2 ((job u).fits_iff.1 fitting k z told sized)
      | addSubtask u r size => exact issued
      | call | finish | cancel | ret | raise => trivial

/-- In every run in bounds, and so in every run of functions that tell of progress and whose inputs
fit, the percentages of all tasks are between 0 and 1. -/
theorem progress_stays_in_range (start : Untouched s) :
    (∀ s', Reaches State.move InBounds s s' → InRange s') ∧
      ∀ (job : Pos → Job) (s' : State ε ν),
        Reaches State.move (fun s a => Issued job s a ∧ Fitting job a) s s' → InRange s' := by
  constructor
  · intro s' run
    exact inRange_of_inBounds start run
  · intro job s' run
    apply inRange_of_inBounds start
    exact run.mono fun _ _ ⟨issued, fitting⟩ => inBounds_of_issued issued fitting

theorem untouched_taskList (threaded : Bool) (tasks : List (Bool × ℚ))
    (nonneg : ∀ x ∈ tasks, 0 ≤ x.2) : Untouched (taskList threaded tasks : State ε ν) where
  toInitial := initial_taskList threaded tasks
  completed := by
    rintro (_ | ⟨i, _ | ⟨j, p⟩⟩)
    · rfl
    · simp only [taskList]
      split <;> rfl
    · rfl
  size := by
    rintro (_ | ⟨i, _ | ⟨j, p⟩⟩)
    · exact zero_le_one
    · simp only [taskList]
      split
      · rename_i is
        exact nonneg _ (List.mem_of_getElem? is)
      · exact zero_le_one
    · exact zero_le_one
  finite := by
    refine ⟨2, ?_⟩
    rintro (_ | ⟨i, _ | ⟨j, p⟩⟩) has
    · decide
    · simp
    · have leaf : ((taskList threaded tasks : State ε ν).task (j :: p)).subtasks = 0 := by
        cases p with
        | nil =>
          simp only [taskList]
          split <;> rfl
        | cons k p => rfl
      simp [State.has, leaf] at has

/-- The job of the first task is to hash a file of `length` bytes. -/
def hashing (length : ℕ) : Pos → Job
  | [0] => .hash length
  | _ => .other

/-- A list with one task. -/
def oneTask : State Unit Unit := taskList true [(true, 1)]

theorem untouched_oneTask : Untouched oneTask := untouched_taskList true _ (by simp)

/-- The function of the task tells that its size is 1 MiB, and that the first MiB has been read. -/
def firstPiece : List (Move Unit Unit) :=
  [.action .run, .action (.act (.ret none)), .action .tick, .assignSize [0] 1,
    .action (.act (.setProgress [0] 1 none)), .action .tick]

/-- A file of 1 MiB. -/
theorem progress_stays_in_range_first_piece :
    ∃ s, exec State.move oneTask firstPiece = some s ∧ InRange s := by
  refine ⟨_, rfl, ?_⟩
  obtain ⟨-, issued⟩ := progress_stays_in_range untouched_oneTask
  have told : .setProgress 1 ∈ hashCalls mebibyte := by decide
  have sized : .size 1 ∈ hashCalls mebibyte := by decide
  apply issued (hashing mebibyte)
  refine reaches_of_exec (show exec State.move oneTask firstPiece = some _ from rfl) ?_
  exact ⟨⟨trivial, trivial⟩, ⟨trivial, trivial⟩, ⟨trivial, trivial⟩,
    ⟨⟨⟨1, by norm_num, sized⟩, rfl⟩, trivial⟩,
    ⟨⟨rfl, 1, 1, by norm_num, told, sized, rfl⟩, dvd_refl mebibyte⟩, ⟨trivial, trivial⟩, trivial⟩

/-- After 1 MiB of a file of 1.5 MiB the task is finished, and the rest is told as a second MiB. -/
theorem not_progress_stays_in_range :
    ¬ ∀ (s s' : State Unit Unit) (job : Pos → Job), Untouched s →
      Reaches State.move (Issued job) s s' → InRange s' := by
  intro stays
  let length := mebibyte + mebibyte / 2
  have first : .setProgress 1 ∈ hashCalls length := by decide
  have second : .setProgress 2 ∈ hashCalls length := by decide
  have sized : .size 1 ∈ hashCalls length := by decide
  obtain ⟨s, taken, completed, size, leaf, has⟩ : ∃ s, exec State.move oneTask
      (firstPiece ++ [.action (.act (.setProgress [0] 2 none))]) = some s ∧
        (s.task [0]).completed = 2 ∧ (s.task [0]).size = 1 ∧ (s.task [0]).subtasks = 0 ∧
        s.has [0] = true :=
    ⟨_, rfl, rfl, rfl, rfl, rfl⟩
  have reached : Reaches State.move (Issued (hashing length)) oneTask s := by
    refine reaches_of_exec taken ?_
    exact ⟨trivial, trivial, trivial, ⟨⟨1, by norm_num, sized⟩, rfl⟩,
      ⟨rfl, 1, 1, by norm_num, first, sized, rfl⟩, trivial,
      ⟨rfl, 2, 1, by norm_num, second, sized, rfl⟩, trivial⟩
  let attributes : Attributes := ⟨fun _ => 1, fun _ => zero_le_one, fun _ => true⟩
  obtain ⟨enough, percent⟩ := stays oneTask s _ untouched_oneTask reached .exact attributes [0] has
  obtain ⟨⟨x, is, -, le⟩, -⟩ := percent (enough + 1) (Nat.le_succ enough)
  rw [getPercentCompleted_leaf leaf (by rw [size]; exact one_ne_zero) rfl, completed, size] at is
  obtain rfl := Except.ok.inj is
  norm_num at le

end Ydfs.TaskList
