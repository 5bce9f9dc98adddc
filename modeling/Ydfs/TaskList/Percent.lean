import Ydfs.Arithmetic.Rounding
import Ydfs.TaskList.Machine

/-!
# The percentages of a task

`get_percent_completed` and `get_percent_of_tasks_completed` add up what is completed, and the weights
or the number of the tasks, over a task and all that is below it, in floating point numbers.  They stay
between 0 and 1 as long as no task has completed more than its size.  `set_progress` stores what it is
told, and `finish` does not repair the number of a task that has been finished before.
-/

namespace Ydfs.TaskList

open Rounded

/-! ### The model of the source -/

/-- What Python may raise while it adds up a tree: the limit of recursion is reached with
`RuntimeError`. -/
inductive PythonError where
  | zeroDivisionError
  | runtimeError
deriving DecidableEq

/-- The weights of the tasks, and whether `completed` and `size` of a task are both an `int`. -/
structure Attributes where
  weight : Pos → ℚ
  weight_nonneg : ∀ p, 0 ≤ weight p
  integral : Pos → Bool

variable {ε ν : Type}

section Percent

variable (r : Rounding) (attributes : Attributes) (s : State ε ν)

/-- The operator `/`. -/
def divide (x y : ℚ) : Except PythonError ℚ :=
  if y = 0 then .error .zeroDivisionError else .ok (x / y)

/-- A sum over a task and all that is below it, with a limit of recursion. -/
def collect (own : Pos → Except PythonError ℚ) : ℕ → Pos → Except PythonError ℚ
  | 0, _ => .error .runtimeError
  | limit + 1, p => do
    let subtasks ← (List.range (s.task p).subtasks).mapM fun i => collect own limit (i :: p)
    let x ← own p
    return r.round (x + r.sum subtasks)

/-- `_get_completed` -/
def getCompleted : ℕ → Pos → Except PythonError ℚ :=
  collect r s fun p => .ok (r.round ((s.task p).completed * attributes.weight p))

/-- `_get_weight` -/
def getWeight : ℕ → Pos → Except PythonError ℚ :=
  collect r s fun p => .ok (r.round ((s.task p).size * attributes.weight p))

/-- `count_subtasks` -/
def countSubtasks : ℕ → Pos → Except PythonError ℚ := collect r s fun _ => .ok 1

/-- `count_completed_subtasks`; the quotient of two `int` is rounded down. -/
def countCompletedSubtasks : ℕ → Pos → Except PythonError ℚ :=
  collect r s fun p =>
    if (s.task p).size ≠ 0 then do
      let quotient ← divide (s.task p).completed (s.task p).size
      return r.round (if attributes.integral p then ⌊quotient⌋ else quotient)
    else .ok (r.round (s.task p).completed)

/-- A part of a whole, which is added up first. -/
def share (part whole : Except PythonError ℚ) : Except PythonError ℚ := do
  let whole ← whole
  if whole ≠ 0 then do
    let part ← part
    let quotient ← divide part whole
    return r.round quotient
  else return 0

/-- `get_percent_completed` -/
def getPercentCompleted (limit : ℕ) (p : Pos) : Except PythonError ℚ :=
  share r (getCompleted r attributes s limit p) (getWeight r attributes s limit p)

/-- `get_percent_of_tasks_completed` -/
def getPercentOfTasksCompleted (limit : ℕ) (p : Pos) : Except PythonError ℚ :=
  share r (countCompletedSubtasks r attributes s limit p) (countSubtasks r s limit p)

end Percent

/-! ### Sums over a tree -/

variable {r : Rounding} {attributes : Attributes} {s : State ε ν} {p : Pos} {limit : ℕ}

/-- Lists of numbers that are computed one after the other. -/
theorem mapM_below {α : Type} {f g : α → Except PythonError ℚ} {l : List α}
    (h : ∀ a ∈ l, ∃ x y, f a = .ok x ∧ g a = .ok y ∧ 0 ≤ x ∧ x ≤ y) :
    ∃ xs ys, l.mapM f = .ok xs ∧ l.mapM g = .ok ys ∧ Rounding.Below xs ys := by
  induction l with
  | nil => exact ⟨[], [], rfl, rfl, .nil⟩
  | cons a l ih =>
    obtain ⟨x, y, hf, hg, nonneg, le⟩ := h a (List.mem_cons_self ..)
    obtain ⟨xs, ys, hfs, hgs, below⟩ := ih fun b hb => h b (List.mem_cons_of_mem _ hb)
    refine ⟨x :: xs, y :: ys, ?_, ?_, .cons ⟨nonneg, le⟩ below⟩
    · rw [List.mapM_cons, hf, hfs]
      rfl
    · rw [List.mapM_cons, hg, hgs]
      rfl

/-- The tasks of a tree are above a depth. -/
def Above (s : State ε ν) (depth : ℕ) : Prop := ∀ p, s.has p → p.length < depth

/-- If each task adds less to one sum than to another, the one is less than the other. -/
theorem collect_le {own own' : Pos → ℚ} (h : ∀ p, 0 ≤ own p ∧ own p ≤ own' p) {depth : ℕ}
    (above : Above s depth) (has : s.has p) (enough : depth ≤ p.length + limit) :
    ∃ x y, collect r s (fun p => .ok (own p)) limit p = .ok x ∧
      collect r s (fun p => .ok (own' p)) limit p = .ok y ∧ 0 ≤ x ∧ x ≤ y := by
  induction limit generalizing p with
  | zero =>
    have lt := above p has
    omega
  | succ limit ih =>
    have subtasks : ∀ i ∈ List.range (s.task p).subtasks, ∃ x y,
        collect r s (fun p => .ok (own p)) limit (i :: p) = .ok x ∧
          collect r s (fun p => .ok (own' p)) limit (i :: p) = .ok y ∧ 0 ≤ x ∧ x ≤ y := by
      intro i mem
      have there : s.has (i :: p) := by
        simp only [State.has, Bool.and_eq_true, decide_eq_true_eq]
        exact ⟨List.mem_range.1 mem, has⟩
      exact ih there (by rw [List.length_cons]; omega)
    obtain ⟨xs, ys, hxs, hys, below⟩ := mapM_below subtasks
    obtain ⟨nonneg, le⟩ := r.sum_mono below
    refine ⟨r.round (own p + r.sum xs), r.round (own' p + r.sum ys), ?_, ?_, ?_, ?_⟩
    · rw [collect, hxs]
      rfl
    · rw [collect, hys]
      rfl
    · exact r.nonneg (add_nonneg (h p).1 nonneg)
    · exact r.mono (add_le_add (h p).2 le)

/-! ### Both percentages -/

/-- No task has completed less than nothing or more than its size. -/
def Within (s : State ε ν) : Prop := ∀ p, 0 ≤ (s.task p).completed ∧ (s.task p).completed ≤ (s.task p).size

/-- A number between 0 and 1. -/
def IsPercent (f : Except PythonError ℚ) : Prop := ∃ x, f = .ok x ∧ 0 ≤ x ∧ x ≤ 1

/-- With a sufficient limit of recursion both percentages of every task are between 0 and 1, and
nothing is divided by 0, in whatever way the numbers are rounded. -/
def InRange (s : State ε ν) : Prop :=
  ∀ (r : Rounding) (attributes : Attributes) (p : Pos), s.has p → ∃ enough, ∀ limit ≥ enough,
    IsPercent (getPercentCompleted r attributes s limit p) ∧
      IsPercent (getPercentOfTasksCompleted r attributes s limit p)

/-- The part of a task that is completed. -/
def completedPart (attributes : Attributes) (x : Task ε ν) (p : Pos) : ℚ :=
  if x.size ≠ 0 then
    if attributes.integral p then ⌊x.completed / x.size⌋ else x.completed / x.size
  else x.completed

theorem countCompletedSubtasks_eq (r : Rounding) (attributes : Attributes) (s : State ε ν) :
    countCompletedSubtasks r attributes s =
      collect r s fun p => .ok (r.round (completedPart attributes (s.task p) p)) := by
  unfold countCompletedSubtasks
  congr 1
  funext p
  unfold completedPart divide
  by_cases some_ : (s.task p).size = 0
  · simp [some_]
  · simp only [ne_eq, some_, not_false_eq_true, if_true, if_false]
    rfl

theorem completedPart_mem (within : Within s) (attributes : Attributes) (p : Pos) :
    0 ≤ completedPart attributes (s.task p) p ∧ completedPart attributes (s.task p) p ≤ 1 := by
  obtain ⟨nonneg, le⟩ := within p
  have size := nonneg.trans le
  have part := div_nonneg nonneg size
  have part' := div_le_one_of_le₀ le size
  unfold completedPart
  split_ifs with some_ whole
  · exact ⟨by exact_mod_cast Int.floor_nonneg.2 part, (Int.floor_le _).trans part'⟩
  · exact ⟨part, part'⟩
  · rw [not_not.1 some_] at le
    exact ⟨nonneg, le.trans zero_le_one⟩

/-- The part is less than the whole, and a whole that is 0 divides nothing. -/
theorem isPercent_share (r : Rounding) {x y : ℚ} (nonneg : 0 ≤ x) (le : x ≤ y) :
    IsPercent (share r (.ok x) (.ok y)) := by
  by_cases none : y = 0
  · refine ⟨0, ?_, le_rfl, zero_le_one⟩
    show (if y ≠ 0 then _ else Except.ok 0) = Except.ok 0
    rw [if_neg (not_not.2 none)]
  · obtain ⟨least, most⟩ := r.quotient_mem nonneg le
    refine ⟨r.round (x / y), ?_, least, most⟩
    show (if y ≠ 0 then divide x y >>= fun quotient => Except.ok (r.round quotient) else _) = _
    rw [if_pos none, divide, if_neg none]
    rfl

/-- What is completed is less than the weights. -/
theorem isPercent_getPercentCompleted (within : Within s) (r : Rounding) (attributes : Attributes)
    {depth : ℕ} (above : Above s depth) (has : s.has p) (enough : depth ≤ p.length + limit) :
    IsPercent (getPercentCompleted r attributes s limit p) := by
  have parts (q : Pos) : 0 ≤ r.round ((s.task q).completed * attributes.weight q) ∧
      r.round ((s.task q).completed * attributes.weight q) ≤
        r.round ((s.task q).size * attributes.weight q) :=
    ⟨r.nonneg (mul_nonneg (within q).1 (attributes.weight_nonneg q)),
      r.mono (mul_le_mul_of_nonneg_right (within q).2 (attributes.weight_nonneg q))⟩
  obtain ⟨x, y, completed, weight, nonneg, le⟩ := collect_le (r := r) parts above has enough
  rw [getPercentCompleted, getCompleted, getWeight, completed, weight]
  exact isPercent_share r nonneg le

/-- At most as many tasks are completed as there are. -/
theorem isPercent_getPercentOfTasksCompleted (within : Within s) (r : Rounding)
    (attributes : Attributes) {depth : ℕ} (above : Above s depth) (has : s.has p)
    (enough : depth ≤ p.length + limit) :
    IsPercent (getPercentOfTasksCompleted r attributes s limit p) := by
  have parts (q : Pos) : 0 ≤ r.round (completedPart attributes (s.task q) q) ∧
      r.round (completedPart attributes (s.task q) q) ≤ 1 := by
    obtain ⟨nonneg, le⟩ := completedPart_mem within attributes q
    exact ⟨r.nonneg nonneg, r.le_one le⟩
  obtain ⟨x, y, completed, count, nonneg, le⟩ := collect_le (r := r) parts above has enough
  rw [getPercentOfTasksCompleted, countCompletedSubtasks_eq, countSubtasks, completed, count]
  exact isPercent_share r nonneg le

theorem inRange_of_within (within : Within s) {depth : ℕ} (above : Above s depth) : InRange s := by
  intro r attributes p has
  refine ⟨depth, fun limit enough => ⟨?_, ?_⟩⟩
  · exact isPercent_getPercentCompleted within r attributes above has (by omega)
  · exact isPercent_getPercentOfTasksCompleted within r attributes above has (by omega)

/-! ### A task without subtasks -/

theorem collect_leaf {own : Pos → Except PythonError ℚ} {x : ℚ}
    (leaf : (s.task p).subtasks = 0) (is : own p = .ok x) :
    collect .exact s own (limit + 1) p = .ok x := by
  rw [collect, leaf, List.range_zero, List.mapM_nil, is]
  show Except.ok (x + 0) = Except.ok x
  rw [add_zero]

/-- Without rounding, and with weight 1, its percentage is what is completed of its size. -/
theorem getPercentCompleted_leaf (leaf : (s.task p).subtasks = 0) (size : (s.task p).size ≠ 0)
    (weight : attributes.weight p = 1) :
    getPercentCompleted .exact attributes s (limit + 1) p =
      .ok ((s.task p).completed / (s.task p).size) := by
  have one (x : ℚ) : Rounding.exact.round (x * attributes.weight p) = x := by
    rw [weight, mul_one]
    rfl
  have completed : getCompleted .exact attributes s (limit + 1) p = .ok (s.task p).completed :=
    collect_leaf leaf (congrArg _ (one _))
  have whole : getWeight .exact attributes s (limit + 1) p = .ok (s.task p).size :=
    collect_leaf leaf (congrArg _ (one _))
  rw [getPercentCompleted, completed, whole]
  show (if (s.task p).size ≠ 0 then
    divide (s.task p).completed (s.task p).size >>= fun quotient => Except.ok quotient else _) = _
  rw [if_pos size, divide, if_neg size]
  rfl

end Ydfs.TaskList
