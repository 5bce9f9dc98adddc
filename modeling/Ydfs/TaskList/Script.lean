import Mathlib.Tactic.TypeStar
import Ydfs.TaskList.Starts

/-!
# Associated functions as scripts

The functions that run under a task list are written in a small language: read and change a world of
their own, raise, `finish` the own task, and add a subtask and call it at once.  `eval` is the
meaning of a script in a tree that is otherwise left alone: a call returns `None` when the subtask
is not callable or its function raises, and a required subtask that raises cancels the root.
-/

namespace Ydfs.TaskList

/-- An associated function, or a part of one with a result in `α`. -/
inductive Script (σ ε ν : Type) : Type → Type 1 where
  | pure {α : Type} (a : α) : Script σ ε ν α
  | raise {α : Type} (e : ε) : Script σ ε ν α
  | get {α : Type} (k : σ → Script σ ε ν α) : Script σ ε ν α
  | set {α : Type} (w : σ) (k : Script σ ε ν α) : Script σ ε ν α
  | subtask {α : Type} (isRequired : Bool) (body : Script σ ε ν (Option ν))
      (k : Option ν → Script σ ε ν α) : Script σ ε ν α
  | finish {α : Type} (k : Script σ ε ν α) : Script σ ε ν α

/-- What the scripts of a tree depend on: the ancestors of the task are ACTIVE, the task itself is,
and the error of the root. -/
structure TreeView (ε : Type) where
  parents : Bool := true
  own : Bool := true
  error : Option ε := none

/-- What a script leaves behind. -/
structure Outcome (σ ε α : Type) where
  result : Except ε α
  tree : TreeView ε
  world : σ

namespace Script

variable {σ ε ν α β : Type}

/-- First one script, then another that depends on its result. -/
def bind : Script σ ε ν α → (α → Script σ ε ν β) → Script σ ε ν β
  | pure a, f => f a
  | raise e, _ => raise e
  | get k, f => get fun w => (k w).bind f
  | set w k, f => set w (k.bind f)
  | subtask r body k, f => subtask r body fun v => (k v).bind f
  | finish k, f => finish (k.bind f)

instance : Monad (Script σ ε ν) where
  pure := pure
  bind := bind

/-- The world. -/
def world : Script σ ε ν σ := get pure

/-- A function of the world that also changes it. -/
def state (f : σ → α × σ) : Script σ ε ν α := get fun w => set (f w).2 (pure (f w).1)

/-- Change the world. -/
def modify (f : σ → σ) : Script σ ε ν Unit := get fun w => set (f w) (pure ())

/-- `add_subtask` of a function, and the call of the new task. -/
def call (isRequired : Bool) (body : Script σ ε ν (Option ν)) : Script σ ε ν (Option ν) :=
  subtask isRequired body pure

/-- The tree as a subtask finds it that has just been started. -/
def enter (tree : TreeView ε) : TreeView ε := { error := tree.error }

/-- What the caller of a subtask gets: the result of its function, or `None` when it has raised. -/
def value : Except ε (Option ν) → Option ν
  | .ok v => v
  | .error _ => none

/-- The tree after a subtask whose function has ended with `r` in `tree`. -/
def leave (isRequired : Bool) (r : Except ε (Option ν)) (tree : TreeView ε) : TreeView ε :=
  match r, isRequired with
  | .error e, true => { parents := false, error := some e }
  | _, _ => { parents := tree.parents, error := tree.error }

/-- A subtask does not touch the status of the task that has called it. -/
theorem leave_own (isRequired : Bool) (r : Except ε (Option ν)) (tree : TreeView ε) :
    { parents := (leave isRequired r tree).parents, error := (leave isRequired r tree).error } =
      leave isRequired r tree := by
  unfold leave
  split <;> rfl

/-- The meaning of a script. -/
def eval : {α : Type} → Script σ ε ν α → TreeView ε → σ → Outcome σ ε α
  | _, pure a, tree, w => ⟨.ok a, tree, w⟩
  | _, raise e, tree, w => ⟨.error e, tree, w⟩
  | _, get k, tree, w => (k w).eval tree w
  | _, set w k, tree, _ => k.eval tree w
  | _, subtask isRequired body k, tree, w =>
    if tree.parents && tree.own then
      let o := body.eval (enter tree) w
      (k (value o.result)).eval (leave isRequired o.result o.tree) o.world
    else (k none).eval tree w
  | _, finish k, tree, w => k.eval { tree with own := false } w

theorem eval_bind (p : Script σ ε ν α) (f : α → Script σ ε ν β) (tree : TreeView ε) (w : σ) :
    (p >>= f).eval tree w =
      match (p.eval tree w).result with
      | .ok a => (f a).eval (p.eval tree w).tree (p.eval tree w).world
      | .error e => ⟨.error e, (p.eval tree w).tree, (p.eval tree w).world⟩ := by
  change (p.bind f).eval tree w = _
  induction p generalizing tree w with
  | pure a => rfl
  | raise e => rfl
  | get k ih => exact ih w f tree w
  | set v k ih => exact ih f tree v
  | subtask r body k _ ih =>
    simp only [bind, eval]
    split_ifs
    · exact ih _ f _ _
    · exact ih none f tree w
  | finish k ih => exact ih f _ w

/-- A call in a live tree. -/
theorem eval_call (isRequired : Bool) (body : Script σ ε ν (Option ν)) (error : Option ε) (w : σ) :
    (call isRequired body).eval { error } w =
      ⟨.ok (value (body.eval { error } w).result),
        leave isRequired (body.eval { error } w).result (body.eval { error } w).tree,
        (body.eval { error } w).world⟩ := rfl

/-- A script that returns goes on after its first part. -/
theorem eval_bind_ok {p : Script σ ε ν α} {f : α → Script σ ε ν β} {tree : TreeView ε} {w : σ} {b : β}
    (h : ((p >>= f).eval tree w).result = .ok b) :
    ∃ a, (p.eval tree w).result = .ok a ∧
      (p >>= f).eval tree w = (f a).eval (p.eval tree w).tree (p.eval tree w).world := by
  rw [eval_bind] at h ⊢
  cases hp : (p.eval tree w).result with
  | ok a => exact ⟨a, rfl, rfl⟩
  | error e => simp [hp] at h

/-! ## Scripts on a part of the world -/

/-- A part of the world that is read and replaced independently of the rest. -/
structure Part (σ τ : Type) where
  get : σ → τ
  put : τ → σ → σ
  get_put : ∀ x w, get (put x w) = x
  put_put : ∀ x y w, put x (put y w) = put x w
  put_get : ∀ w, put (get w) w = w

variable {τ : Type}

/-- Run a script on a part of the world. -/
def zoom (part : Part σ τ) : {α : Type} → Script τ ε ν α → Script σ ε ν α
  | _, pure a => pure a
  | _, raise e => raise e
  | _, get k => get fun w => (k (part.get w)).zoom part
  | _, set x k => get fun w => set (part.put x w) (k.zoom part)
  | _, subtask r body k => subtask r (body.zoom part) fun v => (k v).zoom part
  | _, finish k => finish (k.zoom part)

/-- The rest of the world does not matter, and stays as it is. -/
theorem eval_zoom (part : Part σ τ) (p : Script τ ε ν α) (tree : TreeView ε) (w : σ) :
    (p.zoom part).eval tree w =
      ⟨(p.eval tree (part.get w)).result, (p.eval tree (part.get w)).tree,
        part.put (p.eval tree (part.get w)).world w⟩ := by
  induction p generalizing tree w with
  | pure a => simp only [zoom, eval, part.put_get]
  | raise e => simp only [zoom, eval, part.put_get]
  | get k ih => exact ih _ tree w
  | set x k ih => simp only [zoom, eval, ih, part.get_put, part.put_put]
  | subtask r body k ihbody ih =>
    simp only [zoom, eval]
    split_ifs
    · simp only [ihbody, ih, part.get_put, part.put_put]
    · exact ih none tree w
  | finish k ih => exact ih _ w

end Script

end Ydfs.TaskList
