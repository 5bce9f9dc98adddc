import Mathlib.Data.Option.Basic
import Ydfs.TaskList.Script

/-!
# Scripts in a live tree

Once the root is cancelled, a script starts no subtask any more and the tree stays cancelled.  So
what a script does without an exception is given by `live`: its result, whether its task is still
ACTIVE, and the world, or `none` when it raises or a required subtask raises on the way.  `live`
is computed by equations, one for each operation (`live_bind`, `live_call`, …).
-/

namespace Ydfs.TaskList.Script

variable {σ ε ν α β : Type}

/-- In a cancelled tree a script leaves the tree cancelled. -/
theorem parents_eval (p : Script σ ε ν α) {tree : TreeView ε} (w : σ) (h : tree.parents = false) :
    (p.eval tree w).tree.parents = false := by
  induction p generalizing tree w with
  | pure a => exact h
  | raise e => exact h
  | get k ih => exact ih w w h
  | set v k ih => exact ih v h
  | subtask r body k _ ih =>
    simp only [eval, h, Bool.false_and, Bool.false_eq_true, if_false]
    exact ih none w h
  | finish k ih => exact ih w h

/-- Only a required subtask that raises changes the error of the root, and it cancels the root. -/
theorem error_eval (p : Script σ ε ν α) (tree : TreeView ε) (w : σ)
    (h : (p.eval tree w).tree.parents = true) : (p.eval tree w).tree.error = tree.error := by
  induction p generalizing tree w with
  | pure a => rfl
  | raise e => rfl
  | get k ih => exact ih w tree w h
  | set v k ih => exact ih tree v h
  | subtask r body k ihbody ih =>
    simp only [eval] at h ⊢
    split_ifs at h ⊢ with hc
    · set o := body.eval (enter tree) w
      have alive : (leave r o.result o.tree).parents = true := by
        by_contra dead
        have := parents_eval (k (value o.result)) o.world (by simpa using dead)
        simp [h] at this
      rw [ih _ _ _ h]
      have inner : o.tree.parents = true ∧ (leave r o.result o.tree).error = o.tree.error := by
        unfold leave at alive ⊢
        split at alive
        · cases alive
        · exact ⟨alive, rfl⟩
      rw [inner.2]
      exact ihbody _ w inner.1
    · exact ih none tree w h
  | finish k ih => exact ih _ w h

/-- What a script gives when all ancestors of its task are ACTIVE, if nothing is raised that ends
it or cancels the root. -/
def live (p : Script σ ε ν α) (own : Bool) (w : σ) : Option (α × Bool × σ) :=
  match p.eval { own } w with
  | ⟨.ok a, tree, w'⟩ => if tree.parents then some (a, tree.own, w') else none
  | ⟨.error _, _, _⟩ => none

theorem live_eq_some {p : Script σ ε ν α} {own own' : Bool} {a : α} {w w' : σ} :
    p.live own w = some (a, own', w') ↔ p.eval { own } w = ⟨.ok a, { own := own' }, w'⟩ := by
  have error := error_eval p { own } w
  unfold live
  generalize p.eval { own } w = o at error ⊢
  rcases o with ⟨r | r, ⟨parents, own'', error'⟩, w''⟩
  · simp
  · cases parents with
    | false => simp
    | true => simp_all

@[simp]
theorem live_pure (a : α) (own : Bool) (w : σ) :
    (Pure.pure a : Script σ ε ν α).live own w = some (a, own, w) := rfl

@[simp]
theorem live_raise (e : ε) (own : Bool) (w : σ) :
    (raise e : Script σ ε ν α).live own w = none := rfl

@[simp]
theorem live_world (own : Bool) (w : σ) : (world : Script σ ε ν σ).live own w = some (w, own, w) :=
  rfl

@[simp]
theorem live_state (f : σ → α × σ) (own : Bool) (w : σ) :
    (state f : Script σ ε ν α).live own w = some ((f w).1, own, (f w).2) := rfl

@[simp]
theorem live_modify (f : σ → σ) (own : Bool) (w : σ) :
    (modify f : Script σ ε ν Unit).live own w = some ((), own, f w) := rfl

@[simp]
theorem live_finish (k : Script σ ε ν α) (own : Bool) (w : σ) :
    (finish k).live own w = k.live false w := rfl

theorem live_bind (p : Script σ ε ν α) (f : α → Script σ ε ν β) (own : Bool) (w : σ) :
    (p >>= f).live own w = (p.live own w).bind fun (a, own', w') => (f a).live own' w' := by
  have error := error_eval p { own } w
  have dead : ∀ a tree w', tree.parents = false → ((f a).eval tree w').tree.parents = false :=
    fun a _ w' h => parents_eval (f a) w' h
  rw [live, live, eval_bind]
  generalize p.eval { own } w = o at error ⊢
  rcases o with ⟨r | a, ⟨parents, own', error'⟩, w'⟩
  · rfl
  · cases parents with
    | false =>
      have dead := dead a ⟨false, own', error'⟩ w' rfl
      simp only [Bool.false_eq_true, if_false, Option.bind_none]
      split
      · rename_i h
        simp only [h] at dead
        simp [dead]
      · rfl
    | true =>
      obtain rfl : error' = none := error rfl
      rfl

/-- The call of a required subtask. -/
theorem live_call (body : Script σ ε ν (Option ν)) (w : σ) :
    (call true body).live true w = (body.live true w).map fun (v, _, w') => (v, true, w') := by
  rw [live, live]
  simp only [call, eval, Bool.and_self, if_true, enter]
  rcases body.eval {} w with ⟨r | v, ⟨parents, own', error'⟩, w'⟩
  · rfl
  · cases parents <;> rfl

/-- The call of an optional subtask whose function does not raise. -/
theorem live_call_optional {body : Script σ ε ν (Option ν)} {v : Option ν} {own : Bool} {w w' : σ}
    (h : body.live true w = some (v, own, w')) :
    (call false body).live true w = some (v, true, w') := by
  rw [live_eq_some] at h ⊢
  simp only [call, eval, Bool.and_self, if_true, enter, h]
  rfl

/-- The call of an optional subtask whose function raises. -/
theorem live_call_raised {body : Script σ ε ν (Option ν)} {e : ε} {own : Bool} {w w' : σ}
    (h : body.eval {} w = ⟨.error e, { own }, w'⟩) :
    (call false body).live true w = some (none, true, w') := by
  rw [live_eq_some]
  simp only [call, eval, Bool.and_self, if_true, enter, h]
  rfl

theorem live_zoom {τ : Type} (part : Part σ τ) (p : Script τ ε ν α) (own : Bool) (w : σ) :
    (p.zoom part).live own w =
      (p.live own (part.get w)).map fun (a, own', x) => (a, own', part.put x w) := by
  unfold live
  rw [eval_zoom]
  rcases p.eval { own } (part.get w) with ⟨r | a, ⟨parents, own', error'⟩, w'⟩
  · rfl
  · cases parents <;> rfl

/-! ## Scripts without subtasks -/

/-- The script does not touch the tree. -/
def Plain (p : Script σ ε ν α) : Prop := ∀ tree w, (p.eval tree w).tree = tree

namespace Plain

theorem pure (a : α) : Plain (Pure.pure a : Script σ ε ν α) := fun _ _ => rfl

theorem raise (e : ε) : Plain (.raise e : Script σ ε ν α) := fun _ _ => rfl

theorem world : Plain (.world : Script σ ε ν σ) := fun _ _ => rfl

theorem state (f : σ → α × σ) : Plain (.state f : Script σ ε ν α) := fun _ _ => rfl

theorem modify (f : σ → σ) : Plain (.modify f : Script σ ε ν Unit) := fun _ _ => rfl

theorem bind {p : Script σ ε ν α} {q : α → Script σ ε ν β} (hp : Plain p) (hq : ∀ a, Plain (q a)) :
    Plain (p >>= q) := by
  intro tree w
  rw [eval_bind]
  cases (p.eval tree w).result with
  | ok a => exact (hq a _ _).trans (hp tree w)
  | error e => exact hp tree w

/-- A script without subtasks goes on with ACTIVE tasks. -/
theorem own_live {p : Script σ ε ν α} {own own' : Bool} {w w' : σ} {a : α} (hp : Plain p)
    (h : p.live own w = some (a, own', w')) : own' = own := by
  have same := hp { own } w
  rw [live_eq_some.1 h] at same
  exact congrArg TreeView.own same

end Plain

/-! ## What a script keeps -/

/-- The script does not change `f` of the world. -/
def Keeps {τ : Type} (f : σ → τ) (p : Script σ ε ν α) : Prop :=
  ∀ tree w, f (p.eval tree w).world = f w

namespace Keeps

variable {τ : Type} {f : σ → τ}

theorem pure (a : α) : Keeps f (Pure.pure a : Script σ ε ν α) := fun _ _ => rfl

theorem raise (e : ε) : Keeps f (.raise e : Script σ ε ν α) := fun _ _ => rfl

theorem world : Keeps f (.world : Script σ ε ν σ) := fun _ _ => rfl

theorem state {g : σ → α × σ} (h : ∀ w, f (g w).2 = f w) : Keeps f (.state g : Script σ ε ν α) :=
  fun _ w => h w

theorem modify {g : σ → σ} (h : ∀ w, f (g w) = f w) : Keeps f (.modify g : Script σ ε ν Unit) :=
  fun _ w => h w

theorem finish {p : Script σ ε ν α} (hp : Keeps f p) : Keeps f (.finish p) :=
  fun tree w => hp { tree with own := false } w

theorem bind {p : Script σ ε ν α} {q : α → Script σ ε ν β} (hp : Keeps f p)
    (hq : ∀ a, Keeps f (q a)) : Keeps f (p >>= q) := by
  intro tree w
  rw [eval_bind]
  cases (p.eval tree w).result with
  | ok a => exact (hq a _ _).trans (hp tree w)
  | error e => exact hp tree w

theorem call {body : Script σ ε ν (Option ν)} (isRequired : Bool) (h : Keeps f body) :
    Keeps f (call isRequired body) := by
  intro tree w
  simp only [Script.call, eval]
  split_ifs
  · exact h (enter tree) w
  · rfl

theorem live {p : Script σ ε ν α} {own own' : Bool} {w w' : σ} {a : α} (hp : Keeps f p)
    (h : p.live own w = some (a, own', w')) : f w' = f w := by
  have same := hp { own } w
  rwa [live_eq_some.1 h] at same

end Keeps

end Ydfs.TaskList.Script
