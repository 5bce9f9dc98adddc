import Mathlib.Data.List.Basic
import Ydfs.Transition.Run

/-!
# Programs whose operations may fail

A program is a computation with a state and exceptions (`EStateM`); what it has changed before it
raises stays changed.  Which of its operations succeed is given by a function `ok` on their names, so
that a failure is an input like any other.  A queue runs programs one after another, each with what
it has asked to be run next, until one raises.
-/

namespace Transition

variable {σ α β ω : Type}

/-- A program that may raise. -/
abbrev Fallible (σ α : Type) := EStateM Unit σ α

namespace Fallible

/-- Raise. -/
def raise : Fallible σ α := throw ()

/-- An operation that raises when it fails. -/
def op (ok : ω → Bool) (o : ω) : Fallible σ Unit := if ok o then pure () else raise

/-- Some operations, one after another. -/
def ops (ok : ω → Bool) : List ω → Fallible σ Unit
  | [] => pure ()
  | o :: os => do
    op ok o
    ops ok os

/-- A test that gives `false` when it fails. -/
def probe (ok : ω → Bool) (o : ω) (b : σ → Bool) : Fallible σ Bool :=
  fun s => .ok (ok o && b s) s

/-- The state in which a program ends, whether it raises or not. -/
def after (m : Fallible σ α) (s : σ) : σ :=
  match m.run s with
  | .ok _ s' => s'
  | .error _ s' => s'

/-- The program ends without raising. -/
def Returns (m : Fallible σ α) (s : σ) : Prop := ∃ a s', m.run s = .ok a s'

variable {ok : ω → Bool} {m : Fallible σ α} {f : α → Fallible σ β} {s s' : σ}

@[simp]
theorem run_raise (s : σ) : (raise : Fallible σ α).run s = .error () s := rfl

@[simp]
theorem run_op (o : ω) (s : σ) :
    (op ok o : Fallible σ Unit).run s = if ok o then .ok () s else .error () s := by
  unfold op
  split_ifs <;> rfl

@[simp]
theorem run_ops (os : List ω) (s : σ) :
    (ops ok os : Fallible σ Unit).run s =
      if ∀ o ∈ os, ok o = true then .ok () s else .error () s := by
  induction os with
  | nil => simp [ops]
  | cons o os ih =>
    rw [ops, EStateM.run_bind, run_op]
    by_cases ho : ok o = true
    · simp [ho, ih]
    · simp [ho]

@[simp]
theorem run_probe (o : ω) (b : σ → Bool) (s : σ) :
    (probe ok o b).run s = .ok (ok o && b s) s := rfl

@[simp]
theorem run_tryCatch (m : Fallible σ α) (h : Unit → Fallible σ α) (s : σ) :
    (tryCatch m h : Fallible σ α).run s = match m.run s with
      | .ok a s' => .ok a s'
      | .error e s' => (h e).run s' := by
  show EStateM.tryCatch m h s = _
  unfold EStateM.tryCatch EStateM.run
  cases m s <;> rfl

theorem after_bind (m : Fallible σ α) (f : α → Fallible σ β) (s : σ) :
    after (m >>= f) s = match m.run s with
      | .ok a s' => after (f a) s'
      | .error _ s' => s' := by
  unfold after
  rw [EStateM.run_bind]
  cases m.run s <;> rfl

@[simp]
theorem after_pure (a : α) (s : σ) : after (pure a : Fallible σ α) s = s := rfl

theorem after_of_run {a : α} (h : m.run s = .ok a s') : after m s = s' := by
  unfold after
  rw [h]

theorem after_of_raise (h : m.run s = .error () s') : after m s = s' := by
  unfold after
  rw [h]

/-- An operation before a program. -/
theorem after_op_bind (o : ω) (f : Unit → Fallible σ β) (s : σ) :
    after (op ok o >>= f) s = if ok o then after (f ()) s else s := by
  rw [after_bind, run_op]
  split_ifs <;> rfl

theorem after_ops_bind (os : List ω) (f : Unit → Fallible σ β) (s : σ) :
    after (ops ok os >>= f) s = if ∀ o ∈ os, ok o = true then after (f ()) s else s := by
  rw [after_bind, run_ops]
  split_ifs <;> rfl

/-- What follows without a change of the state does not matter. -/
theorem after_bind_of_keeps (m : Fallible σ α) (hf : ∀ a s, after (f a) s = s) (s : σ) :
    after (m >>= f) s = after m s := by
  rw [after_bind]
  unfold after at hf ⊢
  cases m.run s with
  | ok a s' => exact hf a s'
  | error e s' => rfl

theorem after_op (o : ω) (s : σ) : after (op ok o) s = s := by
  unfold after
  rw [run_op]
  split_ifs <;> rfl

/-- Failures that are not let through. -/
theorem after_tryCatch_pure (m : Fallible σ Unit) (s : σ) :
    after (tryCatch m fun _ => pure ()) s = after m s := by
  unfold after
  rw [run_tryCatch]
  cases m.run s <;> rfl

/-! ## What a program leaves unchanged -/

/-- The program does not change `f`, whether it raises or not. -/
def Keeps {γ : Type} (f : σ → γ) (m : Fallible σ α) : Prop := ∀ s, f (after m s) = f s

section Keeps

variable {γ : Type} {g : σ → γ}

theorem keeps_pure (a : α) : Keeps g (pure a : Fallible σ α) := fun _ => rfl

theorem keeps_raise : Keeps g (raise : Fallible σ α) := fun _ => rfl

theorem keeps_op (o : ω) : Keeps g (op ok o) := fun s => congrArg g (after_op o s)

theorem keeps_probe (o : ω) (b : σ → Bool) : Keeps g (probe ok o b) := fun _ => rfl

theorem keeps_get : Keeps g (get : Fallible σ σ) := fun _ => rfl

theorem keeps_modify {h : σ → σ} (hh : ∀ s, g (h s) = g s) : Keeps g (modify h : Fallible σ Unit) :=
  fun s => hh s

theorem Keeps.bind (hm : Keeps g m) (hf : ∀ a, Keeps g (f a)) : Keeps g (m >>= f) := by
  intro s
  have kept := hm s
  rw [after_bind]
  unfold after at kept
  cases hr : m.run s with
  | ok a s' =>
    rw [hr] at kept
    exact (hf a s').trans kept
  | error e s' =>
    rw [hr] at kept
    exact kept

theorem Keeps.ite {c : Prop} [Decidable c] {m' : Fallible σ α} (h : c → Keeps g m)
    (h' : ¬ c → Keeps g m') : Keeps g (if c then m else m') := by
  split_ifs with hc
  · exact h hc
  · exact h' hc

theorem keeps_ops (os : List ω) : Keeps g (ops ok os) := by
  induction os with
  | nil => exact keeps_pure ()
  | cons o os ih => exact (keeps_op o).bind fun _ => ih

theorem keeps_forM {τ : Type} {l : List τ} {h : τ → Fallible σ Unit} (hh : ∀ t, Keeps g (h t)) :
    Keeps g (l.forM h) := by
  induction l with
  | nil => exact keeps_pure ()
  | cons t l ih => exact (hh t).bind fun _ => ih

end Keeps

end Fallible

/-- Programs to be run one after another, and the state. -/
structure Queue (τ σ : Type) where
  todo : List τ
  state : σ

namespace Queue

variable {τ : Type}

/-- Run the next program, which gives what is to be run before the others; if it raises, the others
are not run. -/
def next (run : τ → Fallible σ (List τ)) : Queue τ σ → Option (Queue τ σ)
  | ⟨[], _⟩ => none
  | ⟨t :: ts, s⟩ => match (run t).run s with
    | .ok more s' => some ⟨more ++ ts, s'⟩
    | .error _ s' => some ⟨[], s'⟩

variable {run : τ → Fallible σ (List τ)} {q q' : Queue τ σ}

/-- A queue that goes on has run its first program. -/
theorem of_next (h : q.next run = some q') : ∃ t ts, q.todo = t :: ts ∧
    ((∃ more, (run t).run q.state = .ok more q'.state ∧ q'.todo = more ++ ts) ∨
      (run t).run q.state = .error () q'.state ∧ q'.todo = []) := by
  obtain ⟨todo, s⟩ := q
  cases todo with
  | nil => cases h
  | cons t ts =>
    refine ⟨t, ts, rfl, ?_⟩
    unfold next at h
    dsimp only at h ⊢
    cases hr : (run t).run s with
    | ok more s' =>
      rw [hr] at h
      obtain rfl := Option.some.inj h
      exact .inl ⟨more, rfl, rfl⟩
    | error e s' =>
      rw [hr] at h
      obtain rfl := Option.some.inj h
      exact .inr ⟨rfl, rfl⟩

/-- The state of a queue that goes on is the one in which its first program ends. -/
theorem state_of_next (h : q.next run = some q') :
    ∃ t ts, q.todo = t :: ts ∧ q'.state = Fallible.after (run t) q.state := by
  obtain ⟨t, ts, todo, ⟨more, hr, -⟩ | ⟨hr, -⟩⟩ := of_next h
  · exact ⟨t, ts, todo, (Fallible.after_of_run hr).symm⟩
  · exact ⟨t, ts, todo, (Fallible.after_of_raise hr).symm⟩

end Queue

end Transition
