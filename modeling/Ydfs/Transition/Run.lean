import Mathlib.Data.Option.Basic
import Mathlib.Tactic.TypeStar

/-!
# Runs of partial transition functions

A system is given by `step : σ → α → Option σ`: in the state `s` the label `a` is refused (`none`)
or leads to a next state.  `Reaches step G s s'` says that `s'` is reached from `s` by a finite
run all of whose steps are allowed by the guard `G`; the trivial guard gives all runs (`Run`).  The
induction rule is stated once (`Reaches.invariant`), and `exec` runs a concrete list of labels.
-/

namespace Transition

variable {σ α : Type*} {step : σ → α → Option σ} {G H : σ → α → Prop} {s s' s'' : σ}

/-- `s'` is reached from `s` by steps that the guard `G` allows. -/
inductive Reaches (step : σ → α → Option σ) (G : σ → α → Prop) (s : σ) : σ → Prop
  | refl : Reaches step G s s
  | tail {s' s'' : σ} {a : α} :
      Reaches step G s s' → G s' a → step s' a = some s'' → Reaches step G s s''

/-- `s'` is reached from `s` by any steps. -/
abbrev Run (step : σ → α → Option σ) : σ → σ → Prop := Reaches step fun _ _ => True

theorem Reaches.trans (h : Reaches step G s s') (h' : Reaches step G s' s'') :
    Reaches step G s s'' := by
  induction h' with
  | refl => exact h
  | tail _ allowed taken ih => exact ih.tail allowed taken

theorem Reaches.mono (hGH : ∀ s a, G s a → H s a) (h : Reaches step G s s') :
    Reaches step H s s' := by
  induction h with
  | refl => exact .refl
  | tail _ allowed taken ih => exact ih.tail (hGH _ _ allowed) taken

/-- A guarded run is a run. -/
theorem Reaches.run (h : Reaches step G s s') : Run step s s' :=
  h.mono fun _ _ _ => trivial

/-- A property that holds at the start and that every allowed step keeps holds at the end. -/
theorem Reaches.invariant {I : σ → Prop} (h : Reaches step G s s') (start : I s)
    (keeps : ∀ t a t', I t → G t a → step t a = some t' → I t') : I s' := by
  induction h with
  | refl => exact start
  | tail _ allowed taken ih => exact keeps _ _ _ ih allowed taken

/-- Execute the labels in order; `none` when one of them is refused. -/
def exec (step : σ → α → Option σ) : σ → List α → Option σ
  | s, [] => some s
  | s, a :: as => (step s a).bind fun s' => exec step s' as

@[simp]
theorem exec_nil : exec step s [] = some s := rfl

theorem exec_cons (a : α) (as : List α) :
    exec step s (a :: as) = (step s a).bind fun s' => exec step s' as := rfl

/-- What `exec` computes is reached by a run. -/
theorem run_of_exec {as : List α} (h : exec step s as = some s') : Run step s s' := by
  induction as generalizing s with
  | nil => obtain rfl := Option.some.inj h; exact .refl
  | cons a as ih =>
    rw [exec_cons, Option.bind_eq_some_iff] at h
    obtain ⟨s₁, taken, rest⟩ := h
    exact (Reaches.tail .refl trivial taken).trans (ih rest)

/-- Every label of the execution is allowed at the state it is taken in. -/
def Allowed (step : σ → α → Option σ) (G : σ → α → Prop) : σ → List α → Prop
  | _, [] => True
  | s, a :: as => G s a ∧ match step s a with
    | some s' => Allowed step G s' as
    | none => True

instance Allowed.decidable [∀ s a, Decidable (G s a)] :
    (s : σ) → (as : List α) → Decidable (Allowed step G s as)
  | _, [] => isTrue trivial
  | s, a :: as =>
    have : Decidable (match step s a with
        | some s' => Allowed step G s' as
        | none => True) :=
      match step s a with
      | some s' => Allowed.decidable s' as
      | none => isTrue trivial
    instDecidableAnd

theorem reaches_of_exec {as : List α} (h : exec step s as = some s')
    (allowed : Allowed step G s as) : Reaches step G s s' := by
  induction as generalizing s with
  | nil => obtain rfl := Option.some.inj h; exact .refl
  | cons a as ih =>
    rw [exec_cons, Option.bind_eq_some_iff] at h
    obtain ⟨s₁, taken, rest⟩ := h
    obtain ⟨allowed, allowed'⟩ := allowed
    simp only [taken] at allowed'
    exact (Reaches.tail .refl allowed taken).trans (ih rest allowed')

end Transition
