import Mathlib.Order.WellFounded
import Mathlib.Tactic.TypeStar

/-!
# Recursive loops over a shared state

A procedure enters a state, loops over the words it finds there, and in each iteration either goes
on (`skip`) or calls itself (`call`), all on one state that the levels of the recursion share.
`eval` runs it with a bound on the depth of the recursion.  Two rules are proved once for all such
procedures: a call terminates exactly when the calls it makes are well-founded
(`terminates_iff_acc`), and a contract of pre-, postcondition and loop invariant holds of every call
that returns (`Contract.returns`) and at every point of its loop (`Contract.passes`).
-/

namespace Transition

/-- What an iteration does: go on with a state, or make a nested call in a state. -/
inductive Visit (σ : Type*) where
  | skip (s : σ)
  | call (s : σ)

/-- A procedure that loops over words and may call itself in each iteration. -/
structure LoopProgram (σ ω : Type*) where
  enter : σ → σ
  words : σ → List ω
  visit : σ → ω → Visit σ
  leave : σ → σ

namespace LoopProgram

variable {σ ω : Type*} (p : LoopProgram σ ω) {s s' t r : σ} {n m : ℕ} {l l₁ l₂ : List ω} {w : ω}

/-- The loop, with `call` for the nested calls. -/
def forEach (call : σ → Option σ) : List ω → σ → Option σ
  | [], s => some s
  | w :: l, s =>
    match p.visit s w with
    | .skip s' => forEach call l s'
    | .call s' => (call s').bind fun r => forEach call l r

/-- The procedure, with at most `n` nested levels. -/
def eval : ℕ → σ → Option σ
  | 0, _ => none
  | n + 1, s => (p.forEach (eval n) (p.words (p.enter s)) (p.enter s)).map p.leave

/-- The call in `s` returns the state `r`. -/
def Returns (s r : σ) : Prop := ∃ n, p.eval n s = some r

/-- The call in `s` returns. -/
def Terminates (s : σ) : Prop := ∃ n, (p.eval n s).isSome

/-- The loop over `l` leads from `s` to `t`. -/
def Passes (l : List ω) (s t : σ) : Prop := ∃ n, p.forEach (p.eval n) l s = some t

/-- The call in `s` makes the nested call in `s'`. -/
def Calls (s s' : σ) : Prop :=
  ∃ l w l' t, p.words (p.enter s) = l ++ w :: l' ∧ p.Passes l (p.enter s) t ∧
    p.visit t w = .call s'

variable {p}

theorem forEach_append (c : σ → Option σ) :
    p.forEach c (l₁ ++ l₂) s = (p.forEach c l₁ s).bind fun t => p.forEach c l₂ t := by
  induction l₁ generalizing s with
  | nil => rfl
  | cons w l₁ ih =>
    simp only [List.cons_append, forEach]
    cases p.visit s w with
    | skip s' => exact ih
    | call s' =>
      simp only [Option.bind_assoc]
      exact congrArg _ (funext fun r => ih)

theorem forEach_mono {c d : σ → Option σ} (h : ∀ s r, c s = some r → d s = some r)
    (hl : p.forEach c l s = some t) : p.forEach d l s = some t := by
  induction l generalizing s with
  | nil => exact hl
  | cons w l ih =>
    simp only [forEach] at hl ⊢
    cases hv : p.visit s w with
    | skip s' =>
      rw [hv] at hl
      exact ih hl
    | call s' =>
      simp only [hv, Option.bind_eq_some_iff] at hl ⊢
      obtain ⟨r, hr, hl⟩ := hl
      exact ⟨r, h s' r hr, ih hl⟩

/-- More fuel does not change the result. -/
theorem eval_mono (hnm : n ≤ m) (h : p.eval n s = some r) : p.eval m s = some r := by
  induction n generalizing m s r with
  | zero => cases h
  | succ n ih =>
    obtain ⟨m, rfl⟩ : ∃ k, m = k + 1 := ⟨m - 1, by omega⟩
    simp only [eval, Option.map_eq_some_iff] at h ⊢
    obtain ⟨t, ht, hr⟩ := h
    exact ⟨t, forEach_mono (fun _ _ => ih (by omega)) ht, hr⟩

theorem forEach_eval_mono (hnm : n ≤ m) (h : p.forEach (p.eval n) l s = some t) :
    p.forEach (p.eval m) l s = some t :=
  forEach_mono (fun _ _ => eval_mono hnm) h

theorem Passes.nil : p.Passes [] s s := ⟨0, rfl⟩

theorem Passes.append (h : p.Passes l₁ s s') (h' : p.Passes l₂ s' t) : p.Passes (l₁ ++ l₂) s t := by
  obtain ⟨n, hn⟩ := h
  obtain ⟨m, hm⟩ := h'
  refine ⟨max n m, ?_⟩
  rw [forEach_append, forEach_eval_mono (le_max_left n m) hn]
  exact forEach_eval_mono (le_max_right n m) hm

theorem Passes.of_skip (h : p.visit s w = .skip t) : p.Passes [w] s t :=
  ⟨0, by simp [forEach, h]⟩

theorem Passes.of_call (h : p.visit s w = .call s') (hr : p.Returns s' r) : p.Passes [w] s r := by
  obtain ⟨n, hn⟩ := hr
  exact ⟨n, by simp [forEach, h, hn]⟩

theorem Passes.unique (h : p.Passes l s t) (h' : p.Passes l s s') : t = s' := by
  obtain ⟨n, hn⟩ := h
  obtain ⟨m, hm⟩ := h'
  have hn := forEach_eval_mono (le_max_left n m) hn
  exact Option.some.inj (hn.symm.trans (forEach_eval_mono (le_max_right n m) hm))

theorem terminates_iff_returns : p.Terminates s ↔ ∃ r, p.Returns s r := by
  simp only [Terminates, Returns, Option.isSome_iff_exists]
  exact exists_comm

/-- The calls that a terminating call makes terminate, with less fuel. -/
theorem isSome_eval_of_calls (h : (p.eval (n + 1) s).isSome) (hc : p.Calls s s') :
    (p.eval n s').isSome := by
  obtain ⟨l, w, l', t, hl, passes, hv⟩ := hc
  simp only [eval, Option.isSome_map, hl, forEach_append] at h
  obtain ⟨t', ht'⟩ := Option.isSome_iff_exists.1 h
  obtain ⟨u, hu, rest⟩ := Option.bind_eq_some_iff.1 ht'
  obtain rfl := passes.unique ⟨n, hu⟩
  simp only [forEach, hv, Option.bind_eq_some_iff] at rest
  obtain ⟨r, hr, -⟩ := rest
  simp [hr]

theorem acc_of_isSome (h : (p.eval n s).isSome) : Acc (fun a b => p.Calls b a) s := by
  induction n generalizing s with
  | zero => cases h
  | succ n ih => exact ⟨s, fun s' hc => ih (isSome_eval_of_calls h hc)⟩

/-- The loop of `s` passes when all calls that it makes terminate. -/
theorem passes_of_calls (h : ∀ s', p.Calls s s' → p.Terminates s') (l : List ω) {l₁ : List ω}
    (hl : p.words (p.enter s) = l₁ ++ l) (passed : p.Passes l₁ (p.enter s) t) :
    ∃ r, p.Passes l t r := by
  induction l generalizing l₁ t with
  | nil => exact ⟨t, .nil⟩
  | cons w l ih =>
    have next : ∀ u, p.Passes [w] t u → ∃ r, p.Passes (w :: l) t r := by
      intro u hu
      obtain ⟨r, hr⟩ := ih (hl.trans (List.append_cons ..)) (passed.append hu)
      exact ⟨r, hu.append hr⟩
    cases hv : p.visit t w with
    | skip u => exact next u (.of_skip hv)
    | call s' =>
      obtain ⟨r, hr⟩ := terminates_iff_returns.1 (h s' ⟨l₁, w, l, t, hl, passed, hv⟩)
      exact next r (.of_call hv hr)

/-- A call terminates exactly when the calls it makes are well-founded. -/
theorem terminates_iff_acc : p.Terminates s ↔ Acc (fun a b => p.Calls b a) s := by
  refine ⟨fun ⟨_, h⟩ => acc_of_isSome h, fun h => ?_⟩
  induction h with
  | intro s _ ih =>
    obtain ⟨r, n, hn⟩ := passes_of_calls (fun s' hc => ih s' hc) _ rfl .nil
    exact ⟨n + 1, by simp [eval, hn]⟩

/-- A precondition, a postcondition and a loop invariant, over the state the loop started in and the
words it has passed. -/
structure Contract (p : LoopProgram σ ω) (Pre Post : σ → Prop) (Inv : σ → List ω → σ → Prop) :
    Prop where
  start : ∀ s, Pre s → Inv (p.enter s) [] (p.enter s)
  skip : ∀ e l t w t', Inv e l t → p.visit t w = .skip t' → Inv e (l ++ [w]) t'
  call : ∀ e l t w s', Inv e l t → p.visit t w = .call s' → Pre s'
  resume : ∀ e l t w s' r, Inv e l t → p.visit t w = .call s' → Post r → Inv e (l ++ [w]) r
  finish : ∀ e t, Inv e (p.words e) t → Post (p.leave t)

namespace Contract

variable {Pre Post : σ → Prop} {Inv : σ → List ω → σ → Prop}

theorem forEach (h : Contract p Pre Post Inv) {c : σ → Option σ}
    (hc : ∀ s r, Pre s → c s = some r → Post r) {e : σ} (start : Inv e l₁ s)
    (hl : p.forEach c l s = some t) : Inv e (l₁ ++ l) t := by
  induction l generalizing l₁ s with
  | nil =>
    obtain rfl := Option.some.inj hl
    rwa [List.append_nil]
  | cons w l ih =>
    rw [List.append_cons]
    simp only [LoopProgram.forEach] at hl
    cases hv : p.visit s w with
    | skip s' =>
      rw [hv] at hl
      exact ih (h.skip e l₁ s w s' start hv) hl
    | call s' =>
      simp only [hv, Option.bind_eq_some_iff] at hl
      obtain ⟨r, hr, hl⟩ := hl
      have post := hc s' r (h.call e l₁ s w s' start hv) hr
      exact ih (h.resume e l₁ s w s' r start hv post) hl

theorem eval (h : Contract p Pre Post Inv) (pre : Pre s) (hr : p.eval n s = some r) : Post r := by
  induction n generalizing s r with
  | zero => cases hr
  | succ n ih =>
    simp only [LoopProgram.eval, Option.map_eq_some_iff] at hr
    obtain ⟨t, ht, rfl⟩ := hr
    exact h.finish _ t (h.forEach (fun _ _ => ih) (h.start s pre) ht)

/-- The postcondition holds of every call that returns. -/
theorem returns (h : Contract p Pre Post Inv) (pre : Pre s) (hr : p.Returns s r) : Post r :=
  hr.elim fun _ => h.eval pre

/-- The invariant holds at every point of the loop. -/
theorem passes (h : Contract p Pre Post Inv) {e : σ} (start : Inv e [] e) (hl : p.Passes l e t) :
    Inv e l t :=
  hl.elim fun _ hn => h.forEach (fun _ _ => h.eval) start hn

end Contract

end LoopProgram

end Transition
