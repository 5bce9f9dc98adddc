import Mathlib.Algebra.Order.Ring.Nat
import Mathlib.Tactic.SplitIfs

/-!
# Readers of a stream

A reader waits for a number of bytes, acts on them, and waits for the next ones.  It gets the stream in
chunks, which may end anywhere, and keeps what it cannot act on yet.  It does not matter where the
chunks end (`feed_append`), and so a stream can be followed act by act (`feed_act`).
-/

namespace Feed

variable {α σ τ : Type}

/-- A reader of a stream: the number of bytes that it still waits for, none when it reads no more; the
store for bytes until all of these are there; and the act on them, which says whether the chunk is read
on.  An act may wait for no bytes at all, at most `stages` times in a row. -/
structure Reader (α σ : Type) where
  need : σ → Option ℕ
  store : σ → List α → σ
  act : σ → σ × Bool
  stages : ℕ

namespace Reader

/-- The loop over a chunk; without fuel the chunk is not read on. -/
def loop (R : Reader α σ) : ℕ → σ → List α → σ × Bool
  | 0, s, _ => (s, true)
  | fuel + 1, s, x =>
    match R.need s with
    | none => (s, true)
    | some i =>
      if x.length < i then (R.store s x, true)
      else
        let r := R.act (R.store s (x.take i))
        if r.2 then R.loop fuel r.1 (x.drop i) else r

/-- A chunk is read; the answer says whether all of it was. -/
def feed (R : Reader α σ) (s : σ) (x : List α) : σ × Bool :=
  R.loop ((R.stages + 2) * (x.length + 1)) s x

/-- Bytes may be stored at once or one after the other, and acts that wait for no bytes come to an end:
`rank` gets smaller. -/
structure Lawful (R : Reader α σ) (rank : σ → ℕ) : Prop where
  store_nil : ∀ s, R.need s ≠ none → R.store s [] = s
  need_store : ∀ s i x, R.need s = some i → x.length ≤ i →
    R.need (R.store s x) = some (i - x.length)
  store_store : ∀ s i x y, R.need s = some i → x.length ≤ i →
    R.store (R.store s x) y = R.store s (x ++ y)
  rank_le : ∀ s, rank s ≤ R.stages
  rank_act : ∀ s, R.need s = some 0 → R.need (R.act s).1 = some 0 → rank (R.act s).1 < rank s

variable {R : Reader α σ} {rank : σ → ℕ} {s t : σ} {x y : List α} {i : ℕ}

/-- A bound on the turns that a chunk takes -/
def turns (R : Reader α σ) (rank : σ → ℕ) (s : σ) (x : List α) : ℕ :=
  (R.stages + 2) * x.length + (if R.need s = some 0 then rank s + 1 else 0) + 1

section Lawful

variable (law : R.Lawful rank)

include law

theorem Lawful.turns_le (s : σ) (x : List α) :
    R.turns rank s x ≤ (R.stages + 2) * (x.length + 1) := by
  have := law.rank_le s
  rw [turns, Nat.mul_succ]
  split_ifs <;> omega

theorem Lawful.turns_act (wait : R.need s = some i) (enough : i ≤ x.length) :
    R.turns rank (R.act (R.store s (x.take i))).1 (x.drop i) < R.turns rank s x := by
  have le := law.rank_le (R.act (R.store s (x.take i))).1
  rw [turns, turns, List.length_drop]
  by_cases zero : i = 0
  · subst zero
    rw [List.take_zero, law.store_nil s (by rw [wait]; exact Option.some_ne_none 0), Nat.sub_zero,
      if_pos wait]
    split_ifs with again
    · have := law.rank_act s wait again
      omega
    · omega
  · have shrink : (R.stages + 2) * (x.length - i) + (R.stages + 2) ≤ (R.stages + 2) * x.length := by
      rw [← Nat.mul_succ]
      exact Nat.mul_le_mul_left _ (by omega)
    split_ifs <;> omega

/-- More fuel than the turns does not matter. -/
theorem Lawful.loop_eq (fuel fuel' : ℕ) (enough : R.turns rank s x ≤ fuel)
    (enough' : R.turns rank s x ≤ fuel') : R.loop fuel s x = R.loop fuel' s x := by
  induction fuel generalizing fuel' s x with
  | zero => exact absurd enough (Nat.not_le.2 (Nat.succ_pos _))
  | succ fuel ih =>
    obtain _ | fuel' := fuel'
    · exact absurd enough' (Nat.not_le.2 (Nat.succ_pos _))
    · rw [loop, loop]
      cases wait : R.need s with
      | none => rfl
      | some i =>
        dsimp only
        by_cases short : x.length < i
        · rw [if_pos short, if_pos short]
        · have less := law.turns_act (x := x) wait (by omega)
          rw [if_neg short, if_neg short, ih fuel' (by omega) (by omega)]

/-- What a chunk does, as one turn and the rest. -/
theorem Lawful.feed_eq (s : σ) (x : List α) : R.feed s x =
    match R.need s with
    | none => (s, true)
    | some i =>
      if x.length < i then (R.store s x, true)
      else
        let r := R.act (R.store s (x.take i))
        if r.2 then R.feed r.1 (x.drop i) else r := by
  have pos : 0 < (R.stages + 2) * (x.length + 1) := Nat.mul_pos (by omega) (by omega)
  obtain ⟨fuel, eq⟩ := Nat.exists_eq_succ_of_ne_zero pos.ne'
  have bound := law.turns_le s x
  rw [feed, eq, loop]
  cases wait : R.need s with
  | none => rfl
  | some i =>
    dsimp only
    by_cases short : x.length < i
    · rw [if_pos short, if_pos short]
    · have less := law.turns_act (x := x) wait (by omega)
      rw [if_neg short, if_neg short, feed, law.loop_eq fuel ((R.stages + 2) * ((x.drop i).length + 1))
        (by omega) (law.turns_le _ _)]

theorem Lawful.feed_none (closed : R.need s = none) (x : List α) : R.feed s x = (s, true) := by
  rw [law.feed_eq, closed]

theorem Lawful.feed_short (wait : R.need s = some i) (short : x.length < i) :
    R.feed s x = (R.store s x, true) := by
  rw [law.feed_eq, wait]
  exact if_pos short

theorem Lawful.feed_take (wait : R.need s = some i) (enough : i ≤ x.length) :
    R.feed s x = if (R.act (R.store s (x.take i))).2 then
      R.feed (R.act (R.store s (x.take i))).1 (x.drop i) else R.act (R.store s (x.take i)) := by
  rw [law.feed_eq, wait]
  exact if_neg (Nat.not_lt.2 enough)

/-- The bytes that the reader waits for, and what comes behind them -/
theorem Lawful.feed_act (wait : R.need s = some x.length) (y : List α) :
    R.feed s (x ++ y) =
      if (R.act (R.store s x)).2 then R.feed (R.act (R.store s x)).1 y else R.act (R.store s x) := by
  rw [law.feed_take wait (by rw [List.length_append]; omega), List.take_left, List.drop_left]

/-- It does not matter where a chunk ends, unless the rest of it is not read any more. -/
theorem Lawful.feed_append (s : σ) (x y : List α) :
    R.feed s (x ++ y) = if (R.feed s x).2 then R.feed (R.feed s x).1 y else R.feed s x := by
  generalize bound : R.turns rank s x = n
  induction n using Nat.strong_induction_on generalizing s x with
  | _ n ih =>
    subst bound
    have both : (x ++ y).length = x.length + y.length := List.length_append
    cases wait : R.need s with
    | none =>
      have closed := fun z => law.feed_none wait z
      rw [closed (x ++ y), closed x]
      exact (closed y).symm
    | some i =>
      by_cases short : x.length < i
      · -- The first chunk is stored; the two together are stored or acted on as one.
        have later := law.need_store s i x wait short.le
        have joined := fun z => law.store_store s i x z wait short.le
        rw [law.feed_short wait short]
        dsimp only
        rw [if_pos rfl]
        by_cases still : y.length < i - x.length
        · rw [law.feed_short wait (by omega), law.feed_short later still, joined]
        · rw [law.feed_take wait (by omega), law.feed_take later (by omega), joined, List.take_append,
            List.drop_append, List.take_of_length_le short.le, List.drop_of_length_le short.le,
            List.nil_append]
      · have less := law.turns_act (x := x) wait (by omega)
        rw [law.feed_take wait (by omega : i ≤ (x ++ y).length), List.take_append_of_le_length (by omega),
          List.drop_append_of_le_length (by omega), law.feed_take wait (by omega : i ≤ x.length)]
        by_cases on : (R.act (R.store s (x.take i))).2 = true
        · rw [if_pos on, if_pos on]
          exact ih _ less _ _ rfl
        · rw [if_neg on, if_neg on, if_neg on]

/-- What storing and acting keep is kept by a chunk. -/
theorem Lawful.feed_induct {P : σ → Prop}
    (store : ∀ s i x, P s → R.need s = some i → x.length ≤ i → P (R.store s x))
    (act : ∀ s, P s → R.need s = some 0 → P (R.act s).1) (holds : P s) (x : List α) :
    P (R.feed s x).1 := by
  generalize bound : R.turns rank s x = n
  induction n using Nat.strong_induction_on generalizing s x with
  | _ n ih =>
    subst bound
    rw [law.feed_eq]
    cases wait : R.need s with
    | none => exact holds
    | some i =>
      dsimp only
      by_cases short : x.length < i
      · rw [if_pos short]
        exact store s i x holds wait short.le
      · have less := law.turns_act (x := x) wait (by omega)
        have size : (x.take i).length = i := List.length_take_of_le (by omega)
        have full := law.need_store s i (x.take i) wait size.le
        rw [size, Nat.sub_self] at full
        have kept := act _ (store s i (x.take i) holds wait size.le) full
        rw [if_neg short]
        split_ifs
        · exact ih _ less kept _ rfl
        · exact kept

/-- Where every act lets the chunk be read on, all of it is. -/
theorem Lawful.feed_snd (on : ∀ s, (R.act s).2 = true) (s : σ) (x : List α) : (R.feed s x).2 = true := by
  generalize bound : R.turns rank s x = n
  induction n using Nat.strong_induction_on generalizing s x with
  | _ n ih =>
    subst bound
    cases wait : R.need s with
    | none => rw [law.feed_none wait]
    | some i =>
      by_cases short : x.length < i
      · rw [law.feed_short wait short]
      · rw [law.feed_take wait (by omega), if_pos (on _)]
        exact ih _ (law.turns_act wait (by omega)) _ _ rfl

/-- States that cannot be told apart by storing and acting cannot be told apart by a chunk. -/
theorem Lawful.feed_rel {r : σ → σ → Prop} (need : ∀ s t, r s t → R.need s = R.need t)
    (store : ∀ s t x, r s t → r (R.store s x) (R.store t x))
    (act : ∀ s t, r s t → r (R.act s).1 (R.act t).1 ∧ (R.act s).2 = (R.act t).2) (same : r s t)
    (x : List α) : r (R.feed s x).1 (R.feed t x).1 ∧ (R.feed s x).2 = (R.feed t x).2 := by
  generalize bound : R.turns rank s x = n
  induction n using Nat.strong_induction_on generalizing s t x with
  | _ n ih =>
    subst bound
    cases wait : R.need s with
    | none =>
      rw [law.feed_none wait, law.feed_none (need s t same ▸ wait)]
      exact ⟨same, rfl⟩
    | some i =>
      have wait' := need s t same ▸ wait
      by_cases short : x.length < i
      · rw [law.feed_short wait short, law.feed_short wait' short]
        exact ⟨store s t x same, rfl⟩
      · obtain ⟨alike, on⟩ := act _ _ (store s t (x.take i) same)
        rw [law.feed_take wait (by omega), law.feed_take wait' (by omega), ← on]
        split_ifs
        · exact ih _ (law.turns_act wait (by omega)) alike _ rfl
        · exact ⟨alike, on⟩

end Lawful

end Reader

end Feed
