import Mathlib.Data.Int.Notation
import Mathlib.Data.List.Basic
import Mathlib.Data.List.Nodup
import Mathlib.Data.List.Perm.Basic
import Mathlib.Logic.Function.Basic

/-!
# Lists whose items know where they are

A list without an order, where the position of each item is kept beside the list.  An item is taken out
by moving the last one to its position, and put in at any position by moving what is there to the end.
-/

variable {α : Type*} [DecidableEq α] {l : List α} {pos pos' : α → ℕ} {P Q : α → Prop} {x y z : α} {k : ℕ}

/-- The list has the items of `P`, each at its position. -/
def Indexed (l : List α) (pos : α → ℕ) (P : α → Prop) : Prop :=
  ∀ k x, l[k]? = some x ↔ P x ∧ pos x = k

namespace Indexed

omit [DecidableEq α] in
theorem get (indexed : Indexed l pos P) (has : P x) : l[pos x]? = some x :=
  (indexed _ x).2 ⟨has, rfl⟩

omit [DecidableEq α] in
theorem lt (indexed : Indexed l pos P) (has : P x) : pos x < l.length := by
  obtain ⟨less, -⟩ := List.getElem?_eq_some_iff.1 (indexed.get has)
  exact less

omit [DecidableEq α] in
theorem eq (indexed : Indexed l pos P) (has : P x) (has' : P y) (same : pos x = pos y) : x = y := by
  have there := indexed.get has
  rw [same, indexed.get has', Option.some.injEq] at there
  exact there.symm

omit [DecidableEq α] in
theorem mem (indexed : Indexed l pos P) : x ∈ l ↔ P x := by
  rw [List.mem_iff_getElem?]
  exact ⟨fun ⟨k, there⟩ => ((indexed k x).1 there).1, fun has => ⟨_, indexed.get has⟩⟩

omit [DecidableEq α] in
theorem nil : Indexed [] pos fun _ => False := fun k x =>
  ⟨fun h => absurd h (by rw [List.getElem?_nil]; exact (Option.some_ne_none x).symm), fun h => h.1.elim⟩

omit [DecidableEq α] in
theorem frame (indexed : Indexed l pos P) (same : ∀ x, P x → pos' x = pos x) : Indexed l pos' P := by
  intro k x
  rw [indexed k x]
  exact and_congr_right fun has => by rw [same x has]

omit [DecidableEq α] in
theorem congr (indexed : Indexed l pos P) (same : ∀ x, P x ↔ Q x) : Indexed l pos Q := by
  intro k x
  rw [indexed k x, same x]

omit [DecidableEq α] in
/-- The last item -/
theorem last (indexed : Indexed l pos P) (is : l.getLast? = some y) : P y ∧ pos y = l.length - 1 := by
  rw [List.getLast?_eq_getElem?] at is
  exact (indexed _ y).1 is

/-- An item is taken out, and the last one gets its position. -/
theorem remove (indexed : Indexed l pos P) (has : P x) (is : l.getLast? = some y) :
    Indexed (l.set (pos x) y).dropLast (Function.update pos y (pos x)) fun z => P z ∧ z ≠ x := by
  obtain ⟨has', end_⟩ := indexed.last is
  have less := indexed.lt has
  intro k z
  rw [List.getElem?_dropLast, List.length_set, List.getElem?_set]
  by_cases same : z = y
  · subst same
    rw [Function.update_self]
    constructor
    · intro there
      split_ifs at there with inside here
      · exact ⟨⟨has', fun e => by subst e; omega⟩, here⟩
      · obtain ⟨-, at_⟩ := (indexed k z).1 there
        omega
    · rintro ⟨⟨-, ne⟩, rfl⟩
      have away : pos x ≠ pos z := fun e => ne (indexed.eq has' has e.symm)
      rw [if_pos (by omega), if_pos rfl, if_pos less]
  · rw [Function.update_of_ne same]
    constructor
    · intro there
      split_ifs at there with inside here
      · exact absurd (Option.some.inj there).symm same
      · obtain ⟨old, at_⟩ := (indexed k z).1 there
        exact ⟨⟨old, fun e => here (by rw [← e, at_])⟩, at_⟩
    · rintro ⟨⟨old, ne⟩, rfl⟩
      have away : pos x ≠ pos z := fun e => ne (indexed.eq has old e).symm
      have away' : pos z ≠ pos y := fun e => same (indexed.eq old has' e)
      have less' := indexed.lt old
      rw [if_pos (by omega), if_neg away, indexed.get old]

theorem append (indexed : Indexed l pos P) (new : ¬ P x) :
    Indexed (l ++ [x]) (Function.update pos x l.length) fun z => P z ∨ z = x := by
  intro k z
  dsimp only
  by_cases same : z = x
  · subst same
    rw [Function.update_self]
    constructor
    · intro there
      rcases Nat.lt_or_ge k l.length with less | ge
      · rw [List.getElem?_append_left less] at there
        exact absurd ((indexed k z).1 there).1 new
      · obtain ⟨less', -⟩ := List.getElem?_eq_some_iff.1 there
        rw [List.length_append, List.length_singleton] at less'
        exact ⟨Or.inr rfl, by omega⟩
    · rintro ⟨-, rfl⟩
      rw [List.getElem?_append_right (Nat.le_refl _), Nat.sub_self]
      rfl
  · rw [Function.update_of_ne same, or_iff_left same, ← indexed k z]
    rcases Nat.lt_or_ge k l.length with less | ge
    · rw [List.getElem?_append_left less]
    · rw [List.getElem?_append_right ge, List.getElem?_eq_none ge]
      refine ⟨fun there => absurd (List.mem_singleton.1 (List.mem_of_getElem? there)) same,
        fun h => absurd h (Option.some_ne_none z).symm⟩

/-- An item takes the position of another one. -/
theorem set (indexed : Indexed l pos P) (new : ¬ P x) (is : l[k]? = some y) :
    Indexed (l.set k x) (Function.update pos x k) fun z => P z ∧ z ≠ y ∨ z = x := by
  obtain ⟨old, rfl⟩ := (indexed k y).1 is
  have less := indexed.lt old
  intro j z
  dsimp only
  rw [List.getElem?_set]
  by_cases same : z = x
  · subst same
    rw [Function.update_self]
    constructor
    · intro there
      split_ifs at there with here
      · exact ⟨Or.inr rfl, here⟩
      · exact absurd ((indexed j z).1 there).1 new
    · rintro ⟨-, rfl⟩
      rw [if_pos rfl, if_pos less]
  · rw [Function.update_of_ne same, or_iff_left same]
    constructor
    · intro there
      split_ifs at there with here
      · exact absurd (Option.some.inj there).symm same
      · obtain ⟨has, at_⟩ := (indexed j z).1 there
        exact ⟨⟨has, fun e => here (by rw [← e, at_])⟩, at_⟩
    · rintro ⟨⟨has, ne⟩, rfl⟩
      rw [if_neg fun e => ne (indexed.eq has old e.symm), indexed.get has]

/-- An item is put in, and what was there gets the position at the end. -/
theorem insert (indexed : Indexed l pos P) (new : ¬ P x) (is : l[k]? = some y) :
    Indexed ((l ++ [y]).set k x) (Function.update (Function.update pos y l.length) x k)
      fun z => P z ∨ z = x := by
  obtain ⟨old, rfl⟩ := (indexed k y).1 is
  have ne : y ≠ x := fun e => new (e ▸ old)
  have both := (indexed.set new is).append (x := y) fun h => h.elim (fun h => h.2 rfl) ne
  rw [List.length_set, Function.update_comm ne.symm, ← List.set_append_left _ _ (indexed.lt old)] at both
  refine both.congr fun z => ⟨?_, ?_⟩
  · rintro ((h | h) | rfl)
    · exact Or.inl h.1
    · exact Or.inr h
    · exact Or.inl old
  · intro h
    by_cases e : z = y
    · exact Or.inr e
    · exact Or.inl (h.imp_left fun h => ⟨h, e⟩)

/-- The items are numbered from `i` on. -/
def number : ℕ → List α → (α → ℕ) → α → ℕ
  | _, [], pos => pos
  | i, x :: l, pos => number (i + 1) l (Function.update pos x i)

theorem number_of_not_mem {i : ℕ} (away : x ∉ l) : number i l pos x = pos x := by
  induction l generalizing i pos with
  | nil => rfl
  | cons y l ih =>
    rw [List.mem_cons, not_or] at away
    rw [number, ih away.2, Function.update_of_ne away.1]

theorem number_getElem {i : ℕ} (nodup : l.Nodup) (there : l[k]? = some x) :
    number i l pos x = i + k := by
  induction l generalizing i k pos with
  | nil => exact absurd there (by rw [List.getElem?_nil]; exact (Option.some_ne_none x).symm)
  | cons y l ih =>
    obtain ⟨new, nodup⟩ := List.nodup_cons.1 nodup
    cases k with
    | zero =>
      obtain rfl := Option.some.inj there
      rw [number, number_of_not_mem new, Function.update_self]
      rfl
    | succ k =>
      rw [number, ih nodup there]
      omega

omit [DecidableEq α] in
theorem nodup (indexed : Indexed l pos P) : l.Nodup := by
  rw [List.nodup_iff_injective_get]
  intro i j same
  have here := (indexed i (l.get i)).1 (List.getElem?_eq_getElem i.2)
  have there := (indexed j (l.get j)).1 (List.getElem?_eq_getElem j.2)
  exact Fin.ext (by rw [← here.2, ← there.2, same])

/-- A list whose items are right up to `i` is numbered from there on. -/
theorem renumber {i : ℕ} (nodup : l.Nodup) (mem : ∀ x, x ∈ l ↔ P x)
    (right : ∀ k x, k < i → l[k]? = some x → pos x = k) :
    Indexed l (number i (l.drop i) pos) P := by
  have numbered : ∀ k x, l[k]? = some x → number i (l.drop i) pos x = k := by
    intro k x there
    rcases Nat.lt_or_ge k i with less | ge
    · have away : x ∉ l.drop i := by
        intro mem
        obtain ⟨j, there'⟩ := List.mem_iff_getElem?.1 mem
        rw [List.getElem?_drop] at there'
        have same := (List.getElem?_inj (List.getElem?_eq_some_iff.1 there).1 nodup).1 (there.trans there'.symm)
        omega
      rw [number_of_not_mem away, right k x less there]
    · have there' : (l.drop i)[k - i]? = some x := by
        rw [List.getElem?_drop, Nat.add_sub_cancel' ge, there]
      rw [number_getElem (nodup.sublist (List.drop_sublist i l)) there', Nat.add_sub_cancel' ge]
  intro k x
  refine ⟨fun there => ⟨(mem x).1 (List.mem_of_getElem? there), numbered k x there⟩, ?_⟩
  rintro ⟨has, rfl⟩
  obtain ⟨j, there⟩ := List.mem_iff_getElem?.1 ((mem x).2 has)
  rw [numbered j x there, there]

/-- An item is moved to the end, and those behind it are numbered anew. -/
theorem rotate (indexed : Indexed l pos P) (has : P x) :
    Indexed (l.eraseIdx (pos x) ++ [x])
      (number (pos x) ((l.eraseIdx (pos x) ++ [x]).drop (pos x)) pos) P := by
  have less := indexed.lt has
  have perm : (l.eraseIdx (pos x) ++ [x]).Perm l := by
    have here := (List.getElem?_eq_some_iff.1 (indexed.get has)).2
    have swap := List.set_perm_cons_eraseIdx less l[pos x]
    rw [List.set_getElem_self, here] at swap
    exact (List.perm_append_singleton x _).trans swap.symm
  refine renumber (perm.nodup_iff.2 indexed.nodup) (fun y => perm.mem_iff.trans indexed.mem)
    fun k y before there => ?_
  have long : k < (l.eraseIdx (pos x)).length := by
    rw [List.length_eraseIdx, if_pos less]
    omega
  rw [List.getElem?_append_left long, List.getElem?_eraseIdx_of_lt before] at there
  exact ((indexed k y).1 there).2

end Indexed
