import Mathlib.Data.Finset.Card
import Mathlib.Data.List.Nodup

/-!
# Parts in numbered places

Each of `n` parts may be in one of as many places, and a place that no part is in is a hole.  A part
that is not in the place of its own number waits for it: that place is free (`Layout.home`).  There are
as many holes as parts that are nowhere (`Layout.card`), so there is a hole for the next part
(`Layout.exists_hole`).  A part goes home from another place (`Layout.bring`), a part that is new goes
into a hole (`Layout.fill`), or takes its own place from the part there, which goes into a hole
(`Layout.swap`).
-/

namespace FilePlaces

/-- Where the parts are, and the places that are free; a part of some size is in a place of at least
that size. -/
structure Layout (n : ℕ) (size : ℕ → ℕ) (places : ℕ → Option ℕ) (holes : List ℕ) : Prop where
  nodup : holes.Nodup
  hole_lt : ∀ h ∈ holes, h < n
  lt : ∀ p q, places p = some q → p < n ∧ q < n
  free : ∀ p q, places p = some q → q ∉ holes
  inj : ∀ p p' q, places p = some q → places p' = some q → p = p'
  cover : ∀ q, q < n → q ∉ holes → ∃ p, places p = some q
  home : ∀ p q, places p = some q → q ≠ p → p ∈ holes
  fits : ∀ p q, places p = some q → size p ≤ size q

namespace Layout

variable {n h i o p q : ℕ} {size : ℕ → ℕ} {places : ℕ → Option ℕ} {holes rest : List ℕ}

/-- Every part is somewhere or leaves a hole. -/
theorem card (layout : Layout n size places holes) :
    ((Finset.range n).filter fun p => places p = none).card = holes.length := by
  have placed : ((Finset.range n).filter fun p => ¬ places p = none).card =
      (Finset.range n \ holes.toFinset).card := by
    refine Finset.card_bij (fun p _ => (places p).getD 0) (fun p mem => ?_) (fun p mem p' mem' same => ?_)
      (fun q mem => ?_)
    · obtain ⟨q, here⟩ := Option.ne_none_iff_exists'.1 (Finset.mem_filter.1 mem).2
      rw [here, Option.getD_some, Finset.mem_sdiff, Finset.mem_range, List.mem_toFinset]
      exact ⟨(layout.lt p q here).2, layout.free p q here⟩
    · obtain ⟨q, here⟩ := Option.ne_none_iff_exists'.1 (Finset.mem_filter.1 mem).2
      obtain ⟨q', here'⟩ := Option.ne_none_iff_exists'.1 (Finset.mem_filter.1 mem').2
      rw [here, here', Option.getD_some, Option.getD_some] at same
      exact layout.inj p p' q here (same ▸ here')
    · rw [Finset.mem_sdiff, Finset.mem_range, List.mem_toFinset] at mem
      obtain ⟨p, here⟩ := layout.cover q mem.1 mem.2
      refine ⟨p, Finset.mem_filter.2 ⟨Finset.mem_range.2 (layout.lt p q here).1, ?_⟩, ?_⟩
      · rw [here]
        exact Option.some_ne_none q
      · rw [here, Option.getD_some]
  have all := Finset.card_filter_add_card_filter_not (s := Finset.range n) (fun p => places p = none)
  have sub : holes.toFinset ⊆ Finset.range n := fun h mem =>
    Finset.mem_range.2 (layout.hole_lt h (List.mem_toFinset.1 mem))
  have diff := Finset.card_sdiff_add_card_eq_card sub
  have len := List.toFinset_card_of_nodup layout.nodup
  omega

/-- There is a hole for a part that is nowhere. -/
theorem exists_hole (layout : Layout n size places holes) (lt : i < n) (new : places i = none) :
    ∃ h rest, holes = h :: rest := by
  have pos : 0 < holes.length := by
    rw [← layout.card, Finset.card_pos]
    exact ⟨i, Finset.mem_filter.2 ⟨Finset.mem_range.2 lt, new⟩⟩
  exact List.exists_cons_of_length_pos pos

/-- If two parts are nowhere there is a second hole. -/
theorem rest_ne_nil (layout : Layout n size places (h :: rest)) (lt : i < n) (new : places i = none)
    (lt' : o < n) (new' : places o = none) (ne : i ≠ o) : rest ≠ [] := by
  rintro rfl
  have two : ({i, o} : Finset ℕ) ⊆ (Finset.range n).filter fun p => places p = none := by
    intro p mem
    rw [Finset.mem_insert, Finset.mem_singleton] at mem
    rw [Finset.mem_filter, Finset.mem_range]
    rcases mem with rfl | rfl
    · exact ⟨lt, new⟩
    · exact ⟨lt', new'⟩
  have := Finset.card_le_card two
  rw [layout.card, Finset.card_pair ne] at this
  exact absurd this (by simp)

/-- A part whose hole comes first goes home from another place, which becomes a hole. -/
theorem bring (layout : Layout n size places (h :: rest)) (away : places h = some o) :
    Layout n size (Function.update places h (some h)) (o :: rest) := by
  obtain ⟨new, nodup⟩ := List.nodup_cons.1 layout.nodup
  have lt := layout.hole_lt h List.mem_cons_self
  have free := layout.free h o away
  rw [List.mem_cons, not_or] at free
  have other : ∀ p q, p ≠ h → places p = some q → q ≠ h ∧ q ≠ o ∧ q ∉ rest := by
    intro p q ne here
    have := layout.free p q here
    rw [List.mem_cons, not_or] at this
    exact ⟨this.1, fun same => ne (layout.inj p h o (same ▸ here) away), this.2⟩
  refine ⟨List.nodup_cons.2 ⟨free.2, nodup⟩, ?_, ?_, ?_, ?_, ?_, ?_, ?_⟩
  · intro q mem
    rcases List.mem_cons.1 mem with rfl | mem
    · exact (layout.lt h q away).2
    · exact layout.hole_lt q (List.mem_cons_of_mem h mem)
  · intro p q here
    by_cases same : p = h
    · rw [same, Function.update_self, Option.some.injEq] at here
      exact ⟨same ▸ lt, here ▸ lt⟩
    · rw [Function.update_of_ne same] at here
      exact layout.lt p q here
  · intro p q here
    rw [List.mem_cons, not_or]
    by_cases same : p = h
    · rw [same, Function.update_self, Option.some.injEq] at here
      exact here ▸ ⟨fun e => free.1 e.symm, new⟩
    · rw [Function.update_of_ne same] at here
      exact (other p q same here).2
  · intro p p' q here here'
    by_cases same : p = h <;> by_cases same' : p' = h
    · rw [same, same']
    · rw [same, Function.update_self, Option.some.injEq] at here
      rw [Function.update_of_ne same'] at here'
      exact absurd here.symm (other p' q same' here').1
    · rw [same', Function.update_self, Option.some.injEq] at here'
      rw [Function.update_of_ne same] at here
      exact absurd here'.symm (other p q same here).1
    · rw [Function.update_of_ne same] at here
      rw [Function.update_of_ne same'] at here'
      exact layout.inj p p' q here here'
  · intro q lt out
    rw [List.mem_cons, not_or] at out
    by_cases same : q = h
    · exact ⟨h, by rw [Function.update_self, same]⟩
    · obtain ⟨p, here⟩ := layout.cover q lt (by rw [List.mem_cons, not_or]; exact ⟨same, out.2⟩)
      refine ⟨p, ?_⟩
      rw [Function.update_of_ne, here]
      rintro rfl
      exact out.1 (Option.some.inj (here.symm.trans away))
  · intro p q here ne
    by_cases same : p = h
    · rw [same, Function.update_self, Option.some.injEq] at here
      exact absurd (here.symm.trans same.symm) ne
    · rw [Function.update_of_ne same] at here
      rcases List.mem_cons.1 (layout.home p q here ne) with e | mem
      · exact absurd e same
      · exact List.mem_cons_of_mem o mem
  · intro p q here
    by_cases same : p = h
    · rw [same, Function.update_self, Option.some.injEq] at here
      rw [same, here]
    · rw [Function.update_of_ne same] at here
      exact layout.fits p q here

/-- A part that is nowhere goes into the first hole. -/
theorem fill (layout : Layout n size places (h :: rest)) (lt : i < n) (new : places i = none)
    (nowhere : places h = none) (waits : i = h ∨ i ∈ rest) (small : size i ≤ size h) :
    Layout n size (Function.update places i (some h)) rest := by
  obtain ⟨fresh, nodup⟩ := List.nodup_cons.1 layout.nodup
  have hole := layout.hole_lt h List.mem_cons_self
  have other : ∀ p q, places p = some q → p ≠ h ∧ q ≠ h ∧ q ∉ rest := by
    intro p q here
    have := layout.free p q here
    rw [List.mem_cons, not_or] at this
    refine ⟨?_, this⟩
    rintro rfl
    cases nowhere.symm.trans here
  refine ⟨nodup, fun q mem => layout.hole_lt q (List.mem_cons_of_mem h mem), ?_, ?_, ?_, ?_, ?_, ?_⟩
  · intro p q here
    by_cases same : p = i
    · rw [same, Function.update_self, Option.some.injEq] at here
      exact ⟨same ▸ lt, here ▸ hole⟩
    · rw [Function.update_of_ne same] at here
      exact layout.lt p q here
  · intro p q here
    by_cases same : p = i
    · rw [same, Function.update_self, Option.some.injEq] at here
      exact here ▸ fresh
    · rw [Function.update_of_ne same] at here
      exact (other p q here).2.2
  · intro p p' q here here'
    by_cases same : p = i <;> by_cases same' : p' = i
    · rw [same, same']
    · rw [same, Function.update_self, Option.some.injEq] at here
      rw [Function.update_of_ne same'] at here'
      exact absurd here.symm (other p' q here').2.1
    · rw [same', Function.update_self, Option.some.injEq] at here'
      rw [Function.update_of_ne same] at here
      exact absurd here'.symm (other p q here).2.1
    · rw [Function.update_of_ne same] at here
      rw [Function.update_of_ne same'] at here'
      exact layout.inj p p' q here here'
  · intro q lt out
    by_cases same : q = h
    · exact ⟨i, by rw [Function.update_self, same]⟩
    · obtain ⟨p, here⟩ := layout.cover q lt (by rw [List.mem_cons, not_or]; exact ⟨same, out⟩)
      refine ⟨p, ?_⟩
      rw [Function.update_of_ne, here]
      rintro rfl
      cases new.symm.trans here
  · intro p q here ne
    by_cases same : p = i
    · rw [same, Function.update_self, Option.some.injEq] at here
      rcases waits with e | mem
      · exact absurd (here.symm.trans (e.symm.trans same.symm)) ne
      · exact same ▸ mem
    · rw [Function.update_of_ne same] at here
      rcases List.mem_cons.1 (layout.home p q here ne) with e | mem
      · exact absurd e (other p q here).1
      · exact mem
  · intro p q here
    by_cases same : p = i
    · rw [same, Function.update_self, Option.some.injEq] at here
      rw [same, ← here]
      exact small
    · rw [Function.update_of_ne same] at here
      exact layout.fits p q here

/-- The part in a place leaves it to the part of that place, which is new, and goes into the first
hole. -/
theorem swap (layout : Layout n size places (h :: rest)) (lt : i < n) (new : places i = none)
    (nowhere : places h = none) (there : places p = some i) (small : size p ≤ size h) :
    Layout n size (Function.update (Function.update places i (some i)) p (some h)) rest := by
  obtain ⟨fresh, nodup⟩ := List.nodup_cons.1 layout.nodup
  have hole := layout.hole_lt h List.mem_cons_self
  have ne_i : p ≠ i := by
    rintro rfl
    cases new.symm.trans there
  have other : ∀ p q, places p = some q → p ≠ h ∧ p ≠ i ∧ q ≠ h ∧ q ∉ rest := by
    intro p q here
    have := layout.free p q here
    rw [List.mem_cons, not_or] at this
    refine ⟨?_, ?_, this⟩
    · rintro rfl
      cases nowhere.symm.trans here
    · rintro rfl
      cases new.symm.trans here
  have at_ : ∀ p' q, Function.update (Function.update places i (some i)) p (some h) p' = some q →
      p' = p ∧ q = h ∨ p' = i ∧ q = i ∨ p' ≠ p ∧ p' ≠ i ∧ q ≠ i ∧ places p' = some q := by
    intro p' q here
    by_cases same : p' = p
    · rw [same, Function.update_self, Option.some.injEq] at here
      exact .inl ⟨same, here.symm⟩
    · rw [Function.update_of_ne same] at here
      by_cases same' : p' = i
      · rw [same', Function.update_self, Option.some.injEq] at here
        exact .inr (.inl ⟨same', here.symm⟩)
      · rw [Function.update_of_ne same'] at here
        refine .inr (.inr ⟨same, same', fun e => same ?_, here⟩)
        exact layout.inj p' p i (e ▸ here) there
  have own := other p i there
  refine ⟨nodup, fun q mem => layout.hole_lt q (List.mem_cons_of_mem h mem), ?_, ?_, ?_, ?_, ?_, ?_⟩
  · intro p' q here
    rcases at_ p' q here with ⟨rfl, rfl⟩ | ⟨rfl, rfl⟩ | ⟨-, -, -, here⟩
    · exact ⟨(layout.lt p' i there).1, hole⟩
    · exact ⟨lt, lt⟩
    · exact layout.lt p' q here
  · intro p' q here
    rcases at_ p' q here with ⟨rfl, rfl⟩ | ⟨rfl, rfl⟩ | ⟨-, -, -, here⟩
    · exact fresh
    · exact own.2.2.2
    · exact (other p' q here).2.2.2
  · intro p' p'' q here here'
    rcases at_ p' q here with ⟨rfl, rfl⟩ | ⟨rfl, rfl⟩ | ⟨-, -, out, old⟩ <;>
      rcases at_ p'' q here' with ⟨rfl, e⟩ | ⟨rfl, e⟩ | ⟨-, -, out', old'⟩
    · rfl
    · exact absurd e.symm own.2.2.1
    · exact absurd rfl (other p'' q old').2.2.1
    · exact absurd e own.2.2.1
    · rfl
    · exact absurd rfl out'
    · exact absurd e (other p' q old).2.2.1
    · exact absurd e out
    · exact layout.inj p' p'' q old old'
  · intro q lt out
    by_cases same : q = h
    · exact ⟨p, by rw [Function.update_self, same]⟩
    · by_cases same' : q = i
      · exact ⟨i, by rw [Function.update_of_ne ne_i.symm, Function.update_self, same']⟩
      · obtain ⟨p', here⟩ := layout.cover q lt (by rw [List.mem_cons, not_or]; exact ⟨same, out⟩)
        refine ⟨p', ?_⟩
        rw [Function.update_of_ne, Function.update_of_ne (other p' q here).2.1, here]
        rintro rfl
        exact same' (Option.some.inj (here.symm.trans there))
  · intro p' q here ne
    rcases at_ p' q here with ⟨rfl, rfl⟩ | ⟨rfl, rfl⟩ | ⟨-, -, -, here⟩
    · rcases List.mem_cons.1 (layout.home p' i there (Ne.symm ne_i)) with e | mem
      · exact absurd e own.1
      · exact mem
    · exact absurd rfl ne
    · rcases List.mem_cons.1 (layout.home p' q here ne) with e | mem
      · exact absurd e (other p' q here).1
      · exact mem
  · intro p' q here
    rcases at_ p' q here with ⟨rfl, rfl⟩ | ⟨rfl, rfl⟩ | ⟨-, -, -, here⟩
    · exact small
    · exact le_rfl
    · exact layout.fits p' q here

end Layout

end FilePlaces
