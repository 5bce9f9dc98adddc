import Mathlib.Data.List.Basic

/-!
# Paths through symbolic links

What is at each place of a file system is a regular file, a directory or a link, and a path is gone
through part by part from a directory.  A link on the way is followed, one at its end only if it is
asked for.  Where a path leads depends on the places that are seen on the way and on nothing else, and
when entries are removed it leads where it led before or nowhere.
-/

namespace Links

/-- A part of a path: the directory itself, the one above, or what has a name there. -/
inductive Component (ν : Type) where
  | stay
  | up
  | down (name : ν)
deriving DecidableEq

/-- What is at a place; the path of a link starts at the root or at the directory that has the link. -/
inductive Node (ν : Type) where
  | file
  | directory
  | link (fromRoot : Bool) (target : List (Component ν))
deriving DecidableEq

/-- Where a path leads, and the places that have been looked at. -/
structure Way (ν : Type) where
  seen : List (List ν)
  place : List ν

variable {ν : Type}

/-- One more place is seen. -/
def Way.see (w : Way ν) (p : List ν) : Way ν := { w with seen := p :: w.seen }

/-- Where the path of a link starts. -/
def origin (fromRoot : Bool) (here : List ν) : List ν := if fromRoot then [] else here

/-- Go through the parts from a directory; `follow` goes through the path of a link. -/
def through (look : List ν → Option (Node ν)) (follow : List ν → List (Component ν) → Option (Way ν))
    (last : Bool) : List ν → List (Component ν) → Option (Way ν)
  | here, [] => some ⟨[here], here⟩
  | here, .stay :: rest => through look follow last here rest
  | here, .up :: rest => through look follow last here.dropLast rest
  | here, .down name :: rest =>
    match look (here ++ [name]) with
    | none => none
    | some .file => if rest = [] then some ⟨[here ++ [name]], here ++ [name]⟩ else none
    | some .directory =>
      (through look follow last (here ++ [name]) rest).map (·.see (here ++ [name]))
    | some (.link fromRoot target) =>
      if rest = [] ∧ last = false then some ⟨[here ++ [name]], here ++ [name]⟩
      else (follow (origin fromRoot here) (target ++ rest)).map (·.see (here ++ [name]))

/-- Go through the parts, over so many links. -/
def walk (look : List ν → Option (Node ν)) (last : Bool) :
    ℕ → List ν → List (Component ν) → Option (Way ν)
  | 0 => through look (fun _ _ => none) last
  | n + 1 => through look (walk look last n) last

/-- Some entries have been removed. -/
def Pruned (look look' : List ν → Option (Node ν)) : Prop := ∀ p, look' p = look p ∨ look' p = none

variable {look look' : List ν → Option (Node ν)}
  {follow follow' : List ν → List (Component ν) → Option (Way ν)} {last : Bool} {n : ℕ} {here : List ν}
  {parts : List (Component ν)} {w : Way ν}

theorem Pruned.eq {p : List ν} {node : Node ν} (h : Pruned look look') (found : look' p = some node) :
    look p = some node := by
  obtain same | gone := h p
  · exact same ▸ found
  · rw [gone] at found
    cases found

/-! ### What is seen -/

theorem through_place (h : through look follow last here parts = some w)
    (ih : ∀ here parts w, follow here parts = some w → w.place ∈ w.seen) : w.place ∈ w.seen := by
  induction parts generalizing here w with
  | nil =>
    obtain rfl := Option.some.inj h
    exact List.mem_singleton_self _
  | cons part rest ihr =>
    cases part with
    | stay => exact ihr h
    | up => exact ihr h
    | down name =>
      rw [through] at h
      split at h
      · cases h
      · split_ifs at h
        obtain rfl := Option.some.inj h
        exact List.mem_singleton_self _
      · obtain ⟨w, found, rfl⟩ := Option.map_eq_some_iff.1 h
        exact List.mem_cons_of_mem _ (ihr found)
      · split_ifs at h
        · obtain rfl := Option.some.inj h
          exact List.mem_singleton_self _
        · obtain ⟨w, found, rfl⟩ := Option.map_eq_some_iff.1 h
          exact List.mem_cons_of_mem _ (ih _ _ _ found)

/-- The place that a path leads to is seen. -/
theorem walk_place (h : walk look last n here parts = some w) : w.place ∈ w.seen := by
  induction n generalizing here parts w with
  | zero => exact through_place h nofun
  | succ n ih => exact through_place h fun _ _ _ => ih

theorem through_congr (h : through look follow last here parts = some w)
    (same : ∀ p ∈ w.seen, look' p = look p)
    (ih : ∀ here parts w, follow here parts = some w → (∀ p ∈ w.seen, look' p = look p) →
      follow' here parts = some w) : through look' follow' last here parts = some w := by
  induction parts generalizing here w with
  | nil => exact h
  | cons part rest ihr =>
    cases part with
    | stay => exact ihr h same
    | up => exact ihr h same
    | down name =>
      rw [through] at h ⊢
      split at h
      · cases h
      next found =>
        split_ifs at h with final
        obtain rfl := Option.some.inj h
        rw [same _ (List.mem_singleton_self _), found]
        exact if_pos final
      next found =>
        obtain ⟨w, beneath, rfl⟩ := Option.map_eq_some_iff.1 h
        obtain ⟨first, others⟩ := List.forall_mem_cons.1 same
        rw [first, found]
        simp only [ihr beneath others, Option.map_some]
      next fromRoot target found =>
        split_ifs at h with final
        · obtain rfl := Option.some.inj h
          rw [same _ (List.mem_singleton_self _), found]
          exact if_pos final
        · obtain ⟨w, beneath, rfl⟩ := Option.map_eq_some_iff.1 h
          obtain ⟨first, others⟩ := List.forall_mem_cons.1 same
          rw [first, found]
          simp only [if_neg final, ih _ _ _ beneath others, Option.map_some]

/-- A path leads to the same place as long as all that is seen on the way is the same. -/
theorem walk_congr (h : walk look last n here parts = some w)
    (same : ∀ p ∈ w.seen, look' p = look p) : walk look' last n here parts = some w := by
  induction n generalizing here parts w with
  | zero => exact through_congr h same nofun
  | succ n ih => exact through_congr h same fun _ _ _ => ih

theorem through_pruned (pruned : Pruned look look')
    (h : through look' follow' last here parts = some w)
    (ih : ∀ here parts w, follow' here parts = some w → follow here parts = some w) :
    through look follow last here parts = some w := by
  induction parts generalizing here w with
  | nil => exact h
  | cons part rest ihr =>
    cases part with
    | stay => exact ihr h
    | up => exact ihr h
    | down name =>
      rw [through] at h ⊢
      split at h
      · cases h
      next found =>
        rw [pruned.eq found]
        exact h
      next found =>
        obtain ⟨w, beneath, rfl⟩ := Option.map_eq_some_iff.1 h
        rw [pruned.eq found]
        simp only [ihr beneath, Option.map_some]
      next fromRoot target found =>
        rw [pruned.eq found]
        split_ifs at h with final
        · exact (if_pos final).trans h
        · obtain ⟨w, beneath, rfl⟩ := Option.map_eq_some_iff.1 h
          simp only [if_neg final, ih _ _ _ beneath, Option.map_some]

/-- What is led to when entries have been removed was led to before. -/
theorem walk_pruned (pruned : Pruned look look') (h : walk look' last n here parts = some w) :
    walk look last n here parts = some w := by
  induction n generalizing here parts w with
  | zero => exact through_pruned pruned h nofun
  | succ n ih => exact through_pruned pruned h fun _ _ _ => ih

/-! ### The end of the path -/

theorem through_last (h : through look follow false here parts = some w)
    (noLink : ∀ fromRoot target, look w.place ≠ some (.link fromRoot target))
    (ih : ∀ here parts w, follow here parts = some w →
      (∀ fromRoot target, look w.place ≠ some (.link fromRoot target)) →
        follow' here parts = some w) : through look follow' true here parts = some w := by
  induction parts generalizing here w with
  | nil => exact h
  | cons part rest ihr =>
    cases part with
    | stay => exact ihr h noLink
    | up => exact ihr h noLink
    | down name =>
      rw [through] at h ⊢
      split at h
      · cases h
      · exact h
      · obtain ⟨w, beneath, rfl⟩ := Option.map_eq_some_iff.1 h
        simp only [ihr beneath noLink, Option.map_some]
      next fromRoot target found =>
        split_ifs at h
        · obtain rfl := Option.some.inj h
          exact absurd found (noLink _ _)
        · obtain ⟨w, beneath, rfl⟩ := Option.map_eq_some_iff.1 h
          simp only [Bool.true_eq_false, and_false, if_false, ih _ _ _ beneath noLink,
            Option.map_some]

/-- A path whose end is no link leads to it also when links are followed at the end. -/
theorem walk_last (h : walk look false n here parts = some w)
    (noLink : ∀ fromRoot target, look w.place ≠ some (.link fromRoot target)) :
    walk look true n here parts = some w := by
  induction n generalizing here parts w with
  | zero => exact through_last h noLink nofun
  | succ n ih => exact through_last h noLink fun _ _ _ => ih

theorem walk_stay (rest : List (Component ν)) :
    walk look last n here (.stay :: rest) = walk look last n here rest := by
  cases n <;> rfl

end Links
