import Mathlib.Data.List.Infix

/-!
# Trees of files

A tree is a list of paths with what is there: the content of a file, or nothing for a directory.  The
entry that comes first counts, so that unpacking one tree over another is `++`.  `Holds` says that a
tree has all that another one has; trees that agree wherever both have something can be unpacked one
over the other without loss.
-/

namespace FileTree

variable {ν κ : Type*} [DecidableEq ν]

/-- Files and directories, the newest first. -/
abbrev Tree (ν κ : Type*) := List (List ν × Option κ)

/-- Something is there or beneath; the root is always there. -/
def Exists (files : Tree ν κ) (p : List ν) : Prop := p = [] ∨ ∃ e ∈ files, p <+: e.1

/-- The path is that of a directory. -/
def IsDirectory (files : Tree ν κ) (p : List ν) : Prop :=
  p = [] ∨ files.lookup p = some none ∨ ∃ e ∈ files, p <+: e.1 ∧ p ≠ e.1

instance (files : Tree ν κ) (p : List ν) : Decidable (Exists files p) :=
  inferInstanceAs (Decidable (_ ∨ _))

instance [DecidableEq κ] (files : Tree ν κ) (p : List ν) : Decidable (IsDirectory files p) :=
  inferInstanceAs (Decidable (_ ∨ _))

/-- All of `part` is in `files`. -/
def Holds (files part : Tree ν κ) : Prop := ∀ p c, part.lookup p = some c → files.lookup p = some c

/-- Where both have something it is the same. -/
def Agree (l m : Tree ν κ) : Prop := ∀ p c d, l.lookup p = some c → m.lookup p = some d → c = d

variable {files part new : Tree ν κ} {p : List ν}

theorem Holds.refl (files : Tree ν κ) : Holds files files := fun _ _ h => h

theorem Holds.trans (h : Holds files part) (h' : Holds part new) : Holds files new :=
  fun p c found => h p c (h' p c found)

/-- A tree that has just been unpacked is there. -/
theorem holds_unpacked (new files : Tree ν κ) : Holds (new ++ files) new := by
  intro p c found
  rw [List.lookup_append, found]
  rfl

/-- A tree stays when another one that agrees with it is unpacked over it. -/
theorem Holds.unpack (h : Holds files part) (agree : Agree part new) :
    Holds (new ++ files) part := by
  intro p c found
  rw [List.lookup_append]
  cases hn : new.lookup p with
  | none => exact h p c found
  | some d =>
    rw [agree p c d found hn]
    rfl

/-- What is put beneath a tree hides nothing. -/
theorem Holds.under (h : Holds files part) (old : Tree ν κ) : Holds (files ++ old) part := by
  intro p c found
  rw [List.lookup_append, h p c found]
  rfl

/-- What is put beneath a tree without entries for the path is what is found. -/
theorem lookup_append_of_none {old : Tree ν κ} (h : files.lookup p = none) :
    (files ++ old).lookup p = old.lookup p := by
  rw [List.lookup_append, h]
  rfl

theorem lookup_filter {α β : Type*} [BEq α] [LawfulBEq α] (keep : α → Bool) (l : List (α × β))
    (a : α) : (l.filter fun e => keep e.1).lookup a = if keep a then l.lookup a else none := by
  induction l with
  | nil => simp
  | cons e l ih =>
    obtain ⟨b, c⟩ := e
    cases same : a == b with
    | true =>
      obtain rfl := eq_of_beq same
      cases kept : keep a with
      | true => simp [kept]
      | false => simpa [kept] using ih
    | false =>
      cases kept : keep b with
      | true => simpa [kept, List.lookup_cons, same] using ih
      | false => simpa [kept, List.lookup_cons, same] using ih

theorem mem_of_lookup {c : Option κ} (h : files.lookup p = some c) : (p, c) ∈ files := by
  obtain ⟨l₁, l₂, rfl, -⟩ := List.lookup_eq_some_iff.1 h
  exact List.mem_append_right _ List.mem_cons_self

theorem lookup_isSome {e : List ν × Option κ} (h : e ∈ files) : (files.lookup e.1).isSome :=
  List.lookup_isSome_iff.2 ⟨e, h, beq_self_eq_true e.1⟩

/-- The paths of a tree are paths of the trees that hold it. -/
theorem Holds.mem {e : List ν × Option κ} (h : Holds files part) (he : e ∈ part) :
    ∃ c, (e.1, c) ∈ files := by
  obtain ⟨c, hc⟩ := Option.isSome_iff_exists.1 (lookup_isSome he)
  exact ⟨c, mem_of_lookup (h e.1 c hc)⟩

theorem Exists.of_holds (h : Holds files part) (there : Exists part p) : Exists files p := by
  obtain rfl | ⟨e, he, beneath⟩ := there
  · exact .inl rfl
  · obtain ⟨c, hc⟩ := h.mem he
    exact .inr ⟨_, hc, beneath⟩

theorem IsDirectory.of_holds (h : Holds files part) (there : IsDirectory part p) :
    IsDirectory files p := by
  obtain rfl | here | ⟨e, he, beneath, other⟩ := there
  · exact .inl rfl
  · exact .inr (.inl (h p none here))
  · obtain ⟨c, hc⟩ := h.mem he
    exact .inr (.inr ⟨_, hc, beneath, other⟩)

end FileTree
