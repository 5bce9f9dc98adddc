import Mathlib.Data.List.Basic

/-!
# Texts of lines

A text over an alphabet `α` with a terminator `nl`.  `unlines` writes lines, each followed by its
terminator; a text is cut again into the pieces between terminators (`List.splitOn`), into its lines
(`lines`) or into lines that keep their terminators (`readlines`).  On `unlines` the three agree up
to the last piece and the terminators.
-/

namespace Lines

variable {α : Type} {nl : α} {ls : List (List α)} {x : List α}

/-- The text of the given lines, each followed by its terminator. -/
def unlines (nl : α) (ls : List (List α)) : List α := ls.flatMap fun l => l ++ [nl]

@[simp] theorem unlines_nil : unlines nl [] = [] := rfl

@[simp] theorem unlines_cons (l : List α) : unlines nl (l :: ls) = l ++ nl :: unlines nl ls := by
  simp [unlines]

/-- The terminators are separators too, when a last line without one follows. -/
theorem intercalate_concat (last : List α) :
    [nl].intercalate (ls ++ [last]) = unlines nl ls ++ last := by
  induction ls with
  | nil => simp
  | cons l ls ih => simp [List.intercalate_cons_of_ne_nil, ih]

theorem intercalate_append_nil : [nl].intercalate (ls ++ [[]]) = unlines nl ls := by
  rw [intercalate_concat, List.append_nil]

/-! ### Letters -/

theorem mem_of_mem_intercalate {a sep : α} (h : a ∈ [sep].intercalate ls) :
    a = sep ∨ ∃ l ∈ ls, a ∈ l := by
  induction ls with
  | nil => cases h
  | cons l ls ih =>
    cases ls with
    | nil => exact .inr ⟨l, by simp, by simpa using h⟩
    | cons l' ls =>
      rw [List.intercalate_cons_cons, List.mem_append, List.mem_append, List.mem_singleton] at h
      rcases h with (here | rfl) | later
      · exact .inr ⟨l, by simp, here⟩
      · exact .inl rfl
      · exact (ih later).imp_right fun ⟨l, mem, letter⟩ => ⟨l, List.mem_cons_of_mem _ mem, letter⟩

theorem mem_intercalate {a sep : α} {l : List α} (mem : l ∈ ls) (letter : a ∈ l) :
    a ∈ [sep].intercalate ls := by
  induction ls with
  | nil => cases mem
  | cons first ls ih =>
    cases ls with
    | nil =>
      obtain rfl := List.mem_singleton.1 mem
      simpa using letter
    | cons second ls =>
      rw [List.intercalate_cons_cons]
      rcases List.mem_cons.1 mem with rfl | later
      · simp [letter]
      · exact List.mem_append_right _ (ih later)

/-- Only a capital letter changes in lower case, and into a small letter. -/
theorem eq_of_toLower {a b : Char} (h : a.toLower = b) (other : b.val.toNat < 97 ∨ 122 < b.val.toNat) :
    a = b := by
  unfold Char.toLower at h
  split at h
  · rename_i upper
    have least : 65 ≤ a.val.toNat := UInt32.le_iff_toNat_le.1 upper.1
    have most : a.val.toNat ≤ 90 := UInt32.le_iff_toNat_le.1 upper.2
    have shifted : (a.val + 32).toNat = b.val.toNat := congrArg (fun c : Char => c.val.toNat) h
    rw [UInt32.toNat_add] at shifted
    change (a.val.toNat + 32) % 2 ^ 32 = b.val.toNat at shifted
    omega
  · exact h

/-! ### Cutting -/

variable [DecidableEq α]

/-- The lines of a text with their terminators; the last one may have none. -/
def readlines (nl : α) : List α → List (List α)
  | [] => []
  | a :: x => if a = nl then [a] :: readlines nl x else
      match readlines nl x with
      | [] => [[a]]
      | l :: ls => (a :: l) :: ls

/-- The lines of a text that have terminators, without these. -/
def terminated (nl : α) (x : List α) : List (List α) := (x.splitOn nl).dropLast

/-- The lines of a text without their terminators. -/
def lines (nl : α) (x : List α) : List (List α) :=
  let pieces := x.splitOn nl
  if pieces.getLast? = some [] then pieces.dropLast else pieces

theorem splitOn_unlines_append (free : ∀ l ∈ ls, nl ∉ l) {last : List α} (hlast : nl ∉ last) :
    (unlines nl ls ++ last).splitOn nl = ls ++ [last] := by
  rw [← intercalate_concat]
  apply List.splitOn_intercalate
  · intro l hl
    rcases List.mem_append.1 hl with hl | hl
    · exact free l hl
    · rwa [List.mem_singleton.1 hl]
  · simp

theorem splitOn_unlines (free : ∀ l ∈ ls, nl ∉ l) : (unlines nl ls).splitOn nl = ls ++ [[]] := by
  simpa using splitOn_unlines_append free (List.not_mem_nil (a := nl))

@[simp] theorem lines_unlines (free : ∀ l ∈ ls, nl ∉ l) : lines nl (unlines nl ls) = ls := by
  simp [lines, splitOn_unlines free]

/-- A split has one piece more than the text has separators. -/
theorem length_splitOn (a : α) (x : List α) :
    (x.splitOn a).length = x.count a + 1 := by
  induction x with
  | nil => simp
  | cons b x ih =>
    rw [List.splitOn_cons_eq_if_modifyHead, List.count_cons]
    split
    · rw [List.length_cons, ih]
    · rw [List.length_modifyHead, ih]

/-- No piece of a split contains the terminator. -/
theorem not_mem_of_mem_splitOn {l : List α} (hl : l ∈ x.splitOn nl) : nl ∉ l := by
  induction x generalizing l with
  | nil =>
    have : l = [] := by simpa using hl
    simp [this]
  | cons a x ih =>
    obtain ⟨p, ps, hp⟩ := List.exists_cons_of_ne_nil (List.splitOn_ne_nil nl x)
    rw [List.splitOn_cons_eq_if_modifyHead, hp] at hl
    rw [hp] at ih
    split_ifs at hl with ha
    · rcases List.mem_cons.1 hl with rfl | hl
      · simp
      · exact ih hl
    · rcases List.mem_cons.1 hl with rfl | hl
      · have hne : nl ≠ a := fun h => ha (by simp [h])
        simp [hne, ih (List.mem_cons_self ..)]
      · exact ih (List.mem_cons_of_mem _ hl)

theorem not_mem_of_mem_lines {l : List α} (hl : l ∈ lines nl x) : nl ∉ l := by
  have piece : l ∈ x.splitOn nl := by
    simp only [lines] at hl
    split_ifs at hl
    · exact List.dropLast_subset _ hl
    · exact hl
  exact not_mem_of_mem_splitOn piece

/-- The pieces of a text that ends with a terminator: its lines, and the empty piece after them. -/
theorem splitOn_of_terminated (last : x.getLast? = some nl) : x.splitOn nl = lines nl x ++ [[]] := by
  obtain ⟨y, rfl⟩ : ∃ y, x = y ++ [nl] := by
    rw [List.getLast?_eq_some_iff] at last
    exact last
  have split : (y ++ [nl]).splitOn nl = y.splitOn nl ++ [[]] := by
    rw [List.splitOn_append_cons_self, List.splitOn_nil]
  simp [lines, split]

theorem unlines_lines (last : x.getLast? = some nl) : unlines nl (lines nl x) = x := by
  rw [← intercalate_append_nil, ← splitOn_of_terminated last, List.intercalate_splitOn]

/-- A terminator that is missing after the last line makes no difference to the lines. -/
theorem lines_append_terminator (ne : x ≠ []) (last : x.getLast? ≠ some nl) :
    lines nl (x ++ [nl]) = lines nl x := by
  have split : (x ++ [nl]).splitOn nl = x.splitOn nl ++ [[]] := by
    rw [List.splitOn_append_cons_self, List.splitOn_nil]
  have keep : (x.splitOn nl).getLast? ≠ some [] := by
    intro h
    obtain ⟨ps, hps⟩ := List.getLast?_eq_some_iff.1 h
    have joined : unlines nl ps = x := by
      rw [← intercalate_append_nil, ← hps, List.intercalate_splitOn]
    rcases List.eq_nil_or_concat ps with rfl | ⟨qs, q, rfl⟩
    · exact ne joined.symm
    · exact last (by simp [← joined, unlines, ← List.append_assoc])
  simp [lines, split, keep]

theorem lines_ne_nil (ne : x ≠ []) : lines nl x ≠ [] := by
  intro none
  by_cases last : x.getLast? = some nl
  · have joined := unlines_lines last
    rw [none] at joined
    exact ne joined.symm
  · have joined : unlines nl (lines nl (x ++ [nl])) = x ++ [nl] := unlines_lines (by simp)
    rw [lines_append_terminator ne last, none] at joined
    simp at joined

theorem readlines_append (free : nl ∉ x) (y : List α) :
    readlines nl (x ++ nl :: y) = (x ++ [nl]) :: readlines nl y := by
  induction x with
  | nil => simp [readlines]
  | cons a x ih =>
    obtain ⟨hne, hx⟩ := not_or.1 (by simpa using free : ¬ (nl = a ∨ nl ∈ x))
    simp [readlines, Ne.symm hne, ih hx]

theorem readlines_of_free (free : nl ∉ x) : readlines nl x = if x = [] then [] else [x] := by
  induction x with
  | nil => rfl
  | cons a x ih =>
    obtain ⟨hne, hx⟩ := not_or.1 (by simpa using free : ¬ (nl = a ∨ nl ∈ x))
    rw [readlines, if_neg (Ne.symm hne), ih hx]
    by_cases none : x = [] <;> simp [none]

theorem readlines_unlines_append (free : ∀ l ∈ ls, nl ∉ l) (y : List α) :
    readlines nl (unlines nl ls ++ y) = (ls.map fun l => l ++ [nl]) ++ readlines nl y := by
  induction ls with
  | nil => rfl
  | cons l ls ih =>
    rw [unlines_cons, List.append_assoc, List.cons_append,
      readlines_append (free l (List.mem_cons_self ..)),
      ih fun m hm => free m (List.mem_cons_of_mem _ hm), List.map_cons, List.cons_append]

theorem readlines_unlines (free : ∀ l ∈ ls, nl ∉ l) :
    readlines nl (unlines nl ls) = ls.map fun l => l ++ [nl] := by
  simpa [readlines] using readlines_unlines_append free []

/-! ### A last line without a terminator -/

/-- A text is its terminated lines and what follows the last terminator. -/
theorem exists_eq_unlines_append (nl : α) (x : List α) :
    ∃ ls last, x = unlines nl ls ++ last ∧ (∀ l ∈ ls, nl ∉ l) ∧ nl ∉ last := by
  obtain ⟨ls, last, split⟩ := List.eq_nil_or_concat'  (x.splitOn nl) |>.resolve_left
    (List.splitOn_ne_nil nl x)
  have free : ∀ l ∈ ls ++ [last], nl ∉ l := by
    intro l hl
    exact not_mem_of_mem_splitOn (split ▸ hl)
  refine ⟨ls, last, ?_, fun l hl => free l (List.mem_append_left _ hl), free last (by simp)⟩
  rw [← intercalate_concat, ← split, List.intercalate_splitOn]

theorem terminated_unlines_append (free : ∀ l ∈ ls, nl ∉ l) {last : List α} (hlast : nl ∉ last) :
    terminated nl (unlines nl ls ++ last) = ls := by
  rw [terminated, splitOn_unlines_append free hlast, List.dropLast_concat]

theorem lines_unlines_append (free : ∀ l ∈ ls, nl ∉ l) {last : List α} (hlast : nl ∉ last) :
    lines nl (unlines nl ls ++ last) = ls ++ if last = [] then [] else [last] := by
  rw [lines, splitOn_unlines_append free hlast]
  by_cases none : last = [] <;> simp [none]

/-! ### Looking for a line -/

/-- A search among the first lines finds what a narrower one finds among all, if what is wanted comes
before all that only looks like it, and is not only among the lines that follow. -/
theorem find?_eq_find?_append_iff {β : Type} {p q : β → Bool} {as bs : List β}
    (narrow : ∀ a ∈ as, q a = true → p a = true) :
    as.find? p = (as ++ bs).find? q ↔
      (∀ before a rest, as = before ++ a :: rest → p a = true →
        q a = true ∨ ∃ b ∈ before, q b = true) ∧
      ∀ b ∈ bs, q b = true → ∃ a ∈ as, q a = true := by
  constructor
  · intro same
    constructor
    · rintro before a rest rfl ha
      obtain ⟨b, found⟩ : ∃ b, (before ++ [a]).find? p = some b :=
        Option.isSome_iff_exists.1 (List.find?_isSome.2 ⟨a, by simp, ha⟩)
      have first : (before ++ a :: rest).find? p = some b := by
        rw [← List.singleton_append, ← List.append_assoc, List.find?_append, found,
          Option.some_or]
      have hb : q b = true := List.find?_some (same ▸ first)
      rcases List.mem_append.1 (List.mem_of_find?_eq_some found) with mem | mem
      · exact .inr ⟨b, mem, hb⟩
      · rw [List.mem_singleton.1 mem] at hb
        exact .inl hb
    · intro b mem hb
      obtain ⟨a, found⟩ : ∃ a, (as ++ bs).find? q = some a :=
        Option.isSome_iff_exists.1 (List.find?_isSome.2 ⟨b, List.mem_append_right _ mem, hb⟩)
      have first : as.find? p = some a := same.trans found
      exact ⟨a, List.mem_of_find?_eq_some first, List.find?_some found⟩
  · rintro ⟨exact_, last⟩
    cases found : as.find? p with
    | none =>
      have no : ∀ a ∈ as, ¬ q a = true := fun a mem ha =>
        List.find?_eq_none.1 found a mem (narrow a mem ha)
      refine (List.find?_eq_none.2 fun a mem ha => ?_).symm
      rcases List.mem_append.1 mem with mem | mem
      · exact no a mem ha
      · obtain ⟨b, mem, hb⟩ := last a mem ha
        exact no b mem hb
    | some a =>
      obtain ⟨ha, before, rest, rfl, no⟩ := List.find?_eq_some_iff_append.1 found
      have none : ∀ b ∈ before, ¬ q b = true := fun b mem hb => by
        have hp := narrow b (List.mem_append_left _ mem) hb
        simpa [hp] using no b mem
      have wanted : q a = true := (exact_ before a rest rfl ha).resolve_right
        fun ⟨b, mem, hb⟩ => none b mem hb
      refine (List.find?_eq_some_iff_append.2 ⟨wanted, before, rest ++ bs, by simp, ?_⟩).symm
      intro b mem
      simpa using none b mem

end Lines
