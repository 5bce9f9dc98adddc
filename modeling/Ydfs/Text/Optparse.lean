import Mathlib.Data.List.Infix
import Mathlib.Tactic.SplitIfs

/-!
# Options on a command line

The arguments of a program are read from the left, as Python's `optparse` does it: a word that begins
with two hyphens is an option, whose name may be shortened as long as one name fits; its value stands
behind an equals sign or is the next word; the word `--` ends the options, and other words are left
alone.  Short options are not there but `-h`, which ends the program like any mistake does.
-/

namespace Optparse

abbrev Word := List Char

/-- What an option does: it stands alone, or it takes a value that it may refuse, or it ends the
program (`--help`). -/
inductive Kind where
  | flag
  | value (accepts : Word → Bool)
  | exits

abbrev Options := List (Word × Kind)

/-- The name of an argument, up to its first equals sign. -/
def nameOf (arg : Word) : Word := arg.takeWhile (· ≠ '=')

/-- What is behind the first equals sign. -/
def valueOf (arg : Word) : Word := (arg.dropWhile (· ≠ '=')).tail

/-- The option of the name, or else the only one whose name begins with it. -/
def matchAbbrev (options : Options) (name : Word) : Option (Word × Kind) :=
  match options.find? fun o => o.1 = name with
  | some o => some o
  | none =>
    match options.filter fun o => name <+: o.1 with
    | [o] => some o
    | _ => none

/-- The options that are read with their values, or `none` if the program ends. -/
def processArgs (options : Options) : List Word → Option (List (Word × Option Word))
  | [] => some []
  | arg :: rargs =>
    if arg = ['-', '-'] then some []
    else if ['-', '-'] <+: arg then
      match matchAbbrev options (nameOf arg) with
      | none => none
      | some (_, .exits) => none
      | some (name, .flag) =>
        if '=' ∈ arg then none else (processArgs options rargs).map ((name, none) :: ·)
      | some (name, .value accepts) =>
        if '=' ∈ arg then
          if accepts (valueOf arg) then
            (processArgs options rargs).map ((name, some (valueOf arg)) :: ·)
          else none
        else match rargs with
          | [] => none
          | value :: rargs =>
            if accepts value then (processArgs options rargs).map ((name, some value) :: ·) else none
    else if arg.head? = some '-' ∧ 1 < arg.length then none
    else processArgs options rargs

/-- The value that an option has in the end. -/
def lastValue (name : Word) (read : List (Word × Option Word)) : Option Word :=
  (read.filterMap fun o => if o.1 = name then o.2 else none).getLast?

variable {options : Options} {name value : Word} {kind : Kind} {args : List Word}
  {read : List (Word × Option Word)}

theorem lastValue_cons (value : Option Word) (read : List (Word × Option Word)) :
    lastValue name ((name, value) :: read) = (lastValue name read).or value := by
  cases value with
  | none => simp [lastValue]
  | some value =>
    rw [lastValue, lastValue, List.filterMap_cons]
    simp only [if_true, List.getLast?_cons]
    cases (read.filterMap fun o => if o.1 = name then o.2 else none).getLast? <;> rfl

/-! ### Names -/

/-- A name that is written out is its own option. -/
theorem matchAbbrev_self (first : options.find? (fun o => o.1 = name) = some (name, kind)) :
    matchAbbrev options name = some (name, kind) := by
  rw [matchAbbrev, first]

/-- The name of an option begins with what is written. -/
theorem prefix_of_matchAbbrev {short : Word} (h : matchAbbrev options short = some (name, kind)) :
    short <+: name := by
  unfold matchAbbrev at h
  split at h
  · rename_i o found
    obtain rfl := Option.some.inj h
    have same : name = short := by simpa using List.find?_some found
    rw [same]
  · split at h
    · rename_i o only
      obtain rfl := Option.some.inj h
      have mem : (name, kind) ∈ options.filter fun o => short <+: o.1 := by
        rw [only]
        exact List.mem_singleton_self _
      exact of_decide_eq_true (List.mem_filter.1 mem).2
    · cases h

/-! ### The first argument -/

/-- An option with its value behind an equals sign. -/
theorem processArgs_cons_value {accepts : Word → Bool} {long : Word} (hyphens : ['-', '-'] <+: long)
    (no_equals : '=' ∉ long) (is : matchAbbrev options long = some (name, .value accepts))
    (accepted : accepts value = true) (args : List Word) :
    processArgs options ((long ++ '=' :: value) :: args) =
      (processArgs options args).map ((name, some value) :: ·) := by
  have all : ∀ c ∈ long, decide (c ≠ '=') = true := fun c hc =>
    decide_eq_true fun equals => no_equals (equals ▸ hc)
  have name_eq : nameOf (long ++ '=' :: value) = long := by
    rw [nameOf, List.takeWhile_append_of_pos all]
    simp
  have value_eq : valueOf (long ++ '=' :: value) = value := by
    rw [valueOf, List.dropWhile_append_of_pos all]
    simp
  have more : long ++ '=' :: value ≠ ['-', '-'] := fun same => by
    have mem : '=' ∈ long ++ '=' :: value := by simp
    rw [same] at mem
    revert mem
    decide
  rw [processArgs.eq_def]
  dsimp only
  rw [if_neg more, if_pos (hyphens.trans (List.prefix_append _ _)), name_eq, is]
  dsimp only
  rw [if_pos (by simp), value_eq, if_pos accepted]

/-- What is read is the first option, or it is read of the rest. -/
theorem mem_of_map_cons {first : Word} {of : Option Word} {rest : Option (List (Word × Option Word))}
    (h : rest.map ((first, of) :: ·) = some read) {value : Option Word} (mem : (name, value) ∈ read) :
    name = first ∨ ∃ read', rest = some read' ∧ (name, value) ∈ read' := by
  obtain ⟨read', is, rfl⟩ := Option.map_eq_some_iff.1 h
  rcases List.mem_cons.1 mem with same | mem
  · exact .inl (Prod.mk.inj same).1
  · exact .inr ⟨read', is, mem⟩

/-- What is read of an option comes from an argument that begins its name. -/
theorem mem_of_processArgs (h : processArgs options args = some read) {value : Option Word}
    (mem : (name, value) ∈ read) :
    ∃ arg ∈ args, ['-', '-'] <+: arg ∧ nameOf arg <+: name := by
  fun_induction processArgs options args generalizing read with
  | case1 | case2 =>
    obtain rfl := Option.some.inj h
    cases mem
  | case6 arg rargs other hyphens first is no_value ih
  | case7 arg rargs other hyphens first accepts is has_value accepted ih =>
    rcases mem_of_map_cons h mem with rfl | ⟨read', rest, mem⟩
    · exact ⟨arg, List.mem_cons_self, hyphens, prefix_of_matchAbbrev is⟩
    · obtain ⟨a, ha, begins⟩ := ih rest mem
      exact ⟨a, List.mem_cons_of_mem _ ha, begins⟩
  | case10 arg other hyphens first accepts is no_value value rargs accepted ih =>
    rcases mem_of_map_cons h mem with rfl | ⟨read', rest, mem⟩
    · exact ⟨arg, List.mem_cons_self, hyphens, prefix_of_matchAbbrev is⟩
    · obtain ⟨a, ha, begins⟩ := ih rest mem
      exact ⟨a, List.mem_cons_of_mem _ (List.mem_cons_of_mem _ ha), begins⟩
  | case13 arg rargs other no_hyphens no_short ih =>
    obtain ⟨a, ha, begins⟩ := ih h mem
    exact ⟨a, List.mem_cons_of_mem _ ha, begins⟩
  | _ => cases h

/-- An option that no argument begins has no value. -/
theorem lastValue_eq_none (h : processArgs options args = some read)
    (absent : ∀ arg ∈ args, ['-', '-'] <+: arg → ¬ nameOf arg <+: name) :
    lastValue name read = none := by
  rw [lastValue, List.getLast?_eq_none_iff, List.filterMap_eq_nil_iff]
  rintro o mem
  split_ifs with same
  · obtain ⟨arg, harg, hyphens, begins⟩ := mem_of_processArgs h mem
    exact absurd (same ▸ begins) (absent arg harg hyphens)
  · rfl

end Optparse
