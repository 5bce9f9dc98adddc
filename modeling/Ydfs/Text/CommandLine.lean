import Mathlib.Algebra.GroupWithZero.Nat
import Mathlib.Data.List.Induction
import Mathlib.Logic.Function.Iterate
import Mathlib.Tactic.SplitIfs

/-!
# Command lines

How a process of the Microsoft C runtime cuts its command line into arguments.  Blanks end an argument
outside of quotes; backslashes are literal unless a quote follows; a quote with an odd number of them
before it is literal.  A doubled quote inside of quotes is a literal one, and whether the quoted part
goes on behind it depends on the runtime (`stays`).

Arguments that are joined with blanks and cut again never get longer (`weight_scan_le`), and they get
shorter where there is a quote.  So what comes out of any number of joinings and cuttings is what went
in exactly if each argument is `Plain` (`cut_iterate_iff`).
-/

namespace CommandLine

abbrev Word := List Char

def isBlank (c : Char) : Bool := c == ' ' || c == '\t'

def backslashes (n : ℕ) : Word := List.replicate n '\\'

/-- Between two arguments; in one, with its letters so far, whether in quotes, and the backslashes
that may belong to a quote; or behind a quote that ends the quoted part unless it is doubled. -/
inductive State where
  | outside
  | inside (word : Word) (quoted : Bool) (slashes : ℕ)
  | quote (word : Word)

/-- One more letter of an argument. -/
def inWord (word : Word) (quoted : Bool) (n : ℕ) (c : Char) : State × Option Word :=
  if c = '\\' then (.inside word quoted (n + 1), none)
  else if c = '"' then
    if n % 2 = 1 then (.inside (word ++ backslashes (n / 2) ++ ['"']) quoted 0, none)
    else if quoted then (.quote (word ++ backslashes (n / 2)), none)
    else (.inside (word ++ backslashes (n / 2)) true 0, none)
  else if !quoted && isBlank c then (.outside, some (word ++ backslashes n))
  else (.inside (word ++ backslashes n ++ [c]) quoted 0, none)

/-- One letter: the next state, and the argument that ends. -/
def step (stays : Bool) : State → Char → State × Option Word
  | .outside, c => if isBlank c then (.outside, none) else inWord [] false 0 c
  | .inside word quoted n, c => inWord word quoted n c
  | .quote word, c =>
    if c = '"' then (.inside (word ++ ['"']) stays 0, none) else inWord word false 0 c

def finish : State → List Word
  | .outside => []
  | .inside word _ n => [word ++ backslashes n]
  | .quote word => [word]

/-- The arguments of the rest of a line. -/
def scan (stays : Bool) : State → List Char → List Word
  | s, [] => finish s
  | s, c :: line => (step stays s c).2.toList ++ scan stays (step stays s c).1 line

/-- What is behind the name of the program, which ends at the first blank outside of quotes. -/
def behindProgram : Bool → List Char → List Char
  | _, [] => []
  | quoted, c :: line =>
    if c = '"' then behindProgram (!quoted) line
    else if !quoted && isBlank c then c :: line
    else behindProgram quoted line

/-- The arguments of a process, without the name of the program. -/
def arguments (stays : Bool) (line : List Char) : List Word :=
  scan stays .outside (behindProgram false line)

/-- Each argument with a blank before it. -/
def join (args : List Word) : List Char := args.flatMap fun a => ' ' :: a

/-- Arguments as they come back from a command line. -/
def cut (stays : Bool) (args : List Word) : List Word := scan stays .outside (join args)

/-- An argument that is not changed: it is not empty, and it has neither blanks nor quotes. -/
def Plain (a : Word) : Prop := a ≠ [] ∧ ∀ c ∈ a, isBlank c = false ∧ c ≠ '"'

variable {stays quoted : Bool} {s : State} {c : Char} {word : Word} {args : List Word}
  {line rest : List Char} {n : ℕ}

/-! ### Lines without quotes -/

theorem inWord_letter (word : Word) (n : ℕ) (quote : c ≠ '"') (blank : quoted = false → isBlank c = false) :
    ∃ word' n', inWord word quoted n c = (.inside word' quoted n', none) ∧
      word' ++ backslashes n' = word ++ backslashes n ++ [c] ∧ (c ≠ '\\' → n' = 0) := by
  by_cases slash : c = '\\'
  · refine ⟨word, n + 1, if_pos slash, ?_, fun h => absurd slash h⟩
    rw [slash, backslashes, List.replicate_succ', ← backslashes, List.append_assoc]
  · refine ⟨word ++ backslashes n ++ [c], 0, ?_, List.append_nil _, fun _ => rfl⟩
    have go : (!quoted && isBlank c) = false := by
      cases quoted with
      | true => rfl
      | false => exact blank rfl
    rw [inWord, if_neg slash, if_neg quote, if_neg (by simp [go])]

/-- Letters are put behind what there is of an argument. -/
theorem scan_letters (stays : Bool) (start : Word) (n : ℕ)
    (letters : ∀ c ∈ word, c ≠ '"' ∧ (quoted = false → isBlank c = false)) :
    ∃ word' n', word' ++ backslashes n' = start ++ backslashes n ++ word ∧
      (n = 0 → word.getLast? ≠ some '\\' → n' = 0) ∧
        ∀ rest, scan stays (.inside start quoted n) (word ++ rest) =
          scan stays (.inside word' quoted n') rest := by
  induction word using List.reverseRecOn with
  | nil => exact ⟨start, n, (List.append_nil _).symm, fun h _ => h, fun _ => rfl⟩
  | append_singleton word c ih =>
    rw [List.forall_mem_append] at letters
    obtain ⟨word', n', whole, -, same⟩ := ih letters.1
    obtain ⟨quote, blank⟩ := letters.2 c (List.mem_singleton_self c)
    obtain ⟨word'', n'', next, more, last⟩ := inWord_letter word' n' quote blank
    refine ⟨word'', n'', ?_, fun _ ends => last ?_, fun rest => ?_⟩
    · rw [more, whole, List.append_assoc]
    · simpa using ends
    · rw [List.append_assoc, same, List.singleton_append, scan, step, next]
      rfl

/-- The line is at its end, or a blank comes next. -/
def Separate (line : List Char) : Prop := ∀ c ∈ line.head?, isBlank c = true

theorem scan_outside_blank (blank : isBlank c = true) :
    scan stays .outside (c :: line) = scan stays .outside line := by
  rw [scan, step, if_pos blank]
  rfl

theorem scan_outside (blank : isBlank c = false) :
    scan stays .outside (c :: line) = scan stays (.inside [] false 0) (c :: line) := by
  rw [scan, scan, step, step, blank, if_neg (by decide)]

theorem not_special (blank : isBlank c = true) : c ≠ '\\' ∧ c ≠ '"' := by
  constructor
  · rintro rfl
    cases blank
  · rintro rfl
    cases blank

theorem inWord_blank (blank : isBlank c = true) :
    inWord word false n c = (.outside, some (word ++ backslashes n)) := by
  obtain ⟨slash, quote⟩ := not_special blank
  rw [inWord, if_neg slash, if_neg quote, if_pos (by simp [blank])]

theorem scan_close (sep : Separate line) :
    scan stays (.inside word false n) line = (word ++ backslashes n) :: scan stays .outside line := by
  cases line with
  | nil => rfl
  | cons c line =>
    have blank := sep c rfl
    rw [scan_outside_blank blank, scan, step, inWord_blank blank]
    rfl

theorem scan_close_quote (sep : Separate line) :
    scan stays (.quote word) line = word :: scan stays .outside line := by
  cases line with
  | nil => rfl
  | cons c line =>
    have blank := sep c rfl
    rw [scan_outside_blank blank, scan, step, if_neg (not_special blank).2, inWord_blank blank]
    exact congrArg (· :: _) (List.append_nil word)

theorem scan_plain (plain : Plain word) (sep : Separate line) :
    scan stays .outside (word ++ line) = word :: scan stays .outside line := by
  obtain ⟨ne, letters⟩ := plain
  have first : scan stays .outside (word ++ line) = scan stays (.inside [] false 0) (word ++ line) := by
    cases word with
    | nil => exact absurd rfl ne
    | cons c word => exact scan_outside (letters c List.mem_cons_self).1
  obtain ⟨word', n', whole, -, same⟩ := scan_letters stays [] 0
    fun c hc => ⟨(letters c hc).2, fun _ : false = false => (letters c hc).1⟩
  rw [first, same, scan_close sep, whole]
  rfl

/-- A quoted argument without quotes in it. -/
theorem scan_quoted (free : '"' ∉ word) (ends : word.getLast? ≠ some '\\') (sep : Separate line) :
    scan stays .outside ('"' :: (word ++ '"' :: line)) = word :: scan stays .outside line := by
  obtain ⟨word', n', whole, last, same⟩ := scan_letters stays [] 0
    fun c (hc : c ∈ word) => ⟨fun h => free (h ▸ hc), (nofun : true = false → _)⟩
  obtain rfl := last rfl ends
  have opens : step stays .outside '"' = (.inside [] true 0, none) := rfl
  have closes : step stays (.inside word' true 0) '"' = (.quote (word' ++ []), none) := rfl
  rw [scan, opens, Option.toList_none, List.nil_append, same, scan, closes, Option.toList_none,
    List.nil_append, scan_close_quote sep]
  exact congrArg (· :: _) whole

/-- The name of the program, in quotes. -/
theorem behindProgram_quoted (free : '"' ∉ word) (sep : Separate line) :
    behindProgram false ('"' :: (word ++ '"' :: line)) = line := by
  have inside : ∀ word : Word, '"' ∉ word →
      behindProgram true (word ++ '"' :: line) = behindProgram false line := by
    intro word free
    induction word with
    | nil => rfl
    | cons c word ih =>
      obtain ⟨quote, free⟩ := not_or.1 (mt List.mem_cons.2 free)
      rw [List.cons_append, behindProgram, if_neg (Ne.symm quote), if_neg (by simp), ih free]
  rw [behindProgram, if_pos rfl, Bool.not_false, inside word free]
  cases line with
  | nil => rfl
  | cons c line =>
    have blank := sep c rfl
    rw [behindProgram, if_neg (not_special blank).2, if_pos (by simp [blank])]

theorem separate_join (args : List Word) : Separate (join args) := by
  cases args with
  | nil => exact nofun
  | cons a args =>
    rintro c ⟨⟩
    rfl

theorem cut_cons (a : Word) (args : List Word) :
    cut stays (a :: args) = scan stays .outside (a ++ join args) :=
  scan_outside_blank rfl

theorem cut_of_plain (plain : ∀ a ∈ args, Plain a) : cut stays args = args := by
  induction args with
  | nil => rfl
  | cons a args ih =>
    obtain ⟨first, others⟩ := List.forall_mem_cons.1 plain
    rw [cut_cons, scan_plain first (separate_join args)]
    exact congrArg (a :: ·) (ih others)

/-! ### Lengths -/

/-- The length of the arguments with one letter between any two, and one more. -/
def weight (args : List Word) : ℕ := (args.map fun a => a.length + 1).sum

/-- What the argument so far contributes. -/
def State.size : State → ℕ
  | .outside => 1
  | .inside word _ n => word.length + n + 1
  | .quote word => word.length + 1

theorem weight_append (args more : List Word) : weight (args ++ more) = weight args + weight more := by
  simp [weight]

theorem length_join (args : List Word) : (join args).length = weight args := by
  simp [join, weight, List.length_flatMap]

theorem length_backslashes (n : ℕ) : (backslashes n).length = n := List.length_replicate

theorem weight_finish_le (s : State) : weight (finish s) ≤ s.size := by
  cases s <;> simp [finish, weight, State.size, length_backslashes]

theorem inWord_size (word : Word) (quoted : Bool) (n : ℕ) (c : Char) :
    (inWord word quoted n c).1.size + weight (inWord word quoted n c).2.toList ≤
      word.length + n + 2 := by
  rw [inWord]
  split_ifs <;>
    simp only [State.size, weight, Option.toList_none, Option.toList_some, List.map_nil,
      List.map_cons, List.sum_nil, List.sum_cons, List.length_append, length_backslashes,
      List.length_singleton] <;>
    omega

/-- A quote is lost, or a backslash before it. -/
theorem inWord_quote_size (word : Word) (quoted : Bool) (n : ℕ) :
    (inWord word quoted n '"').1.size + weight (inWord word quoted n '"').2.toList ≤
      word.length + n + 1 := by
  rw [inWord, if_neg (by decide), if_pos rfl]
  split_ifs <;>
    simp only [State.size, weight, Option.toList_none, List.map_nil, List.sum_nil,
      List.length_append, length_backslashes, List.length_singleton] <;>
    omega

theorem step_size (stays : Bool) (s : State) (c : Char) :
    (step stays s c).1.size + weight (step stays s c).2.toList ≤ s.size + 1 := by
  cases s with
  | outside =>
    rw [step]
    split_ifs
    · exact Nat.le_succ 1
    · exact inWord_size [] false 0 c
  | inside word quoted n => exact inWord_size word quoted n c
  | quote word =>
    rw [step]
    split_ifs
    · simp [State.size, weight]
    · exact inWord_size word false 0 c

/-- The arguments of a line are not longer than the line. -/
theorem weight_scan_le (stays : Bool) (s : State) (line : List Char) :
    weight (scan stays s line) ≤ s.size + line.length := by
  induction line generalizing s with
  | nil => exact weight_finish_le s
  | cons c line ih =>
    have one := step_size stays s c
    have more := ih (step stays s c).1
    rw [scan, weight_append, List.length_cons]
    omega

/-- The last letter was not a quote that may end a quoted part. -/
def State.Open (s : State) : Prop := ∀ word, s ≠ .quote word

theorem State.Open.step_quote (stays : Bool) (h : s.Open) :
    (step stays s '"').1.size + weight (step stays s '"').2.toList ≤ s.size := by
  cases s with
  | outside => exact inWord_quote_size [] false 0
  | inside word quoted n => exact inWord_quote_size word quoted n
  | quote word => exact absurd rfl (h word)

theorem State.Open.step (stays : Bool) (h : s.Open) (quote : c ≠ '"') : (step stays s c).1.Open := by
  have open_inWord : ∀ word quoted n, (inWord word quoted n c).1.Open := by
    intro word quoted n
    rw [inWord, if_neg quote]
    split_ifs <;> exact nofun
  cases s with
  | outside =>
    rw [CommandLine.step]
    split_ifs
    · exact nofun
    · exact open_inWord [] false 0
  | inside word quoted n => exact open_inWord word quoted n
  | quote word => exact absurd rfl (h word)

/-- The arguments of a line with a quote are shorter. -/
theorem weight_scan_lt (stays : Bool) (h : s.Open) (quote : '"' ∈ line) :
    weight (scan stays s line) < s.size + line.length := by
  induction line generalizing s with
  | nil => cases quote
  | cons c line ih =>
    rw [scan, weight_append, List.length_cons]
    by_cases first : c = '"'
    · subst first
      have one := h.step_quote stays
      have more := weight_scan_le stays (step stays s '"').1 line
      omega
    · have one := step_size stays s c
      have more := ih (h.step stays first) ((List.mem_cons.1 quote).resolve_left (Ne.symm first))
      omega

theorem weight_cut_le (stays : Bool) (args : List Word) : weight (cut stays args) ≤ weight args := by
  cases args with
  | nil => exact Nat.le_refl 0
  | cons a args =>
    have shorter := weight_scan_le stays .outside (a ++ join args)
    rw [List.length_append, length_join] at shorter
    rw [cut_cons, ← List.singleton_append, weight_append]
    simp only [State.size] at shorter
    simp only [weight, List.map_cons, List.map_nil, List.sum_cons, List.sum_nil] at *
    omega

/-- A quote in an argument is not there any more. -/
theorem weight_cut_lt (stays : Bool) (quote : '"' ∈ join args) :
    weight (cut stays args) < weight args := by
  cases args with
  | nil => cases quote
  | cons a args =>
    have inLine : '"' ∈ a ++ join args := by simpa [join] using quote
    have shorter := weight_scan_lt stays (s := .outside) nofun inLine
    rw [List.length_append, length_join] at shorter
    rw [cut_cons, ← List.singleton_append, weight_append]
    simp only [State.size] at shorter
    simp only [weight, List.map_cons, List.map_nil, List.sum_cons, List.sum_nil] at *
    omega

/-! ### Round trips -/

/-- What is known of the argument so far in a line without quotes. -/
def State.PlainSoFar (s : State) : Prop :=
  s = .outside ∨ ∃ word n, s = .inside word false n ∧ Plain (word ++ backslashes n)

theorem inWord_plain (start : Word)
    (letters : ∀ c ∈ start ++ backslashes n, isBlank c = false ∧ c ≠ '"') (blank : isBlank c = false)
    (quote : c ≠ '"') :
    (inWord start false n c).2 = none ∧ (inWord start false n c).1.PlainSoFar := by
  obtain ⟨word, m, next, whole, -⟩ := inWord_letter start n quote fun _ : false = false => blank
  rw [next]
  refine ⟨rfl, .inr ⟨word, m, rfl, ?_⟩⟩
  rw [whole]
  refine ⟨by simp, fun d hd => ?_⟩
  obtain hd | rfl := List.mem_append.1 hd |>.imp_right List.mem_singleton.1
  · exact letters d hd
  · exact ⟨blank, quote⟩

theorem State.PlainSoFar.step (stays : Bool) (h : s.PlainSoFar) (quote : c ≠ '"') :
    (∀ a ∈ (step stays s c).2, Plain a) ∧ (step stays s c).1.PlainSoFar := by
  obtain rfl | ⟨word, n, rfl, plain⟩ := h
  · cases blank : isBlank c with
    | true =>
      rw [CommandLine.step, if_pos blank]
      exact ⟨nofun, .inl rfl⟩
    | false =>
      rw [CommandLine.step, if_neg (by simp [blank])]
      obtain ⟨none, next⟩ := inWord_plain [] (n := 0) nofun blank quote
      exact ⟨by simp [none], next⟩
  · rw [CommandLine.step]
    cases blank : isBlank c with
    | true =>
      rw [inWord_blank blank]
      exact ⟨by rintro a ⟨⟩; exact plain, .inl rfl⟩
    | false =>
      obtain ⟨none, next⟩ := inWord_plain word plain.2 blank quote
      exact ⟨by simp [none], next⟩

/-- Without quotes what comes out is plain. -/
theorem plain_of_scan (h : s.PlainSoFar) (free : '"' ∉ line) :
    ∀ a ∈ scan stays s line, Plain a := by
  induction line generalizing s with
  | nil =>
    obtain rfl | ⟨word, n, rfl, plain⟩ := h
    · exact nofun
    · exact List.forall_mem_singleton.2 plain
  | cons c line ih =>
    obtain ⟨quote, free⟩ := not_or.1 (mt List.mem_cons.2 free)
    obtain ⟨now, next⟩ := h.step stays (Ne.symm quote)
    rw [scan, List.forall_mem_append]
    exact ⟨fun a ha => now a (Option.mem_toList.1 ha), ih next free⟩

theorem plain_of_cut (stays : Bool) (free : '"' ∉ join args) : ∀ a ∈ cut stays args, Plain a :=
  plain_of_scan (.inl rfl) free

theorem weight_iterate_le (stays : Bool) (k : ℕ) (args : List Word) :
    weight ((cut stays)^[k] args) ≤ weight args := by
  induction k generalizing args with
  | zero => exact Nat.le_refl _
  | succ k ih => exact Nat.le_trans (ih (cut stays args)) (weight_cut_le stays args)

/-- Arguments that go through any number of processes arrive unchanged exactly if they are plain. -/
theorem cut_iterate_iff (stays : Bool) (k : ℕ) (args : List Word) :
    (cut stays)^[k + 1] args = args ↔ ∀ a ∈ args, Plain a := by
  constructor
  · intro same
    rw [Function.iterate_succ_apply] at same
    have free : '"' ∉ join args := by
      intro quote
      have shorter := weight_cut_lt stays quote
      have later := weight_iterate_le stays k (cut stays args)
      rw [same] at later
      omega
    have plain := plain_of_cut stays free
    have fixed : (cut stays)^[k] (cut stays args) = cut stays args :=
      Function.iterate_fixed (cut_of_plain plain) k
    rw [fixed] at same
    rwa [same] at plain
  · exact fun plain => Function.iterate_fixed (cut_of_plain plain) (k + 1)

end CommandLine
