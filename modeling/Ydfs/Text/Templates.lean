import Mathlib.Tactic.Linarith
import Ydfs.Text.Search

/-!
# Templates

A dictionary says what is to be put in the places of its words.  `fill` replaces one word after the
other, and `substitute` all of them at once.  The two agree as long as what has been put in makes no
other word occur where the template has none (`forall_fill_eq_iff`).
-/

namespace Templates

open Search

variable {α : Type}

/-- Words, and what is to be put in their places. -/
abbrev Dictionary (α : Type) := List (List α × List α)

/-- No word overlaps with itself or with another one. -/
structure Separate (dic : Dictionary α) : Prop where
  whole : ∀ e ∈ dic, Whole e.1
  apart : dic.Pairwise fun e e' => Apart e.1 e'.1 ∧ Apart e'.1 e.1

variable {dic dic' done : Dictionary α} {e : List α × List α} {u v w x : List α}
  {c : List (Option α)}

theorem Separate.perm (h : Separate dic) (perm : dic.Perm dic') : Separate dic' where
  whole e mem := h.whole e (perm.mem_iff.2 mem)
  apart := (perm.pairwise_iff fun h => h.symm).1 h.apart

theorem Separate.sublist (h : Separate dic) (sub : dic'.Sublist dic) : Separate dic' where
  whole e mem := h.whole e (sub.subset mem)
  apart := h.apart.sublist sub

theorem Separate.apart_of_append (h : Separate (done ++ [e])) :
    ∀ e' ∈ done, Apart e'.1 e.1 ∧ Apart e.1 e'.1 := fun e' mem =>
  (List.pairwise_append.1 h.apart).2.2 e' mem e (by simp)

theorem Separate.nil_notMem (h : Separate dic) : [] ∉ dic.map Prod.fst := by
  rw [List.mem_map]
  rintro ⟨e, mem, empty⟩
  exact (h.whole e mem).1 empty

/-! ### Texts with holes -/

/-- The text with a word in each hole. -/
def fillIn (w : List α) (c : List (Option α)) : List α := c.flatMap fun a => (a.map fun a => [a]).getD w

@[simp] theorem fillIn_nil (w : List α) : fillIn w [] = [] := rfl

@[simp] theorem fillIn_none (w : List α) (c : List (Option α)) :
    fillIn w (none :: c) = w ++ fillIn w c := rfl

@[simp] theorem fillIn_some (w : List α) (a : α) (c : List (Option α)) :
    fillIn w (some a :: c) = a :: fillIn w c := rfl

theorem fillIn_append (w : List α) (c d : List (Option α)) :
    fillIn w (c ++ d) = fillIn w c ++ fillIn w d := List.flatMap_append

theorem fillIn_letters (w u : List α) : fillIn w (u.map some) = u := by
  induction u with
  | nil => rfl
  | cons a u ih => rw [List.map_cons, fillIn_some, ih]

/-- A word that goes on where a hole may be goes on in the letters. -/
theorem letters_of_prefix {u : List α} (h : Whole w) (inner : u <:+ w.tail) {c : List (Option α)}
    (begun : u <+: fillIn w c) : u.map some <+: c := by
  induction u generalizing c with
  | nil => exact List.nil_prefix
  | cons b u ih =>
    cases c with
    | nil => simp at begun
    | cons a c =>
      cases a with
      | some a =>
        rw [fillIn_some, List.cons_prefix_cons] at begun
        rw [List.map_cons, List.cons_prefix_cons, begun.1]
        exact ⟨rfl, ih ((List.suffix_cons b u).trans inner) begun.2⟩
      | none =>
        -- the word would overlap with itself
        obtain ⟨t, tail⟩ := inner
        rw [fillIn_none] at begun
        have overlap := List.prefix_or_prefix_of_prefix begun (List.prefix_append w _)
        have rest : w.tail.drop t.length = b :: u := by rw [← tail, List.drop_left]
        refine absurd ?_ (h.2 t.length (by simp [← tail]))
        rwa [rest]

variable [DecidableEq α]

/-! ### Replacing words -/

/-- Replace one word after the other. -/
def fill (dic : Dictionary α) (x : List α) : List α := dic.foldl (fun x e => replace e.1 e.2 x) x

/-- `substitute`, with the number of letters left of a word that has been replaced. -/
def substituteFrom (dic : Dictionary α) : ℕ → List α → List α
  | _, [] => []
  | n + 1, _ :: x => substituteFrom dic n x
  | 0, a :: x =>
    match dic.find? fun e => e.1 <+: a :: x with
    | some e => e.2 ++ substituteFrom dic (e.1.length - 1) x
    | none => a :: substituteFrom dic 0 x

/-- Replace all words at once. -/
def substitute (dic : Dictionary α) (x : List α) : List α := substituteFrom dic 0 x

theorem substituteFrom_eq (dic : Dictionary α) (n : ℕ) (x : List α) :
    substituteFrom dic n x = substitute dic (x.drop n) := by
  induction x generalizing n with
  | nil => cases n <;> rfl
  | cons a x ih =>
    cases n with
    | zero => rfl
    | succ n => rw [substituteFrom, ih, List.drop_succ_cons]

/-! ### One letter or one word -/

theorem substitute_cons_of_free {a : α} (free : ∀ e ∈ dic, ¬ e.1 <+: a :: x) :
    substitute dic (a :: x) = a :: substitute dic x := by
  have nothing : dic.find? (fun e => e.1 <+: a :: x) = none :=
    List.find?_eq_none.2 fun e mem => by simpa using free e mem
  rw [substitute, substituteFrom, nothing, substitute]

theorem substitute_append_of_apart (apart : ∀ e ∈ dic, Apart u e.1) (x : List α) :
    substitute dic (u ++ x) = u ++ substitute dic x := by
  induction u with
  | nil => rfl
  | cons a u ih =>
    have free : ∀ e ∈ dic, ¬ e.1 <+: a :: (u ++ x) := fun e mem =>
      (apart e mem).not_prefix_append (by simp) x
    rw [List.cons_append, substitute_cons_of_free free, ih fun e mem => (apart e mem).tail,
      List.cons_append]

theorem substitute_nil (x : List α) : substitute [] x = x := by
  have all := substitute_append_of_apart (u := x) (List.forall_mem_nil _) []
  rw [List.append_nil] at all
  exact all.trans (List.append_nil x)

/-- At a word of the dictionary there is no other one. -/
theorem Separate.find?_append (h : Separate dic) (mem : e ∈ dic) (x : List α) :
    dic.find? (fun e' => e'.1 <+: e.1 ++ x) = some e := by
  obtain ⟨before, after, rfl⟩ := List.append_of_mem mem
  have others := (List.pairwise_append.1 h.apart).2.2
  have earlier : before.find? (fun e' => e'.1 <+: e.1 ++ x) = none := by
    refine List.find?_eq_none.2 fun e' mem' begun => ?_
    have apart := (others e' mem' e (by simp)).2
    exact apart.not_prefix_append (h.whole e mem).1 x (by simpa using begun)
  rw [List.find?_append, earlier, Option.none_or, List.find?_cons_of_pos (by simp)]

theorem Separate.substitute_append (h : Separate dic) (mem : e ∈ dic) (x : List α) :
    substitute dic (e.1 ++ x) = e.2 ++ substitute dic x := by
  obtain ⟨a, t, word⟩ := List.exists_cons_of_ne_nil (h.whole e mem).1
  have found := h.find?_append mem x
  rw [word, List.cons_append] at found
  rw [word, List.cons_append, substitute, substituteFrom, found]
  simp only
  rw [substituteFrom_eq, word, List.length_cons, Nat.add_sub_cancel, List.drop_left]

/-- The order of the dictionary does not matter when all words are replaced at once. -/
theorem Separate.substitute_perm (h : Separate dic) (perm : dic.Perm dic') (x : List α) :
    substitute dic x = substitute dic' x := by
  induction x using scan_induction (dic.map Prod.fst) h.nil_notMem with
  | nil => rfl
  | letter a x free ih =>
    have here : ∀ e ∈ dic, ¬ e.1 <+: a :: x := fun e mem => free e.1 (List.mem_map_of_mem mem)
    have here' : ∀ e ∈ dic', ¬ e.1 <+: a :: x := fun e mem => here e (perm.mem_iff.2 mem)
    rw [substitute_cons_of_free here, substitute_cons_of_free here', ih]
  | word w mem x ih =>
    obtain ⟨e, here, rfl⟩ := List.mem_map.1 mem
    rw [h.substitute_append here, (h.perm perm).substitute_append (perm.mem_iff.1 here), ih]

/-! ### Filling holes -/

/-- The word occurs in each of its holes. -/
theorem count_le_occurrences (h : Whole w) (c : List (Option α)) :
    c.count none ≤ occurrences w (fillIn w c) := by
  induction c with
  | nil => simp
  | cons a c ih =>
    cases a with
    | none =>
      rw [fillIn_none, h.occurrences_append, List.count_cons_self]
      omega
    | some a =>
      rw [fillIn_some, List.count_cons_of_ne (by simp)]
      by_cases here : w <+: a :: fillIn w c
      · rw [occurrences_cons_of_begins here]
        omega
      · rwa [occurrences_cons_of_not here]

theorem replace_fillIn (h : Whole w) (v : List α) {c : List (Option α)}
    (only : occurrences w (fillIn w c) = c.count none) : replace w v (fillIn w c) = fillIn v c := by
  induction c with
  | nil => rfl
  | cons a c ih =>
    have le := count_le_occurrences h c
    cases a with
    | none =>
      rw [fillIn_none, h.occurrences_append, List.count_cons_self] at only
      rw [fillIn_none, replace_append h.1, ih (by omega), fillIn_none]
    | some a =>
      rw [fillIn_some, List.count_cons_of_ne (by simp)] at only
      by_cases here : w <+: a :: fillIn w c
      · rw [occurrences_cons_of_begins here] at only
        omega
      · rw [occurrences_cons_of_not here] at only
        rw [fillIn_some, replace_cons_of_not here, ih only, fillIn_some]

/-- A replacement of the same length shows where a word occurs besides its holes. -/
theorem occurrences_of_replace (h : Whole w) (ne : v ≠ w) (length : v.length = w.length)
    {c : List (Option α)} (filled : replace w v (fillIn w c) = fillIn v c) :
    occurrences w (fillIn w c) = c.count none := by
  induction c with
  | nil => simp [occurrences_nil h.1]
  | cons a c ih =>
    cases a with
    | none =>
      rw [fillIn_none, replace_append h.1, fillIn_none, List.append_cancel_left_eq] at filled
      rw [fillIn_none, h.occurrences_append, List.count_cons_self, ih filled]
    | some a =>
      rw [fillIn_some, List.count_cons_of_ne (by simp)]
      by_cases here : w <+: a :: fillIn w c
      · refine absurd ?_ ne
        obtain ⟨b, t, rfl⟩ := List.exists_cons_of_ne_nil h.1
        rw [List.cons_prefix_cons] at here
        obtain ⟨d, rfl⟩ := letters_of_prefix h (List.suffix_refl t) here.2
        obtain rfl := here.1
        rw [fillIn_some, fillIn_append, fillIn_letters, ← List.cons_append, replace_append h.1,
          fillIn_some, fillIn_append, fillIn_letters, ← List.cons_append] at filled
        exact (List.append_inj filled length).1
      · rw [fillIn_some, replace_cons_of_not here, fillIn_some, List.cons.injEq] at filled
        rw [occurrences_cons_of_not here, ih filled.2]

theorem length_fillIn (w v : List α) (c : List (Option α)) :
    (fillIn v c).length + c.count none * w.length = (fillIn w c).length + c.count none * v.length := by
  induction c with
  | nil => simp
  | cons a c ih =>
    cases a with
    | none =>
      rw [fillIn_none, fillIn_none, List.count_cons_self, List.length_append, List.length_append,
        Nat.add_mul, Nat.add_mul]
      omega
    | some a =>
      rw [fillIn_some, fillIn_some, List.count_cons_of_ne (by simp), List.length_cons, List.length_cons]
      omega

/-- Replacing a word fills its holes exactly if it does not occur elsewhere. -/
theorem replace_fillIn_iff (h : Whole w) (v : List α) (c : List (Option α)) :
    replace w v (fillIn w c) = fillIn v c ↔ v = w ∨ occurrences w (fillIn w c) = c.count none := by
  constructor
  · intro filled
    by_cases same : v = w
    · exact .inl same
    · refine .inr ?_
      by_cases length : v.length = w.length
      · exact occurrences_of_replace h same length filled
      · have replaced := h.length_replace v (fillIn w c)
        have wanted := length_fillIn w v c
        rw [filled] at replaced
        rcases Nat.lt_or_gt_of_ne length with lt | gt
        · obtain ⟨k, more⟩ := Nat.exists_eq_add_of_lt lt
          have eq : occurrences w (fillIn w c) * (k + 1) = c.count none * (k + 1) := by
            rw [more] at replaced wanted
            nlinarith
          exact Nat.eq_of_mul_eq_mul_right (Nat.succ_pos k) eq
        · obtain ⟨k, more⟩ := Nat.exists_eq_add_of_lt gt
          have eq : occurrences w (fillIn w c) * (k + 1) = c.count none * (k + 1) := by
            rw [more] at replaced wanted
            nlinarith
          exact Nat.eq_of_mul_eq_mul_right (Nat.succ_pos k) eq
  · rintro (rfl | only)
    · exact replace_self h.1 _
    · exact replace_fillIn h v only

/-! ### One word after the other -/

/-- In a template in which other words have been replaced, the holes are for the next word. -/
theorem Separate.exists_holes (h : Separate (done ++ [e])) (x : List α) :
    ∃ c : List (Option α), fillIn e.1 c = substitute done x ∧
      fillIn e.2 c = substitute (done ++ [e]) x ∧ c.count none = occurrences e.1 x := by
  have whole : Whole e.1 := h.whole e (by simp)
  have before : Separate done := h.sublist (List.sublist_append_left _ _)
  induction x using scan_induction ((done ++ [e]).map Prod.fst) h.nil_notMem with
  | nil => exact ⟨[], rfl, rfl, (occurrences_nil whole.1).symm⟩
  | letter a x free ih =>
    obtain ⟨c, left, right, count⟩ := ih
    have here : ∀ e' ∈ done ++ [e], ¬ e'.1 <+: a :: x := fun e' mem =>
      free e'.1 (List.mem_map_of_mem mem)
    refine ⟨some a :: c, ?_, ?_, ?_⟩
    · rw [fillIn_some, left, substitute_cons_of_free fun e' mem => here e' (List.mem_append_left _ mem)]
    · rw [fillIn_some, right, substitute_cons_of_free here]
    · rw [List.count_cons_of_ne (by simp), count, occurrences_cons_of_not (here e (by simp))]
  | word w mem x ih =>
    obtain ⟨c, left, right, count⟩ := ih
    obtain ⟨e', here, rfl⟩ := List.mem_map.1 mem
    rcases List.mem_append.1 here with other | same
    · refine ⟨e'.2.map some ++ c, ?_, ?_, ?_⟩
      · rw [fillIn_append, fillIn_letters, left, before.substitute_append other]
      · rw [fillIn_append, fillIn_letters, right, h.substitute_append here]
      · have letters : (e'.2.map some).count none = 0 := List.count_eq_zero.2 (by simp)
        rw [List.count_append, letters, Nat.zero_add, count,
          (h.apart_of_append e' other).1.occurrences_append]
    · obtain rfl := List.mem_singleton.1 same
      refine ⟨none :: c, ?_, ?_, ?_⟩
      · rw [fillIn_none, left,
          substitute_append_of_apart fun e' mem => (h.apart_of_append e' mem).2]
      · rw [fillIn_none, right, h.substitute_append here]
      · rw [List.count_cons_self, count, whole.occurrences_append]

/-- The next word occurs where it does in the template and nowhere else, or it stands for itself. -/
def Keeps (done : Dictionary α) (e : List α × List α) (x : List α) : Prop :=
  e.2 = e.1 ∨ occurrences e.1 (substitute done x) = occurrences e.1 x

theorem fill_append (done : Dictionary α) (e : List α × List α) (x : List α) :
    fill (done ++ [e]) x = replace e.1 e.2 (fill done x) := by
  rw [fill, List.foldl_append, fill]
  rfl

/-- One step. -/
theorem Separate.fill_append_iff (h : Separate (done ++ [e]))
    (filled : fill done x = substitute done x) :
    fill (done ++ [e]) x = substitute (done ++ [e]) x ↔ Keeps done e x := by
  obtain ⟨c, left, right, count⟩ := h.exists_holes x
  rw [fill_append, filled, ← left, ← right, replace_fillIn_iff (h.whole e (by simp)), Keeps, ← left,
    count]

/-- The text is that of the replacement at once after every step, exactly if no word that is still to
be replaced comes to occur anywhere else. -/
theorem Separate.forall_fill_eq_iff (h : Separate dic) (x : List α) :
    (∀ done rest, dic = done ++ rest → fill done x = substitute done x) ↔
      ∀ done e rest, dic = done ++ e :: rest → Keeps done e x := by
  constructor
  · intro filled done e rest split
    have split' : dic = (done ++ [e]) ++ rest := by simp [split]
    have sep : Separate (done ++ [e]) := h.sublist (split' ▸ List.sublist_append_left _ _)
    exact (sep.fill_append_iff (filled done _ split)).1 (filled _ _ split')
  · intro keeps done
    induction done using List.reverseRecOn with
    | nil =>
      intro rest split
      exact (substitute_nil x).symm
    | append_singleton done e ih =>
      intro rest split
      have split' : dic = done ++ e :: rest := by simp [split]
      have sep : Separate (done ++ [e]) := h.sublist (split ▸ List.sublist_append_left _ _)
      exact (sep.fill_append_iff (ih _ split')).2 (keeps _ _ _ split')

end Templates
