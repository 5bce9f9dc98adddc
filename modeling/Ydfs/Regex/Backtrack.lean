import Mathlib.Data.List.Basic
import Mathlib.Logic.Function.Basic

/-!
# Regular expressions with backtracking

A regular expression with greedy operators and named groups gives, for a text, all its ways to match
a prefix of it, in the order in which a backtracking matcher comes to them (`results`).  The match
is the first one.  It is found from the left as long as no choice has to be taken back (`Leads.seq`),
and for a repetition of characters once all longer ones are seen to fail (`Leads.plus`).
-/

namespace Ydfs

/-- Regular expressions over characters `α` with groups named in `κ`; a repetition is one of
characters. -/
inductive Regex (α κ : Type) where
  | eps
  | char (p : α → Bool)
  | plus (p : α → Bool)
  | opt (r : Regex α κ)
  | seq (r s : Regex α κ)
  | alt (r s : Regex α κ)
  | group (k : κ) (r : Regex α κ)

namespace Regex

variable {α κ : Type}

/-- What the groups have matched. -/
abbrev Captures (α κ : Type) := κ → Option (List α)

/-- The rest of a text, and what the groups have matched so far. -/
abbrev State (α κ : Type) := List α × Captures α κ

/-- What remains after one or more characters, the longest repetition first. -/
def spans (p : α → Bool) : List α → List (List α)
  | [] => []
  | a :: x => if p a then spans p x ++ [x] else []

/-- All ways to match, the one that is tried first coming first. -/
def results [DecidableEq κ] : Regex α κ → State α κ → List (State α κ)
  | eps, s => [s]
  | char _, ([], _) => []
  | char p, (a :: x, c) => if p a then [(x, c)] else []
  | plus p, (x, c) => (spans p x).map fun y => (y, c)
  | opt r, s => results r s ++ [s]
  | seq r t, s => (results r s).flatMap (results t)
  | alt r t, s => results r s ++ results t s
  | group k r, (x, c) => (results r (x, c)).map fun s =>
      (s.1, Function.update s.2 k (some (x.take (x.length - s.1.length))))

/-- The groups of the first match of a prefix of a text. -/
def match? [DecidableEq κ] (r : Regex α κ) (x : List α) : Option (Captures α κ) :=
  (results r (x, fun _ => none)).head?.map Prod.snd

/-- One expression after another. -/
def cat : List (Regex α κ) → Regex α κ
  | [] => eps
  | r :: rs => seq r (cat rs)

/-- The expression that matches a word. -/
def lit [DecidableEq α] (w : List α) : Regex α κ := cat (w.map fun a => char fun b => b = a)

/-- The groups of an expression. -/
def groups : Regex α κ → List κ
  | eps | char _ | plus _ => []
  | opt r => groups r
  | seq r t | alt r t => groups r ++ groups t
  | group k r => k :: groups r

variable [DecidableEq κ] {r t : Regex α κ} {s s' s'' : State α κ} {x y w : List α}
  {c : Captures α κ} {p : α → Bool}

@[simp]
theorem results_eps : results (eps : Regex α κ) s = [s] := rfl

@[simp]
theorem results_char_nil : results (char p : Regex α κ) ([], c) = [] := rfl

@[simp]
theorem results_char_cons (a : α) :
    results (char p : Regex α κ) (a :: x, c) = if p a then [(x, c)] else [] := rfl

@[simp]
theorem results_plus : results (plus p) s = (spans p s.1).map fun y => (y, s.2) := rfl

@[simp]
theorem results_opt : results (opt r) s = results r s ++ [s] := rfl

@[simp]
theorem results_seq : results (seq r t) s = (results r s).flatMap (results t) := rfl

@[simp]
theorem results_alt : results (alt r t) s = results r s ++ results t s := rfl

@[simp]
theorem results_group (k : κ) : results (group k r) s = (results r s).map fun s' =>
    (s'.1, Function.update s'.2 k (some (s.1.take (s.1.length - s'.1.length)))) := rfl

/-- The first way to match leads from `s` to `s'`. -/
def Leads (r : Regex α κ) (s s' : State α κ) : Prop := (results r s).head? = some s'

theorem match?_of_leads (h : Leads r (x, fun _ => none) s) : r.match? x = some s.2 := by
  unfold match?
  rw [h]
  rfl

/-! ## Repetitions -/

theorem mem_spans : y ∈ spans p x ↔ ∃ w, x = w ++ y ∧ w ≠ [] ∧ ∀ a ∈ w, p a = true := by
  induction x generalizing y with
  | nil => simp [spans]
  | cons a x ih =>
    by_cases ha : p a = true
    · simp only [spans, ha, if_true, List.mem_append, List.mem_singleton, ih]
      constructor
      · rintro (⟨w, rfl, -, hw⟩ | rfl)
        · exact ⟨a :: w, rfl, by simp, by simpa [ha] using hw⟩
        · exact ⟨[a], rfl, by simp, by simpa using ha⟩
      · rintro ⟨w, h, hne, hw⟩
        obtain ⟨b, w, rfl⟩ := List.exists_cons_of_ne_nil hne
        obtain ⟨rfl, rfl⟩ := List.cons.inj h
        cases w with
        | nil => exact .inr rfl
        | cons b w => exact .inl ⟨b :: w, rfl, by simp, fun d hd => hw d (by simp [hd])⟩
    · simp only [spans, ha, Bool.false_eq_true, if_false, List.not_mem_nil, false_iff]
      rintro ⟨w, h, hne, hw⟩
      obtain ⟨b, w, rfl⟩ := List.exists_cons_of_ne_nil hne
      obtain ⟨rfl, rfl⟩ := List.cons.inj h
      exact ha (hw a (by simp))

/-- The longer repetitions come first. -/
theorem spans_append (hne : w ≠ []) (hw : ∀ a ∈ w, p a = true) :
    ∃ shorter, spans p (w ++ y) = spans p y ++ y :: shorter := by
  induction w with
  | nil => exact absurd rfl hne
  | cons a w ih =>
    have ha : p a = true := hw a (by simp)
    by_cases h : w = []
    · subst h
      exact ⟨[], by simp [spans, ha]⟩
    · obtain ⟨shorter, hs⟩ := ih h fun b hb => hw b (by simp [hb])
      exact ⟨shorter ++ [w ++ y], by simp [spans, ha, hs]⟩

/-- A repetition ends before a character that it cannot hold. -/
theorem append_cons_split {u v z : List α} {b : α} (h : u ++ v = w ++ b :: z)
    (hu : ∀ a ∈ u, p a = true) (hb : p b = false) : ∃ w', w = u ++ w' ∧ v = w' ++ b :: z := by
  obtain ⟨w', rfl, rfl⟩ | ⟨u', rfl, hz⟩ := List.append_eq_append_iff.1 h
  · exact ⟨w', rfl, rfl⟩
  · cases u' with
    | nil => exact ⟨[], by simp, by simpa using hz.symm⟩
    | cons d u' =>
      obtain ⟨rfl, -⟩ := List.cons.inj hz
      simp [hu b (by simp)] at hb

/-! ## What an expression leads to -/

theorem leads_eps (s : State α κ) : Leads eps s s := rfl

theorem Leads.seq (h : Leads r s s') (h' : Leads t s' s'') : Leads (seq r t) s s'' := by
  obtain ⟨more, hr⟩ := List.head?_eq_some_iff.1 h
  obtain ⟨more', ht⟩ := List.head?_eq_some_iff.1 h'
  rw [Leads, results_seq, hr, List.flatMap_cons, ht]
  rfl

theorem Leads.opt (h : Leads r s s') : Leads (opt r) s s' := by
  obtain ⟨more, hr⟩ := List.head?_eq_some_iff.1 h
  rw [Leads, results_opt, hr]
  rfl

/-- An option that cannot be taken. -/
theorem leads_opt_skip (h : results r s = []) : Leads (opt r) s s := by
  rw [Leads, results_opt, h]
  rfl

theorem Leads.alt_left (h : Leads r s s') : Leads (alt r t) s s' := by
  obtain ⟨more, hr⟩ := List.head?_eq_some_iff.1 h
  rw [Leads, results_alt, hr]
  rfl

theorem Leads.alt_right (h : results r s = []) (h' : Leads t s s') : Leads (alt r t) s s' := by
  rwa [Leads, results_alt, h, List.nil_append]

theorem Leads.group (k : κ) (h : Leads r (w ++ y, c) (y, c)) :
    Leads (group k r) (w ++ y, c) (y, Function.update c k (some w)) := by
  obtain ⟨more, hr⟩ := List.head?_eq_some_iff.1 h
  rw [Leads, results_group, hr]
  simp

theorem leads_char {a : α} (h : p a = true) : Leads (char p) (a :: x, c) (x, c) := by
  simp [Leads, h]

/-- A repetition that goes as far as it can. -/
theorem leads_plus (hne : w ≠ []) (hw : ∀ a ∈ w, p a = true) (stop : ∀ a ∈ y.head?, p a = false) :
    Leads (plus p) (w ++ y, c) (y, c) := by
  obtain ⟨shorter, hs⟩ := spans_append (y := y) hne hw
  have longer : spans p y = [] := by
    cases y with
    | nil => rfl
    | cons a y => simp [spans, stop a rfl]
  simp [Leads, hs, longer]

/-- A repetition in a group, once all that is longer fails in the sequel. -/
theorem Leads.plus (k : κ) (hne : w ≠ []) (hw : ∀ a ∈ w, p a = true)
    (longer : ∀ u v, y = u ++ v → u ≠ [] → (∀ a ∈ u, p a = true) →
      results t (v, Function.update c k (some (w ++ u))) = [])
    (h : Leads t (y, Function.update c k (some w)) s') :
    Leads (Regex.seq (Regex.group k (Regex.plus p)) t) (w ++ y, c) s' := by
  obtain ⟨shorter, hs⟩ := spans_append (y := y) hne hw
  obtain ⟨more, ht⟩ := List.head?_eq_some_iff.1 h
  have fails : ∀ v ∈ spans p y, results t (v, Function.update c k
      (some ((w ++ y).take ((w ++ y).length - v.length)))) = [] := by
    intro v hv
    obtain ⟨u, rfl, hu, hall⟩ := mem_spans.1 hv
    have taken : (w ++ (u ++ v)).take ((w ++ (u ++ v)).length - v.length) = w ++ u := by
      rw [← List.append_assoc, List.length_append, Nat.add_sub_cancel, List.take_left]
    rw [taken]
    exact longer u v rfl hu hall
  unfold Leads
  simp only [results_seq, results_group, results_plus, hs, List.map_append, List.map_map,
    List.flatMap_append, List.map_cons, List.flatMap_cons]
  rw [List.flatMap_eq_nil_iff.2 (by simpa using fails), List.nil_append]
  simp [ht]

/-- An option that is taken, and the sequel. -/
theorem Leads.opt_seq (h : Leads (Regex.seq r t) s s') :
    Leads (Regex.seq (Regex.opt r) t) s s' := by
  obtain ⟨more, hr⟩ := List.head?_eq_some_iff.1 h
  unfold Leads
  simp only [results_seq, results_opt, List.flatMap_append] at hr ⊢
  rw [hr]
  rfl

theorem results_lit [DecidableEq α] (w : List α) : results (lit w) (w ++ x, c) = [(x, c)] := by
  induction w with
  | nil => rfl
  | cons a w ih => simpa [lit, cat] using ih

theorem leads_lit [DecidableEq α] (w : List α) : Leads (lit w) (w ++ x, c) (x, c) := by
  unfold Leads
  rw [results_lit]
  rfl

theorem mem_results_group_plus {k : κ} (h : s ∈ results (group k (plus p)) (x, c)) :
    ∃ w, x = w ++ s.1 ∧ w ≠ [] ∧ (∀ a ∈ w, p a = true) ∧ s.2 = Function.update c k (some w) := by
  simp only [results_group, results_plus, List.map_map, List.mem_map] at h
  obtain ⟨y, hy, rfl⟩ := h
  obtain ⟨w, rfl, hne, hw⟩ := mem_spans.1 hy
  exact ⟨w, rfl, hne, hw, by simp⟩

/-- A word that is not there. -/
theorem results_lit_eq_nil [DecidableEq α] (h : ¬ w <+: x) : results (lit w) (x, c) = [] := by
  induction w generalizing x with
  | nil => exact absurd (List.nil_prefix) h
  | cons a w ih =>
    cases x with
    | nil => rfl
    | cons b x =>
      by_cases hab : b = a
      · subst hab
        have rest : ¬ w <+: x := fun hp => h (List.cons_prefix_cons.2 ⟨rfl, hp⟩)
        simpa [lit, cat] using ih rest
      · simp [lit, cat, hab]

theorem results_seq_eq_nil (h : results r s = []) : results (seq r t) s = [] := by
  simp [h]

theorem Leads.mem (h : Leads r s s') : s' ∈ results r s := List.mem_of_head? h

/-- An option always leads somewhere. -/
theorem exists_leads_opt (r : Regex α κ) (s : State α κ) : ∃ s', Leads (opt r) s s' := by
  have some : results (opt r) s ≠ [] := by simp
  exact ⟨_, List.head?_eq_some_head some⟩

theorem exists_leads_seq (hr : ∀ s, ∃ s', Leads r s s') (ht : ∀ s, ∃ s', Leads t s s')
    (s : State α κ) : ∃ s', Leads (seq r t) s s' := by
  obtain ⟨s₁, h₁⟩ := hr s
  obtain ⟨s₂, h₂⟩ := ht s₁
  exact ⟨s₂, h₁.seq h₂⟩

/-- A repetition needs a character to start with. -/
theorem results_plus_eq_nil (h : ∀ a ∈ x.head?, p a = false) : results (plus p) (x, c) = [] := by
  cases x with
  | nil => rfl
  | cons a x => simp [spans, h a rfl]

theorem results_group_eq_nil (k : κ) (h : results r s = []) : results (group k r) s = [] := by
  simp [h]

/-- What a group has matched stays when later expressions do not have the group. -/
theorem captures_of_mem {k : κ} (hk : k ∉ groups r) (h : s' ∈ results r s) : s'.2 k = s.2 k := by
  induction r generalizing s s' with
  | eps => simp_all
  | char p =>
    obtain ⟨_ | ⟨a, x⟩, c⟩ := s
    · simp at h
    · by_cases ha : p a = true <;> simp_all
  | plus p =>
    simp only [results_plus, List.mem_map] at h
    obtain ⟨y, -, rfl⟩ := h
    rfl
  | opt r ih =>
    simp only [results_opt, List.mem_append, List.mem_singleton] at h
    obtain h | rfl := h
    · exact ih hk h
    · rfl
  | seq r t ihr iht =>
    simp only [groups, List.mem_append, not_or] at hk
    simp only [results_seq, List.mem_flatMap] at h
    obtain ⟨s₁, h₁, h₂⟩ := h
    exact (iht hk.2 h₂).trans (ihr hk.1 h₁)
  | alt r t ihr iht =>
    simp only [groups, List.mem_append, not_or] at hk
    simp only [results_alt, List.mem_append] at h
    obtain h | h := h
    · exact ihr hk.1 h
    · exact iht hk.2 h
  | group k' r ih =>
    simp only [groups, List.mem_cons, not_or] at hk
    simp only [results_group, List.mem_map] at h
    obtain ⟨s₁, h₁, rfl⟩ := h
    dsimp only
    rw [Function.update_of_ne hk.1]
    exact ih hk.2 h₁

end Regex

end Ydfs
