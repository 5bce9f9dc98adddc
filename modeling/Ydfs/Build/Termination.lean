import Mathlib.Data.List.Basic
import Mathlib.Logic.Relation
import Ydfs.Build.ChildPkg

/-!
# When `get_child_pkg` terminates

After a failed download `get_child_pkg` calls itself on whatever `depends` holds.  That is its own
list when no earlier package of the list has been visited, so that the same package comes first
again: the recursion ends only if a later attempt succeeds, or if the list is ready nevertheless and
one of the builds leaves the shell (`Doomed`).  After an earlier package has been visited, `depends`
holds the list of the call entered last, all of whose packages are settled (`Rested`), and the failure
does no harm.  A successful download adds one of finitely many files, so these are the only calls that
do not come to an end.
-/

namespace Ydfs.Build

open Transition

variable {repo : Repository} {s s' t : Shell} {pkg q w : String} {l : List String}

namespace Shell

/-- The first package of the list that the loop does not pass over. -/
def firstMissing (s : Shell) : Option String := (s.words.map getAlias).find? fun q => !s.settled q

/-- The loop passes over every package of the list. -/
def Rested (s : Shell) : Prop := ∀ w ∈ s.words, s.settled (getAlias w) = true

/-- The attempt `k` to download `q` is still to come, or `q` is there. -/
def Pending (s : Shell) (q : String) (k : ℕ) : Prop := s.attempts q ≤ k ∨ (s.archpkg q).isSome

/-- An attempt that succeeds is not passed by without leaving the file. -/
theorem Pending.echoArchpkg {k : ℕ} (h : s.Pending q k) (found : repo.fetch q k ≠ none)
    (r : String) : (s.echoArchpkg repo r).Pending q k := by
  rcases h with h | h
  · unfold Pending Shell.echoArchpkg
    split_ifs with hr
    · exact .inl h
    · by_cases hqr : q = r
      · subst hqr
        rcases Nat.lt_or_eq_of_le h with h | h
        · exact .inl (by simpa using Nat.succ_le_of_lt h)
        · right
          simpa [h] using Option.isSome_iff_ne_none.2 found
      · exact .inl (by simpa [Function.update_of_ne hqr] using h)
  · exact .inr (grows_echoArchpkg s r q h)

theorem Pending.enter {k : ℕ} (h : s.Pending q k) (found : repo.fetch q k ≠ none) :
    (s.enter repo).Pending q k := by
  rcases enter_cases repo s with ⟨ha, hk⟩ | ⟨d, -, ha, hk⟩
  · rwa [Pending, ha, hk]
  · rw [Pending, ha, hk]
    exact h.echoArchpkg found d

/-- How many packages have not been downloaded yet. -/
def unfetched (repo : Repository) (s : Shell) : ℕ :=
  (repo.packages.filter fun q => (s.archpkg q).isNone).card

theorem unfetched_le (repo : Repository) (h : s.Grows s') : s'.unfetched repo ≤ s.unfetched repo := by
  refine Finset.card_le_card fun q hq => ?_
  simp only [Finset.mem_filter] at hq ⊢
  refine ⟨hq.1, ?_⟩
  by_contra hs
  have there := h q (by simpa [Option.isSome_iff_ne_none] using hs)
  simp [Option.isNone_iff_eq_none.1 hq.2] at there

/-- A package that has arrived is one less to download. -/
theorem unfetched_lt (h : s.Grows s') (hq : q ∈ repo.packages) (missing : s.archpkg q = none)
    (there : (s'.archpkg q).isSome) : s'.unfetched repo < s.unfetched repo := by
  refine Finset.card_lt_card (Finset.ssubset_iff_of_subset (fun r hr => ?_) |>.2 ⟨q, ?_, ?_⟩)
  · simp only [Finset.mem_filter] at hr ⊢
    refine ⟨hr.1, ?_⟩
    by_contra hs
    have there := h r (by simpa [Option.isSome_iff_ne_none] using hs)
    simp [Option.isNone_iff_eq_none.1 hr.2] at there
  · simp [hq, missing]
  · simp only [Finset.mem_filter, not_and]
    intro _ hn
    simp [Option.isNone_iff_eq_none.1 hn] at there

end Shell

/-! ## The loop of one call -/

open Shell

/-- Where the loop that started in `e` stands after the packages `l`: nothing has been visited yet,
or the list of the call entered last has been settled. -/
def Progress (e : Shell) (l : List String) (t : Shell) : Prop :=
  t.Rested ∨ t.archpkg = e.archpkg ∧ t.attempts = e.attempts ∧ t.depends = e.depends ∧
    t.built = e.built ∧ t.exited = e.exited ∧ ∀ w ∈ l, e.settled (getAlias w) = true

theorem Shell.Rested.of_eq (h : s.Rested) (ha : s'.archpkg = s.archpkg)
    (hd : s'.depends = s.depends) (he : s'.exited = s.exited) : s'.Rested := by
  intro w hw
  rw [words, hd, he] at hw
  simpa [settled, ha] using h w hw

/-- When the shell has been left, nothing is to be done. -/
theorem Shell.rested_of_exited (h : s.exited = true) : s.Rested := by
  intro w hw
  rw [words_of_exited h] at hw
  cases hw

theorem Shell.Rested.leave (h : s.Rested) : s.leave.Rested := by
  unfold Shell.leave
  split_ifs
  · exact h
  · exact h.of_eq rfl rfl rfl

theorem Shell.grows_leave (s : Shell) : s.Grows s.leave := by
  intro q hq
  unfold Shell.leave
  split_ifs
  · exact hq
  · exact hq

theorem contract (repo : Repository) (b : Shell) :
    (getChildPkg repo).Contract (fun s => b.Grows s) (fun r => b.Grows r ∧ r.Rested)
      fun e l t => b.Grows t ∧ Progress e l t where
  start s hs := ⟨hs.trans (grows_enter s), .inr ⟨rfl, rfl, rfl, rfl, rfl, by simp⟩⟩
  skip e l t w t' h hv := by
    obtain ⟨grows, h⟩ := h
    rcases settled_of_skip hv with ⟨left, rfl⟩ | ⟨-, hw, rfl⟩
    · exact ⟨grows, .inl (rested_of_exited left)⟩
    · refine ⟨grows, h.imp (fun rested => rested.of_eq rfl rfl rfl)
        fun ⟨ha, hk, hd, hb, he, hl⟩ => ⟨ha, hk, hd, hb, he, fun u hu => ?_⟩⟩
      rcases List.mem_append.1 hu with hu | hu
      · exact hl u hu
      · rw [List.mem_singleton.1 hu]
        simpa [settled, ha] using hw
  call e l t w s' h hv := by
    obtain ⟨-, -, rfl⟩ := missing_of_visit hv
    exact h.1.trans (grows_load t _)
  resume e l t w s' r _ _ hr := ⟨hr.1, .inl hr.2⟩
  finish e t h := by
    have rested : t.Rested := by
      rcases h.2 with rested | ⟨ha, -, hd, -, he, hl⟩
      · exact rested
      · intro w hw
        have settled := hl w (by rwa [words, hd, he] at hw)
        simpa [Shell.settled, ha] using settled
    exact ⟨h.1.trans (grows_leave t), rested.leave⟩

/-- The state in which a call makes a nested call. -/
theorem calls_cases (h : (getChildPkg repo).Calls s s') :
    ∃ t q, s' = t.load repo q ∧ t.archpkg q = none ∧ t.exited = false ∧ (s.enter repo).Grows t ∧
      (t.Rested ∨ (s.enter repo).firstMissing = some q ∧ t.archpkg = (s.enter repo).archpkg ∧
        t.attempts = (s.enter repo).attempts ∧ t.depends = (s.enter repo).depends ∧
        t.built = (s.enter repo).built ∧ (s.enter repo).exited = false) := by
  obtain ⟨l, w, l', t, hl, passes, hv⟩ := h
  obtain ⟨grows, progress⟩ := (contract repo (s.enter repo)).passes
    ⟨Grows.refl _, .inr ⟨rfl, rfl, rfl, rfl, rfl, by simp⟩⟩ passes
  obtain ⟨here, hw, rfl⟩ := missing_of_visit hv
  refine ⟨t, getAlias w, rfl, archpkg_of_not_settled hw, here, grows, progress.imp id
    fun ⟨ha, hk, hd, hb, he, settled⟩ => ⟨?_, ha, hk, hd, hb, he ▸ here⟩⟩
  have words : (s.enter repo).words = l ++ w :: l' := hl
  rw [firstMissing, words, List.map_append, List.find?_append, List.find?_eq_none.2, Option.none_or]
  · refine List.find?_cons_of_pos ?_
    simpa [Shell.settled, ha] using hw
  · intro q hq
    obtain ⟨u, hu, rfl⟩ := List.mem_map.1 hq
    simpa using settled u hu

/-- A call whose list is settled makes no nested call. -/
theorem not_calls_of_rested (h : s.Rested) : ¬ (getChildPkg repo).Calls s s' := by
  rintro ⟨l, w, l', t, hl, passes, hv⟩
  obtain ⟨grows, -⟩ := (contract repo (s.enter repo)).passes
    ⟨Grows.refl _, .inr ⟨rfl, rfl, rfl, rfl, rfl, by simp⟩⟩ passes
  have words : (s.enter repo).words = l ++ w :: l' := hl
  have inEnter : w ∈ (s.enter repo).words := by simp [words]
  have inList : w ∈ s.words := mem_of_mem_words_enter inEnter
  have settled := ((grows_enter s).trans grows).settled (h w inList)
  obtain ⟨-, missing, -⟩ := missing_of_visit hv
  rw [settled] at missing
  cases missing

/-! ## Calls that do not come to an end -/

/-- All packages of the list are in `donotbuild`, so that `ready_to_build` succeeds; an alias of one
may be missing nevertheless. -/
def Shell.Ready (s : Shell) : Prop := ∀ w ∈ s.words, w ∈ donotbuild

/-- All remaining attempts to download the first missing package of the list fail, and if the list is
ready, none of the builds that are made meanwhile leaves the shell. -/
def Doomed (repo : Repository) (s : Shell) : Prop :=
  ∃ q, (s.enter repo).firstMissing = some q ∧
    (∀ k, (s.enter repo).attempts q ≤ k → repo.fetch q k = none) ∧
    ((s.enter repo).Ready → ∀ k, (s.enter repo).built.length ≤ k → repo.exits (some q) k = false)

theorem readyToBuild_iff (ne : l ≠ []) (notfound : Option Bool) :
    (readyToBuild l notfound).1 = true ↔ ∀ w ∈ l, w ∈ donotbuild := by
  induction l generalizing notfound with
  | nil => exact absurd rfl ne
  | cons w l ih =>
    rw [readyToBuild, List.forall_mem_cons]
    split_ifs with known
    · rw [and_iff_right known]
      cases l with
      | nil => simp [readyToBuild]
      | cons w' l => exact ih (by simp) _
    · simp [known]

theorem words_ne_of_firstMissing (first : s.firstMissing = some q) : s.words ≠ [] := by
  intro empty
  simp [firstMissing, empty] at first

/-- A loop passes over settled packages. -/
theorem passes_of_settled (repo : Repository) (l : List String) (here : t.exited = false)
    (h : ∀ w ∈ l, t.settled (getAlias w) = true) :
    ∃ d, (getChildPkg repo).Passes l t { t with d } := by
  induction l generalizing t with
  | nil => exact ⟨t.d, .nil⟩
  | cons w l ih =>
    obtain ⟨hw, hl⟩ := List.forall_mem_cons.1 h
    have skip : (getChildPkg repo).Passes [w] t { t with d := some (getAlias w) } :=
      .of_skip (visit_settled here hw)
    obtain ⟨d, rest⟩ := ih (t := { t with d := some (getAlias w) }) here hl
    exact ⟨d, skip.append rest⟩

/-- Where a call stands that visits its first missing package, the download of which fails. -/
structure Repeats (repo : Repository) (e t : Shell) (q : String) : Prop where
  archpkg : t.archpkg = e.archpkg
  attempts : t.attempts = e.attempts
  depends : t.depends = e.depends
  built : t.built = e.built
  entered : e.exited = false
  here : t.exited = false
  first : e.firstMissing = some q
  fail : repo.fetch q (t.attempts q) = none

namespace Repeats

variable {e : Shell} (h : Repeats repo e t q)

include h

theorem missing : t.archpkg q = none := by
  rw [h.archpkg]
  exact archpkg_of_not_settled (by simpa using List.find?_some h.first)

theorem load_eq : t.load repo q =
    { t with d := some q, attempts := Function.update t.attempts q (t.attempts q + 1) } :=
  load_of_fail h.missing h.fail

theorem exited_load_eq : (t.load repo q).exited = false := (exited_load t q).trans h.here

/-- The nested call gets the same list. -/
theorem flatten_depends : (t.load repo q).depends.flatten = e.words := by
  rw [h.load_eq, words_of_not_exited h.entered]
  exact congrArg List.flatten h.depends

theorem words_load : (t.load repo q).words = e.words := by
  rw [words_of_not_exited h.exited_load_eq, h.flatten_depends]

theorem ready_iff : (readyToBuild (t.load repo q).depends.flatten (t.load repo q).notfound).1 = true ↔
    e.Ready := by
  rw [h.flatten_depends, readyToBuild_iff (words_ne_of_firstMissing h.first)]
  rfl

/-- A list that is ready has the missing package built in the nested call. -/
theorem enter_ready (ready : e.Ready) :
    ((t.load repo q).enter repo).built = some q :: e.built ∧
      ((t.load repo q).enter repo).exited = repo.exits (some q) e.built.length := by
  obtain ⟨built, exits⟩ := enter_of_ready h.exited_load_eq (h.ready_iff.2 ready)
  rw [built, exits, built_load, d_load, h.built]
  exact ⟨rfl, rfl⟩

theorem enter_not_ready (unready : ¬ e.Ready) :
    ((t.load repo q).enter repo).built = e.built ∧ ((t.load repo q).enter repo).exited = false := by
  have other := Bool.eq_false_iff.2 fun ready => unready (h.ready_iff.1 ready)
  obtain ⟨built, here⟩ := enter_of_not_ready h.exited_load_eq other
  rw [built, built_load, h.built]
  exact ⟨rfl, here⟩

theorem length_built_le :
    e.built.length ≤ ((t.load repo q).enter repo).built.length := by
  by_cases ready : e.Ready
  · rw [(h.enter_ready ready).1]
    exact Nat.le_succ _
  · rw [(h.enter_not_ready ready).1]

/-- One attempt more has been made. -/
theorem attempts_lt : e.attempts q < ((t.load repo q).enter repo).attempts q := by
  refine lt_of_lt_of_le ?_ (attempts_le_enter _ q)
  rw [h.load_eq, ← h.attempts]
  simp

variable (after : ((t.load repo q).enter repo).exited = false)

include after

theorem words_again :
    ((t.load repo q).enter repo).words = e.words ++ (t.load repo q).depends.tail.flatten := by
  rw [words_enter h.exited_load_eq after, h.words_load]

theorem ready_again : ((t.load repo q).enter repo).Ready ↔ e.Ready := by
  constructor
  · intro ready w hw
    exact ready w (by rw [h.words_again after]; exact List.mem_append_left _ hw)
  · intro ready w hw
    exact ready w (h.words_load ▸ mem_of_mem_words_enter hw)

/-- After a failed download of its first missing package a call visits the same list again. -/
theorem firstMissing_again (still : ((t.load repo q).enter repo).archpkg q = none) :
    ((t.load repo q).enter repo).firstMissing = some q := by
  have archpkg : ((t.load repo q).enter repo).archpkg = e.archpkg := by
    rw [archpkg_enter_of_none (d_load t q) still, h.load_eq]
    exact h.archpkg
  have same : ∀ r, ((t.load repo q).enter repo).settled r = e.settled r := fun r => by
    rw [settled, settled, archpkg]
  simp only [firstMissing, h.words_again after, List.map_append, List.find?_append, same]
  rw [show (e.words.map getAlias).find? (fun r => !e.settled r) = some q from h.first]
  rfl

end Repeats

theorem not_exited_of_firstMissing (first : s.firstMissing = some q) : s.exited = false := by
  cases left : s.exited with
  | true => exact absurd (words_of_exited left) (words_ne_of_firstMissing first)
  | false => rfl

/-- A doomed call makes another one: the download fails, and `depends` still holds the same list. -/
theorem Doomed.calls (h : Doomed repo s) : ∃ s', (getChildPkg repo).Calls s s' ∧ Doomed repo s' := by
  obtain ⟨q, first, fail, stays⟩ := h
  have entered := not_exited_of_firstMissing first
  obtain ⟨missing, as, bs, hw, settled⟩ := List.find?_eq_some_iff_append.1 first
  obtain ⟨l, l', words, rfl, hl'⟩ := List.map_eq_append_iff.1 hw
  obtain ⟨w, l', rfl, rfl, -⟩ := List.map_eq_cons_iff.1 hl'
  obtain ⟨d, passes⟩ := passes_of_settled repo l entered fun u hu => by
    simpa using settled _ (List.mem_map_of_mem hu)
  have unsettled : (s.enter repo).settled (getAlias w) = false := by simpa using missing
  have repeats : Repeats repo (s.enter repo) { s.enter repo with d } (getAlias w) :=
    ⟨rfl, rfl, rfl, rfl, entered, entered, first, fail _ le_rfl⟩
  have after : ((Shell.load repo { s.enter repo with d } (getAlias w)).enter repo).exited = false := by
    by_cases ready : (s.enter repo).Ready
    · rw [(repeats.enter_ready ready).2]
      exact stays ready _ le_rfl
    · exact (repeats.enter_not_ready ready).2
  refine ⟨_, ⟨l, w, l', _, words, passes, visit_missing entered unsettled⟩, getAlias w, ?_,
    fun k hk => fail k (repeats.attempts_lt.le.trans hk), fun ready k hk => ?_⟩
  · refine repeats.firstMissing_again after (archpkg_enter_of_fail ?_ ?_)
    · rw [repeats.load_eq]
      exact repeats.missing
    · rw [repeats.load_eq]
      simpa using fail _ (Nat.le_succ _)
  · exact stays ((repeats.ready_again after).1 ready) k (repeats.length_built_le.trans hk)

/-- A doomed call does not come to an end. -/
theorem Doomed.not_terminates (h : Doomed repo s) : ¬ (getChildPkg repo).Terminates s := by
  rw [LoopProgram.terminates_iff_acc]
  intro acc
  induction acc with
  | intro s _ ih =>
    obtain ⟨s', calls, doomed⟩ := h.calls
    exact ih s' calls doomed

/-! ## Calls that come to an end -/

/-- No call that the call in `s` leads to is doomed. -/
def Safe (repo : Repository) (s : Shell) : Prop :=
  ∀ s', Relation.ReflTransGen (getChildPkg repo).Calls s s' → ¬ Doomed repo s'

theorem Safe.call (h : Safe repo s) (hc : (getChildPkg repo).Calls s s') : Safe repo s' :=
  fun s'' hs => h s'' (.head hc hs)

/-- One of the next `δ` attempts to download the first missing package succeeds, or the list is ready
and one of the next `δ` builds leaves the shell. -/
def Soon (repo : Repository) (δ : ℕ) (s : Shell) : Prop :=
  ∀ q, (s.enter repo).firstMissing = some q →
    (∃ k, repo.fetch q k ≠ none ∧ (s.enter repo).attempts q ≤ k ∧
      k < (s.enter repo).attempts q + δ) ∨
    (s.enter repo).Ready ∧ ∃ k, repo.exits (some q) k = true ∧ (s.enter repo).built.length ≤ k ∧
      k < (s.enter repo).built.length + δ

theorem soon_of_not_doomed (h : ¬ Doomed repo s) : ∃ δ, Soon repo δ s := by
  cases first : (s.enter repo).firstMissing with
  | none => exact ⟨0, fun q hq => by simp [first] at hq⟩
  | some q =>
    have later : (∃ k, (s.enter repo).attempts q ≤ k ∧ repo.fetch q k ≠ none) ∨
        (s.enter repo).Ready ∧ ∃ k, (s.enter repo).built.length ≤ k ∧
          repo.exits (some q) k = true := by
      by_contra never
      push Not at never
      obtain ⟨fail, stays⟩ := never
      exact h ⟨q, first, fail, fun ready k hk => by simpa using stays ready k hk⟩
    rcases later with ⟨k, hk, found⟩ | ⟨ready, k, hk, exits⟩
    · refine ⟨k + 1, fun r hr => .inl ?_⟩
      obtain rfl : q = r := Option.some.inj (first.symm.trans hr)
      exact ⟨k, found, hk, by omega⟩
    · refine ⟨k + 1, fun r hr => .inr ⟨ready, ?_⟩⟩
      obtain rfl : q = r := Option.some.inj (first.symm.trans hr)
      exact ⟨k, exits, hk, by omega⟩

/-- A package that has arrived has been downloaded. -/
theorem fetch_of_enter (missing : s.archpkg q = none) (there : ((s.enter repo).archpkg q).isSome) :
    ∃ k, repo.fetch q k ≠ none := by
  rcases enter_cases repo s with ⟨ha, -⟩ | ⟨d, -, ha, -⟩
  · simp [ha, missing] at there
  · rw [ha, echoArchpkg] at there
    split_ifs at there
    · simp [missing] at there
    · by_cases same : q = d
      · subst same
        dsimp only at there
        rw [Function.update_self] at there
        exact ⟨_, Option.isSome_iff_ne_none.1 there⟩
      · simp [Function.update_of_ne same, missing] at there

/-- A failed download brings the end nearer, unless a package arrives. -/
theorem Soon.load {δ : ℕ} (h : Soon repo (δ + 1) s) (repeats : Repeats repo (s.enter repo) t q) :
    (((t.load repo q).enter repo).archpkg q).isSome ∨ Soon repo δ (t.load repo q) := by
  rcases Bool.eq_false_or_eq_true ((t.load repo q).enter repo).exited with left | after
  · refine .inr fun r hr => ?_
    rw [not_exited_of_firstMissing hr] at left
    cases left
  cases there : ((t.load repo q).enter repo).archpkg q with
  | some f => exact .inl rfl
  | none =>
    refine .inr fun r hr => ?_
    obtain rfl : q = r := Option.some.inj ((repeats.firstMissing_again after there).symm.trans hr)
    rcases h q repeats.first with ⟨k, found, le, lt⟩ | ⟨ready, k, exits, le, lt⟩
    · have pending : (t.load repo q).Pending q k := by
        rw [repeats.load_eq]
        refine .inl ?_
        have hne : t.attempts q ≠ k := by
          rintro rfl
          exact found repeats.fail
        rw [repeats.attempts] at hne ⊢
        simpa using Nat.succ_le_of_lt (Nat.lt_of_le_of_ne le hne)
      have before := (pending.enter found).resolve_right (by simp [there])
      have more := repeats.attempts_lt
      exact .inl ⟨k, found, before, by omega⟩
    · obtain ⟨built, exited⟩ := repeats.enter_ready ready
      have other : (s.enter repo).built.length ≠ k := by
        rintro rfl
        rw [exited, exits] at after
        cases after
      have length : ((t.load repo q).enter repo).built.length =
          (s.enter repo).built.length + 1 := by
        rw [built, List.length_cons]
      exact .inr ⟨(repeats.ready_again after).2 ready, k, exits, by omega, by omega⟩

/-- A safe call is well-founded: a nested call downloads another package, or it repeats the list and
the end is nearer, or it makes no call itself. -/
theorem acc_of_safe (safe : Safe repo s) : Acc (fun a b => (getChildPkg repo).Calls b a) s := by
  generalize hN : (s.enter repo).unfetched repo = N
  induction N using Nat.strong_induction_on generalizing s with
  | _ N ih =>
    obtain ⟨δ, soon⟩ := soon_of_not_doomed (safe s .refl)
    induction δ using Nat.strong_induction_on generalizing s with
    | _ δ ihδ =>
      refine ⟨s, fun s' hc => ?_⟩
      have safe' := safe.call hc
      obtain ⟨t, q, rfl, missing, left, grows, here⟩ := calls_cases hc
      have grows' : (s.enter repo).Grows ((t.load repo q).enter repo) :=
        (grows.trans (grows_load t q)).trans (grows_enter _)
      have fewer : ∀ k, repo.fetch q k ≠ none → (s.enter repo).archpkg q = none →
          (((t.load repo q).enter repo).archpkg q).isSome →
          ((t.load repo q).enter repo).unfetched repo < N := fun k found absent there => by
        obtain ⟨f, hf⟩ := Option.ne_none_iff_exists'.1 found
        exact hN ▸ unfetched_lt grows' (repo.fetch_mem q k f hf) absent there
      have absent : (s.enter repo).archpkg q = none := by
        cases hq : (s.enter repo).archpkg q with
        | none => rfl
        | some f => simpa [missing] using grows q (by simp [hq])
      cases found : repo.fetch q (t.attempts q) with
      | some f =>
        have there : (((t.load repo q).enter repo).archpkg q).isSome :=
          grows_enter _ q (by simp [archpkg_load_of_success missing found])
        exact ih _ (fewer (t.attempts q) (by simp [found]) absent there) safe' rfl
      | none =>
        have load := load_of_fail missing found
        rcases here with rested | ⟨first, ha, hk, hd, hb, entered⟩
        · refine ⟨_, fun s'' hc' => absurd hc' (not_calls_of_rested ?_)⟩
          exact rested.of_eq (by rw [load]) (by rw [load]) (by rw [load])
        · have repeats : Repeats repo (s.enter repo) t q :=
            ⟨ha, hk, hd, hb, entered, left, first, found⟩
          obtain _ | δ := δ
          · rcases soon q first with ⟨k, -, le, lt⟩ | ⟨-, k, -, le, lt⟩
            · omega
            · omega
          rcases soon.load repeats with there | soon'
          · obtain ⟨k, success⟩ := fetch_of_enter (s := t.load repo q) (by rw [load]; exact missing)
              there
            exact ih _ (fewer k success absent there) safe' rfl
          · rcases Nat.lt_or_eq_of_le (hN ▸ unfetched_le repo grows') with lt | eq
            · exact ih _ lt safe' rfl
            · exact ihδ δ (Nat.lt_succ_self δ) safe' eq soon'

/-- `get_child_pkg` comes to its end exactly when, of no call that it leads to, the first missing
package is one that no later attempt downloads, while no build leaves the shell. -/
theorem get_child_pkg_terminates_iff (repo : Repository) (s : Shell) :
    (getChildPkg repo).Terminates s ↔
      ∀ s', Relation.ReflTransGen (getChildPkg repo).Calls s s' → ¬ Doomed repo s' := by
  constructor
  · intro terminates s' calls doomed
    rw [LoopProgram.terminates_iff_acc] at terminates
    induction calls using Relation.ReflTransGen.head_induction_on with
    | refl => exact doomed.not_terminates (LoopProgram.terminates_iff_acc.2 terminates)
    | head hc _ ih => exact ih (terminates.inv hc)
  · exact fun safe => LoopProgram.terminates_iff_acc.2 (acc_of_safe safe)

/-- Only `m4` can be downloaded, and it depends on `libsigsegv`. -/
def missingDependency : Repository where
  fetch pkg _ := if pkg = "m4" then some ⟨some ["libsigsegv"]⟩ else none
  exits _ _ := true
  packages := {"m4"}
  fetch_mem pkg k f h := by
    split_ifs at h with hp
    simpa using hp

/-- The call for the entry `archlastbuild:m4` does not come to its end. -/
theorem not_get_child_pkg_terminates :
    ¬ ∀ (repo : Repository) (s : Shell), (getChildPkg repo).Terminates s := by
  intro h
  have doomed : Doomed missingDependency
      ((Shell.echoArchpkg missingDependency {} "m4").source "m4") :=
    ⟨"libsigsegv", by decide, fun _ _ => rfl, fun ready => absurd (ready "libsigsegv" (by decide))
      (by decide)⟩
  exact doomed.not_terminates (h _ _)

end Ydfs.Build
