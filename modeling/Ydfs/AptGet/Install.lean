import Mathlib.Data.Finset.Card
import Mathlib.Order.WellFounded
import Ydfs.AptGet.Depends
import Ydfs.Transition.Recursion

/-!
# The recursive installation

`apt-get install` fetches a package, unpacks it, makes a directory for it under `tmp`, and runs itself
for each dependency that has no such directory yet.  The processes share the file system only.  A
download that fails ends a process before it has unpacked anything; a package that has been unpacked
has its directory before the first nested call.  So each call below the first one adds a directory or
calls nothing, and no package is unpacked twice.
-/

namespace Ydfs.AptGet

open Transition

namespace Install

/-- The packages that are taken to be there. -/
def unneeded : List Text :=
  ["libsdl-ttf2.0-0".toList, "libsdl1.2debian".toList, "libgcc1".toList, "libx11".toList,
    "libxml".toList, "libfribidi0".toList, "libpng12".toList, "libsdl".toList, "libcurl3".toList,
    "libasound2".toList, "libfftw".toList, "libfontconfig".toList, "libfreetype".toList,
    "libsamplerate".toList, "libreadline".toList, "libjack-0".toList, "libogg".toList,
    "libportaudio".toList, "libdbus".toList, "libglib".toList, "libsndfile".toList,
    "libpulse".toList, "libqt".toList, "freeglut3".toList, "install-info".toList,
    "libgl1-mesa-glx".toList, "libgl1".toList, "libglu1-mesa".toList, "libglu1".toList,
    "zlib1g".toList, "dpkg".toList, "libc6".toList, "multiarch-support".toList,
    "libstdc++6".toList]

/-- The loop goes on to the next element. -/
def skipped (element : Text) : Bool :=
  unneeded.any (fun word => Depends.grep word element) || !Depends.isName element

/-- What one process meets: whether the message that the package is there is confirmed, whether the
page of the package has an address and the archive can be fetched, what else under `tmp` comes with
the archive, its control file, and whether the process stops because there is none. -/
structure Attempt where
  confirmed : Bool
  page : Bool
  fetched : Bool
  brings : Text → Bool
  control : Text
  stopped : Bool

/-- The mirror and the user: what each process meets, and the answer to each question. -/
structure World where
  attempt : ℕ → Attempt
  answer : ℕ → Bool

/-- The directories under `tmp`, the archives that have been unpacked, the newest first, the numbers of
processes and questions so far, and the package and the dependencies of the process that is run. -/
structure Home where
  marker : Text → Bool
  extracted : List Text := []
  attempts : ℕ := 0
  questions : ℕ := 0
  package : Text
  array : List Text := []

/-- A process up to its loop; one that ends before has nothing to loop over. -/
def enter (world : World) (s : Home) : Home :=
  let met := world.attempt s.attempts
  let s := { s with attempts := s.attempts + 1, array := [] }
  if s.marker s.package && met.confirmed then s
  else if !met.page then s
  else if !met.fetched then s
  else { s with
    extracted := s.package :: s.extracted
    marker := fun e => decide (e = s.package) || met.brings e || s.marker e
    array := if met.stopped then [] else Depends.array met.control }

/-- One element of the loop: it is passed over, it is there, or the user is asked.  `$element` stands
unquoted where it is installed; it is a single word, without tabs and pattern characters. -/
def visit (world : World) (s : Home) (element : Text) : Visit Home :=
  if skipped element then .skip s
  else if s.marker element then .skip s
  else if world.answer s.questions then
    .call { s with questions := s.questions + 1, package := element }
  else .skip { s with questions := s.questions + 1 }

/-- `apt-get install` -/
def aptGet (world : World) : LoopProgram Home Text where
  enter := enter world
  words := Home.array
  visit := visit world
  leave := id

variable {world : World} {s s' t r : Home} {e w : Text}

/-! ### What one process does -/

/-- No directory goes away. -/
def Home.Grows (s s' : Home) : Prop := ∀ e, s.marker e = true → s'.marker e = true

theorem Home.Grows.trans (h : s.Grows s') (h' : s'.Grows t) : s.Grows t := fun e he => h' e (h e he)

/-- A process ends with nothing done, or it unpacks its package and makes its directory. -/
theorem enter_cases (world : World) (s : Home) :
    ((enter world s).marker = s.marker ∧ (enter world s).extracted = s.extracted ∧
        (enter world s).array = []) ∨
      ((enter world s).extracted = s.package :: s.extracted ∧
        (enter world s).marker s.package = true ∧ s.Grows (enter world s) ∧
          ∀ e ∈ (enter world s).array, e ∈ Depends.array (world.attempt s.attempts).control) := by
  rw [enter]
  split_ifs
  · exact .inl ⟨rfl, rfl, rfl⟩
  · exact .inl ⟨rfl, rfl, rfl⟩
  · exact .inl ⟨rfl, rfl, rfl⟩
  · refine .inr ⟨rfl, by simp, fun e he => by simp [he], nofun⟩
  · refine .inr ⟨rfl, by simp, fun e he => by simp [he], fun e he => he⟩

theorem grows_enter (world : World) (s : Home) : s.Grows (enter world s) := by
  obtain ⟨same, -⟩ | ⟨-, -, grows, -⟩ := enter_cases world s
  · exact fun e he => same ▸ he
  · exact grows

/-- An element that is passed over changes no more than the number of questions. -/
theorem visit_skip (h : visit world s w = .skip t) :
    t.marker = s.marker ∧ t.extracted = s.extracted := by
  simp only [visit] at h
  split_ifs at h <;> cases h <;> exact ⟨rfl, rfl⟩

/-- A nested call is for a package without a directory. -/
theorem visit_call (h : visit world s w = .call t) :
    t.marker = s.marker ∧ t.extracted = s.extracted ∧ t.package = w ∧ s.marker w = false := by
  simp only [visit] at h
  split_ifs at h with skip there
  cases h
  exact ⟨rfl, rfl, rfl, Bool.not_eq_true _ ▸ there⟩

/-! ### Termination -/

theorem grows_contract (world : World) (b : Home) :
    (aptGet world).Contract (fun s => b.Grows s) (fun r => b.Grows r) fun _ _ t => b.Grows t where
  start s h := h.trans (grows_enter world s)
  skip _ _ _ _ _ h hv := fun e he => (visit_skip hv).1 ▸ h e he
  call _ _ _ _ _ h hv := fun e he => (visit_call hv).1 ▸ h e he
  resume _ _ _ _ _ _ _ _ post := post
  finish _ _ h := h

/-- The names without a directory. -/
def Home.missing (names : Finset Text) (s : Home) : ℕ :=
  (names.filter fun e => s.marker e = false).card

variable {names : Finset Text}

theorem Home.Grows.missing_subset (h : s.Grows s') :
    names.filter (fun e => s'.marker e = false) ⊆ names.filter fun e => s.marker e = false := by
  intro e he
  rw [Finset.mem_filter] at he ⊢
  refine ⟨he.1, ?_⟩
  by_contra there
  have there := h e (Bool.not_eq_false _ ▸ there)
  rw [he.2] at there
  cases there

theorem Home.Grows.missing_le (h : s.Grows s') : s'.missing names ≤ s.missing names :=
  Finset.card_le_card h.missing_subset

theorem Home.Grows.missing_lt (h : s.Grows s') (he : e ∈ names) (none : s.marker e = false)
    (there : s'.marker e = true) : s'.missing names < s.missing names := by
  apply Finset.card_lt_card
  rw [Finset.ssubset_iff_of_subset h.missing_subset]
  exact ⟨e, Finset.mem_filter.2 ⟨he, none⟩, by simp [there]⟩

/-- What is left to do: the names without a directory, and one more if the package of the process is
none of them. -/
def Home.rank (names : Finset Text) (s : Home) : ℕ :=
  s.missing names + if s.package ∈ names ∧ s.marker s.package = false then 0 else 1

/-- A nested call has less to do. -/
theorem rank_lt_of_calls
    (finite : ∀ k, ∀ e ∈ Depends.array (world.attempt k).control, e ∈ names)
    (h : (aptGet world).Calls s s') : s'.rank names < s.rank names := by
  obtain ⟨l, w, l', t, words, passes, hv⟩ := h
  obtain ⟨marker, -, package, none⟩ := visit_call hv
  have inside : w ∈ (enter world s).array := by
    have all : (enter world s).array = l ++ w :: l' := words
    rw [all]
    exact List.mem_append_right l List.mem_cons_self
  obtain ⟨-, -, empty⟩ | ⟨-, made, grows, deps⟩ := enter_cases world s
  · rw [empty] at inside
    cases inside
  · have known : w ∈ names := finite _ w (deps w inside)
    have later : (enter world s).Grows t :=
      (grows_contract world (enter world s)).passes (fun _ he => he) passes
    have small : s'.rank names = t.missing names := by
      simp only [Home.rank, Home.missing, package, marker, known, none, and_self, if_true,
        Nat.add_zero]
    have less : t.missing names ≤ (enter world s).missing names := later.missing_le
    rw [small, Home.rank]
    split_ifs with unmade
    · exact Nat.lt_of_le_of_lt less (grows.missing_lt unmade.1 unmade.2 made)
    · exact Nat.lt_succ_of_le (less.trans grows.missing_le)

theorem terminates (finite : ∀ k, ∀ e ∈ Depends.array (world.attempt k).control, e ∈ names)
    (s : Home) : (aptGet world).Terminates s := by
  rw [LoopProgram.terminates_iff_acc]
  exact Subrelation.accessible (fun h => rank_lt_of_calls finite h)
    (InvImage.accessible (Home.rank names) (Nat.lt_wfRel.wf.apply _))

/-! ### What is unpacked -/

/-- Nothing has been unpacked twice, and what has been unpacked has its directory. -/
structure Once (s : Home) : Prop where
  nodup : s.extracted.Nodup
  made : ∀ e ∈ s.extracted, s.marker e = true

theorem Once.of_eq (h : Once s) (marker : t.marker = s.marker) (extracted : t.extracted = s.extracted) :
    Once t :=
  ⟨extracted ▸ h.nodup, fun e he => marker ▸ h.made e (extracted ▸ he)⟩

theorem Once.enter (h : Once s) (fresh : s.package ∉ s.extracted) : Once (enter world s) := by
  obtain ⟨marker, extracted, -⟩ | ⟨extracted, made, grows, -⟩ := enter_cases world s
  · exact h.of_eq marker extracted
  · refine ⟨extracted ▸ List.nodup_cons.2 ⟨fresh, h.nodup⟩, ?_⟩
    rw [extracted]
    exact List.forall_mem_cons.2 ⟨made, fun e he => grows e (h.made e he)⟩

/-- A process is started for a package that has not been unpacked. -/
theorem once_contract (world : World) :
    (aptGet world).Contract (fun s => Once s ∧ s.package ∉ s.extracted) Once fun _ _ t => Once t where
  start _ h := h.1.enter h.2
  skip _ _ _ _ _ h hv := h.of_eq (visit_skip hv).1 (visit_skip hv).2
  call _ _ t w s' h hv := by
    obtain ⟨marker, extracted, package, none⟩ := visit_call hv
    refine ⟨h.of_eq marker extracted, ?_⟩
    rw [package, extracted]
    intro unpacked
    rw [h.made w unpacked] at none
    cases none
  resume _ _ _ _ _ _ _ _ post := post
  finish _ _ h := h

/-- Two packages that depend on each other and on themselves. -/
def cyclic : World where
  attempt _ := ⟨true, true, true, fun _ => false, "Depends: perl, perl-base\n".toList, false⟩
  answer _ := true

end Install

end Ydfs.AptGet
