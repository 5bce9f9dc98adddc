import Mathlib.Data.List.AList

/-!
# Moving files aside and back

Files are kept under their paths, each with what is in it when it is a directory.  `rename` gives an
entry a new path; `mv` does so too, but moves the entry into a directory that is already there.

Some entries have a place and a second path to which they are moved aside.  Where no path is used
twice (`Pairing`), moving entries aside changes nothing but their own two paths (`Stows`), and moving
one back leaves the others as they are (`Restores`, `Returns`).
-/

namespace FileMoves

/-- A file, or a directory with what is in it. -/
inductive Entry (ν κ : Type*) where
  | file (content : κ)
  | directory (entries : List (ν × Entry ν κ))

variable {ν κ : Type*} [DecidableEq ν]

/-- What is there under each path. -/
abbrev Files (ν κ : Type*) := AList fun _ : List ν => Entry ν κ

/-- A file takes the place of a file, a directory that of an empty one. -/
def Entry.replaces : Entry ν κ → Entry ν κ → Bool
  | .file _, .file _ => true
  | .directory _, .directory [] => true
  | _, _ => false

def isDirectory (files : Files ν κ) (p : List ν) : Bool :=
  match files.lookup p with
  | some (.directory _) => true
  | _ => false

/-- The entry leaves `src`, and `e` is what is then at `dst`. -/
def shift (files : Files ν κ) (src dst : List ν) (e : Entry ν κ) : Files ν κ :=
  (files.erase src).insert dst e

/-- `rename`, or `none` when it fails. -/
def rename (files : Files ν κ) (src dst : List ν) : Option (Files ν κ) :=
  match files.lookup src with
  | none => none
  | some e =>
    if (files.lookup dst).all e.replaces then some (shift files src dst e) else none

/-- The entry moves into a directory, under its own name. -/
def receive (entries : List (ν × Entry ν κ)) (name : ν) (e : Entry ν κ) :
    Option (List (ν × Entry ν κ)) :=
  if (entries.lookup name).all e.replaces then
    some ((name, e) :: entries.filter fun entry => entry.1 ≠ name)
  else none

/-- `mv src dst`, or `none` when it fails. -/
def mv (files : Files ν κ) (src dst : List ν) : Option (Files ν κ) :=
  match files.lookup src, files.lookup dst, src.getLast? with
  | some e, some (.directory entries), some name =>
    (receive entries name e).map fun entries => shift files src dst (.directory entries)
  | _, _, _ => rename files src dst

variable {files files' files'' : Files ν κ} {src dst p : List ν} {e : Entry ν κ}

@[simp]
theorem lookup_shift_dst : (shift files src dst e).lookup dst = some e := AList.lookup_insert _

theorem lookup_shift_src (ne : src ≠ dst) : (shift files src dst e).lookup src = none := by
  rw [shift, AList.lookup_insert_ne ne, AList.lookup_erase]

theorem lookup_shift_of_ne (hs : p ≠ src) (hd : p ≠ dst) :
    (shift files src dst e).lookup p = files.lookup p := by
  rw [shift, AList.lookup_insert_ne hd, AList.lookup_erase_ne hs]

theorem rename_eq_some (h : rename files src dst = some files') :
    ∃ e, files.lookup src = some e ∧ files' = shift files src dst e := by
  unfold rename at h
  cases there : files.lookup src with
  | none => simp [there] at h
  | some e =>
    simp only [there, Option.ite_none_right_eq_some, Option.some.injEq] at h
    exact ⟨e, rfl, h.2.symm⟩

theorem rename_of_free (there : files.lookup src = some e) (free : files.lookup dst = none) :
    rename files src dst = some (shift files src dst e) := by
  simp [rename, there, free]

/-- Moved is the very entry, unless there is a directory to move it into. -/
theorem mv_eq_some (h : mv files src dst = some files') :
    ∃ e e', files.lookup src = some e ∧ files' = shift files src dst e' ∧
      (isDirectory files dst = false → e' = e) := by
  unfold mv at h
  split at h
  next e entries name there dir _ =>
    obtain ⟨entries', -, rfl⟩ := Option.map_eq_some_iff.1 h
    exact ⟨e, _, there, rfl, by simp [isDirectory, dir]⟩
  next =>
    obtain ⟨e, there, rfl⟩ := rename_eq_some h
    exact ⟨e, e, there, rfl, fun _ => rfl⟩

theorem mv_of_free (there : files.lookup src = some e) (free : files.lookup dst = none) :
    mv files src dst = some (shift files src dst e) := by
  rw [mv, there, free]
  exact rename_of_free there free

/-- Nothing comes to be at other paths than the one that is moved to. -/
theorem lookup_shift_none (missing : files.lookup p = none) (hd : p ≠ dst) :
    (shift files src dst e).lookup p = none := by
  by_cases hs : p = src
  · subst hs
    exact lookup_shift_src hd
  · rw [lookup_shift_of_ne hs hd, missing]

theorem rename_none (missing : files.lookup p = none) (hd : p ≠ dst) :
    ((rename files src dst).getD files).lookup p = none := by
  cases moved : rename files src dst with
  | none => exact missing
  | some files' =>
    obtain ⟨e, -, rfl⟩ := rename_eq_some moved
    exact lookup_shift_none missing hd

theorem mv_none (missing : files.lookup p = none) (hd : p ≠ dst) :
    ((mv files src dst).getD files).lookup p = none := by
  cases moved : mv files src dst with
  | none => exact missing
  | some files' =>
    obtain ⟨e, e', -, rfl, -⟩ := mv_eq_some moved
    exact lookup_shift_none missing hd

/-! ### Aside and back -/

/-- No path is used twice: an entry of `place` is moved aside to `aside`. -/
structure Pairing (P : List ν → List ν → Prop) : Prop where
  cross : ∀ {x d x' d'}, P x d → P x' d' → x ≠ d'
  left : ∀ {x d d'}, P x d → P x d' → d = d'
  right : ∀ {x x' d}, P x d → P x' d → x = x'

/-- The entry is at its place. -/
def Placed (x d : List ν) (e : Entry ν κ) (files : Files ν κ) : Prop :=
  files.lookup x = some e ∧ files.lookup d = none

/-- The entry has been moved aside. -/
def Away (x d : List ν) (e : Entry ν κ) (files : Files ν κ) : Prop :=
  files.lookup x = none ∧ files.lookup d = some e

/-- Entries have been moved aside, and nothing else has happened to the paths. -/
structure Stows (P : List ν → List ν → Prop) (files files' : Files ν κ) : Prop where
  pair : ∀ {x d}, P x d →
    (files'.lookup x = files.lookup x ∧ files'.lookup d = files.lookup d) ∨
      ∃ e, files.lookup x = some e ∧ Away x d e files'
  gone : ∀ {x}, (files.lookup x).isSome → files'.lookup x = none → ∃ d, P x d

/-- What is in its place stays there, and what is aside stays or comes back. -/
structure Restores (x d : List ν) (files files' : Files ν κ) : Prop where
  placed : ∀ {e}, Placed x d e files → Placed x d e files'
  away : ∀ {e}, Away x d e files → Away x d e files' ∨ Placed x d e files'
  there : (files.lookup x).isSome → (files'.lookup x).isSome

/-- What is aside comes back. -/
structure Returns (x d : List ν) (files files' : Files ν κ) : Prop extends
    Restores x d files files' where
  back : ∀ {e}, Away x d e files → Placed x d e files'

variable {P : List ν → List ν → Prop} {x d x' d' : List ν}

omit [DecidableEq ν] in
theorem Pairing.mono {Q : List ν → List ν → Prop} (h : Pairing P) (sub : ∀ {x d}, Q x d → P x d) :
    Pairing Q where
  cross hx hd := h.cross (sub hx) (sub hd)
  left hd hd' := h.left (sub hd) (sub hd')
  right hx hx' := h.right (sub hx) (sub hx')

theorem Stows.refl (files : Files ν κ) : Stows P files files :=
  ⟨fun _ => .inl ⟨rfl, rfl⟩, fun there gone => by simp [gone] at there⟩

theorem Stows.trans (h : Stows P files files') (h' : Stows P files' files'') :
    Stows P files files'' := by
  refine ⟨fun paired => ?_, fun {x} there gone => ?_⟩
  · obtain ⟨hx, hd⟩ | ⟨e, there, away⟩ := h.pair paired
    · rw [← hx, ← hd]
      exact h'.pair paired
    · obtain ⟨hx, hd⟩ | ⟨e', there', -⟩ := h'.pair paired
      · exact .inr ⟨e, there, hx.trans away.1, hd.trans away.2⟩
      · rw [away.1] at there'
        cases there'
  · cases now : files'.lookup x with
    | none => exact h.gone there now
    | some e => exact h'.gone (by rw [now]; rfl) gone

/-- Moving one entry aside, to where it is the very entry. -/
theorem Stows.of_shift (pairing : Pairing P) (paired : P x d) (there : files.lookup x = some e) :
    Stows P files (shift files x d e) := by
  refine ⟨fun {x' d'} paired' => ?_, fun {q} there' gone => ?_⟩
  · by_cases same : x' = x
    · subst same
      obtain rfl := pairing.left paired paired'
      exact .inr ⟨e, there, lookup_shift_src (pairing.cross paired paired), lookup_shift_dst⟩
    · have other : d' ≠ d := by
        rintro rfl
        exact same (pairing.right paired' paired)
      left
      rw [lookup_shift_of_ne same (pairing.cross paired' paired),
        lookup_shift_of_ne (pairing.cross paired paired').symm other]
      exact ⟨rfl, rfl⟩
  · by_cases same : q = x
    · exact ⟨d, same ▸ paired⟩
    · by_cases at_end : q = d
      · subst at_end
        simp at gone
      · rw [lookup_shift_of_ne same at_end] at gone
        simp [gone] at there'

theorem Stows.of_rename (pairing : Pairing P) (paired : P x d)
    (h : rename files x d = some files') : Stows P files files' := by
  obtain ⟨e, there, rfl⟩ := rename_eq_some h
  exact .of_shift pairing paired there

theorem Stows.of_mv (pairing : Pairing P) (paired : P x d) (free : isDirectory files d = false)
    (h : mv files x d = some files') : Stows P files files' := by
  obtain ⟨e, e', there, rfl, same⟩ := mv_eq_some h
  obtain rfl := same free
  exact .of_shift pairing paired there

theorem Restores.refl (files : Files ν κ) : Restores x d files files := ⟨id, .inl, id⟩

theorem Restores.trans (h : Restores x d files files') (h' : Restores x d files' files'') :
    Restores x d files files'' where
  placed placed := h'.placed (h.placed placed)
  away away := (h.away away).elim h'.away fun placed => .inr (h'.placed placed)
  there there := h'.there (h.there there)

theorem Restores.trans_returns (h : Restores x d files files') (h' : Returns x d files' files'') :
    Returns x d files files'' where
  toRestores := h.trans h'.toRestores
  back away := (h.away away).elim h'.back h'.placed

theorem Returns.trans_restores (h : Returns x d files files') (h' : Restores x d files' files'') :
    Returns x d files files'' where
  toRestores := h.toRestores.trans h'
  back away := h'.placed (h.back away)

/-- Whatever goes on at other paths. -/
theorem Restores.of_lookup (hx : files'.lookup x = files.lookup x)
    (hd : files'.lookup d = files.lookup d) : Restores x d files files' where
  placed h := ⟨hx.trans h.1, hd.trans h.2⟩
  away h := .inl ⟨hx.trans h.1, hd.trans h.2⟩
  there h := by rwa [hx]

/-- A move from `d'` to `x'`, which may fail, where the entry has come to its place if that was
free. -/
theorem Restores.of_shift (pairing : Pairing P) (paired : P x d) (paired' : P x' d')
    (there : (files.lookup d').isSome)
    (same : files.lookup x' = none → files.lookup d' = some e) :
    Restores x d files (shift files d' x' e) := by
  by_cases eq : x' = x
  · subst eq
    obtain rfl := pairing.left paired paired'
    refine ⟨fun placed => ?_, fun away => .inr ?_, fun _ => by simp⟩
    · simp [placed.2] at there
    · obtain rfl := Option.some.inj ((same away.1).symm.trans away.2)
      exact ⟨lookup_shift_dst, lookup_shift_src (pairing.cross paired paired).symm⟩
  · have other : d' ≠ d := by
      rintro rfl
      exact eq (pairing.right paired' paired)
    apply Restores.of_lookup
    · exact lookup_shift_of_ne (pairing.cross paired paired') (Ne.symm eq)
    · exact lookup_shift_of_ne other.symm (pairing.cross paired' paired).symm

theorem Restores.of_rename (pairing : Pairing P) (paired : P x d) (paired' : P x' d') :
    Restores x d files ((rename files d' x').getD files) := by
  cases moved : rename files d' x' with
  | none => exact .refl files
  | some files' =>
    obtain ⟨e, there, rfl⟩ := rename_eq_some moved
    exact .of_shift pairing paired paired' (by simp [there]) fun _ => there

theorem Restores.of_mv (pairing : Pairing P) (paired : P x d) (paired' : P x' d') :
    Restores x d files ((mv files d' x').getD files) := by
  cases moved : mv files d' x' with
  | none => exact .refl files
  | some files' =>
    obtain ⟨e, e', there, rfl, same⟩ := mv_eq_some moved
    refine .of_shift pairing paired paired' (by simp [there]) fun free => ?_
    rw [same (by simp [isDirectory, free]), there]

theorem Returns.of_rename (pairing : Pairing P) (paired : P x d) :
    Returns x d files ((rename files d x).getD files) where
  toRestores := .of_rename pairing paired paired
  back away := by
    rw [rename_of_free away.2 away.1]
    exact ⟨lookup_shift_dst, lookup_shift_src (pairing.cross paired paired).symm⟩

theorem Returns.of_mv (pairing : Pairing P) (paired : P x d) :
    Returns x d files ((mv files d x).getD files) where
  toRestores := .of_mv pairing paired paired
  back away := by
    rw [mv_of_free away.2 away.1]
    exact ⟨lookup_shift_dst, lookup_shift_src (pairing.cross paired paired).symm⟩

section Lines

variable {α : Type*} {line : Files ν κ → α → Files ν κ} {lines : List α} {a : α}

theorem Stows.foldl (stows : ∀ a ∈ lines, ∀ files, Stows P files (line files a))
    (files : Files ν κ) : Stows P files (lines.foldl line files) :=
  List.foldlRecOn lines line (.refl files) fun files' done a mem =>
    done.trans (stows a mem files')

theorem Restores.foldl (restores : ∀ a ∈ lines, ∀ files, Restores x d files (line files a))
    (files : Files ν κ) : Restores x d files (lines.foldl line files) :=
  List.foldlRecOn lines line (.refl files) fun files' done a mem =>
    done.trans (restores a mem files')

/-- One line that moves the entry back is enough. -/
theorem Returns.foldl (restores : ∀ a ∈ lines, ∀ files, Restores x d files (line files a))
    (mem : a ∈ lines) (returns : ∀ files, Returns x d files (line files a)) (files : Files ν κ) :
    Returns x d files (lines.foldl line files) := by
  obtain ⟨before, after, rfl⟩ := List.append_of_mem mem
  rw [List.foldl_append, List.foldl_cons]
  have first := Restores.foldl (fun b h => restores b (List.mem_append_left _ h)) files
  have last := Restores.foldl
    (fun b h => restores b (List.mem_append_right _ (List.mem_cons_of_mem _ h)))
    (line (before.foldl line files) a)
  exact (first.trans_returns (returns _)).trans_restores last

end Lines

end FileMoves
