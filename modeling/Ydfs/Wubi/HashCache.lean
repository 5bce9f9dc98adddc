import Ydfs.Wubi.CheckIso

/-!
# The hash cache of `check_iso`

`info.iso_md5_hashes` keeps one hash for a path, whatever its type: the one that the first
comparison took.  A later comparison with a hash of another type uses it all the same, so that the
cache is transparent only as long as this makes no difference (`Agrees`).
-/

namespace Ydfs.Wubi.Backend

open TaskList
open Script (live)

variable {δ : Type}

/-- A call of `check_iso`: the path, and the state in which it is made but for the media and the
hash cache. -/
structure Call (δ : Type) where
  path : Path
  world : World δ

/-- The state in which a call is made. -/
def Call.start (m : Media) (hashes : Path → Option String) (c : Call δ) : World δ :=
  { c.world with media := m, isoMd5Hashes := hashes }

variable [DecidableEq δ] (env : Env δ) (m : Media)

/-- The answers of a sequence of calls on the same media. -/
def answers : (Path → Option String) → List (Call δ) → List (Except Error Bool)
  | _, [] => []
  | hashes, c :: cs =>
    let o := (checkIso env c.path).eval {} (c.start m hashes)
    o.result :: answers o.world.isoMd5Hashes cs

/-- The answer of a call that hashes the file afresh. -/
def fresh (c : Call δ) : Except Error Bool :=
  ((checkIso env c.path).eval {} (c.start m fun _ => none)).result

/-- Every call answers as if it hashed the file afresh. -/
def Transparent (calls : List (Call δ)) : Prop :=
  answers env m (fun _ => none) calls = calls.map (fresh env m)

/-- The hash that a call has to compare with, if it gets so far. -/
def Call.hash (c : Call δ) : Option MetalinkHash :=
  match ((expectedHash env c.path c.world.settings m).eval {} c.world.choice).result with
  | .ok (.inr hash) => some hash
  | _ => none

/-- The call takes the hash of `path` outside of `install_dir`. -/
def Call.takes (c : Call δ) (path : Path) : Bool :=
  (c.hash env m).isSome && c.path = path && !(c.world.settings.installDir.toList <+: path.toList)

/-- The type of the hash that the first of the calls takes of a path outside of `install_dir`. -/
def firstType (calls : List (Call δ)) (path : Path) : Option String :=
  (calls.find? fun c => c.takes env m path).bind fun c => (c.hash env m).map MetalinkHash.type

/-- The hash cache after some calls. -/
def cached (calls : List (Call δ)) (path : Path) : Option String :=
  (firstType env m calls path).bind (digestOf m path)

/-- For the call `c` after the calls `before`, the hash of the type that was taken first and the one
of the type in force compare alike. -/
def Agrees (before : List (Call δ)) (c : Call δ) : Prop :=
  ∀ hash type, c.hash env m = some hash → firstType env m before c.path = some type →
    (digestOf m c.path type = some hash.hash ↔ digestOf m c.path hash.type = some hash.hash)

variable {env m} {hashes : Path → Option String} {c : Call δ}

/-- A call that does not compare hashes does not use the cache. -/
theorem eval_of_no_hash (h : c.hash env m = none) :
    ((checkIso env c.path).eval {} (c.start m hashes)).result = fresh env m c ∧
      ((checkIso env c.path).eval {} (c.start m hashes)).world.isoMd5Hashes = hashes := by
  unfold fresh checkIso
  rw [Script.eval_bind, Script.eval_bind, eval_choose, eval_choose]
  unfold Call.hash at h
  simp only [Call.start]
  generalize (expectedHash env c.path c.world.settings m).eval {} c.world.choice = o at h ⊢
  obtain ⟨e | answer | hash, tree, choice⟩ := o
  · exact ⟨rfl, rfl⟩
  · exact ⟨rfl, rfl⟩
  · cases h

/-- A call that compares hashes compares with the cached one, or takes the hash and caches it. -/
theorem eval_of_hash {hash : MetalinkHash} (h : c.hash env m = some hash) :
    ((checkIso env c.path).eval {} (c.start m hashes)).result =
        .ok (some hash.hash = (hashes c.path <|> digestOf m c.path hash.type)) ∧
      ((checkIso env c.path).eval {} (c.start m hashes)).world.isoMd5Hashes =
        if (hashes c.path).isSome || !c.takes env m c.path then hashes
        else Function.update hashes c.path (digestOf m c.path hash.type) := by
  have takes : c.takes env m c.path = !(c.world.settings.installDir.toList <+: c.path.toList) := by
    simp [Call.takes, h]
  have tree : ∀ hash, ((expectedHash env c.path c.world.settings m).eval {} c.world.choice).result =
      .ok (.inr hash) → ((expectedHash env c.path c.world.settings m).eval {} c.world.choice).tree =
      {} := fun _ => tree_expectedHash
  unfold checkIso
  rw [Script.eval_bind, eval_choose, takes]
  unfold Call.hash at h
  simp only [Call.start]
  generalize (expectedHash env c.path c.world.settings m).eval {} c.world.choice = o at h tree ⊢
  obtain ⟨e | answer | hash', tree', choice⟩ := o
  · cases h
  · cases h
  · obtain rfl := Option.some.inj h
    cases tree hash' rfl
    dsimp only
    have compare := live_compareHash c.path hash'
      { c.world with media := m, isoMd5Hashes := hashes, choice := choice }
    cases hm : hashes c.path with
    | some hashsum =>
      simp only [hm] at compare
      rw [Script.live_eq_some] at compare
      rw [compare]
      exact ⟨by simp, rfl⟩
    | none =>
      simp only [hm] at compare
      rw [Script.live_eq_some] at compare
      rw [compare]
      refine ⟨rfl, ?_⟩
      unfold remember
      by_cases inside : c.world.settings.installDir.toList <+: c.path.toList <;> simp [inside]

theorem firstType_append (before : List (Call δ)) (c : Call δ) (path : Path) :
    firstType env m (before ++ [c]) path = (firstType env m before path).or
      (if c.takes env m path then (c.hash env m).map MetalinkHash.type else none) := by
  unfold firstType
  rw [List.find?_append]
  cases hf : before.find? fun c => c.takes env m path with
  | none =>
    by_cases ht : c.takes env m path <;> simp [ht]
  | some c' =>
    have takes : c'.takes env m path = true := by simpa using List.find?_some hf
    simp only [Call.takes, Bool.and_eq_true] at takes
    obtain ⟨hash, hh⟩ := Option.isSome_iff_exists.1 takes.1.1
    simp [hh]

/-- A path whose hash cannot be taken has no hash of any type. -/
theorem digestOf_eq_none {path : Path} {type : String} (h : digestOf m path type = none)
    (type' : String) : digestOf m path type' = none := by
  unfold digestOf at h ⊢
  rw [Option.map_eq_none_iff] at h ⊢
  exact h

/-- After a call the cache holds what the calls up to this one have taken first. -/
theorem cached_append (before : List (Call δ)) (c : Call δ) :
    ((checkIso env c.path).eval {} (c.start m (cached env m before))).world.isoMd5Hashes =
      cached env m (before ++ [c]) := by
  cases hh : c.hash env m with
  | none =>
    rw [(eval_of_no_hash hh).2]
    funext path
    have skips : c.takes env m path = false := by simp [Call.takes, hh]
    simp [cached, firstType_append, skips]
  | some hash =>
    rw [(eval_of_hash hh).2]
    funext path
    by_cases hp : c.path = path
    · subst hp
      cases ht : c.takes env m c.path with
      | false => simp [cached, firstType_append, ht]
      | true =>
        cases hf : firstType env m before c.path with
        | none => simp [cached, firstType_append, ht, hf, hh]
        | some type =>
          cases hd : digestOf m c.path type with
          | some hashsum => simp [cached, firstType_append, hf, hd]
          | none => simp [cached, firstType_append, ht, hf, hd, digestOf_eq_none hd hash.type]
    · have skips : c.takes env m path = false := by simp [Call.takes, hp]
      split_ifs
      · simp [cached, firstType_append, skips]
      · rw [Function.update_of_ne (Ne.symm hp)]
        simp [cached, firstType_append, skips]

/-- A call answers as if it hashed the file afresh if and only if the hash types agree. -/
theorem answer_eq_fresh_iff (before : List (Call δ)) (c : Call δ) :
    ((checkIso env c.path).eval {} (c.start m (cached env m before))).result = fresh env m c ↔
      Agrees env m before c := by
  cases hh : c.hash env m with
  | none => simp [(eval_of_no_hash hh).1, Agrees, hh]
  | some hash =>
    rw [fresh, (eval_of_hash hh).1, (eval_of_hash hh).1]
    unfold Agrees
    cases hf : firstType env m before c.path with
    | none => simp [cached, hf]
    | some type =>
      cases hd : digestOf m c.path type with
      | none => simp [cached, hf, hd, hh, digestOf_eq_none hd hash.type]
      | some hashsum =>
        have taken : cached env m before c.path = some hashsum := by simp [cached, hf, hd]
        rw [taken]
        constructor
        · intro same hash' type' hh' hf'
          obtain rfl : hash = hash' := Option.some.inj (hh.symm.trans hh')
          obtain rfl : type = type' := Option.some.inj hf'
          simpa [hd, eq_comm] using same
        · intro agrees
          simpa [hd, eq_comm] using agrees hash type hh rfl

/-- The answers after the calls `before`. -/
theorem answers_eq_fresh_iff (before calls : List (Call δ)) :
    answers env m (cached env m before) calls = calls.map (fresh env m) ↔
      ∀ l c r, calls = l ++ c :: r → Agrees env m (before ++ l) c := by
  induction calls generalizing before with
  | nil => simp [answers]
  | cons c cs ih =>
    simp only [answers, List.map_cons, List.cons.injEq, cached_append, answer_eq_fresh_iff, ih]
    constructor
    · rintro ⟨first, rest⟩ l c' r h
      cases l with
      | nil =>
        obtain ⟨rfl, rfl⟩ := List.cons.inj h
        simpa using first
      | cons c'' l =>
        obtain ⟨rfl, rfl⟩ := List.cons.inj h
        simpa using rest l c' r rfl
    · intro h
      refine ⟨by simpa using h [] c cs rfl, fun l c' r hl => ?_⟩
      subst hl
      simpa using h (c :: l) c' r rfl

/-- The hash cache is transparent exactly when, for every call, the hash type taken first for its
path and the one in force agree. -/
theorem hash_cache_transparent_iff (env : Env δ) (m : Media) (calls : List (Call δ)) :
    Transparent env m calls ↔
      ∀ before c after, calls = before ++ c :: after → Agrees env m before c :=
  answers_eq_fresh_iff [] calls

/-! ## Two distros with hashes of different types -/

/-- The ISO is the only file. -/
def sampleMedia : Media where
  file path := if path = "D:\\linux.iso" then some sampleIso else none
  disc _ := none

/-- Two distros, `true` and `false`, that only differ in their metalinks. -/
def twoDistros : Env Bool where
  diskInfoRe _ := none
  distros := [true, false]
  distro _ := sampleDistro "i386"
  joinPath dir name := dir ++ "\\" ++ name
  dirname path := path
  isoSearch := []
  cdSearch := []
  copyRaises _ := false
  fetchMetalink _ _ := none
  fetch _ _ := none

/-- The ISO is checked for one of the distros. -/
def checkFor (d : Bool) : Call Bool where
  path := "D:\\linux.iso"
  world :=
    { media := sampleMedia
      settings := { checkArch := true, installDir := "C:\\linux\\install" }
      choice :=
        { distro := some d
          metalink d :=
            let hash := if d then ⟨"md5", "d41d8cd9"⟩ else ⟨"sha1", "da39a3ee"⟩
            some { files := [{ name := "linux.iso", hashes := [hash], urls := [] }] } } }

theorem hash_checkFor (d : Bool) : (checkFor d).hash twoDistros sampleMedia =
    some (if d then ⟨"md5", "d41d8cd9"⟩ else ⟨"sha1", "da39a3ee"⟩) := by
  have file : sampleMedia.file "D:\\linux.iso" = some sampleIso := rfl
  have valid : ((sampleDistro "i386").isValidIso twoDistros.diskInfoRe sampleMedia
      "D:\\linux.iso" false {}).1 = true := valid_sample file rfl rfl rfl rfl nofun
  unfold Call.hash
  rw [eval_expectedHash (d := d) rfl rfl valid]
  cases d <;> rfl

theorem firstType_checkFor (d : Bool) :
    firstType twoDistros sampleMedia [checkFor d] "D:\\linux.iso" =
      some (if d then "md5" else "sha1") := by
  have takes : (checkFor d).takes twoDistros sampleMedia "D:\\linux.iso" = true := by
    unfold Call.takes
    rw [hash_checkFor]
    simp [checkFor]
  simp only [firstType, List.find?_cons, takes, Option.bind_some, hash_checkFor]
  cases d <;> rfl

/-- The hash cache is not transparent for every sequence of calls. -/
theorem not_hash_cache_transparent :
    ¬ ∀ (env : Env Bool) (m : Media) (calls : List (Call Bool)), Transparent env m calls := by
  intro h
  have agrees := (answers_eq_fresh_iff [] _).1 (h twoDistros sampleMedia
    [checkFor true, checkFor false]) [checkFor true] (checkFor false) [] rfl
  have wrong := (agrees _ _ (hash_checkFor false) (firstType_checkFor true)).2 rfl
  exact absurd wrong (by decide)

end Ydfs.Wubi.Backend
