import Ydfs.Wubi.HashCache

/-!
# The disk-info cache and the order of the probes

`Distro.cache` is shared by all distros, and an entry keeps what the first distro to read the medium
has made of it.  This only matters for a text that the regular expression does not match: its
architecture is taken to be that of the distro, so that the first reader decides whether a later one
of another architecture takes the medium (`InfoAgrees`).
-/

namespace Ydfs.Wubi.Backend

variable {δ : Type}

/-- A call of `is_valid_cd` or of `is_valid_iso`. -/
structure Probe (δ : Type) where
  cd : Bool
  path : Path
  distro : δ
  checkArch : Bool

/-- What uses the disk-info cache: a single probe, or a search for media of any distro. -/
inductive Request (δ : Type) where
  | probe (p : Probe δ)
  | findAnyIso (isoPath : Option Path) (checkArch : Bool)
  | findAnyCd (originalExe : Path) (checkArch : Bool)

variable (env : Env δ) (m : Media)

/-- The answer to a probe. -/
def Probe.valid (p : Probe δ) : Caches → Bool × Caches :=
  if p.cd then (env.distro p.distro).isValidCd env.diskInfoRe m p.path p.checkArch
  else (env.distro p.distro).isValidIso env.diskInfoRe m p.path p.checkArch

/-- The answer to a probe with an empty cache. -/
def Probe.fresh (p : Probe δ) : Bool := (p.valid env m {}).1

/-- The medium and the distro of a probe. -/
def Probe.medium (p : Probe δ) : Path × δ := (p.path, p.distro)

/-- The probes of a request, in the order in which they are made until one succeeds. -/
def Request.probes : Request δ → List (Probe δ)
  | .probe p => [p]
  | .findAnyIso isoPath checkArch =>
    (((isoPath.filter m.has).toList ++ env.isoSearch) ×ˢ env.distros).map fun x =>
      ⟨false, x.1, x.2, checkArch⟩
  | .findAnyCd _ checkArch => (env.cdSearch ×ˢ env.distros).map fun x => ⟨true, x.1, x.2, checkArch⟩

/-- What is made of the medium that a request has found. -/
def Request.keep : Request δ → Option (Path × δ) → Option (Path × δ)
  | .findAnyCd originalExe _ => Option.filter fun x => drive originalExe = drive x.1
  | _ => id

/-- The medium that a request finds. -/
def Request.run : Request δ → Caches → Option (Path × δ) × Caches
  | .probe p, c => (if (p.valid env m c).1 then some p.medium else none, (p.valid env m c).2)
  | .findAnyIso isoPath checkArch, c => Backend.findAnyIso env m isoPath checkArch c
  | .findAnyCd originalExe checkArch, c => Backend.findAnyCd env m originalExe checkArch c

/-- The answers to probes that end with the first one that succeeds. -/
def ask : List (Probe δ) → Caches → List Bool
  | [], _ => []
  | p :: ps, c => match p.valid env m c with
    | (true, _) => [true]
    | (false, c) => false :: ask ps c

/-- The answers to the probes of some requests, and the media that the requests find. -/
def outcomes : Caches → List (Request δ) → List (List Bool × Option (Path × δ))
  | _, [] => []
  | c, r :: rs => (ask env m (r.probes env m) c, (r.run env m c).1) :: outcomes (r.run env m c).2 rs

/-- The first probes up to one that succeeds with an empty cache. -/
def upTo : List (Probe δ) → List (Probe δ)
  | [] => []
  | p :: ps => if p.fresh env m then [p] else p :: upTo ps

/-- The answers to the probes of a request, and the medium that it finds, if each probe is made
with an empty cache. -/
def Request.fresh (r : Request δ) : List Bool × Option (Path × δ) :=
  ((upTo env m (r.probes env m)).map (Probe.fresh env m),
    r.keep (((r.probes env m).find? (Probe.fresh env m)).map Probe.medium))

/-- Every probe is answered, and every search ends, as with an empty cache. -/
def InfoTransparent (requests : List (Request δ)) : Prop :=
  outcomes env m {} requests = requests.map (Request.fresh env m)

/-- The probe finds all required files, so that it reads the disk info. -/
def Probe.reads (p : Probe δ) : Bool :=
  let required := (env.distro p.distro).requiredFiles
  if p.cd then (m.disc p.path).any fun disc => ∀ f ∈ required, disc.files f
  else (m.file p.path).any fun iso => ∀ f ∈ required, canonical f ∈ iso.names.map canonical

/-- The path and the info file under which the disk info is cached. -/
def Probe.key (p : Probe δ) : Path × String := (p.path, (env.distro p.distro).infoFile)

/-- The distro of the first of some probes that reads an info file. -/
def firstReader (probes : List (Probe δ)) (key : Path × String) : Option δ :=
  (probes.find? fun p => p.reads env m && p.key env = key).map Probe.distro

/-- The disk info of a medium, as a distro parses it. -/
def parsed (key : Path × String) (d : δ) : Option DiskInfo :=
  (m.text key.1 key.2).bind ((env.distro d).parseIsoinfo env.diskInfoRe)

/-- After the probes `before`, the probe `p` does not read a text that is not matched, with a check
of the architecture, for a distro of any version that has another architecture than the distro that
has read the text first. -/
def InfoAgrees (before : List (Probe δ)) (p : Probe δ) : Prop :=
  let d := env.distro p.distro
  ∀ text first, p.reads env m = true → m.text p.path d.infoFile = some text → text ≠ "" →
    env.diskInfoRe text = none → firstReader env m before (p.key env) = some first →
    d.version = "" → p.checkArch = true → d.arch ≠ "" → (env.distro first).arch = d.arch

variable {env m} {c : Caches} {p : Probe δ} {before : List (Probe δ)}

/-! ## One probe -/

/-- The caches after some probes: the disk info is what the first reader has parsed, and the names
are those of the ISO. -/
structure After (env : Env δ) (m : Media) (before : List (Probe δ)) (c : Caches) : Prop where
  info : ∀ key, c.info key = (firstReader env m before key).map (parsed env m key)
  names : ∀ path names, c.names path = some names →
    names.getD [] = ((m.file path).map Iso.names).getD []

theorem After.empty : After env m [] {} where
  info _ := rfl
  names _ _ h := nomatch h

/-- The answer to a probe after the probes `before`. -/
def answer (env : Env δ) (m : Media) (before : List (Probe δ)) (p : Probe δ) : Bool :=
  let first := (firstReader env m before (p.key env)).getD p.distro
  p.reads env m && (env.distro p.distro).checkInfo (parsed env m (p.key env) first) p.checkArch

theorem firstReader_append (key : Path × String) :
    firstReader env m (before ++ [p]) key = (firstReader env m before key).or
      (if p.reads env m && p.key env = key then some p.distro else none) := by
  unfold firstReader
  rw [List.find?_append, Option.map_or, List.find?_singleton]
  split_ifs <;> rfl

/-- A probe that reads nothing leaves the disk info as it is. -/
theorem After.skip (h : After env m before c) (skips : p.reads env m = false) :
    After env m (before ++ [p]) c where
  info key := by simp [h.info, firstReader_append, skips]
  names := h.names

/-- A probe that gets as far as `get_info` is given what the first reader has parsed. -/
theorem After.getInfo (h : After env m before c) (reads : p.reads env m = true) :
    ((env.distro p.distro).getInfo env.diskInfoRe m p.path c).1 = parsed env m (p.key env)
        ((firstReader env m before (p.key env)).getD p.distro) ∧
      After env m (before ++ [p]) ((env.distro p.distro).getInfo env.diskInfoRe m p.path c).2 := by
  have cached := h.info (p.key env)
  unfold Distro.getInfo
  unfold Probe.key at cached ⊢
  cases hf : firstReader env m before (p.path, (env.distro p.distro).infoFile) with
  | some first =>
    rw [hf, Option.map_some] at cached
    simp only [cached]
    refine ⟨rfl, fun key => ?_, h.names⟩
    by_cases hk : p.key env = key
    · subst hk
      simp [h.info, firstReader_append, Probe.key, hf]
    · simp [h.info, firstReader_append, hk]
  | none =>
    rw [hf, Option.map_none] at cached
    simp only [cached]
    refine ⟨rfl, fun key => ?_, h.names⟩
    by_cases hk : p.key env = key
    · subst hk
      simp [firstReader_append, Probe.key, hf, reads, parsed]
    · have other : key ≠ (p.path, (env.distro p.distro).infoFile) := Ne.symm hk
      dsimp only
      rw [Function.update_of_ne other]
      simp [h.info, firstReader_append, hk]

theorem After.getIsoFileNames (h : After env m before c) (path : Path) :
    (Distro.getIsoFileNames m path c).1 = ((m.file path).map Iso.names).getD [] ∧
      After env m before (Distro.getIsoFileNames m path c).2 := by
  unfold Distro.getIsoFileNames
  cases hn : c.names path with
  | some names => exact ⟨h.names path names hn, h⟩
  | none =>
    refine ⟨rfl, h.info, fun other names hi => ?_⟩
    dsimp only at hi
    by_cases ho : other = path
    · subst ho
      rw [Function.update_self] at hi
      obtain rfl := Option.some.inj hi
      split_ifs with empty
      · rw [empty, Option.getD_none]
      · rw [Option.getD_some]
    · rw [Function.update_of_ne ho] at hi
      exact h.names other names hi

/-- A probe that reads nothing fails. -/
theorem answer_of_skips (skips : p.reads env m = false) : answer env m before p = false := by
  simp [answer, skips]

/-- What a probe for a CD answers, and what it leaves in the caches. -/
theorem After.validCd (h : After env m before c) (hcd : p.cd = true) :
    (p.valid env m c).1 = answer env m before p ∧
      After env m (before ++ [p]) (p.valid env m c).2 := by
  unfold Probe.valid Distro.isValidCd
  rw [if_pos hcd]
  cases hd : m.disc p.path with
  | none =>
    have skips : p.reads env m = false := by simp [Probe.reads, hcd, hd]
    exact ⟨(answer_of_skips skips).symm, h.skip skips⟩
  | some disc =>
    dsimp only
    by_cases required : ∀ f ∈ (env.distro p.distro).requiredFiles, disc.files f = true
    · have reads : p.reads env m = true := by simpa [Probe.reads, hcd, hd] using required
      rw [if_neg (not_not_intro required)]
      obtain ⟨info, after⟩ := h.getInfo reads
      exact ⟨by simp only [answer, reads, info, Bool.true_and], after⟩
    · have skips : p.reads env m = false := by simpa [Probe.reads, hcd, hd] using required
      rw [if_pos required]
      exact ⟨(answer_of_skips skips).symm, h.skip skips⟩

/-- What a probe for an ISO answers, and what it leaves in the caches. -/
theorem After.validIso (h : After env m before c) (hcd : p.cd = false) :
    (p.valid env m c).1 = answer env m before p ∧
      After env m (before ++ [p]) (p.valid env m c).2 := by
  unfold Probe.valid Distro.isValidIso
  rw [if_neg (by simp [hcd])]
  cases hf : m.file p.path with
  | none =>
    have skips : p.reads env m = false := by simp [Probe.reads, hcd, hf]
    exact ⟨(answer_of_skips skips).symm, h.skip skips⟩
  | some iso =>
    obtain ⟨names, named⟩ := h.getIsoFileNames p.path
    rw [hf, Option.map_some, Option.getD_some] at names
    rw [if_neg (by simp)]
    dsimp only
    rw [names]
    by_cases required : ∀ f ∈ (env.distro p.distro).requiredFiles,
        canonical f ∈ iso.names.map canonical
    · have reads : p.reads env m = true := by simpa [Probe.reads, hcd, hf] using required
      have listed : iso.names ≠ [] := by
        rintro empty
        have kernel := required (env.distro p.distro).kernel (by simp [Distro.requiredFiles])
        simp [empty] at kernel
      rw [if_neg listed, if_neg (not_not_intro required)]
      obtain ⟨info, after⟩ := named.getInfo reads
      exact ⟨by simp only [answer, reads, info, Bool.true_and], after⟩
    · have skips : p.reads env m = false := by simpa [Probe.reads, hcd, hf] using required
      rw [if_pos required, ite_self]
      exact ⟨(answer_of_skips skips).symm, named.skip skips⟩

/-- What a probe answers, and what it leaves in the caches. -/
theorem After.valid (h : After env m before c) (p : Probe δ) :
    (p.valid env m c).1 = answer env m before p ∧
      After env m (before ++ [p]) (p.valid env m c).2 := by
  cases hcd : p.cd with
  | true => exact h.validCd hcd
  | false => exact h.validIso hcd

/-- A text that is not matched gives an architecture and an empty version. -/
theorem checkInfo_parsed {d x : Distro} {text : String} {checkArch : Bool} (full : text ≠ "")
    (unmatched : env.diskInfoRe text = none) :
    d.checkInfo (x.parseIsoinfo env.diskInfoRe text) checkArch = true ↔
      d.version = "" ∧ (checkArch = true → d.arch ≠ "" → x.arch = d.arch) := by
  unfold Distro.parseIsoinfo Distro.checkInfo
  simp only [if_neg full, unmatched]
  by_cases version : d.version = ""
  · rw [if_neg (by simp [version]), if_neg (by simp [version])]
    split_ifs with arch
    · simp [arch]
    · simpa [version] using arch
  · simp [version, Ne.symm version]

/-- A text that is matched is parsed alike by all distros. -/
theorem parseIsoinfo_of_matched {d x : Distro} {text : String}
    (matched : text = "" ∨ env.diskInfoRe text ≠ none) :
    x.parseIsoinfo env.diskInfoRe text = d.parseIsoinfo env.diskInfoRe text := by
  unfold Distro.parseIsoinfo
  cases hr : env.diskInfoRe text with
  | none => simp [hr] at matched; simp [matched]
  | some info => rfl

/-- A probe answers as with an empty cache if and only if the distros agree. -/
theorem answer_eq_iff (before : List (Probe δ)) (p : Probe δ) :
    answer env m before p = answer env m [] p ↔ InfoAgrees env m before p := by
  unfold answer InfoAgrees
  cases hr : p.reads env m with
  | false => simp
  | true =>
    cases hf : firstReader env m before (p.key env) with
    | none => simp [firstReader]
    | some first =>
      cases ht : m.text p.path (env.distro p.distro).infoFile with
      | none => simp [parsed, Probe.key, ht, firstReader]
      | some text =>
        simp only [parsed, Probe.key, ht, firstReader, Bool.true_and, List.find?_nil,
          Option.map_none, Option.getD_none, Option.getD_some, Option.bind_some]
        by_cases matched : text = "" ∨ env.diskInfoRe text ≠ none
        · rw [parseIsoinfo_of_matched (d := env.distro p.distro) (x := env.distro first) matched]
          grind
        · obtain ⟨full, unmatched⟩ : text ≠ "" ∧ env.diskInfoRe text = none := by simpa using matched
          rw [Bool.eq_iff_iff, checkInfo_parsed full unmatched, checkInfo_parsed full unmatched]
          grind

theorem fresh_eq_answer (p : Probe δ) : p.fresh env m = answer env m [] p :=
  (After.empty.valid p).1

/-! ## A search -/

/-- The distros agree at each of some probes after the probes `before`. -/
def Agreed (env : Env δ) (m : Media) (before probes : List (Probe δ)) : Prop :=
  ∀ l p r, probes = l ++ p :: r → InfoAgrees env m (before ++ l) p

theorem agreed_nil : Agreed env m before [] := by
  intro l p r h
  simp at h

theorem agreed_cons {probes : List (Probe δ)} :
    Agreed env m before (p :: probes) ↔
      InfoAgrees env m before p ∧ Agreed env m (before ++ [p]) probes := by
  constructor
  · intro h
    refine ⟨by simpa using h [] p probes rfl, ?_⟩
    rintro l q r rfl
    simpa using h (p :: l) q r rfl
  · rintro ⟨first, rest⟩ l q r h
    cases l with
    | nil =>
      obtain ⟨rfl, rfl⟩ := List.cons.inj h
      simpa using first
    | cons x l =>
      obtain ⟨rfl, rfl⟩ := List.cons.inj h
      simpa using rest l q r rfl

theorem agreed_append {probes more : List (Probe δ)} :
    Agreed env m before (probes ++ more) ↔
      Agreed env m before probes ∧ Agreed env m (before ++ probes) more := by
  induction probes generalizing before with
  | nil => simp [agreed_nil]
  | cons p ps ih => simp [agreed_cons, ih, and_assoc]

/-- The probes up to the first success are answered as with empty caches if and only if the distros
agree at each of them. -/
theorem After.ask_iff (h : After env m before c) (probes : List (Probe δ)) :
    ask env m probes c = (upTo env m probes).map (Probe.fresh env m) ↔
      Agreed env m before (upTo env m probes) := by
  induction probes generalizing before c with
  | nil => simp [ask, upTo, agreed_nil]
  | cons p ps ih =>
    obtain ⟨valid, after⟩ := h.valid p
    have first : answer env m before p = answer env m [] p ↔ InfoAgrees env m before p :=
      answer_eq_iff before p
    rw [← valid, ← fresh_eq_answer] at first
    cases hv : p.valid env m c with
    | mk b c' =>
      rw [hv] at first after
      cases hp : p.fresh env m <;> cases b <;>
        simp [ask, upTo, hv, hp, agreed_cons, agreed_nil, ← first, ih after]

/-- When the distros agree, a search ends as with empty caches. -/
theorem After.search (h : After env m before c) (probes : List (Probe δ))
    (agreed : Agreed env m before (upTo env m probes)) :
    (search (Probe.valid env m) probes c).1 = probes.find? (Probe.fresh env m) ∧
      After env m (before ++ upTo env m probes) (search (Probe.valid env m) probes c).2 := by
  induction probes generalizing before c with
  | nil => simpa [Backend.search, upTo] using h
  | cons p ps ih =>
    obtain ⟨valid, after⟩ := h.valid p
    have first : answer env m before p = answer env m [] p ↔ InfoAgrees env m before p :=
      answer_eq_iff before p
    rw [← valid, ← fresh_eq_answer] at first
    cases hv : p.valid env m c with
    | mk b c' =>
      rw [hv] at first after
      cases hp : p.fresh env m with
      | true =>
        simp only [upTo, hp, if_true, agreed_cons, agreed_nil, and_true] at agreed ⊢
        obtain rfl : b = true := by rw [← hp]; exact first.2 agreed
        simpa [Backend.search, hv, hp] using after
      | false =>
        simp only [upTo, hp, Bool.false_eq_true, if_false, agreed_cons] at agreed ⊢
        obtain rfl : b = false := by rw [← hp]; exact first.2 agreed.1
        simpa [Backend.search, hv, hp] using ih after agreed.2

theorem search_map {α β : Type} (test : β → Caches → Bool × Caches) (f : α → β) (l : List α)
    (c : Caches) : search test (l.map f) c =
      ((search (fun a => test (f a)) l c).1.map f, (search (fun a => test (f a)) l c).2) := by
  induction l generalizing c with
  | nil => rfl
  | cons a l ih =>
    simp only [List.map_cons, search]
    cases test (f a) c with
    | mk b c' => cases b <;> simp [ih]

/-! ## The requests -/

/-- A request is a search with the probes that it makes. -/
theorem run_eq_search (r : Request δ) (c : Caches) :
    r.run env m c = (r.keep ((search (Probe.valid env m) (r.probes env m) c).1.map Probe.medium),
      (search (Probe.valid env m) (r.probes env m) c).2) := by
  cases r with
  | probe p =>
    simp only [Request.run, Request.probes, Request.keep, search, id_eq]
    cases p.valid env m c with
    | mk b c' => cases b <;> rfl
  | findAnyIso isoPath checkArch =>
    simp only [Request.run, Request.probes, search_map, Option.map_map]
    exact Prod.ext Option.map_id'.symm rfl
  | findAnyCd originalExe checkArch =>
    simp only [Request.run, Request.probes, search_map, Option.map_map]
    exact Prod.ext (congrArg (Option.filter _) Option.map_id'.symm) rfl

/-- The outcomes of some requests are those with empty caches if and only if the distros agree at
each probe. -/
theorem After.outcomes_iff (h : After env m before c) (requests : List (Request δ)) :
    outcomes env m c requests = requests.map (Request.fresh env m) ↔
      Agreed env m before (requests.flatMap fun r => upTo env m (r.probes env m)) := by
  induction requests generalizing before c with
  | nil => simp [outcomes, agreed_nil]
  | cons r rs ih =>
    rw [outcomes, List.map_cons, List.cons.injEq, List.flatMap_cons, agreed_append, Request.fresh,
      Prod.mk.injEq, h.ask_iff, and_assoc]
    refine and_congr_right fun agreed => ?_
    obtain ⟨found, after⟩ := h.search _ agreed
    rw [run_eq_search, found]
    simp only [true_and]
    exact ih after

/-- The disk-info cache is transparent exactly when the distros agree at each probe, of those that
the requests would make with an empty cache. -/
theorem info_cache_transparent_iff (env : Env δ) (m : Media) (requests : List (Request δ)) :
    InfoTransparent env m requests ↔ ∀ before p after,
      (requests.flatMap fun r => upTo env m (r.probes env m)) = before ++ p :: after →
        InfoAgrees env m before p := by
  unfold InfoTransparent
  rw [After.empty.outcomes_iff]
  rfl

/-! ## A medium that two distros take to be of their own architecture -/

/-- The same distro for two architectures. -/
def twoArchs : Env String where
  diskInfoRe _ := none
  distros := ["i386", "amd64"]
  distro arch := sampleDistro arch
  joinPath dir name := dir ++ "\\" ++ name
  dirname path := path
  isoSearch := []
  cdSearch := []
  copyRaises _ := false
  fetchMetalink _ _ := none
  fetch _ _ := none

/-- The sample ISO is probed for an architecture. -/
def probeFor (arch : String) : Request String :=
  .probe { cd := false, path := "D:\\linux.iso", distro := arch, checkArch := true }

theorem reads_sample (arch : String) :
    (Probe.mk false "D:\\linux.iso" arch true).reads twoArchs sampleMedia = true := by
  have file : sampleMedia.file "D:\\linux.iso" = some sampleIso := rfl
  have required : ∀ f ∈ (sampleDistro arch).requiredFiles,
      canonical f ∈ sampleIso.names.map canonical := fun f hf => List.mem_map_of_mem hf
  simpa [Probe.reads, file, twoArchs] using required

/-- The disk-info cache is not transparent for every order of probing. -/
theorem not_info_cache_transparent :
    ¬ ∀ (env : Env String) (m : Media) (requests : List (Request String)),
      InfoTransparent env m requests := by
  intro h
  have agreed := (After.empty.outcomes_iff _).1 (h twoArchs sampleMedia
    [probeFor "i386", probeFor "amd64"]) [⟨false, "D:\\linux.iso", "i386", true⟩]
    ⟨false, "D:\\linux.iso", "amd64", true⟩ [] (by simp [probeFor, Request.probes, upTo])
  have first : firstReader twoArchs sampleMedia [⟨false, "D:\\linux.iso", "i386", true⟩]
      ("D:\\linux.iso", ".disk\\info") = some "i386" := by
    unfold firstReader
    rw [List.find?_singleton, reads_sample, if_pos (by decide), Option.map_some]
  have wrong := agreed "LinuxConsole" "i386" (reads_sample "amd64") rfl (by decide) rfl first rfl rfl
  exact absurd (wrong (by decide)) (by decide)

end Ydfs.Wubi.Backend
