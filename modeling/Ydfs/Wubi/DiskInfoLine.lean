import Ydfs.Regex.Backtrack
import Ydfs.Wubi.Distro

/-!
# The line of disk info

`disk_info_re`, which `parse_isoinfo` matches against the disk info of a medium, and the lines that it
is meant for (`InfoLine`), among them those that the scripts write when they make an ISO.  The name
may hold spaces and may run on over a version, so that the split between the two is found from the
right: by the dot of the version, or by the quotation mark of the codename.
-/

namespace Ydfs.Wubi

open Regex

/-- The groups of `disk_info_re`. -/
inductive Group where
  | name | version | codename | subversion | arch | build
  deriving DecidableEq

/-- `\w` -/
def isWord (c : Char) : Bool := c.isAlphanum || c = '_'

/-- `[\w\s-]` -/
def isNameChar (c : Char) : Bool :=
  isWord c || c ∈ [' ', '\t', '\n', '\r', '\x0b', '\x0c'] || c = '-'

/-- `[\w.]` -/
def isVersionChar (c : Char) : Bool := isWord c || c = '.'

/-- `[\d:.-]` -/
def isBuildChar (c : Char) : Bool := c.isDigit || c ∈ [':', '.', '-']

/-- `disk_info_re` after the codename. -/
def fromSubversion : List (Regex Char Group) :=
  [opt (group .subversion (plus fun c => !c.isDigit)),
    lit [' '],
    group .arch (alt (lit "i386".toList) (lit "amd64".toList)),
    opt (plus fun c => !c.isDigit),
    opt (group .build (plus isBuildChar))]

/-- `disk_info_re` from the version on. -/
def fromVersion : List (Regex Char Group) :=
  [group .version (plus isVersionChar),
    opt (lit " LTS".toList),
    opt (cat [lit [' '],
      opt (char fun c => c ∈ ['"', '(']),
      group .codename (plus isNameChar),
      opt (char fun c => c ∈ ['"', ')'])]),
    lit " - ".toList] ++ fromSubversion

/-- `disk_info_re` -/
def diskInfoPattern : Regex Char Group :=
  cat ([group .name (plus isNameChar), lit [' ']] ++ fromVersion)

/-- What `disk_info_re` finds in a text. -/
def diskInfoRe (text : String) : Option DiskInfo :=
  (diskInfoPattern.match? text.toList).map fun groups =>
    { name := .ofList ((groups .name).getD [])
      version := .ofList ((groups .version).getD [])
      subversion := (groups .subversion).map .ofList
      arch := .ofList ((groups .arch).getD []) }

/-- A condition on all characters of a text, evaluated one after the other. -/
theorem forall_mem_of_all {p : Char → Prop} [DecidablePred p] {x : List Char}
    (h : (x.all fun c => p c) = true) : ∀ c ∈ x, p c := by
  simpa using List.all_eq_true.1 h

/-- The architectures of a disk info. -/
inductive CpuArch where
  | i386 | amd64

/-- The text of an architecture. -/
def CpuArch.text : CpuArch → List Char
  | .i386 => "i386".toList
  | .amd64 => "amd64".toList

/-- The version of a line of disk info, and whether it is of long term support. -/
structure Release where
  version : List Char
  lts : Bool
  version_ne : version ≠ []
  version_chars : ∀ c ∈ version, isVersionChar c = true

/-- What a line of disk info is built from. -/
structure InfoLine where
  name : List Char
  release : Option Release
  codename : List Char
  subversion : List Char
  arch : CpuArch
  build : Option (List Char)
  name_ne : name ≠ []
  name_chars : ∀ c ∈ name, isNameChar c = true
  codename_ne : codename ≠ []
  codename_chars : ∀ c ∈ codename, isNameChar c = true
  subversion_ne : subversion ≠ []
  subversion_chars : ∀ c ∈ subversion, c.isDigit = false

/-- The text of a version. -/
def Release.text (r : Release) : List Char := r.version ++ if r.lts then " LTS".toList else []

namespace InfoLine

/-- The line from the subversion on. -/
def subversionText (line : InfoLine) : List Char :=
  line.subversion ++ ' ' :: line.arch.text ++
    (line.build.elim [] fun build => " (".toList ++ build ++ [')'])

/-- The line from the codename on. -/
def codenameText (line : InfoLine) : List Char :=
  " \"".toList ++ line.codename ++ "\" - ".toList ++ line.subversionText

/-- The line. -/
def text (line : InfoLine) : List Char :=
  line.name ++ (line.release.elim [] fun r => ' ' :: r.text) ++ line.codenameText

/-- What the line was built from, with spaces for the hyphens of the name. -/
def built (line : InfoLine) : DiskInfo where
  name := .ofList (line.name.map fun c => if c = '-' then ' ' else c)
  version := .ofList (line.release.elim [] Release.version)
  subversion := some (.ofList line.subversion)
  arch := .ofList line.arch.text

end InfoLine

/-! ## From the architecture back to the version -/

variable {c : Captures Char Group} {y : List Char}

/-- What follows the architecture is matched in some way. -/
theorem exists_leads_build (s : State Char Group) : ∃ s',
    Leads (cat [opt (plus fun c => !c.isDigit), opt (group Group.build (plus isBuildChar))]) s s' ∧
      ∀ k ≠ Group.build, s'.2 k = s.2 k := by
  obtain ⟨s', hs⟩ := exists_leads_seq (exists_leads_opt _)
    (exists_leads_seq (exists_leads_opt _) fun s => ⟨s, leads_eps s⟩) s
  exact ⟨s', hs, fun k hk => captures_of_mem (by simp [groups, hk]) hs.mem⟩

theorem leads_arch (arch : CpuArch) :
    Leads (group Group.arch (alt (lit "i386".toList) (lit "amd64".toList))) (arch.text ++ y, c)
      (y, Function.update c .arch (some arch.text)) := by
  apply Leads.group
  cases arch with
  | i386 =>
    have text : CpuArch.i386.text = "i386".toList := rfl
    rw [text]
    exact (leads_lit _).alt_left
  | amd64 =>
    have text : CpuArch.amd64.text = "amd64".toList := rfl
    rw [text]
    exact Leads.alt_right (results_lit_eq_nil (by simp)) (leads_lit _)

/-- A repetition that begins with a space and ends before `b` is not followed by a space. -/
theorem no_space_after {p : Char → Bool} {u v w z : List Char} {b : Char}
    (h : ' ' :: w ++ b :: z = u ++ v) (hne : u ≠ []) (hu : ∀ c ∈ u, p c = true) (hb : p b = false)
    (spaces : ' ' ∉ w ++ [b]) : ¬ [' '] <+: v := by
  obtain ⟨w', hw, rfl⟩ := append_cons_split h.symm hu hb
  obtain ⟨a, u, rfl⟩ := List.exists_cons_of_ne_nil hne
  obtain ⟨rfl, split⟩ := List.cons.inj hw
  obtain rfl : w = u ++ w' := split
  rintro ⟨z', hz⟩
  apply spaces
  cases w' with
  | nil =>
    obtain rfl : ' ' = b := (List.cons.inj hz).1
    simp
  | cons d w' =>
    obtain rfl : ' ' = d := (List.cons.inj hz).1
    simp

/-- The subversion is taken up to the space before the architecture. -/
theorem leads_fromSubversion {subversion : List Char} (arch : CpuArch) (hne : subversion ≠ [])
    (hchars : ∀ c ∈ subversion, c.isDigit = false) : ∃ s',
    Leads (cat fromSubversion) (subversion ++ (' ' :: arch.text ++ y), c) s' ∧
      ∀ k ≠ Group.build, s'.2 k = Function.update (Function.update c .subversion (some subversion))
        .arch (some arch.text) k := by
  obtain ⟨s', hs, hk⟩ := exists_leads_build (y, Function.update
    (Function.update c .subversion (some subversion)) .arch (some arch.text))
  refine ⟨s', ?_, hk⟩
  apply Leads.opt_seq
  apply Leads.plus _ hne (by simpa using hchars)
  · intro u v h hu hall
    apply results_seq_eq_nil
    apply results_lit_eq_nil
    cases arch with
    | i386 => exact no_space_after (w := ['i']) (b := '3') h hu hall rfl (by decide)
    | amd64 => exact no_space_after (w := "amd".toList) (b := '6') h hu hall rfl (by decide)
  · exact (leads_lit [' ']).seq ((leads_arch arch).seq hs)

/-- The codename is taken with its quotation marks. -/
theorem leads_codename {codename : List Char} (hne : codename ≠ [])
    (hchars : ∀ c ∈ codename, isNameChar c = true) :
    Leads (opt (cat [lit [' '], opt (char fun c => c ∈ ['"', '(']),
        group Group.codename (plus isNameChar), opt (char fun c => c ∈ ['"', ')'])]))
      (' ' :: '"' :: codename ++ '"' :: y, c) (y, Function.update c .codename (some codename)) := by
  apply Leads.opt
  apply (leads_lit [' ']).seq
  apply (leads_char (by decide)).opt.seq
  apply ((leads_plus hne hchars (by rintro _ ⟨⟩; decide)).group _).seq
  exact (leads_char (by decide)).opt.seq (leads_eps _)

theorem leads_lts (lts : Bool) (y : List Char) :
    Leads (opt (lit " LTS".toList)) ((if lts then " LTS".toList else []) ++ ' ' :: '"' :: y, c)
      (' ' :: '"' :: y, c) := by
  cases lts with
  | true => exact (leads_lit _).opt
  | false => exact leads_opt_skip (results_lit_eq_nil (by simp))

/-- From the version on, a line is matched as it was built. -/
theorem leads_fromVersion (r : Release) {codename subversion : List Char} (arch : CpuArch)
    (codename_ne : codename ≠ []) (codename_chars : ∀ c ∈ codename, isNameChar c = true)
    (subversion_ne : subversion ≠ []) (subversion_chars : ∀ c ∈ subversion, c.isDigit = false) :
    ∃ s', Leads (cat fromVersion) (r.text ++ (' ' :: '"' :: codename ++ '"' :: (" - ".toList ++
        (subversion ++ (' ' :: arch.text ++ y)))), c) s' ∧
      s'.2 .name = c .name ∧ s'.2 .version = some r.version ∧
        s'.2 .subversion = some subversion ∧ s'.2 .arch = some arch.text := by
  let c₁ := Function.update (Function.update c .version (some r.version)) .codename (some codename)
  obtain ⟨s', hs, hk⟩ := leads_fromSubversion (c := c₁) (y := y) arch subversion_ne subversion_chars
  refine ⟨s', ?_, by simp [hk, c₁], by simp [hk, c₁], by simp [hk], by simp [hk]⟩
  have stop : ∀ a ∈ ((if r.lts then " LTS".toList else []) ++ (' ' :: '"' :: codename ++ '"' ::
      (" - ".toList ++ (subversion ++ (' ' :: arch.text ++ y))))).head?, isVersionChar a = false := by
    cases r.lts <;> rintro _ ⟨⟩ <;> decide
  unfold Release.text
  rw [List.append_assoc]
  apply ((leads_plus r.version_ne r.version_chars stop).group _).seq
  apply (leads_lts r.lts _).seq
  apply (leads_codename codename_ne codename_chars).seq
  exact (leads_lit _).seq hs

/-! ## The split between the name and the version -/

theorem Release.space_notMem (r : Release) : ' ' ∉ r.version :=
  fun h => absurd (r.version_chars ' ' h) (by decide)

/-- With a dot in the version, the name cannot run on past a space. -/
theorem longer_of_dot {r : Release} (dot : '.' ∈ r.version) {u v : List Char}
    (h : ' ' :: (r.text ++ y) = u ++ v) (hne : u ≠ []) (hu : ∀ c ∈ u, isNameChar c = true) :
    results (cat ([lit [' ']] ++ fromVersion)) (v, c) = [] := by
  obtain ⟨a, b, hv, -⟩ := List.eq_append_cons_of_mem dot
  apply results_seq_eq_nil
  apply results_lit_eq_nil
  apply no_space_after (p := isNameChar) (w := a) (b := '.')
    (z := b ++ ((if r.lts then " LTS".toList else []) ++ y)) _ hne hu (by decide)
  · have spaces := r.space_notMem
    rw [hv] at spaces
    simp_all
  · rw [← h, Release.text, hv]
    simp

/-- Without an LTS the name may run on up to the quotation mark, and then there is no version. -/
theorem longer_of_not_lts {r : Release} (lts : r.lts = false) {u v : List Char}
    (h : ' ' :: (r.text ++ ' ' :: '"' :: y) = u ++ v) (hne : u ≠ [])
    (hu : ∀ c ∈ u, isNameChar c = true) :
    results (cat ([lit [' ']] ++ fromVersion)) (v, c) = [] := by
  have text : r.text = r.version := by simp [Release.text, lts]
  have quoted : u ++ v = (' ' :: r.version ++ [' ']) ++ '"' :: y := by simp [← h, text]
  obtain ⟨w, hw, rfl⟩ := append_cons_split quoted hu (by decide)
  obtain rfl | ⟨l, d, rfl⟩ := List.eq_nil_or_concat w
  · exact results_seq_eq_nil (results_lit_eq_nil (by simp))
  · rw [List.concat_eq_append, ← List.append_assoc] at hw
    obtain ⟨hl, hd⟩ := List.append_inj' hw rfl
    obtain rfl : ' ' = d := by simpa using hd
    cases l with
    | nil =>
      -- the space before the codename is taken for the one before the version
      have fails : results (cat fromVersion) ('"' :: y, c) = [] :=
        results_seq_eq_nil (results_group_eq_nil _ (results_plus_eq_nil (by rintro _ ⟨⟩; decide)))
      show (results (lit [' ']) _).flatMap (results (cat fromVersion)) = []
      rw [show [].concat ' ' ++ '"' :: y = [' '] ++ '"' :: y from rfl, results_lit]
      simp [fails]
    | cons e l =>
      obtain ⟨b, u, rfl⟩ := List.exists_cons_of_ne_nil hne
      have mem : e ∈ r.version := by
        rw [(List.cons.inj hl).2]
        simp
      have ne : ' ' ≠ e := fun he => r.space_notMem (he ▸ mem)
      exact results_seq_eq_nil (results_lit_eq_nil (by simp [ne]))

namespace InfoLine

theorem text_append (line : InfoLine) {r : Release} (h : line.release = some r) (tail : List Char) :
    line.text ++ tail = line.name ++ (' ' :: (r.text ++ (' ' :: '"' :: line.codename ++ '"' ::
      (" - ".toList ++ (line.subversion ++ (' ' :: line.arch.text ++
        ((line.build.elim [] fun build => " (".toList ++ build ++ [')']) ++ tail))))))) := by
  simp [text, codenameText, subversionText, h]

/-- A line with a dotted version, or without an LTS, is matched as it was built. -/
theorem diskInfoRe_text (line : InfoLine) {r : Release} (h : line.release = some r)
    (dotted : r.lts = true → '.' ∈ r.version) (tail : List Char) :
    diskInfoRe (.ofList (line.text ++ tail)) = some
      { name := .ofList line.name, version := .ofList r.version,
        subversion := some (.ofList line.subversion), arch := .ofList line.arch.text } := by
  obtain ⟨s, hs, name, version, subversion, arch⟩ := leads_fromVersion
    (c := Function.update (fun _ => none) .name (some line.name))
    (y := (line.build.elim [] fun build => " (".toList ++ build ++ [')']) ++ tail) r line.arch
    line.codename_ne line.codename_chars line.subversion_ne line.subversion_chars
  have leads : Leads diskInfoPattern (line.text ++ tail, fun _ => none) s := by
    rw [line.text_append h]
    apply Leads.plus _ line.name_ne line.name_chars
    · intro u v hsplit hne hu
      by_cases dot : '.' ∈ r.version
      · exact longer_of_dot dot hsplit hne hu
      · have lts : r.lts = false := by simpa using mt dotted dot
        exact longer_of_not_lts lts hsplit hne hu
    · exact (leads_lit [' ']).seq hs
  unfold diskInfoRe
  rw [String.toList_ofList, match?_of_leads leads]
  simp [name, version, subversion, arch]

/-- The name that is matched is followed by a space and a version. -/
theorem name_of_diskInfoRe {x : List Char} {info : DiskInfo}
    (h : diskInfoRe (.ofList x) = some info) : ∃ w a v,
      x = w ++ ' ' :: a :: v ∧ isVersionChar a = true ∧ info.name = .ofList w := by
  unfold diskInfoRe match? at h
  rw [String.toList_ofList, Option.map_map, Option.map_eq_some_iff] at h
  obtain ⟨s, hs, rfl⟩ := h
  obtain ⟨⟨z, c⟩, h₁, hs⟩ := List.mem_flatMap.1 (List.mem_of_head? hs)
  obtain ⟨w, hw, -, -, hc⟩ := mem_results_group_plus h₁
  have name : s.2 .name = some w := by
    rw [captures_of_mem (by decide) hs]
    simpa using congrFun hc .name
  obtain ⟨s₂, h₂, hs⟩ := List.mem_flatMap.1 hs
  have space : [' '] <+: z := by
    by_contra space
    rw [results_lit_eq_nil space] at h₂
    simp at h₂
  obtain ⟨y, rfl⟩ := space
  rw [results_lit, List.mem_singleton] at h₂
  subst h₂
  obtain ⟨s₃, h₃, -⟩ := List.mem_flatMap.1 hs
  obtain ⟨v, hv, hne, chars, -⟩ := mem_results_group_plus h₃
  obtain ⟨a, v, rfl⟩ := List.exists_cons_of_ne_nil hne
  refine ⟨w, a, v ++ s₃.1, ?_, chars a (by simp), by simp [name]⟩
  rw [hw, hv]
  rfl

/-- `parse_isoinfo` gives back what the line was built from, whatever follows it. -/
def RoundTrip (d : Distro) (line : InfoLine) (tail : List Char) : Prop :=
  d.parseIsoinfo diskInfoRe (.ofList (line.text ++ tail)) = some line.built

variable {d : Distro} {line : InfoLine} {tail : List Char}

theorem text_ne (line : InfoLine) (tail : List Char) : String.ofList (line.text ++ tail) ≠ "" := by
  intro h
  have empty : line.text ++ tail = [] := by simpa using congrArg String.toList h
  have name := line.name_ne
  simp_all [text]

theorem parseIsoinfo_of_some {info : DiskInfo}
    (h : diskInfoRe (.ofList (line.text ++ tail)) = some info) :
    d.parseIsoinfo diskInfoRe (.ofList (line.text ++ tail)) =
      some { info with name := info.name.map fun c => if c = '-' then ' ' else c } := by
  unfold Distro.parseIsoinfo
  rw [if_neg (line.text_ne tail), h]

theorem roundTrip_of_dotted {r : Release} (h : line.release = some r)
    (dotted : r.lts = true → '.' ∈ r.version) : RoundTrip d line tail := by
  unfold RoundTrip
  rw [parseIsoinfo_of_some (line.diskInfoRe_text h dotted tail)]
  simp [built, h, ← String.toList_inj]

/-- An LTS is taken for the version when the version has no dot, which becomes a part of the name. -/
theorem not_roundTrip_of_lts {r : Release} (h : line.release = some r) (lts : r.lts = true)
    (undotted : '.' ∉ r.version) : ¬ RoundTrip d line tail := by
  have words : ∀ c ∈ r.version, isNameChar c = true := by
    intro c hc
    have dot : c ≠ '.' := by
      rintro rfl
      exact undotted hc
    have word := r.version_chars c hc
    simp_all [isVersionChar, isNameChar]
  let running : InfoLine :=
    { line with
      name := line.name ++ ' ' :: r.version
      release := some ⟨"LTS".toList, false, by decide, forall_mem_of_all (by decide)⟩
      name_ne := by simp
      name_chars := by
        intro c hc
        simp only [List.mem_append, List.mem_cons] at hc
        obtain hc | rfl | hc := hc
        · exact line.name_chars c hc
        · decide
        · exact words c hc }
  have same : running.text = line.text := by
    simp [running, text, h, Release.text, lts, codenameText, subversionText]
  intro trip
  unfold RoundTrip at trip
  rw [← same, parseIsoinfo_of_some
    (running.diskInfoRe_text rfl (fun lts => absurd lts Bool.false_ne_true) tail)] at trip
  have name := congrArg (fun info => (DiskInfo.name info).length) (Option.some.inj trip)
  simp [running, built] at name

/-- Without a version, the name that is matched ends before that of the line. -/
theorem not_roundTrip_of_no_version (h : line.release = none) : ¬ RoundTrip d line tail := by
  intro trip
  cases hr : diskInfoRe (.ofList (line.text ++ tail)) with
  | none =>
    unfold RoundTrip Distro.parseIsoinfo at trip
    rw [if_neg (line.text_ne tail), hr] at trip
    have name := congrArg (fun info => (DiskInfo.name info).toList) (Option.some.inj trip)
    simp [built, line.name_ne] at name
  | some info =>
    unfold RoundTrip at trip
    rw [parseIsoinfo_of_some hr] at trip
    obtain ⟨w, a, v, split, version, hw⟩ := name_of_diskInfoRe hr
    have name := congrArg (fun info => (DiskInfo.name info).toList.length) (Option.some.inj trip)
    have len : w.length = line.name.length := by simpa [built, hw] using name
    have quoted : w ++ ' ' :: a :: v = line.name ++ ' ' :: '"' :: (line.codename ++
        ("\" - ".toList ++ line.subversionText) ++ tail) := by
      rw [← split]
      simp [text, h, codenameText]
    obtain ⟨-, rest⟩ := List.append_inj quoted len
    obtain rfl : a = '"' := (List.cons.inj (List.cons.inj rest).2).1
    exact absurd version (by decide)

/-- A line is parsed as it was built exactly when it has a version, which has a dot if an LTS
follows. -/
theorem parse_isoinfo_round_trip_iff (d : Distro) (line : InfoLine) (tail : List Char) :
    RoundTrip d line tail ↔
      ∃ r, line.release = some r ∧ (r.lts = true → '.' ∈ r.version) := by
  constructor
  · intro trip
    cases h : line.release with
    | none => exact absurd trip (not_roundTrip_of_no_version h)
    | some r =>
      refine ⟨r, rfl, fun lts => ?_⟩
      by_contra undotted
      exact not_roundTrip_of_lts h lts undotted trip
  · rintro ⟨r, h, dotted⟩
    exact roundTrip_of_dotted h dotted

/-! ## The lines that `make_iso` writes -/

/-- `CPUARCH` of `make_iso`. -/
def cpuArch (arch : String) : CpuArch := if arch = "x86" then .i386 else .amd64

/-- The line that `make_iso` writes to `.disk/info`: the one of release 2.10 has no version. -/
def linuxConsole (release : Option Release) (arch : String) (date : List Char) : InfoLine where
  name := "LinuxConsole".toList
  release := release
  codename := "LinuxConsole".toList
  subversion := "Release".toList
  arch := cpuArch arch
  build := some date
  name_ne := by decide
  name_chars := forall_mem_of_all (by decide)
  codename_ne := by decide
  codename_chars := forall_mem_of_all (by decide)
  subversion_ne := by decide
  subversion_chars := forall_mem_of_all (by decide)

/-- `2.3 LTS`, in the `make_iso` of testing. -/
def release23 : Release where
  version := "2.3".toList
  lts := true
  version_ne := by decide
  version_chars := forall_mem_of_all (by decide)

example : String.ofList (linuxConsole none "x86" "2024".toList).text =
    "LinuxConsole \"LinuxConsole\" - Release i386 (2024)" := by decide

example : String.ofList (linuxConsole (some release23) "x86_64" "2014".toList).text =
    "LinuxConsole 2.3 LTS \"LinuxConsole\" - Release amd64 (2014)" := by decide

/-- The lines of testing are parsed as they were built. -/
theorem roundTrip_testing (d : Distro) (arch : String) (date : List Char) :
    RoundTrip d (linuxConsole (some release23) arch date) ['\n'] :=
  roundTrip_of_dotted rfl fun _ => by decide

/-- The lines of release 2.10 are not. -/
theorem not_roundTrip_release : ¬ ∀ (d : Distro) (arch : String) (date : List Char),
    RoundTrip d (linuxConsole none arch date) ['\n'] := by
  intro h
  have trip := h ⟨"LinuxConsole", "", "i386", "", "", "", "", [], "", ""⟩ "x86" "2024".toList
  exact not_roundTrip_of_no_version rfl trip

end InfoLine

end Ydfs.Wubi
