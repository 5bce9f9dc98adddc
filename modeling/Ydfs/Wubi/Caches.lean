import Ydfs.Wubi.Distro

/-!
# What the cached disk info says

As long as the media stay as they are, a cached disk info is what some distro has parsed from the
text of the medium (`Coherent`), though not always the distro that looks it up.  The distro only
matters for a text that the regular expression does not match, and then any distro takes the
architecture of the medium to be its own; so a check of the architecture tells what the distro
would read afresh (`arch_of_isValidIso`, `arch_of_isValidCd`).
-/

namespace Ydfs.Wubi

/-- Each cached disk info has been parsed by some distro from the text of the medium. -/
def Coherent (re : String → Option DiskInfo) (m : Media) (c : Caches) : Prop :=
  ∀ path infoFile info, c.info (path, infoFile) = some info →
    ∃ d : Distro, info = (m.text path infoFile).bind (d.parseIsoinfo re)

namespace Distro

variable {re : String → Option DiskInfo} {m : Media} {c : Caches} {d : Distro} {path : Path}

theorem coherent_empty : Coherent re m {} := fun _ _ _ h => nomatch h

/-- `get_info` gives what some distro reads, and keeps the cache coherent. -/
theorem getInfo_spec (d : Distro) (path : Path) (h : Coherent re m c) :
    (∃ x : Distro, (d.getInfo re m path c).1 =
      (m.text path d.infoFile).bind (x.parseIsoinfo re)) ∧ Coherent re m (d.getInfo re m path c).2 := by
  unfold getInfo
  cases hc : c.info (path, d.infoFile) with
  | some info => exact ⟨h path d.infoFile info hc, h⟩
  | none =>
    refine ⟨⟨d, rfl⟩, fun p f info hi => ?_⟩
    dsimp only at hi
    rw [Function.update_apply] at hi
    split_ifs at hi with key
    · cases key
      exact ⟨d, (Option.some.inj hi).symm⟩
    · exact h p f info hi

theorem info_getIsoFileNames (path : Path) (c : Caches) :
    (getIsoFileNames m path c).2.info = c.info := by
  unfold getIsoFileNames
  split <;> rfl

/-- A check of the architecture tells what the distro would read afresh. -/
theorem arch_of_checkInfo {x : Distro} (arch : d.arch ≠ "")
    (h : d.checkInfo ((m.text path d.infoFile).bind (x.parseIsoinfo re)) true = true) :
    archOf re m d path = some d.arch := by
  unfold archOf
  cases ht : m.text path d.infoFile with
  | none => simp [ht, checkInfo] at h
  | some text =>
    simp only [ht, Option.bind_some] at h ⊢
    unfold parseIsoinfo at h ⊢
    by_cases empty : text = ""
    · simp [empty, checkInfo] at h
    · rw [if_neg empty] at h ⊢
      cases hr : re text with
      | none => rfl
      | some info =>
        simp only [hr, checkInfo] at h
        split_ifs at h with hname hversion harch
        simpa [arch] using harch

theorem isValidIso_spec (d : Distro) (path : Path) (checkArch : Bool) (h : Coherent re m c) :
    Coherent re m (d.isValidIso re m path checkArch c).2 ∧
      ((d.isValidIso re m path checkArch c).1 = true → checkArch = true → d.arch ≠ "" →
        archOf re m d path = some d.arch) := by
  have named : Coherent re m (getIsoFileNames m path c).2 := fun p f info hi =>
    h p f info (by rwa [info_getIsoFileNames] at hi)
  unfold isValidIso
  split_ifs
  · exact ⟨h, nofun⟩
  · dsimp only
    split_ifs
    · exact ⟨named, nofun⟩
    · obtain ⟨⟨x, hx⟩, coherent⟩ := d.getInfo_spec path named
      refine ⟨coherent, fun hv hc ha => ?_⟩
      dsimp only at hv
      rw [hx, hc] at hv
      exact arch_of_checkInfo ha hv
    · exact ⟨named, nofun⟩

theorem isValidCd_spec (d : Distro) (path : Path) (checkArch : Bool) (h : Coherent re m c) :
    Coherent re m (d.isValidCd re m path checkArch c).2 ∧
      ((d.isValidCd re m path checkArch c).1 = true → checkArch = true → d.arch ≠ "" →
        archOf re m d path = some d.arch) := by
  unfold isValidCd
  split
  · exact ⟨h, nofun⟩
  · split_ifs
    · obtain ⟨⟨x, hx⟩, coherent⟩ := d.getInfo_spec path h
      refine ⟨coherent, fun hv hc ha => ?_⟩
      dsimp only at hv
      rw [hx, hc] at hv
      exact arch_of_checkInfo ha hv
    · exact ⟨h, nofun⟩

end Distro

end Ydfs.Wubi
