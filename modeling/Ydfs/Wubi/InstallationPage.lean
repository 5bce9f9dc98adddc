import Mathlib.Data.List.Nodup
import Mathlib.Data.Rat.Floor
import Ydfs.Wubi.BootIni
import Ydfs.Wubi.DiskSizes

/-!
# The lists of the installation page

`populate_drive_list` lists the drives with more than the minimal space, counted in 1000 MB for each
1024 MB that are free, and `populate_size_list` the multiples of 1000 MB that fit.  The size is rounded
up to the next one on offer, so that a drive with the minimal space may have no size; and if the checks
are skipped, every drive is listed, but a size must still fit.  The page then takes an element of an
empty list.
-/

namespace Ydfs.Wubi.Win32.InstallationPage

open DiskSizes

/-! ### The model of the source -/

/-- `Drive.type`, of the drives that have one. -/
inductive DriveType where
  | removable | hd | remote | cd | ram
deriving DecidableEq

/-- `Drive`, by its letter. -/
structure Drive extends TargetDrive where
  letter : Fin 26
  type : DriveType

/-- `Drive.path` -/
def path (letter : Fin 26) : Text := [Char.ofNat (65 + letter), ':']

/-- `info.drives`: `get_drives` asks for each letter once. -/
structure Drives where
  list : List Drive
  distinct : (list.map Drive.letter).Nodup

/-- `drives_dict.get` -/
def Drives.get (drives : Drives) (key : Text) : Option Drive :=
  drives.list.reverse.find? fun drive => lower (path drive.letter) = key

/-- `info.target_drive`: nothing, a text of the command line, or a drive that has been chosen. -/
inductive Target where
  | unset
  | ofText (text : Text)
  | ofDrive (drive : Drive)

/-- What ends the page: `application.quit`, or an error. -/
inductive Stop where
  | quit
  | indexError
  | attributeError
  | valueError
deriving DecidableEq

/-- `int` of a number. -/
def truncated (x : ℚ) : ℤ := if 0 ≤ x then ⌊x⌋ else ⌈x⌉

/-- The drives that the loops do not pass over. -/
def Drives.disks (drives : Drives) : List Drive :=
  drives.list.filter fun drive => drive.type = .removable ∨ drive.type = .hd

/-- The minimal space of `check_disk_free_space` and `populate_drive_list`. -/
def minSpaceMb (distro : Limits) : ℤ := distro.minDiskSpaceMb + distro.maxIsoSize / 1024 ^ 2 + 100

/-- The free space in GB of 1024 MB, which count as 1000 MB. -/
def driveSpaceMb (drive : Drive) : ℤ := truncated (drive.freeSpaceMb / 1024) * 1000

/-- `check_disk_free_space`: the new `skip_size_check`, with the answer of the user if there is a
question. -/
def checkDiskFreeSpace (skipSizeCheck confirms : Bool) (distro : Limits) (drives : Drives) :
    Except Stop Bool :=
  if skipSizeCheck then .ok true
  else
    let maxSpaceMb := drives.disks.foldl (fun space drive => max space drive.freeSpaceMb) 0
    let maxSpaceMb2 := drives.disks.foldl (fun space drive =>
      if driveSpaceMb drive > minSpaceMb distro then max space drive.freeSpaceMb else space) 0
    if maxSpaceMb < 32 then .error .quit
    else if maxSpaceMb2 < minSpaceMb distro then
      if confirms then .ok true else .error .quit
    else .ok false

/-- A drive that is listed. -/
def listed (skipSizeCheck : Bool) (distro : Limits) (drives : Drives) : List Drive :=
  drives.disks.filter fun drive => skipSizeCheck ∨ driveSpaceMb drive > minSpaceMb distro

/-- The item of a drive, with the translated text about its space. -/
def driveText (freeText : ℤ → Text) (drive : Drive) : Text :=
  path drive.letter ++ ' ' :: freeText (driveSpaceMb drive / 1000)

/-- The drive that is looked for among the items. -/
def soughtDrive (target : Target) (drives : Drives) : Except Stop (Option Drive) :=
  match target with
  | .unset => .ok none
  | .ofText text =>
    if text = [] then .ok none
    else if drives.list = [] then .error .indexError
    else .ok (drives.get (lower (text.take 2)))
  | .ofDrive drive => if drives.list = [] then .error .indexError else .ok (some drive)

/-- `select_default_drive`: the last item that starts with the path, or else the first one. -/
def selectDefaultDrive (target : Target) (drives : Drives) (drivesGb : List Text) :
    Except Stop Text := do
  let drive ← soughtDrive target drives
  match drivesGb with
  | [] => .error .indexError
  | first :: _ =>
    let texts := match drive with
      | none => []
      | some drive => drivesGb.filter fun text => path drive.letter <+: text
    .ok (texts.getLast?.getD first)

/-- A drop-down list selects the first item that begins with the text, whatever the case. -/
def selectString (items : List Text) (text : Text) : Text :=
  (items.find? fun item => lower text <+: lower item).getD []

/-- `get_drive`, which must be a drive for its space to be read. -/
def getDrive (drives : Drives) (text : Text) : Except Stop Drive :=
  match drives.get (lower (text.take 2)) with
  | none => .error .attributeError
  | some drive => .ok drive

/-- `select_default_size`: the size that is selected, and `installation_size_mb`. -/
def selectDefaultSize (installationSizeMb : ℤ) (sizeListGb : List ℤ) : Except Stop (ℤ × ℤ) :=
  match sizeListGb.find? fun i => installationSizeMb ≠ 0 ∧ i ≥ installationSizeMb / 1000 with
  | some i => .ok (i, installationSizeMb)
  | none =>
    match sizeListGb[sizeListGb.length / 2]? with
    | none => .error .indexError
    | some i =>
      match getInstallationSizeMb (itemText i) with
      | none => .error .valueError
      | some mb => .ok (i, mb)

/-- The page with its lists. -/
structure Page where
  skipSizeCheck : Bool
  drivesGb : List Text
  drive : Drive
  sizeListGb : List ℤ
  sizeGb : ℤ
  installationSizeMb : ℤ

/-- `populate_drive_list`, with `on_drive_change` and `populate_size_list`. -/
def populateDriveList (freeText : ℤ → Text) (skipSizeCheck confirms : Bool) (installationSizeMb : ℤ)
    (target : Target) (distro : Limits) (drives : Drives) : Except Stop Page := do
  let skipSizeCheck ← checkDiskFreeSpace skipSizeCheck confirms distro drives
  let drivesGb := (listed skipSizeCheck distro drives).map (driveText freeText)
  let text ← selectDefaultDrive target drives drivesGb
  let drive ← getDrive drives (selectString drivesGb text)
  let sizeListGb := populateSizeList skipSizeCheck installationSizeMb distro drive.toTargetDrive
  let (sizeGb, installationSizeMb) ← selectDefaultSize installationSizeMb sizeListGb
  return { skipSizeCheck, drivesGb, drive, sizeListGb, sizeGb, installationSizeMb }

/-! ### The lists -/

/-- The page ends before it has lists, or its lists are not empty. -/
def Lists (shown : Except Stop Page) : Prop :=
  shown = .error .quit ∨ ∃ page, shown = .ok page ∧ page.drivesGb ≠ [] ∧ page.sizeListGb ≠ []

/-- The letter of the drive that is looked for. -/
def Target.letter (target : Target) (drives : Drives) : Option (Fin 26) :=
  match target with
  | .unset => none
  | .ofText text => if text = [] then none else (drives.get (lower (text.take 2))).map Drive.letter
  | .ofDrive drive => some drive.letter

/-- The default drive: the one that is looked for, if it is listed, or else the first. -/
def defaultDrive (skipSizeCheck : Bool) (target : Target) (distro : Limits) (drives : Drives) :
    Option Drive :=
  ((listed skipSizeCheck distro drives).find? fun drive => some drive.letter = target.letter drives)
    <|> (listed skipSizeCheck distro drives).head?

/-- The smallest size on offer, from the minimal disk space on unless the checks are skipped. -/
def smallestSize (skipSizeCheck : Bool) (installationSizeMb : ℤ) (distro : Limits) : Option ℤ :=
  (sizes installationSizeMb).find? fun i => skipSizeCheck ∨ i * 1000 ≥ distro.minDiskSpaceMb

/-- The smallest size fits the drive, with the ISO and the margin. -/
def HasRoom (skipSizeCheck : Bool) (installationSizeMb : ℤ) (distro : Limits) (drive : Drive) : Prop :=
  ∃ i ∈ smallestSize skipSizeCheck installationSizeMb distro,
    ((i * 1000 + distro.maxIsoSize / 1024 ^ 2 + 100 : ℤ) : ℚ) ≤ drive.freeSpaceMb

variable {skip : Bool} {given : ℤ} {target : Target} {distro : Limits} {drives : Drives}
  {drive : Drive}

/-! ### The default drive -/

theorem lower_path_inj {i j : Fin 26} (h : lower (path i) = lower (path j)) : i = j := by
  revert i j
  decide

theorem letter_inj {d d' : Drive} (h : d ∈ drives.list) (h' : d' ∈ drives.list)
    (same : d.letter = d'.letter) : d = d' :=
  List.inj_on_of_nodup_map drives.distinct h h' same

theorem get_path (h : drive ∈ drives.list) : drives.get (lower (path drive.letter)) = some drive := by
  unfold Drives.get
  cases found : drives.list.reverse.find? fun d => lower (path d.letter) = lower (path drive.letter) with
  | none =>
    have other := List.find?_eq_none.1 found drive (List.mem_reverse.2 h)
    simp at other
  | some d =>
    have begun := List.find?_some found
    have same := lower_path_inj (of_decide_eq_true begun)
    have mem := List.mem_reverse.1 (List.mem_of_find?_eq_some found)
    rw [letter_inj mem h same]

theorem mem_of_listed (h : drive ∈ listed skip distro drives) : drive ∈ drives.list :=
  (List.mem_filter.1 (List.mem_filter.1 h).1).1

variable (freeText : ℤ → Text)

/-- The items begin with different letters. -/
theorem path_prefix_driveText {i : Fin 26} : path i <+: driveText freeText drive ↔ i = drive.letter := by
  constructor
  · intro begun
    have whole := List.prefix_of_prefix_length_le begun (List.prefix_append (path drive.letter) _) le_rfl
    exact lower_path_inj (congrArg lower (whole.eq_of_length rfl))
  · rintro rfl
    exact List.prefix_append _ _

/-- The item that is selected is the one of the drive. -/
theorem selectString_driveText (h : drive ∈ listed skip distro drives) :
    selectString ((listed skip distro drives).map (driveText freeText)) (driveText freeText drive) =
      driveText freeText drive := by
  have begins : ∀ d ∈ listed skip distro drives,
      lower (driveText freeText drive) <+: lower (driveText freeText d) → d = drive := by
    intro d mem begun
    have own : lower (path drive.letter) <+: lower (driveText freeText d) :=
      (lower_mono (List.prefix_append _ _)).trans begun
    have whole := List.prefix_of_prefix_length_le own
      (lower_mono (List.prefix_append (path d.letter) _)) le_rfl
    have same := lower_path_inj (whole.eq_of_length rfl)
    exact letter_inj (mem_of_listed mem) (mem_of_listed h) same.symm
  unfold selectString
  rw [List.find?_map]
  cases found : (listed skip distro drives).find? ((fun item : Text =>
      decide (lower (driveText freeText drive) <+: lower item)) ∘ driveText freeText) with
  | none =>
    have other := List.find?_eq_none.1 found drive h
    simp at other
  | some d =>
    have begun := List.find?_some found
    rw [begins d (List.mem_of_find?_eq_some found) (of_decide_eq_true begun)]
    rfl

theorem getDrive_driveText (h : drive ∈ listed skip distro drives) :
    getDrive drives (driveText freeText drive) = .ok drive := by
  have found : drives.get (lower ((driveText freeText drive).take 2)) = some drive :=
    get_path (mem_of_listed h)
  rw [getDrive, found]

theorem mem_of_defaultDrive (h : defaultDrive skip target distro drives = some drive) :
    drive ∈ listed skip distro drives := by
  rw [defaultDrive, Option.orElse_eq_some] at h
  rcases h with found | ⟨-, first⟩
  · exact List.mem_of_find?_eq_some found
  · exact List.mem_of_head? first

theorem defaultDrive_eq_none_iff :
    defaultDrive skip target distro drives = none ↔ listed skip distro drives = [] := by
  rw [defaultDrive, Option.orElse_eq_none, List.head?_eq_none_iff]
  exact and_iff_right_of_imp fun empty => by rw [empty]; rfl

/-- There is at most one item of a letter, so the last one is the first one. -/
theorem getLast?_letter (i : Fin 26) (l : List Drive) (distinct : (l.map Drive.letter).Nodup) :
    (l.filter fun d => i = d.letter).getLast? = l.find? fun d => i = d.letter := by
  induction l with
  | nil => rfl
  | cons d l ih =>
    rw [List.map_cons, List.nodup_cons] at distinct
    by_cases same : i = d.letter
    · have others : l.filter (fun d => i = d.letter) = [] := by
        refine List.filter_eq_nil_iff.2 fun d' mem same' => distinct.1 ?_
        rw [← same, of_decide_eq_true same']
        exact List.mem_map_of_mem mem
      rw [List.filter_cons_of_pos (by simpa using same), others,
        List.find?_cons_of_pos (by simpa using same), List.getLast?_singleton]
    · rw [List.filter_cons_of_neg (by simpa using same), ih distinct.2,
        List.find?_cons_of_neg (by simpa using same)]

/-- The drive that is looked for is known by its letter. -/
theorem soughtDrive_eq (target : Target) (drives : Drives) :
    (∃ drive, soughtDrive target drives = .ok drive ∧ drive.map Drive.letter = target.letter drives) ∨
      drives.list = [] ∧ soughtDrive target drives = .error .indexError := by
  by_cases empty : drives.list = []
  · cases target with
    | unset => exact .inl ⟨none, rfl, rfl⟩
    | ofText text =>
      by_cases blank : text = []
      · exact .inl ⟨none, by simp [soughtDrive, blank], by simp [Target.letter, blank]⟩
      · exact .inr ⟨empty, by simp [soughtDrive, blank, empty]⟩
    | ofDrive drive => exact .inr ⟨empty, by simp [soughtDrive, empty]⟩
  · refine .inl ?_
    cases target with
    | unset => exact ⟨none, rfl, rfl⟩
    | ofText text =>
      by_cases blank : text = []
      · exact ⟨none, by simp [soughtDrive, blank], by simp [Target.letter, blank]⟩
      · exact ⟨drives.get (lower (text.take 2)), by simp [soughtDrive, blank, empty],
          by simp [Target.letter, blank]⟩
    | ofDrive drive => exact ⟨some drive, by simp [soughtDrive, empty], rfl⟩

/-- `select_default_drive` takes the item of the default drive. -/
theorem selectDefaultDrive_eq :
    selectDefaultDrive target drives ((listed skip distro drives).map (driveText freeText)) =
      match defaultDrive skip target distro drives with
      | none => .error .indexError
      | some drive => .ok (driveText freeText drive) := by
  cases offered : listed skip distro drives with
  | nil =>
    rw [defaultDrive_eq_none_iff.2 offered]
    obtain ⟨drive, sought, -⟩ | ⟨-, sought⟩ := soughtDrive_eq target drives
    · simp [selectDefaultDrive, sought, bind, Except.bind]
    · simp [selectDefaultDrive, sought, bind, Except.bind]
  | cons first rest =>
    have mem : first ∈ drives.list := mem_of_listed (offered ▸ List.mem_cons_self)
    obtain ⟨drive, sought, letter⟩ | ⟨empty, -⟩ := soughtDrive_eq target drives
    · have distinct : ((first :: rest).map Drive.letter).Nodup := by
        rw [← offered]
        exact drives.distinct.sublist ((List.filter_sublist.trans List.filter_sublist).map _)
      rw [selectDefaultDrive, sought, defaultDrive, ← letter, offered]
      cases drive with
      | none =>
        have nothing : (first :: rest).find? (fun d => some d.letter = none) = none :=
          List.find?_eq_none.2 fun d _ => by simp
        rw [Option.map_none, nothing]
        rfl
      | some drive =>
        have texts : (((first :: rest).map (driveText freeText)).filter fun text =>
            path drive.letter <+: text).getLast? =
            ((first :: rest).find? fun d => drive.letter = d.letter).map (driveText freeText) := by
          rw [List.filter_map, List.getLast?_map]
          simp only [Function.comp_def, path_prefix_driveText]
          rw [getLast?_letter _ _ distinct]
        have turned : (first :: rest).find? (fun d => some d.letter = some drive.letter) =
            (first :: rest).find? fun d => drive.letter = d.letter := by
          simp only [Option.some.injEq, eq_comm]
        rw [Option.map_some, turned]
        rw [List.map_cons] at texts
        simp only [bind, Except.bind, List.map_cons, texts]
        cases (first :: rest).find? fun d => drive.letter = d.letter <;> rfl
    · rw [empty] at mem
      cases mem

/-! ### The default size -/

theorem pairwise_sizes (given : ℤ) : (sizes given).Pairwise (· ≤ ·) := by
  unfold sizes
  dsimp only
  split_ifs
  · exact List.pairwise_insertionSort _ _
  · decide

/-- There is a size exactly if the smallest one fits. -/
theorem populateSizeList_ne_nil_iff :
    populateSizeList skip given distro drive.toTargetDrive ≠ [] ↔ HasRoom skip given distro drive := by
  have nonempty (l : List ℤ) : l ≠ [] ↔ ∃ i, i ∈ l := by
    rw [Ne, List.eq_nil_iff_forall_not_mem, not_forall_not]
  rw [nonempty]
  constructor
  · rintro ⟨i, offered⟩
    obtain ⟨mem, checked⟩ := List.mem_filter.1 offered
    have checked := of_decide_eq_true checked
    unfold HasRoom smallestSize
    cases found : (sizes given).find? fun i => skip ∨ i * 1000 ≥ distro.minDiskSpaceMb with
    | none =>
      have none_ := List.find?_eq_none.1 found i mem
      exact absurd (decide_eq_true checked.1) none_
    | some first =>
      obtain ⟨-, before, after, split, passed⟩ := List.find?_eq_some_iff_append.1 found
      refine ⟨first, rfl, le_trans ?_ checked.2⟩
      -- the sizes are in order, so that no other one is smaller
      have least : first ≤ i := by
        rw [split] at mem
        rcases List.mem_append.1 mem with early | late
        · have no := passed i early
          simp [checked.1] at no
        · have ordered := pairwise_sizes given
          rw [split, List.pairwise_append, List.pairwise_cons] at ordered
          rcases List.mem_cons.1 late with rfl | late
          · exact le_rfl
          · exact ordered.2.1.1 i late
      exact_mod_cast (by omega)
  · rintro ⟨i, smallest, fits⟩
    have passes := List.find?_some smallest
    refine ⟨i, List.mem_filter.2 ⟨List.mem_of_find?_eq_some smallest, decide_eq_true ?_⟩⟩
    exact ⟨of_decide_eq_true passes, fits⟩

/-- `select_default_size` raises an error exactly if there is no size. -/
theorem selectDefaultSize_eq (given : ℤ) (l : List ℤ) :
    l = [] ∧ selectDefaultSize given l = .error .indexError ∨
      l ≠ [] ∧ ∃ size, selectDefaultSize given l = .ok size := by
  by_cases empty : l = []
  · subst empty
    exact .inl ⟨rfl, rfl⟩
  · refine .inr ⟨empty, ?_⟩
    have half : l.length / 2 < l.length := by
      have := List.length_pos_iff.2 empty
      omega
    unfold selectDefaultSize
    split
    · exact ⟨_, rfl⟩
    · rw [List.getElem?_eq_getElem half]
      simp only [getInstallationSizeMb_itemText]
      exact ⟨_, rfl⟩

/-! ### The page -/

/-- What the page is, once the checks have been made. -/
theorem populateDriveList_of_check {confirms : Bool} {skip' : Bool}
    (check : checkDiskFreeSpace skip confirms distro drives = .ok skip') :
    Lists (populateDriveList freeText skip confirms given target distro drives) ↔
      ∃ drive ∈ defaultDrive skip' target distro drives, HasRoom skip' given distro drive := by
  unfold populateDriveList
  rw [check]
  simp only [bind, Except.bind, selectDefaultDrive_eq]
  cases default : defaultDrive skip' target distro drives with
  | none => simp [Lists]
  | some drive =>
    have mem := mem_of_defaultDrive default
    have listed_ : (listed skip' distro drives).map (driveText freeText) ≠ [] := by
      intro empty
      rw [List.map_eq_nil_iff.1 empty] at mem
      cases mem
    simp only [selectString_driveText freeText mem, getDrive_driveText freeText mem,
      Option.mem_some_iff, exists_eq_left', ← populateSizeList_ne_nil_iff]
    obtain ⟨empty, raised⟩ | ⟨sizes, size, selected⟩ :=
      selectDefaultSize_eq given (populateSizeList skip' given distro drive.toTargetDrive)
    · rw [raised]
      simp [Lists, empty]
    · rw [selected]
      refine iff_of_true (.inr ⟨_, rfl, listed_, sizes⟩) sizes

/-- The page has its lists exactly if it lets the user continue only with a default drive that has room
for the smallest size. -/
theorem installation_page_lists_iff (freeText : ℤ → Text) (skip confirms : Bool) (given : ℤ)
    (target : Target) (distro : Limits) (drives : Drives) :
    Lists (populateDriveList freeText skip confirms given target distro drives) ↔
      ∀ skip', checkDiskFreeSpace skip confirms distro drives = .ok skip' →
        ∃ drive ∈ defaultDrive skip' target distro drives, HasRoom skip' given distro drive := by
  cases check : checkDiskFreeSpace skip confirms distro drives with
  | ok skip' =>
    rw [populateDriveList_of_check freeText check]
    constructor
    · rintro room _ ⟨⟩
      exact room
    · intro room
      exact room skip' rfl
  | error stop =>
    have quits : stop = .quit := by
      unfold checkDiskFreeSpace at check
      dsimp only at check
      split_ifs at check <;> cases check <;> rfl
    subst quits
    refine iff_of_true (.inl ?_) nofun
    unfold populateDriveList
    rw [check]
    rfl

/-- With the checks, and a minimal disk space of a whole number of GB, a drive that is listed has room. -/
theorem hasRoom_of_listed {gb : ℤ} (whole : distro.minDiskSpaceMb = gb * 1000) (pos : 1 ≤ gb)
    (le : gb ≤ 32) (iso : 0 ≤ distro.maxIsoSize) (h : drive ∈ listed false distro drives) :
    HasRoom false given distro drive := by
  have enough : driveSpaceMb drive > minSpaceMb distro := by
    simpa using (List.mem_filter.1 h).2
  unfold driveSpaceMb minSpaceMb truncated at enough
  have mb : 0 ≤ distro.maxIsoSize / 1024 ^ 2 := Int.ediv_nonneg iso (by norm_num)
  have gbs : (⌊drive.freeSpaceMb / 1024⌋ : ℚ) * 1024 ≤ drive.freeSpaceMb := by
    have := Int.floor_le (drive.freeSpaceMb / 1024)
    linarith
  have free : 0 ≤ drive.freeSpaceMb / 1024 := by
    by_contra neg
    rw [if_neg neg] at enough
    have : ⌈drive.freeSpaceMb / 1024⌉ ≤ 0 := Int.ceil_le.2 (by push_cast; linarith)
    omega
  rw [if_pos free] at enough
  refine populateSizeList_ne_nil_iff.1 (List.ne_nil_of_mem (a := gb) ?_)
  refine List.mem_filter.2 ⟨?_, decide_eq_true ⟨.inr (by omega), ?_⟩⟩
  · have standard : gb ∈ (List.range' 1 32).map Int.ofNat ++ [64, 128, 256, 512] := by
      refine List.mem_append_left _ (List.mem_map.2 ⟨gb.toNat, ?_, Int.toNat_of_nonneg (by omega)⟩)
      rw [List.mem_range'_1]
      omega
    unfold sizes
    dsimp only
    split_ifs
    · exact (List.mem_insertionSort _).2 (List.mem_append_left _ standard)
    · exact standard
  · refine le_trans ?_ gbs
    exact_mod_cast (by omega)

/-- A hard disk with some 2 GB left. -/
def smallDrive : Drive := { filesystem := "ntfs", freeSpaceMb := 2000, letter := 2, type := .hd }

/-- The user goes on with too little space, and the page has no size for the drive. -/
theorem not_installation_page_lists :
    ¬ ∀ (freeText : ℤ → Text) (skip confirms : Bool) (given : ℤ) (target : Target) (distro : Limits)
      (drives : Drives),
      Lists (populateDriveList freeText skip confirms given target distro drives) := by
  intro lists
  let drives : Drives := ⟨[smallDrive], by decide⟩
  have shown := lists (fun _ => []) false true 0 .unset ⟨6000, 3700000000⟩ drives
  have confirmed : checkDiskFreeSpace false true ⟨6000, 3700000000⟩ drives = .ok true := by
    decide +kernel
  obtain ⟨drive, default, room⟩ := (populateDriveList_of_check _ confirmed).1 shown
  have only : defaultDrive true .unset ⟨6000, 3700000000⟩ drives = some smallDrive := rfl
  obtain rfl : smallDrive = drive := Option.some.inj (only.symm.trans default)
  have empty : populateSizeList true 0 ⟨6000, 3700000000⟩ smallDrive.toTargetDrive = [] := by decide
  exact populateSizeList_ne_nil_iff.2 room empty

end Ydfs.Wubi.Win32.InstallationPage
