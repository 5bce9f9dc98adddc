import Mathlib.Algebra.Order.Ring.Rat
import Mathlib.Data.List.Sort
import Ydfs.Wubi.MetalinkParts

/-!
# The sizes of the virtual disks

The installation page offers the sizes that, with the ISO and a margin, fit the free space of the
drive, and `choose_disk_sizes` divides the chosen one.  On a FAT file system it keeps every file below
the limit of 4 GiB only because the sizes on offer are multiples of 1000 MB: the remainder that goes
to the root disk grows up to 4500 MB in between.
-/

namespace Ydfs.Wubi.Win32

namespace DiskSizes

/-- `Drive`. -/
structure TargetDrive where
  filesystem : String
  freeSpaceMb : ℚ

/-- The limits of a distro. -/
structure Limits where
  minDiskSpaceMb : ℤ
  maxIsoSize : ℤ

/-- The sizes of the virtual disks in MB. -/
structure Plan where
  root : ℤ
  home : ℤ
  usr : ℤ
  swap : ℤ

/-- `is_fat` -/
def TargetDrive.isFat (drive : TargetDrive) : Bool := drive.filesystem ∈ ["fat", "fat32", "vfat"]

/-! ### The installation page -/

/-- The sizes in GB that `populate_size_list` goes through; 0 is no size given on the command line. -/
def sizes (installationSizeMb : ℤ) : List ℤ :=
  let standard := (List.range' 1 32).map Int.ofNat ++ [64, 128, 256, 512]
  let given := installationSizeMb / 1000
  if installationSizeMb ≠ 0 ∧ given ∉ standard then (standard ++ [given]).insertionSort (· ≤ ·)
  else standard

/-- `populate_size_list` -/
def populateSizeList (skipSizeCheck : Bool) (installationSizeMb : ℤ) (distro : Limits)
    (drive : TargetDrive) : List ℤ :=
  (sizes installationSizeMb).filter fun i =>
    (skipSizeCheck ∨ i * 1000 ≥ distro.minDiskSpaceMb) ∧
      ((i * 1000 + distro.maxIsoSize / 1024 ^ 2 + 100 : ℤ) : ℚ) ≤ drive.freeSpaceMb

/-- The text of an item of the list. -/
def itemText (i : ℤ) : Sax.Text := Sax.decimal i ++ ['G', 'B']

/-- `get_installation_size_mb`, of the text that is selected. -/
def getInstallationSizeMb (text : Sax.Text) : Option ℤ :=
  (Sax.parseInt (text.take (text.length - 2))).map (· * 1000)

/-! ### The plan -/

/-- `choose_disk_sizes` -/
def chooseDiskSizes (fat : Bool) (installationSizeMb : ℤ) : Plan :=
  let swap := 256
  let root := installationSizeMb - swap
  if fat then
    if root > 8500 then { root := 4000, home := min (root - 8000) 4000, usr := 4000, swap }
    else if root > 5500 then { root := root - 4000, home := 0, usr := 4000, swap }
    else if root > 4000 then { root := 1500, home := 0, usr := root - 1500, swap }
    else { root, home := 0, usr := 0, swap }
  else { root, home := 0, usr := 0, swap }

/-- The disks of `create_virtual_disks`. -/
def Plan.disks (plan : Plan) : List ℤ := [plan.root, plan.home, plan.usr, plan.swap]

/-- The length of a virtual disk in bytes. -/
def diskBytes (sizeMb : ℤ) : ℤ := sizeMb * 1024 * 1024

/-- No disk has a negative size, and together they have at most the size of the installation. -/
structure Fits (installationSizeMb : ℤ) (plan : Plan) : Prop where
  nonneg : ∀ size ∈ plan.disks, 0 ≤ size
  sum_le : plan.root + plan.home + plan.usr + plan.swap ≤ installationSizeMb

theorem getInstallationSizeMb_itemText (i : ℤ) :
    getInstallationSizeMb (itemText i) = some (i * 1000) := by
  have number : (itemText i).take ((itemText i).length - 2) = Sax.decimal i := by
    simp [itemText]
  rw [getInstallationSizeMb, number, Sax.parseInt_decimal]
  rfl

theorem fits_chooseDiskSizes (fat : Bool) {mb : ℤ} (h : 256 ≤ mb) :
    Fits mb (chooseDiskSizes fat mb) := by
  simp only [chooseDiskSizes]
  constructor
  · intro size hsize
    simp only [Plan.disks] at hsize
    split_ifs at hsize <;> simp only [List.mem_cons, List.not_mem_nil, or_false] at hsize <;> omega
  · split
    · split
      · simp only
        omega
      · split
        · simp only
          omega
        · split <;> simp only <;> omega
    · simp only
      omega

/-- What is left to the root disk stays below 4000 MB, for a multiple of 1000 MB. -/
theorem disks_le_of_fat {k : ℤ} {size : ℤ} (h : size ∈ (chooseDiskSizes true (k * 1000)).disks) :
    size ≤ 4000 := by
  simp only [chooseDiskSizes, if_true, Plan.disks] at h
  split_ifs at h <;> simp only [List.mem_cons, List.not_mem_nil, or_false] at h <;> omega

theorem free_of_offered {skip : Bool} {given : ℤ} {distro : Limits} {drive : TargetDrive} {k : ℤ}
    (h : k ∈ populateSizeList skip given distro drive) :
    ((k * 1000 + distro.maxIsoSize / 1024 ^ 2 + 100 : ℤ) : ℚ) ≤ drive.freeSpaceMb := by
  have checked := (List.mem_filter.1 h).2
  simp only [decide_eq_true_eq] at checked
  exact checked.2

/-- Every size the page offers is divided into disks that fit it, and with the ISO and the margin the
free space; on FAT each of them is a possible file. -/
theorem disk_plan_fits (skip : Bool) (given : ℤ) (distro : Limits) (drive : TargetDrive) (k : ℤ)
    (offered : k ∈ populateSizeList skip given distro drive) (pos : 1 ≤ k) :
    getInstallationSizeMb (itemText k) = some (k * 1000) ∧
      Fits (k * 1000) (chooseDiskSizes drive.isFat (k * 1000)) ∧
      (((chooseDiskSizes drive.isFat (k * 1000)).disks.sum + distro.maxIsoSize / 1024 ^ 2 + 100 : ℤ) :
        ℚ) ≤ drive.freeSpaceMb ∧
      (drive.isFat → ∀ size ∈ (chooseDiskSizes drive.isFat (k * 1000)).disks,
        diskBytes size < 2 ^ 32) := by
  have fits := fits_chooseDiskSizes drive.isFat (show 256 ≤ k * 1000 by omega)
  refine ⟨getInstallationSizeMb_itemText k, fits, ?_, fun fat size hsize => ?_⟩
  · have sum : (chooseDiskSizes drive.isFat (k * 1000)).disks.sum ≤ k * 1000 := by
      have := fits.sum_le
      simp only [Plan.disks, List.sum_cons, List.sum_nil]
      omega
    refine le_trans ?_ (free_of_offered offered)
    exact_mod_cast (by omega)
  · rw [fat] at hsize
    have small := disks_le_of_fat hsize
    unfold diskBytes
    omega

/-- A FAT drive with some 20 GB left. -/
def fatDrive : TargetDrive := ⟨"fat32", 20000⟩

theorem disk_plan_fits_fat32 :
    Fits 9000 (chooseDiskSizes true 9000) ∧
      ∀ size ∈ (chooseDiskSizes true 9000).disks, diskBytes size < 2 ^ 32 := by
  have offered : (9 : ℤ) ∈ populateSizeList false 0 ⟨5000, 2 * 10 ^ 9⟩ fatDrive := by decide
  obtain ⟨-, fits, -, files⟩ := disk_plan_fits false 0 _ fatDrive 9 offered (by decide)
  exact ⟨fits, files rfl⟩

/-- A size between two multiples of 1000 MB would leave too much to the root disk. -/
example : diskBytes (chooseDiskSizes true 8700).root > 2 ^ 32 := by decide

end DiskSizes

end Ydfs.Wubi.Win32
