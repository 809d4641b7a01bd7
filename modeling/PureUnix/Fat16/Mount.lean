import PureUnix.Fat16.Volume

/-!
# `fat16_mount` (fat16.c:527)

The geometry comes from the boot sector. Nothing checks that the fields fit together; `mount_usable_iff` says which
relations between them are missing.
-/
namespace PureUnix.Fat16

open Lib Nat

/-- Outcomes of `fat16_mount`; `trap` is the division by a `sectors_per_cluster` of 0. -/
inductive Mounted
  | refused
  | trap
  | ok (fs : Fs)
  deriving DecidableEq, Repr

/-- `total_sectors16 ? total_sectors16 : total_sectors32`. -/
def totalSectors (sector : Buf) : Nat := if get16 sector 19 ≠ 0 then get16 sector 19 else get32 sector 32

/-- The fields of `fs`; sums are in 32 bits. -/
def layout (sector : Buf) : Fs :=
  let sectorsPerCluster := (sector 13).toNat
  let fatCount := (sector 16).toNat
  let rootEntryCount := get16 sector 17
  let sectorsPerFat := get16 sector 22
  let firstFatSector := get16 sector 14
  let rootDirSector := firstFatSector + fatCount * sectorsPerFat
  let firstDataSector := rootDirSector + (rootEntryCount * 32 + 511) / 512
  { mounted := true, sectorsPerCluster, fatCount, rootEntryCount, sectorsPerFat, firstFatSector, rootDirSector, firstDataSector,
    maxCluster := ((totalSectors sector + 2 ^ 32 - firstDataSector) % 2 ^ 32 / sectorsPerCluster + 2) % 2 ^ 32 }

/-- `fat16_mount` with the boot sector it read. -/
def mount (sector : Buf) : Mounted :=
  if sector 510 ≠ 0x55 ∨ sector 511 ≠ 0xAA then .refused
  else if get16 sector 11 ≠ 512 ∨ get16 sector 22 = 0 then .refused
  else if sector 13 = 0 then .trap
  else .ok (layout sector)

section
variable {sector : Buf}

theorem totalSectors_lt (sector : Buf) : totalSectors sector < 2 ^ 32 := by
  unfold totalSectors
  have h1 := get16_lt sector 19
  have h2 := get32_lt sector 32
  split <;> omega

/-! ## Which boot sectors give a usable volume -/

/-- What the driver relies on: no step of the layout wraps around, and each cluster has its cell in the first FAT, a number that is no
mark and its sectors on the disk. -/
structure Usable (sector : Buf) (fs : Fs) : Prop where
  first_le : fs.firstDataSector ≤ totalSectors sector
  count_lt : (totalSectors sector - fs.firstDataSector) / fs.sectorsPerCluster + 2 < 2 ^ 32
  cluster : ∀ c, 2 ≤ c → c < fs.maxCluster → 1 ≤ fs.fatCount ∧ 2 * c + 1 < 512 * fs.sectorsPerFat ∧ c < 0xFFF8 ∧
    ∀ s < fs.sectorsPerCluster, fs.clusterToLba c + s < totalSectors sector

/-- The checks `fat16_mount` makes. -/
def Header (sector : Buf) : Prop := sector 510 = 0x55 ∧ sector 511 = 0xAA ∧ get16 sector 11 = 512 ∧ get16 sector 22 ≠ 0

/-- The checks it leaves out: the sectors after the root directory make up no cluster, or as many as the first FAT has cells for. -/
def FieldsFit (sector : Buf) : Prop :=
  sector 13 ≠ 0 ∧ (layout sector).firstDataSector ≤ totalSectors sector ∧
  let n := (totalSectors sector - (layout sector).firstDataSector) / (sector 13).toNat
  n = 0 ∨ sector 16 ≠ 0 ∧ 2 * (n + 2) ≤ 512 * get16 sector 22 ∧ n + 2 ≤ 0xFFF8

theorem mount_of_not_header (h : ¬ Header sector) : mount sector = .refused := by
  unfold mount
  simp only [Header, not_and_or, not_not] at h
  grind

theorem mount_of_header (h : Header sector) : mount sector = if sector 13 = 0 then .trap else .ok (layout sector) := by
  obtain ⟨h1, h2, h3, h4⟩ := h
  simp [mount, h1, h2, h3, h4]

theorem toNat_pos {b : UInt8} : 1 ≤ b.toNat ↔ b ≠ 0 := by
  rw [one_le_iff_ne_zero, ne_eq, ne_eq, ← UInt8.toNat_inj]
  rfl

/-- Without wrap-around `max_cluster` counts the clusters. -/
theorem maxCluster_layout (hle : (layout sector).firstDataSector ≤ totalSectors sector)
    (hlt : (totalSectors sector - (layout sector).firstDataSector) / (sector 13).toNat + 2 < 2 ^ 32) :
    (layout sector).maxCluster = (totalSectors sector - (layout sector).firstDataSector) / (sector 13).toNat + 2 := by
  have htotal := totalSectors_lt sector
  have hdef : (layout sector).maxCluster =
      ((totalSectors sector + 2 ^ 32 - (layout sector).firstDataSector) % 2 ^ 32 / (sector 13).toNat + 2) % 2 ^ 32 := rfl
  have hsub : (totalSectors sector + 2 ^ 32 - (layout sector).firstDataSector) % 2 ^ 32 =
      totalSectors sector - (layout sector).firstDataSector := by omega
  rw [hdef, hsub, mod_eq_of_lt hlt]

theorem usable_layout_iff (hspc : sector 13 ≠ 0) : Usable sector (layout sector) ↔ FieldsFit sector := by
  have htotal := totalSectors_lt sector
  constructor
  · rintro ⟨hle, hlt, hcluster⟩
    refine ⟨hspc, hle, ?_⟩
    by_cases hn : (totalSectors sector - (layout sector).firstDataSector) / (sector 13).toNat = 0
    · exact .inl hn
    -- the last cluster has the largest cell
    rw [maxCluster_layout hle hlt] at hcluster
    have hspf : (layout sector).sectorsPerFat = get16 sector 22 := rfl
    generalize (totalSectors sector - (layout sector).firstDataSector) / (sector 13).toNat = n at hn hcluster
    obtain ⟨hfat, hcell, hmark, -⟩ := hcluster (n + 1) (by omega) (by omega)
    exact .inr ⟨toNat_pos.1 hfat, by omega, by omega⟩
  · rintro ⟨-, hle, hfit⟩
    have hmul := div_mul_le_self (totalSectors sector - (layout sector).firstDataSector) (sector 13).toNat
    have hlt : (totalSectors sector - (layout sector).firstDataSector) / (sector 13).toNat + 2 < 2 ^ 32 := by
      rcases hfit with h0 | ⟨-, -, h⟩ <;> omega
    refine ⟨hle, hlt, fun c h2 hc => ?_⟩
    rw [maxCluster_layout hle hlt] at hc
    obtain ⟨hfat, hcell, hmark⟩ := hfit.resolve_left (by omega)
    have hspf : (layout sector).sectorsPerFat = get16 sector 22 := rfl
    refine ⟨toNat_pos.2 hfat, by omega, by omega, fun s hs => ?_⟩
    have hs' : s < (sector 13).toNat := hs
    -- the cluster's sectors end where the next cluster's would begin
    have hnext : (c - 2 + 1) * (sector 13).toNat ≤
        (totalSectors sector - (layout sector).firstDataSector) / (sector 13).toNat * (sector 13).toNat :=
      mul_le_mul_right _ (by omega)
    rw [add_mul] at hnext
    have hlba : (layout sector).clusterToLba c = (layout sector).firstDataSector + (c - 2) * (sector 13).toNat := by
      have hc2 : (c + 2 ^ 32 - 2) % 2 ^ 32 = c - 2 := by omega
      have hspc : (layout sector).sectorsPerCluster = (sector 13).toNat := rfl
      rw [Fs.clusterToLba, hc2, hspc]
      exact mod_eq_of_lt (by omega)
    omega

/-- **`fat16_mount` refuses a boot sector or gives a usable volume where its fields fit.** -/
theorem mount_usable_iff (sector : Buf) :
    (mount sector = .refused ∨ ∃ fs, mount sector = .ok fs ∧ Usable sector fs) ↔ (Header sector → FieldsFit sector) := by
  by_cases hh : Header sector
  · rw [mount_of_header hh]
    by_cases hspc : sector 13 = 0
    · simp [hspc, hh, FieldsFit]
    · simp [hspc, hh, usable_layout_iff]
  · simp [mount_of_not_header hh, hh]

/-- One FAT of one sector, for 256 cells, on a disk with 998 clusters. -/
def shortFat : Buf := fun i =>
  match i with
  | 12 => 2
  | 13 | 14 | 16 | 22 => 1
  | 19 => 0xE8
  | 20 => 3
  | 510 => 0x55
  | 511 => 0xAA
  | _ => 0

theorem mount_shortFat : mount shortFat = .ok (layout shortFat) ∧
    ¬ (mount shortFat = .refused ∨ ∃ fs, mount shortFat = .ok fs ∧ Usable shortFat fs) := by
  have hok : mount shortFat = .ok (layout shortFat) := by decide
  refine ⟨hok, ?_⟩
  rintro (h | ⟨fs, h, hu⟩)
  · cases h
  · cases h
    -- the cell of the last cluster is four sectors behind the FAT
    exact absurd (hu.cluster 999 (by decide) (by decide)).2.1 (by decide)

end
end PureUnix.Fat16
