import PureUnix.Ext2.Geometry

/-!
# Mounting (`ext2_super_read`, super.c:21)

The superblock is checked field by field and turned into the file system's parameters
(`superParse`); then the descriptor table is read sector by sector into memory (`superRead`). A mount
that succeeds has a block size of 1024, 2048 or 4096 (`superParse_blockSize`), and leaves in memory
the table that is on disk (`run_superRead`).
-/
namespace PureUnix.Ext2
open Lib Nat Disk Prog

variable {raw : Buf} {fs : Fs}

def EXT2_MAGIC : Nat := 0xEF53
def EXT2_MIN_INODE_SIZE : Nat := 128

/-- `1024u << s_log_block_size`; the machine takes a shift count modulo 32. -/
def superBlockSize (raw : Buf) : Nat := u32 (1024 <<< (get32 raw 24 % 32))

def superInodeSize (raw : Buf) : Nat := if 1 ≤ get32 raw 76 then get16 raw 88 else EXT2_MIN_INODE_SIZE

def superNumGroups (raw : Buf) : Nat := u32 (get32 raw 4 + get32 raw 32 - 1) / get32 raw 32

/-- The checks on the superblock's 1024 bytes: magic, incompatible features (only `FILETYPE` is
supported), block size, inode size, group sizes. -/
def superChecks (raw : Buf) : Prop :=
  get16 raw 56 = EXT2_MAGIC ∧
  (1 ≤ get32 raw 76 → get32 raw 96 = 0 ∨ get32 raw 96 = 2) ∧
  (1024 ≤ superBlockSize raw ∧ superBlockSize raw ≤ 4096 ∧ superBlockSize raw % 512 = 0) ∧
  (EXT2_MIN_INODE_SIZE ≤ superInodeSize raw ∧ superInodeSize raw ≤ superBlockSize raw) ∧
  (get32 raw 40 ≠ 0 ∧ get32 raw 32 ≠ 0) ∧ superNumGroups raw ≠ 0

instance (raw : Buf) : Decidable (superChecks raw) := inferInstanceAs (Decidable (_ ∧ _ ∧ _ ∧ _ ∧ _ ∧ _))

def superFs (raw : Buf) : Fs where
  mounted := true
  blockSize := superBlockSize raw
  sectorsPerBlock := superBlockSize raw / 512
  inodesPerGroup := get32 raw 40
  blocksPerGroup := get32 raw 32
  inodeSize := superInodeSize raw
  firstDataBlock := get32 raw 20
  numGroups := superNumGroups raw
  totalInodes := get32 raw 0
  totalBlocks := get32 raw 4
  bgdtBlock := u32 (get32 raw 20 + 1)
  bgdtBlocks := u32 (u32 (superNumGroups raw * 32) + superBlockSize raw - 1) / superBlockSize raw

def superParse (raw : Buf) : Option Fs := if superChecks raw then some (superFs raw) else none

/-- The sectors of one block: `n` to go from sector `s`, stored behind `off` in `bgdt`. -/
def readSectors (lba off : Nat) : Nat → Nat → Buf → Prog Dev (Option Buf)
  | 0, _, bgdt => pure (some bgdt)
  | n + 1, s, bgdt => do
    match ← Dev.readSector (u32 (lba + s)) with
    | none => pure none
    | some sec => readSectors lba off n (s + 1) (copy bgdt (off + s * 512) sec 512)

/-- The descriptor table's blocks: `n` to go from block `b`. -/
def readBgdt (fs : Fs) : Nat → Nat → Buf → Prog Dev (Option Buf)
  | 0, _, bgdt => pure (some bgdt)
  | n + 1, b, bgdt => do
    let lba := u32 (u32 (fs.bgdtBlock + b) * fs.sectorsPerBlock)
    match ← readSectors lba (b * fs.blockSize) fs.sectorsPerBlock 0 bgdt with
    | none => pure none
    | some bgdt => readBgdt fs n (b + 1) bgdt

/-- `ext2_super_read`; `kmalloc` tells whether the table's buffer could be allocated. -/
def superRead (kmalloc : Bool) : Prog Dev (Option Fs) := do
  match ← Dev.readSector 2 with
  | none => pure none
  | some lo =>
    match ← Dev.readSector 3 with
    | none => pure none
    | some hi =>
      match superParse (rawSuper lo hi) with
      | none => pure none
      | some fs =>
        if !kmalloc then pure none
        else do
          match ← readBgdt fs fs.bgdtBlocks 0 zeros with
          | none => pure none
          | some bgdt => do
            Dev.setBgdt bgdt
            pure (some fs)

theorem superParse_eq (h : superParse raw = some fs) : superChecks raw ∧ fs = superFs raw := by
  unfold superParse at h
  split at h
  · rename_i hc; exact ⟨hc, (Option.some.inj h).symm⟩
  · cases h

/-- The shift yields 1024, 2048 or 4096, or something the check refuses. -/
theorem superParse_blockSize (h : superParse raw = some fs) :
    fs.blockSize = 1024 ∨ fs.blockSize = 2048 ∨ fs.blockSize = 4096 := by
  obtain ⟨⟨-, -, hbs, -⟩, rfl⟩ := superParse_eq h
  have hlt : get32 raw 24 % 32 < 32 := mod_lt _ (by omega)
  simp only [superFs, superBlockSize] at hbs ⊢
  generalize get32 raw 24 % 32 = k at hlt hbs
  revert hbs
  interval_cases k <;> simp [u32]

theorem run_readSectors (fs : Fs) (lba off : Nat) (d : Disk) : ∀ (n s : Nat) (bgdt : Buf), lba + s + n ≤ 4294967296 →
    Prog.run (Dev.step fs) (readSectors lba off n s bgdt) d =
      (some (copy bgdt (off + s * 512) (fun i => d.bytes ((lba + s) * 512 + i)) (n * 512)), d)
  | 0, s, bgdt, _ => by
    rw [copy_zero]
    rfl
  | n + 1, s, bgdt, h => by
    simp only [readSectors, run_bind, run_readSector]
    rw [u32_of_lt (by omega), run_readSectors fs lba off d n (s + 1) _ (by omega), show off + (s + 1) * 512 = off + s * 512 + 512 by omega]
    exact congrArg (fun b => (some b, d)) (d.copy_sector ..)

theorem run_readBgdt (fs₀ : Fs) (hspb : fs.sectorsPerBlock * 512 = fs.blockSize) (d : Disk)
    (hpos : 0 < fs.sectorsPerBlock) : ∀ (n b : Nat) (bgdt : Buf),
    (fs.bgdtBlock + b + n) * fs.sectorsPerBlock ≤ 4294967296 →
    Prog.run (Dev.step fs₀) (readBgdt fs n b bgdt) d =
      (some (copy bgdt (b * fs.blockSize) (fun i => d.bytes ((fs.bgdtBlock + b) * fs.blockSize + i)) (n * fs.blockSize)), d)
  | 0, b, bgdt, _ => by
    rw [zero_mul, copy_zero]
    rfl
  | n + 1, b, bgdt, h => by
    have hle : fs.bgdtBlock + b + 1 ≤ (fs.bgdtBlock + b + (n + 1)) * fs.sectorsPerBlock :=
      Nat.le_trans (by omega) (Nat.le_mul_of_pos_right _ hpos)
    have hle2 : (fs.bgdtBlock + b + 1) * fs.sectorsPerBlock ≤
        (fs.bgdtBlock + b + (n + 1)) * fs.sectorsPerBlock := Nat.mul_le_mul_right _ (by omega)
    have hsm : (fs.bgdtBlock + b + 1) * fs.sectorsPerBlock =
        (fs.bgdtBlock + b) * fs.sectorsPerBlock + fs.sectorsPerBlock := succ_mul _ _
    have e1 : u32 (fs.bgdtBlock + b) = fs.bgdtBlock + b := u32_of_lt (by omega)
    have e2 : u32 ((fs.bgdtBlock + b) * fs.sectorsPerBlock) = (fs.bgdtBlock + b) * fs.sectorsPerBlock :=
      u32_of_lt (by omega)
    have e3 : (fs.bgdtBlock + b) * fs.sectorsPerBlock * 512 = (fs.bgdtBlock + b) * fs.blockSize := by
      rw [mul_assoc, hspb]
    have e4 : (fun i => d.bytes ((fs.bgdtBlock + (b + 1)) * fs.blockSize + i)) =
        fun i => d.bytes ((fs.bgdtBlock + b) * fs.blockSize + (fs.blockSize + i)) := by
      funext i
      rw [← add_assoc, succ_mul, add_assoc]
    have e5 : (n + 1) * fs.blockSize = fs.blockSize + n * fs.blockSize := by
      rw [succ_mul, add_comm]
    simp only [readBgdt, run_bind, e1, e2]
    rw [run_readSectors fs₀ _ _ d _ _ _ (by omega)]
    have hn : fs.bgdtBlock + (b + 1) + n = fs.bgdtBlock + b + (n + 1) := by omega
    rw [run_readBgdt fs₀ hspb d hpos n (b + 1) _ (hn ▸ h), Nat.add_zero, Nat.add_zero, e3,
      hspb, e4, Nat.succ_mul, e5, ← copy_copy]

/-- **Mounting**: with every sector readable the mount succeeds exactly when the superblock parses,
and the table in memory is then the one on disk. -/
theorem run_superRead {fs₀ : Fs} {d : Disk} (hp : superParse (rawSuper (d.sector 2) (d.sector 3)) = some fs)
    (h32 : (fs.bgdtBlock + fs.bgdtBlocks) * fs.sectorsPerBlock ≤ 4294967296) :
    Prog.run (Dev.step fs₀) (superRead true) d =
      (some fs, ⟨d.bytes, copy zeros 0 (fun i => d.bytes (fs.bgdtBlock * fs.blockSize + i)) (fs.bgdtBlocks * fs.blockSize)⟩) := by
  have hbs := superParse_blockSize hp
  have hspb : fs.sectorsPerBlock = fs.blockSize / 512 := by
    obtain ⟨-, rfl⟩ := superParse_eq hp
    rfl
  have hspb' : fs.sectorsPerBlock * 512 = fs.blockSize := by
    rw [hspb]; rcases hbs with e | e | e <;> rw [e]
  have hrun := run_readBgdt fs₀ hspb' d (by rcases hbs with e | e | e <;> rw [hspb, e] <;> decide)
    fs.bgdtBlocks 0 zeros (by simpa using h32)
  simp only [superRead, run_bind, run_readSector, hp, Bool.not_true, Bool.false_eq_true,
    if_false, hrun, run_setBgdt, run_pure, zero_mul, add_zero]

end PureUnix.Ext2
