import PureUnix.Lib.Prog
import PureUnix.Ext2.Layout

/-!
# The block device under the driver

`Dev` is what `alloc.c`, `inode.c` and `super.c` use of the machine: whole blocks through
`ext2_read_block`/`ext2_write_block`, raw 512-byte sectors (only the superblock is reached that
way), and the in-memory block group descriptor table `g_ext2_fs.bgdt`.

`Dev.step` runs these commands on a disk, a function from byte addresses to bytes, with every
sector access succeeding. Block numbers become sector numbers by the 32-bit product
`blk_no * sectors_per_block`, block 0 is refused, and a block access touches exactly the
`block_size` bytes of its sectors.
-/
namespace PureUnix.Ext2
open Lib

inductive DevCmd where
  | readBlock (blkNo : Nat)
  | writeBlock (blkNo : Nat) (data : Buf)
  | readSector (lba : Nat)
  | writeSector (lba : Nat) (data : Buf)
  | getBgdt
  | setBgdt (bgdt : Buf)

def DevCmd.Resp : DevCmd → Type
  | .readBlock _ => Option Buf
  | .writeBlock _ _ => Bool
  | .readSector _ => Option Buf
  | .writeSector _ _ => Bool
  | .getBgdt => Buf
  | .setBgdt _ => Unit

def Dev : Sig := ⟨DevCmd, DevCmd.Resp⟩

namespace Dev

/-- `ext2_read_block` (block.c:41): the block's bytes, or `NULL`. -/
def readBlock (blkNo : Nat) : Prog Dev (Option Buf) := Prog.perform (σ := Dev) (.readBlock blkNo)
/-- `ext2_write_block` (block.c:82): `true` stands for a return value of 0. -/
def writeBlock (blkNo : Nat) (data : Buf) : Prog Dev Bool :=
  Prog.perform (σ := Dev) (.writeBlock blkNo data)
/-- `disk->read(lba, buf)`. -/
def readSector (lba : Nat) : Prog Dev (Option Buf) := Prog.perform (σ := Dev) (.readSector lba)
/-- `disk->write(lba, buf)`. -/
def writeSector (lba : Nat) (data : Buf) : Prog Dev Bool :=
  Prog.perform (σ := Dev) (.writeSector lba data)
/-- The bytes of `fs->bgdt`. -/
def getBgdt : Prog Dev Buf := Prog.perform (σ := Dev) .getBgdt
/-- Stores into `fs->bgdt`. -/
def setBgdt (bgdt : Buf) : Prog Dev Unit := Prog.perform (σ := Dev) (.setBgdt bgdt)

end Dev

/-- A disk and the in-memory descriptor table. -/
structure Disk where
  bytes : Buf
  bgdt : Buf

namespace Disk

/-- Byte address of block `blkNo`: `lba = blk_no * fs->sectors_per_block` in 32 bits. -/
def base (fs : Fs) (blkNo : Nat) : Nat := u32 (blkNo * fs.sectorsPerBlock) * 512

def block (fs : Fs) (d : Disk) (blkNo : Nat) : Buf :=
  trunc fs.blockSize fun i => d.bytes (base fs blkNo + i)

def setBlock (fs : Fs) (d : Disk) (blkNo : Nat) (data : Buf) : Disk :=
  { d with bytes := copy d.bytes (base fs blkNo) data fs.blockSize }

def sector (d : Disk) (lba : Nat) : Buf := trunc 512 fun i => d.bytes (lba * 512 + i)

def setSector (d : Disk) (lba : Nat) (data : Buf) : Disk :=
  { d with bytes := copy d.bytes (lba * 512) data 512 }

end Disk

/-- The device with every sector access succeeding. -/
def Dev.step (fs : Fs) : Handler Dev Disk
  | .readBlock b, d => (if b = 0 then none else some (d.block fs b), d)
  | .writeBlock b data, d => if b = 0 then (false, d) else (true, d.setBlock fs b data)
  | .readSector lba, d => (some (d.sector lba), d)
  | .writeSector lba data, d => (true, d.setSector lba data)
  | .getBgdt, d => (d.bgdt, d)
  | .setBgdt b, d => ((), { d with bgdt := b })

namespace Disk
variable {fs : Fs} {d : Disk}

@[simp] theorem run_readBlock (b : Nat) :
    Prog.run (Dev.step fs) (Dev.readBlock b) d = (if b = 0 then none else some (d.block fs b), d) := rfl

@[simp] theorem run_writeBlock (b : Nat) (data : Buf) : Prog.run (Dev.step fs) (Dev.writeBlock b data) d =
      if b = 0 then (false, d) else (true, d.setBlock fs b data) := rfl

@[simp] theorem run_readSector (lba : Nat) : Prog.run (Dev.step fs) (Dev.readSector lba) d = (some (d.sector lba), d) := rfl

@[simp] theorem run_writeSector (lba : Nat) (data : Buf) :
    Prog.run (Dev.step fs) (Dev.writeSector lba data) d = (true, d.setSector lba data) := rfl

@[simp] theorem run_getBgdt : Prog.run (Dev.step fs) Dev.getBgdt d = (d.bgdt, d) := rfl

@[simp] theorem run_setBgdt (b : Buf) : Prog.run (Dev.step fs) (Dev.setBgdt b) d = ((), { d with bgdt := b }) := rfl

@[simp] theorem setBlock_bgdt (b : Nat) (data : Buf) : (d.setBlock fs b data).bgdt = d.bgdt := rfl
@[simp] theorem setSector_bgdt (lba : Nat) (data : Buf) : (d.setSector lba data).bgdt = d.bgdt := rfl
@[simp] theorem block_with_bgdt (b : Buf) (n : Nat) : ({ d with bgdt := b } : Disk).block fs n = d.block fs n := rfl

theorem copy_sector (buf : Buf) (off lba n : Nat) :
    copy (copy buf off (d.sector lba) 512) (off + 512) (fun i => d.bytes ((lba + 1) * 512 + i)) (n * 512) =
      copy buf off (fun i => d.bytes (lba * 512 + i)) ((n + 1) * 512) := by
  have hsec : copy buf off (d.sector lba) 512 = copy buf off (fun i => d.bytes (lba * 512 + i)) 512 :=
    copy_congr fun i _ hi => by rw [sector, trunc, if_pos hi]
  have hnext : (fun i => d.bytes ((lba + 1) * 512 + i)) = fun i => d.bytes (lba * 512 + (512 + i)) := by
    funext i
    exact congrArg d.bytes (by omega)
  rw [hsec, hnext, show (n + 1) * 512 = 512 + n * 512 by omega, ← copy_copy]

end Disk

/-! ## `super.c` -/

/-- Sectors 2 and 3, `raw[1024]`. -/
def rawSuper (lo hi : Buf) : Buf := fun i => if i < 512 then lo i else hi (i - 512)

/-- `free = (uint32_t)((int32_t)free + delta)`. -/
def addDelta (free : Nat) (delta : Int) : Nat := ((free + delta) % 4294967296).toNat

/-- `ext2_super_adjust_free` (super.c:146): `s_free_blocks_count` at byte 12 and
`s_free_inodes_count` at byte 16 of the superblock. -/
def superAdjustFree (fs : Fs) (blockDelta inodeDelta : Int) : Prog Dev Unit :=
  if !fs.mounted then pure () else do
    match ← Dev.readSector 2 with
    | none => pure ()
    | some lo =>
      match ← Dev.readSector 3 with
      | none => pure ()
      | some hi =>
        let raw := rawSuper lo hi
        let raw := put32 raw 12 (addDelta (get32 (rawSuper lo hi) 12) blockDelta)
        let raw := put32 raw 16 (addDelta (get32 (rawSuper lo hi) 16) inodeDelta)
        let _ ← Dev.writeSector 2 raw
        let _ ← Dev.writeSector 3 fun i => raw (512 + i)
        pure ()

/-- The loop of `ext2_bgdt_write_back` from block `b` on, `n` blocks to go. -/
def bgdtWriteFrom (fs : Fs) (bgdt : Buf) : Nat → Nat → Prog Dev Unit
  | 0, _ => pure ()
  | n + 1, b => do
    let _ ← Dev.writeBlock (u32 (fs.bgdtBlock + b)) fun i => bgdt (b * fs.blockSize + i)
    bgdtWriteFrom fs bgdt n (b + 1)

/-- `ext2_bgdt_write_back` (super.c:169). -/
def bgdtWriteBack (fs : Fs) : Prog Dev Unit :=
  if !fs.mounted then pure () else do
    let bgdt ← Dev.getBgdt
    bgdtWriteFrom fs bgdt fs.bgdtBlocks 0

/-! ## Descriptor fields (`ext2_bgdt_entry_t`, 32 bytes an entry) -/

def bgBlockBitmap (bgdt : Buf) (g : Nat) : Nat := get32 bgdt (g * 32)
def bgInodeBitmap (bgdt : Buf) (g : Nat) : Nat := get32 bgdt (g * 32 + 4)
def bgInodeTable (bgdt : Buf) (g : Nat) : Nat := get32 bgdt (g * 32 + 8)
def bgFreeBlocksCount (bgdt : Buf) (g : Nat) : Nat := get16 bgdt (g * 32 + 12)
def bgFreeInodesCount (bgdt : Buf) (g : Nat) : Nat := get16 bgdt (g * 32 + 14)
def bgUsedDirsCount (bgdt : Buf) (g : Nat) : Nat := get16 bgdt (g * 32 + 16)

end PureUnix.Ext2
