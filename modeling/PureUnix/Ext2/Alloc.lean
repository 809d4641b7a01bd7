import PureUnix.Ext2.Device

/-!
# Inode table access and the bitmap allocator (`fs/ext2/inode.c`, `fs/ext2/alloc.c`)

`ext2_read_inode`, `ext2_write_inode`, `ext2_alloc_block`, `ext2_free_block`,
`ext2_alloc_inode` and `ext2_free_inode` as programs over the device. The two allocators share
their shape, a scan over the groups that trusts the group's free counter and then a scan over
the bits of its bitmap, but not their side effects: a fresh block is zeroed on disk, a fresh
inode is not written at all, and freeing an inode zeroes its table slot.
-/
namespace PureUnix.Ext2
open Lib

/-! ## `ext2_read_inode`, `ext2_write_inode` -/

/-- `local_idx * fs->inode_size`. -/
def inodeByteOff (fs : Fs) (ino : Nat) : Nat := u32 ((ino - 1) % fs.inodesPerGroup * fs.inodeSize)

/-- `table_block + block_off`. -/
def inodeBlock (fs : Fs) (bgdt : Buf) (ino : Nat) : Nat :=
  u32 (bgInodeTable bgdt ((ino - 1) / fs.inodesPerGroup) + inodeByteOff fs ino / fs.blockSize)

/-- `ext2_read_inode` (inode.c:11). -/
def readInode (fs : Fs) (ino : Nat) : Prog Dev (Option Inode) :=
  if ino = 0 ∨ fs.totalInodes < ino then pure none
  else if fs.numGroups ≤ (ino - 1) / fs.inodesPerGroup then pure none
  else do
    let bgdt ← Dev.getBgdt
    match ← Dev.readBlock (inodeBlock fs bgdt ino) with
    | none => pure none
    | some blk =>
      pure (some (Inode.decode fun i => blk (inodeByteOff fs ino % fs.blockSize + i)))

/-- `ext2_write_inode` (inode.c:95). -/
def writeInode (fs : Fs) (ino : Nat) (inode : Inode) : Prog Dev Bool :=
  if ino = 0 ∨ fs.totalInodes < ino then pure false
  else if fs.numGroups ≤ (ino - 1) / fs.inodesPerGroup then pure false
  else do
    let bgdt ← Dev.getBgdt
    match ← Dev.readBlock (inodeBlock fs bgdt ino) with
    | none => pure false
    | some ro =>
      Dev.writeBlock (inodeBlock fs bgdt ino) (copy ro (inodeByteOff fs ino % fs.blockSize) inode.encode 128)

/-! ## Blocks -/

/-- The bit scan of one group: `n` bits to go from `i`; the number standing for bit `i` is
`first + i`, and the scan breaks at `limit` (`>= limit` for blocks). -/
def scanBits (bitmap : Buf) (first limit : Nat) : Nat → Nat → Option Nat
  | 0, _ => none
  | n + 1, i =>
    if limit ≤ u32 (first + i) then none
    else if bit bitmap i then scanBits bitmap first limit n (i + 1)
    else some i

/-- `group_first_block`. -/
def groupFirstBlock (fs : Fs) (g : Nat) : Nat := u32 (fs.firstDataBlock + g * fs.blocksPerGroup)

/-- The group loop of `ext2_alloc_block` with `n` groups to go from `g`. -/
def allocBlockFrom (fs : Fs) : Nat → Nat → Prog Dev (Option Nat)
  | 0, _ => pure none
  | n + 1, g => do
    let bgdt ← Dev.getBgdt
    if bgFreeBlocksCount bgdt g = 0 then allocBlockFrom fs n (g + 1)
    else do
      match ← Dev.readBlock (bgBlockBitmap bgdt g) with
      | none => pure none
      | some bitmap =>
        match scanBits bitmap (groupFirstBlock fs g) fs.totalBlocks fs.blocksPerGroup 0 with
        | none => allocBlockFrom fs n (g + 1)
        | some i => do
          if ← Dev.writeBlock (bgBlockBitmap bgdt g) (setBit bitmap i) then do
            Dev.setBgdt (put16 bgdt (g * 32 + 12) (bgFreeBlocksCount bgdt g - 1))
            bgdtWriteBack fs
            superAdjustFree fs (-1) 0
            if ← Dev.writeBlock (u32 (groupFirstBlock fs g + i)) zeros then
              pure (some (u32 (groupFirstBlock fs g + i)))
            else pure none
          else pure none

/-- `ext2_alloc_block` (alloc.c:11). -/
def allocBlock (fs : Fs) : Prog Dev (Option Nat) := allocBlockFrom fs fs.numGroups 0

/-- `ext2_free_block` (alloc.c:48). -/
def freeBlock (fs : Fs) (blk : Nat) : Prog Dev Unit :=
  if blk < fs.firstDataBlock then pure ()
  else
    let g := (blk - fs.firstDataBlock) / fs.blocksPerGroup
    let i := (blk - fs.firstDataBlock) % fs.blocksPerGroup
    if fs.numGroups ≤ g then pure ()
    else do
      let bgdt ← Dev.getBgdt
      match ← Dev.readBlock (bgBlockBitmap bgdt g) with
      | none => pure ()
      | some bitmap =>
        if !bit bitmap i then pure () -- already free
        else do
          if ← Dev.writeBlock (bgBlockBitmap bgdt g) (clearBit bitmap i) then do
            Dev.setBgdt (put16 bgdt (g * 32 + 12) (bgFreeBlocksCount bgdt g + 1))
            bgdtWriteBack fs
            superAdjustFree fs 1 0
          else pure ()

/-! ## Inodes -/

/-- `bg_free_inodes_count--; if (is_dir) bg_used_dirs_count++;` -/
def bgdtAllocInode (bgdt : Buf) (g : Nat) (isDir : Bool) : Buf :=
  let bgdt := put16 bgdt (g * 32 + 14) (bgFreeInodesCount bgdt g - 1)
  if isDir then put16 bgdt (g * 32 + 16) (bgUsedDirsCount bgdt g + 1) else bgdt

/-- `bg_free_inodes_count++; if (is_dir && bg_used_dirs_count > 0) bg_used_dirs_count--;` -/
def bgdtFreeInode (bgdt : Buf) (g : Nat) (isDir : Bool) : Buf :=
  let bgdt := put16 bgdt (g * 32 + 14) (bgFreeInodesCount bgdt g + 1)
  if isDir ∧ 0 < bgUsedDirsCount bgdt g then
    put16 bgdt (g * 32 + 16) (bgUsedDirsCount bgdt g - 1)
  else bgdt

/-- The group loop of `ext2_alloc_inode` with `n` groups to go from `g`. Bit `i` of group `g`
stands for inode `g * inodes_per_group + i + 1`, and the scan breaks past `total_inodes`. -/
def allocInodeFrom (fs : Fs) (isDir : Bool) : Nat → Nat → Prog Dev (Option Nat)
  | 0, _ => pure none
  | n + 1, g => do
    let bgdt ← Dev.getBgdt
    if bgFreeInodesCount bgdt g = 0 then allocInodeFrom fs isDir n (g + 1)
    else do
      match ← Dev.readBlock (bgInodeBitmap bgdt g) with
      | none => pure none
      | some bitmap =>
        match scanBits bitmap (u32 (g * fs.inodesPerGroup + 1)) (fs.totalInodes + 1) fs.inodesPerGroup 0 with
        | none => allocInodeFrom fs isDir n (g + 1)
        | some i => do
          if ← Dev.writeBlock (bgInodeBitmap bgdt g) (setBit bitmap i) then do
            Dev.setBgdt (bgdtAllocInode bgdt g isDir)
            bgdtWriteBack fs
            superAdjustFree fs 0 (-1)
            pure (some (u32 (g * fs.inodesPerGroup + i + 1)))
          else pure none

/-- `ext2_alloc_inode` (alloc.c:72). -/
def allocInode (fs : Fs) (isDir : Bool) : Prog Dev (Option Nat) :=
  allocInodeFrom fs isDir fs.numGroups 0

/-- `ext2_free_inode` (alloc.c:105). -/
def freeInode (fs : Fs) (ino : Nat) (isDir : Bool) : Prog Dev Unit :=
  if ino = 0 ∨ fs.totalInodes < ino then pure ()
  else
    let g := (ino - 1) / fs.inodesPerGroup
    let i := (ino - 1) % fs.inodesPerGroup
    if fs.numGroups ≤ g then pure ()
    else do
      let bgdt ← Dev.getBgdt
      match ← Dev.readBlock (bgInodeBitmap bgdt g) with
      | none => pure ()
      | some bitmap =>
        if !bit bitmap i then pure () -- already free
        else do
          if ← Dev.writeBlock (bgInodeBitmap bgdt g) (clearBit bitmap i) then do
            Dev.setBgdt (bgdtFreeInode bgdt g isDir)
            bgdtWriteBack fs
            superAdjustFree fs 0 1
            let _ ← writeInode fs ino Inode.empty
            pure ()
          else pure ()

end PureUnix.Ext2
