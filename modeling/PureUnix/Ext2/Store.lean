import PureUnix.Lib.FirstFit
import PureUnix.Ext2.Geometry

/-!
# The decoded store

What `dir.c`, `file.c` and `write.c` see of the layer below: blocks, inodes, and the two
allocators. `StoreOp` is that interface. It has two machines:

* `StoreOp.lower` implements each command by the code of `alloc.c`, `inode.c` and `block.c` over
  the device;
* `Store.step` runs it on a `Store`, where the bitmaps are predicates, the inode table is a
  function and metadata blocks are out of sight.

`Refine.lean` proves that the first simulates the second. A raw block access that hits anything
but a data block is outside what a `Store` can describe; it raises `wild`, and the driver's
invariants show that it never happens on a consistent image.
-/
namespace PureUnix.Ext2
open Lib Function

inductive StoreCmd where
  | readBlock (blkNo : Nat)
  | writeBlock (blkNo : Nat) (data : Buf)
  | allocBlock
  | freeBlock (blk : Nat)
  | allocInode (isDir : Bool)
  | freeInode (ino : Nat) (isDir : Bool)
  | readInode (ino : Nat)
  | writeInode (ino : Nat) (inode : Inode)

def StoreCmd.Resp : StoreCmd → Type
  | .readBlock _ => Option Buf
  | .writeBlock _ _ => Bool
  | .allocBlock => Option Nat
  | .freeBlock _ => Unit
  | .allocInode _ => Option Nat
  | .freeInode _ _ => Unit
  | .readInode _ => Option Inode
  | .writeInode _ _ => Bool

def StoreOp : Sig := ⟨StoreCmd, StoreCmd.Resp⟩

abbrev Drv := Prog StoreOp

namespace Drv

def readBlock (b : Nat) : Drv (Option Buf) := Prog.perform (σ := StoreOp) (.readBlock b)
def writeBlock (b : Nat) (data : Buf) : Drv Bool := Prog.perform (σ := StoreOp) (.writeBlock b data)
def allocBlock : Drv (Option Nat) := Prog.perform (σ := StoreOp) .allocBlock
def freeBlock (b : Nat) : Drv Unit := Prog.perform (σ := StoreOp) (.freeBlock b)
def allocInode (isDir : Bool) : Drv (Option Nat) := Prog.perform (σ := StoreOp) (.allocInode isDir)
def freeInode (ino : Nat) (isDir : Bool) : Drv Unit :=
  Prog.perform (σ := StoreOp) (.freeInode ino isDir)
def readInode (ino : Nat) : Drv (Option Inode) := Prog.perform (σ := StoreOp) (.readInode ino)
def writeInode (ino : Nat) (i : Inode) : Drv Bool := Prog.perform (σ := StoreOp) (.writeInode ino i)

end Drv

/-- Each command by the driver's own lower half. -/
def StoreOp.lower (fs : Fs) : (c : StoreOp.Cmd) → Prog Dev (StoreOp.Resp c)
  | .readBlock b => Dev.readBlock b
  | .writeBlock b data => Dev.writeBlock b data
  | .allocBlock => allocBlock fs
  | .freeBlock b => freeBlock fs b
  | .allocInode isDir => allocInode fs isDir
  | .freeInode ino isDir => freeInode fs ino isDir
  | .readInode ino => readInode fs ino
  | .writeInode ino i => writeInode fs ino i

namespace Layout

/-- A block the allocator may hand out: in range, with a bitmap bit, and not metadata. -/
def Data (L : Layout) (b : Nat) : Prop :=
  L.firstDataBlock ≤ b ∧ b < L.totalBlocks ∧ ¬ L.Meta b

instance (L : Layout) (b : Nat) : Decidable (L.Data b) := inferInstanceAs (Decidable (_ ∧ _ ∧ _))

def ValidIno (L : Layout) (ino : Nat) : Prop := ino ≠ 0 ∧ ino ≤ L.totalInodes

instance (L : Layout) (ino : Nat) : Decidable (L.ValidIno ino) := inferInstanceAs (Decidable (_ ∧ _))

/-- Group and bit index of a block. -/
def groupOf (L : Layout) (b : Nat) : Nat := (b - L.firstDataBlock) / L.blocksPerGroup
def indexOf (L : Layout) (b : Nat) : Nat := (b - L.firstDataBlock) % L.blocksPerGroup
/-- Group and bit index of an inode. -/
def groupOfIno (L : Layout) (ino : Nat) : Nat := (ino - 1) / L.inodesPerGroup
def indexOfIno (L : Layout) (ino : Nat) : Nat := (ino - 1) % L.inodesPerGroup

end Layout

@[ext] structure Store where
  blockUsed : Nat → Bool
  inodeUsed : Nat → Bool
  inode : Nat → Inode
  data : Nat → Buf
  /-- `bg_free_blocks_count` by group. -/
  freeBlocks : Nat → Nat
  /-- `bg_free_inodes_count` by group. -/
  freeInodes : Nat → Nat
  /-- Some raw access went to a block that is not a data block. -/
  wild : Bool

namespace Store

/-- The group and block `ext2_alloc_block` takes. -/
def nextBlock (L : Layout) (v : Store) : Option (Nat × Nat) :=
  findFree v.freeBlocks (fun g => scanFree v.blockUsed (L.firstDataBlock + g * L.blocksPerGroup)
    L.totalBlocks L.blocksPerGroup 0) L.numGroups 0

/-- The group and inode `ext2_alloc_inode` takes. -/
def nextInode (L : Layout) (v : Store) : Option (Nat × Nat) :=
  findFree v.freeInodes (fun g => scanFree v.inodeUsed (g * L.inodesPerGroup + 1)
    (L.totalInodes + 1) L.inodesPerGroup 0) L.numGroups 0

/-- Take block `b` of group `g`: mark it, count it, zero it. -/
def takeBlock (L : Layout) (v : Store) (g b : Nat) : Store :=
  { v with
    blockUsed := update v.blockUsed b true
    freeBlocks := update v.freeBlocks g (v.freeBlocks g - 1)
    data := if L.Data b then update v.data b zeros else v.data
    wild := v.wild || !decide (L.Data b) }

def takeInode (v : Store) (g ino : Nat) : Store :=
  { v with
    inodeUsed := update v.inodeUsed ino true
    freeInodes := update v.freeInodes g (v.freeInodes g - 1) }

def dropBlock (L : Layout) (v : Store) (b : Nat) : Store :=
  if b < L.firstDataBlock ∨ L.numGroups ≤ L.groupOf b ∨ v.blockUsed b = false then v
  else { v with
    blockUsed := update v.blockUsed b false
    freeBlocks := update v.freeBlocks (L.groupOf b) ((v.freeBlocks (L.groupOf b) + 1) % 65536) }

def setInode (v : Store) (ino : Nat) (i : Inode) : Store :=
  { v with inode := update v.inode ino i }

def dropInode (L : Layout) (v : Store) (ino : Nat) : Store :=
  if ¬ L.ValidIno ino ∨ v.inodeUsed ino = false then v
  else { v with
    inodeUsed := update v.inodeUsed ino false
    freeInodes := update v.freeInodes (L.groupOfIno ino) ((v.freeInodes (L.groupOfIno ino) + 1) % 65536)
    inode := update v.inode ino Inode.empty }

def setData (L : Layout) (v : Store) (b : Nat) (data : Buf) : Store :=
  { v with data := update v.data b (trunc L.blockSize data) }

def step (L : Layout) : Handler StoreOp Store
  | .readBlock b, v =>
    if b = 0 then (none, v)
    else if L.Data b then (some (v.data b), v)
    else (some zeros, { v with wild := true })
  | .writeBlock b data, v =>
    if b = 0 then (false, v)
    else if L.Data b then (true, v.setData L b data)
    else (true, { v with wild := true })
  | .allocBlock, v =>
    match v.nextBlock L with
    | none => (none, v)
    | some (g, b) => (some b, v.takeBlock L g b)
  | .freeBlock b, v => ((), v.dropBlock L b)
  | .allocInode _, v =>
    match v.nextInode L with
    | none => (none, v)
    | some (g, ino) => (some ino, v.takeInode g ino)
  | .freeInode ino _, v => ((), v.dropInode L ino)
  | .readInode ino, v => (if L.ValidIno ino then some (v.inode ino) else none, v)
  | .writeInode ino i, v => if L.ValidIno ino then (true, v.setInode ino i) else (false, v)

end Store

namespace Drv
variable {L : Layout} {v : Store} {ino b : Nat} {isDir : Bool}

/-! ## Commands on a store -/

theorem run_readBlock (h0 : b ≠ 0) (hb : L.Data b) : run (Store.step L) (readBlock b) v = (some (v.data b), v) := by
  change Store.step L (.readBlock b) v = _
  rw [Store.step, if_neg h0, if_pos hb]
  rfl

theorem run_writeBlock {buf : Buf} (h0 : b ≠ 0) (hb : L.Data b) :
    run (Store.step L) (writeBlock b buf) v = (true, v.setData L b buf) := by
  change Store.step L (.writeBlock b buf) v = _
  rw [Store.step, if_neg h0, if_pos hb]
  rfl

theorem run_allocBlock_none (h : v.nextBlock L = none) : run (Store.step L) allocBlock v = (none, v) := by
  change Store.step L .allocBlock v = _
  rw [Store.step, h]
  rfl

theorem run_allocBlock_some {g : Nat} (h : v.nextBlock L = some (g, b)) :
    run (Store.step L) allocBlock v = (some b, v.takeBlock L g b) := by
  change Store.step L .allocBlock v = _
  rw [Store.step, h]
  rfl

theorem run_freeBlock (b : Nat) : run (Store.step L) (freeBlock b) v = ((), v.dropBlock L b) := rfl

theorem run_allocInode_none (h : v.nextInode L = none) : run (Store.step L) (allocInode isDir) v = (none, v) := by
  change Store.step L (.allocInode isDir) v = _
  rw [Store.step, h]
  rfl

theorem run_allocInode_some {g : Nat} (h : v.nextInode L = some (g, ino)) :
    run (Store.step L) (allocInode isDir) v = (some ino, v.takeInode g ino) := by
  change Store.step L (.allocInode isDir) v = _
  rw [Store.step, h]
  rfl

theorem run_freeInode (ino : Nat) (isDir : Bool) : run (Store.step L) (freeInode ino isDir) v = ((), v.dropInode L ino) := rfl

theorem run_readInode (h : L.ValidIno ino) : run (Store.step L) (readInode ino) v = (some (v.inode ino), v) := by
  change ((if L.ValidIno ino then some (v.inode ino) else none : Option Inode), v) = _
  rw [if_pos h]

theorem run_readInode_invalid (h : ¬ L.ValidIno ino) : run (Store.step L) (readInode ino) v = (none, v) := by
  change ((if L.ValidIno ino then some (v.inode ino) else none : Option Inode), v) = _
  rw [if_neg h]

theorem run_writeInode {i : Inode} (h : L.ValidIno ino) : run (Store.step L) (writeInode ino i) v = (true, v.setInode ino i) := by
  change Store.step L (.writeInode ino i) v = _
  rw [Store.step, if_pos h]
  rfl

end Drv

def Disk.store (L : Layout) (d : Disk) : Store where
  blockUsed b := decide (L.firstDataBlock ≤ b) && decide (L.groupOf b < L.numGroups) &&
    bit (d.block L.fs (L.blockBitmap (L.groupOf b))) (L.indexOf b)
  inodeUsed ino := decide (L.ValidIno ino) && bit (d.block L.fs (L.inodeBitmap (L.groupOfIno ino))) (L.indexOfIno ino)
  inode ino :=
    if L.ValidIno ino then
      let off := L.indexOfIno ino * L.inodeSize
      Inode.decode fun i =>
        d.block L.fs (L.inodeTable (L.groupOfIno ino) + off / L.blockSize) (off % L.blockSize + i)
    else Inode.empty
  data b := if L.Data b then d.block L.fs b else zeros
  freeBlocks g := if g < L.numGroups then bgFreeBlocksCount d.bgdt g else 0
  freeInodes g := if g < L.numGroups then bgFreeInodesCount d.bgdt g else 0
  wild := false

end PureUnix.Ext2
