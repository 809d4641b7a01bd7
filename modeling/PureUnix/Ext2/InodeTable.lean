import PureUnix.Ext2.BlockCache
import PureUnix.Ext2.SuperGeometry

/-!
# The inode table as a store

`ext2_read_inode` and `ext2_write_inode` through the block cache. A write reads the table block, replaces 128 bytes of it and
writes it back: on the disk exactly these 128 bytes change, and every inode reads as the bytes at its own address. That the
addresses of two inodes are 128 bytes apart is `Fs.Parsed.disjoint`.
-/
namespace PureUnix.Ext2

open Lib Nat Inode
open Disk

/-- The device with the block cache in front of the disk; sectors are reached past the cache. -/
def Dev.cached (fs : Fs) (io : Sectors) : Handler Dev CachedDisk
  | .readBlock b, c => cachedReadBlock fs io c b
  | .writeBlock b data, c => cachedWriteBlock fs io c b data
  | .readSector lba, c => (if io.readOk lba then some (c.disk.sector lba) else none, c)
  | .writeSector lba data, c => if io.writeOk lba then (true, { c with disk := c.disk.setSector lba data }) else (false, c)
  | .getBgdt, c => (c.disk.bgdt, c)
  | .setBgdt b, c => ((), { c with disk := { c.disk with bgdt := b } })

/-- A geometry in which inodes do not cross blocks and table offsets do not wrap. -/
structure Fs.Aligned (fs : Fs) : Prop where
  parsed : fs.Parsed
  divides : fs.inodeSize ∣ fs.blockSize
  below : fs.inodesPerGroup * fs.inodeSize < 4294967296

namespace Fs.Aligned
variable {fs : Fs} (h : fs.Aligned)
include h

theorem offset_lt (ino : Nat) : (ino - 1) % fs.inodesPerGroup * fs.inodeSize < 4294967296 := by
  have hmod := mod_lt (ino - 1) h.parsed.perGroup.1
  have hmul := mul_le_mul_right fs.inodeSize (le_of_lt hmod)
  have := h.below
  omega

theorem inBlock (ino : Nat) : inodeByteOff fs ino % fs.blockSize + 128 ≤ fs.blockSize := by
  obtain ⟨m, hm⟩ := h.divides
  have hsize := h.parsed.inodeSize
  have hm0 : 0 < m := by
    refine pos_of_ne_zero fun h0 => ?_
    rw [h0] at hm
    omega
  rw [inodeByteOff, u32_of_lt (h.offset_lt ino), mul_comm _ fs.inodeSize, hm, mul_mod_mul_left]
  have hlt := mod_lt ((ino - 1) % fs.inodesPerGroup) hm0
  have hmul := mul_le_mul_left fs.inodeSize (succ_le_of_lt hlt)
  rw [mul_succ] at hmul
  omega

theorem sectorsPerBlock : fs.sectorsPerBlock = fs.blockSize / 512 := by
  have := h.parsed.sectors
  omega

end Fs.Aligned

def Disk.inodeAt (d : Disk) (addr : Nat) : Inode := Inode.decode fun i => d.bytes (addr + i)

theorem Disk.setBlock_patched (fs : Fs) (d : Disk) (b : Nat) (src : Buf) {off n : Nat} (h : off + n ≤ fs.blockSize) :
    d.setBlock fs b (copy (d.block fs b) off src n) = { d with bytes := copy d.bytes (base fs b + off) src n } := by
  have hbytes : copy d.bytes (base fs b) (copy (d.block fs b) off src n) fs.blockSize = copy d.bytes (base fs b + off) src n := by
    funext a
    simp only [copy, block, trunc]
    by_cases hin : base fs b ≤ a ∧ a < base fs b + fs.blockSize
    · rw [if_pos hin]
      by_cases hpatch : base fs b + off ≤ a ∧ a < base fs b + off + n
      · rw [if_pos (by omega), if_pos hpatch]
        exact congrArg src (by omega)
      · rw [if_neg (by omega), if_pos (by omega), if_neg hpatch]
        exact congrArg d.bytes (by omega)
    · rw [if_neg hin, if_neg (by omega)]
  unfold Disk.setBlock
  rw [hbytes]

section
variable {fs : Fs} {io : Sectors} {c : CachedDisk} {ino : Nat} (h : fs.Aligned)
  (hio : ∀ lba, io.readOk lba = true ∧ io.writeOk lba = true)

theorem cached_readInode_out (hino : ¬ fs.HasInode ino) : run (Dev.cached fs io) (readInode fs ino) c = (none, c) := by
  unfold readInode
  split
  · rfl
  · split
    · rfl
    · exact absurd ⟨by omega, by omega, by omega⟩ hino

theorem cached_writeInode_out (hino : ¬ fs.HasInode ino) (v : Inode) :
    run (Dev.cached fs io) (writeInode fs ino v) c = (false, c) := by
  unfold writeInode
  split
  · rfl
  · split
    · rfl
    · exact absurd ⟨by omega, by omega, by omega⟩ hino

theorem cached_readInode_eq (hino : fs.HasInode ino) : (run (Dev.cached fs io) (readInode fs ino) c).1 =
      (cachedReadBlock fs io c (inodeBlock fs c.disk.bgdt ino)).1.map fun blk =>
        Inode.decode fun i => blk (inodeByteOff fs ino % fs.blockSize + i) := by
  obtain ⟨h0, hle, hg⟩ := hino
  unfold readInode
  rw [if_neg (by omega), if_neg (by omega)]
  have hread : run (Dev.cached fs io) (Dev.readBlock (inodeBlock fs c.disk.bgdt ino)) c = cachedReadBlock fs io c _ := rfl
  rw [run_bind, show run (Dev.cached fs io) Dev.getBgdt c = (c.disk.bgdt, c) from rfl, run_bind, hread]
  cases (cachedReadBlock fs io c (inodeBlock fs c.disk.bgdt ino)).1 <;> rfl

theorem cached_writeInode_eq (hino : fs.HasInode ino) (v : Inode) : run (Dev.cached fs io) (writeInode fs ino v) c =
      match (cachedReadBlock fs io c (inodeBlock fs c.disk.bgdt ino)).1 with
      | none => (false, (cachedReadBlock fs io c (inodeBlock fs c.disk.bgdt ino)).2)
      | some ro => cachedWriteBlock fs io (cachedReadBlock fs io c (inodeBlock fs c.disk.bgdt ino)).2 (inodeBlock fs c.disk.bgdt ino)
          (copy ro (inodeByteOff fs ino % fs.blockSize) v.encode 128) := by
  obtain ⟨h0, hle, hg⟩ := hino
  unfold writeInode
  rw [if_neg (by omega), if_neg (by omega)]
  change run (Dev.cached fs io) (match (cachedReadBlock fs io c (inodeBlock fs c.disk.bgdt ino)).1 with
    | none => pure false
    | some ro => Dev.writeBlock (inodeBlock fs c.disk.bgdt ino) (copy ro (inodeByteOff fs ino % fs.blockSize) v.encode 128))
      (cachedReadBlock fs io c (inodeBlock fs c.disk.bgdt ino)).2 = _
  cases (cachedReadBlock fs io c (inodeBlock fs c.disk.bgdt ino)).1 <;> rfl

include h hio

/-- **`ext2_read_inode`** decodes the bytes at the inode's address. -/
theorem cached_readInode (inv : c.Inv fs) (ht : fs.TablesApart c.disk.bgdt) (hino : fs.HasInode ino) :
    (run (Dev.cached fs io) (readInode fs ino) c).1 =
      if inodeBlock fs c.disk.bgdt ino = 0 then none else some (c.disk.inodeAt (fs.inodeAddr c.disk.bgdt ino)) := by
  have hrange := (h.parsed.inodeBlock_eq (h.offset_lt ino) ht hino).2
  obtain ⟨hread, -, -⟩ := cachedReadBlock_spec h.parsed.blockSize h.sectorsPerBlock hio inv hrange
  rw [cached_readInode_eq hino, hread]
  split
  · rfl
  refine congrArg some (decode_congr fun i _ hi => ?_)
  have := h.inBlock ino
  simp only [block, trunc]
  rw [if_pos (by omega), Fs.inodeAddr, add_assoc]

/-- **`ext2_write_inode`** replaces the bytes at the inode's address. -/
theorem cached_writeInode (inv : c.Inv fs) (ht : fs.TablesApart c.disk.bgdt) (hino : fs.HasInode ino) {v : Inode} {c' : CachedDisk}
    (hrun : run (Dev.cached fs io) (writeInode fs ino v) c = (true, c')) :
    inodeBlock fs c.disk.bgdt ino ≠ 0 ∧ c'.disk = { c.disk with bytes := copy c.disk.bytes (fs.inodeAddr c.disk.bgdt ino) v.encode 128 } ∧
      c'.Inv fs := by
  have hrange := (h.parsed.inodeBlock_eq (h.offset_lt ino) ht hino).2
  obtain ⟨hread, hdisk, hinv⟩ := cachedReadBlock_spec h.parsed.blockSize h.sectorsPerBlock hio inv hrange
  rw [cached_writeInode_eq hino, hread] at hrun
  by_cases hz : inodeBlock fs c.disk.bgdt ino = 0
  · rw [if_pos hz] at hrun
    cases hrun
  rw [if_neg hz] at hrun
  dsimp only at hrun
  obtain ⟨-, hdisk', hinv'⟩ := cachedWriteBlock_spec h.parsed.blockSize h.sectorsPerBlock hio hinv hrange
    (copy (c.disk.block fs (inodeBlock fs c.disk.bgdt ino)) (inodeByteOff fs ino % fs.blockSize) v.encode 128)
  rw [hrun] at hdisk' hinv'
  refine ⟨hz, ?_, hinv'⟩
  rw [hdisk', Dev.step, if_neg hz, hdisk, Disk.setBlock_patched fs _ _ _ (h.inBlock ino)]
  rfl

end

theorem Disk.inodeAt_congr {d d' : Disk} {addr : Nat} (h : Same addr (addr + 128) d.bytes d'.bytes) : d.inodeAt addr = d'.inodeAt addr :=
  decode_congr fun i _ hi => h (addr + i) (by omega) (by omega)

/-- **The inode table is a faithful store.** -/
theorem inode_table_faithful {fs : Fs} (h : fs.Aligned) {io : Sectors} (hio : ∀ lba, io.readOk lba = true ∧ io.writeOk lba = true)
    {c : CachedDisk} (inv : c.Inv fs) (ht : fs.TablesApart c.disk.bgdt) (i : Nat) (v : Inode) :
    (¬ fs.HasInode i → Prog.run (Dev.cached fs io) (readInode fs i) c = (none, c) ∧ Prog.run (Dev.cached fs io) (writeInode fs i v) c = (false, c)) ∧
    ∀ c', Prog.run (Dev.cached fs io) (writeInode fs i v) c = (true, c') →
      (Prog.run (Dev.cached fs io) (readInode fs i) c').1 = some v ∧
      (∀ j, j ≠ i → (Prog.run (Dev.cached fs io) (readInode fs j) c').1 = (Prog.run (Dev.cached fs io) (readInode fs j) c).1) ∧
      (∀ a, a < fs.inodeAddr c.disk.bgdt i ∨ fs.inodeAddr c.disk.bgdt i + 128 ≤ a → c'.disk.bytes a = c.disk.bytes a) ∧
      c'.disk.bgdt = c.disk.bgdt := by
  refine ⟨fun hout => ⟨cached_readInode_out hout, cached_writeInode_out hout v⟩, fun c' hrun => ?_⟩
  have hino : fs.HasInode i := by
    by_contra hout
    rw [cached_writeInode_out hout] at hrun
    cases hrun
  obtain ⟨hz, hdisk, inv'⟩ := cached_writeInode h hio inv ht hino hrun
  have hbgdt : c'.disk.bgdt = c.disk.bgdt := by rw [hdisk]
  have hframe : ∀ a, a < fs.inodeAddr c.disk.bgdt i ∨ fs.inodeAddr c.disk.bgdt i + 128 ≤ a → c'.disk.bytes a = c.disk.bytes a := by
    intro a ha
    rw [hdisk]
    simp only [copy]
    rw [if_neg (by omega)]
  refine ⟨?_, fun j hj => ?_, hframe, hbgdt⟩
  · rw [cached_readInode h hio inv' (hbgdt ▸ ht) hino, hbgdt, if_neg hz, hdisk]
    have hbytes : Inode.decode v.encode = v := decode_encode v
    refine congrArg some (Eq.trans (decode_congr fun k _ hk => ?_) hbytes)
    simp only [copy]
    rw [if_pos (by omega), Nat.add_sub_cancel_left]
  · by_cases hjno : fs.HasInode j
    · rw [cached_readInode h hio inv' (hbgdt ▸ ht) hjno, cached_readInode h hio inv ht hjno, hbgdt]
      have hsame : c'.disk.inodeAt (fs.inodeAddr c.disk.bgdt j) = c.disk.inodeAt (fs.inodeAddr c.disk.bgdt j) := by
        refine Disk.inodeAt_congr fun a h1 h2 => hframe a ?_
        have := h.parsed.disjoint (h.offset_lt i) (h.offset_lt j) ht hino hjno (Ne.symm hj)
        omega
      rw [hsame]
    · rw [cached_readInode_out hjno, cached_readInode_out hjno]

/-- The volume with 16 inodes of 128 bytes, mounted: an empty cache, and the descriptor of its group. -/
def mountedVolume : CachedDisk := ⟨fun _ => ⟨0, 0, zeros⟩, 0, ⟨(superDisk 128).bytes, put32 zeros 8 5⟩⟩

theorem mountedVolume_aligned : (superDiskFs 128).Aligned := by
  have hchecks : superChecks (rawSuper ((superDisk 128).sector 2) ((superDisk 128).sector 3)) := by decide +kernel
  have hparse : superParse (rawSuper ((superDisk 128).sector 2) ((superDisk 128).sector 3)) = some (superDiskFs 128) := if_pos hchecks
  exact ⟨superParse_parsed hparse, by decide +kernel, by decide +kernel⟩

theorem mountedVolume_tables : (superDiskFs 128).TablesApart mountedVolume.disk.bgdt := by
  have hgroups : (superDiskFs 128).numGroups = 1 := by decide +kernel
  refine ⟨fun g hg => ?_, fun g hg g' hg' hne => ?_⟩
  · obtain rfl : g = 0 := by omega
    decide +kernel
  · omega

/-- Inode 3 is written and reads back. -/
theorem inode_table_three : ∃ c', Prog.run (Dev.cached (superDiskFs 128) goodSectors)
      (writeInode (superDiskFs 128) 3 { Inode.empty with iMode := 0x81A4 }) mountedVolume = (true, c') ∧
    (Prog.run (Dev.cached (superDiskFs 128) goodSectors) (readInode (superDiskFs 128) 3) c').1 =
      some { Inode.empty with iMode := 0x81A4 } := by
  have hok : (run (Dev.cached (superDiskFs 128) goodSectors)
      (writeInode (superDiskFs 128) 3 { Inode.empty with iMode := 0x81A4 }) mountedVolume).1 = true := by decide +kernel
  have hfaithful := (inode_table_faithful mountedVolume_aligned goodSectors_ok
    (CachedDisk.Inv.of_empty fun _ => rfl) mountedVolume_tables 3 { Inode.empty with iMode := 0x81A4 }).2
  exact ⟨_, Prod.ext hok rfl, (hfaithful _ (Prod.ext hok rfl)).1⟩

end PureUnix.Ext2
