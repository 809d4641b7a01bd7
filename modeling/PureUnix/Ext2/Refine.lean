import PureUnix.Lib.Wp
import PureUnix.Ext2.Decode

/-!
# The device machine simulates the store

`Rel L d v`: disk `d` carries layout `L` and decodes to `v`. Every function of `alloc.c` and of
the table half of `inode.c` is run on the device once (`run_allocBlock`, `run_freeBlock`,
`run_allocInode`, `run_freeInode`, `run_readInode`, `run_writeInode`): its answer and the disk
it leaves. Each command of the upper interface therefore keeps `Rel` as long as the store machine
does not go wild (`lower_sim`), and with `Prog.run_sim` this holds for every driver program
(`run_lower`). From here on, everything about `dir.c`, `file.c` and `write.c` is proved on the
store machine.
-/
namespace PureUnix.Ext2
open Lib Nat Prog
open Store
open Disk (run_commit run_getBgdt run_readBlock run_setBgdt run_writeBlock store)
open Dev (step)
open StoreOp (lower)
open Prog (interp)

/-- Disk `d` carries layout `L` and decodes to `v`. -/
def Rel (L : Layout) (d : Disk) (v : Store) : Prop := L.Mounted d ∧ d.store L = v

namespace Disk

/-- The disk `ext2_alloc_block` leaves after taking block `b`. -/
def takeBlock (L : Layout) (d : Disk) (b : Nat) : Disk :=
  (d.editBlockBit L setBit b (bgFreeBlocksCount d.bgdt (L.groupOf b) - 1) (-1)).setBlock L.fs b zeros

/-- The disk `ext2_free_block` leaves after clearing the bit of block `b`. -/
def dropBlock (L : Layout) (d : Disk) (b : Nat) : Disk :=
  d.editBlockBit L clearBit b (bgFreeBlocksCount d.bgdt (L.groupOf b) + 1) 1

def takeInode (L : Layout) (d : Disk) (ino : Nat) (isDir : Bool) : Disk :=
  d.editInodeBit L setBit ino (bgdtAllocInode d.bgdt (L.groupOfIno ino) isDir) (-1)

def dropInode (L : Layout) (d : Disk) (ino : Nat) (isDir : Bool) : Disk :=
  (d.editInodeBit L clearBit ino (bgdtFreeInode d.bgdt (L.groupOfIno ino) isDir) 1).putInode L ino Inode.empty

end Disk

section
variable {L : Layout} {d : Disk} (h : L.Ok) (hm : L.Mounted d) {g ino : Nat}
include h hm

/-! ## The inode table -/

theorem inodeBlock_eq (hi : L.ValidIno ino) : inodeBlock L.fs d.bgdt ino =
      L.inodeTable (L.groupOfIno ino) + L.indexOfIno ino * L.inodeSize / L.blockSize := by
  have hw := h.slot_within hi
  have hin := h.inside _ _ (show L.Valid (.inodeTable _) from h.inoGroup_lt hi) hw
  have ht := h.total_le
  have hg := (hm _ (h.inoGroup_lt hi)).2.2
  rw [inodeBlock, h.byteOff_eq]
  change u32 (bgInodeTable d.bgdt (L.groupOfIno ino) + _) = _
  rw [hg, u32_of_lt (by omega)]

omit hm in
theorem inodeBlock_ne_zero (hi : L.ValidIno ino) :
    L.inodeTable (L.groupOfIno ino) + L.indexOfIno ino * L.inodeSize / L.blockSize ≠ 0 := by
  have hne := h.nonzero (.inodeTable (L.groupOfIno ino)) (h.inoGroup_lt hi) (by simp)
  exact fun e => hne (Nat.add_eq_zero_iff.1 e).1

theorem run_readInode (ino : Nat) : run (step L.fs) (readInode L.fs ino) d =
    (if L.ValidIno ino then some ((d.store L).inode ino) else none, d) := by
  unfold readInode
  by_cases hi : L.ValidIno ino
  · have hg : ¬ L.numGroups ≤ (ino - 1) / L.inodesPerGroup := not_le.2 (h.inoGroup_lt hi)
    rw [if_neg (by have := hi.1; have := hi.2; omega), if_neg hg]
    simp only [run_bind, run_getBgdt, run_readBlock, inodeBlock_eq h hm hi,
      inodeBlock_ne_zero h hi, if_false, h.byteOff_eq, run_pure, hi, if_true, store]
  · rw [if_pos (by rw [Layout.ValidIno] at hi; omega), if_neg hi]
    rfl

theorem run_writeInode (ino : Nat) (i : Inode) : run (step L.fs) (writeInode L.fs ino i) d =
      if L.ValidIno ino then (true, d.putInode L ino i) else (false, d) := by
  unfold writeInode
  by_cases hi : L.ValidIno ino
  · have hg : ¬ L.numGroups ≤ (ino - 1) / L.inodesPerGroup := not_le.2 (h.inoGroup_lt hi)
    rw [if_neg (by have := hi.1; have := hi.2; omega), if_neg hg, if_pos hi]
    simp only [run_bind, run_getBgdt, run_readBlock, inodeBlock_eq h hm hi,
      inodeBlock_ne_zero h hi, if_false, h.byteOff_eq, run_writeBlock, Disk.putInode]
  · rw [if_pos (by rw [Layout.ValidIno] at hi; omega), if_neg hi]
    rfl

/-! ## Blocks -/

omit hm in
theorem blockBitmap_ne_zero (hg : g < L.numGroups) : L.blockBitmap g ≠ 0 :=
  h.nonzero (.blockBitmap g) hg (by simp)

omit hm in
theorem inodeBitmap_ne_zero (hg : g < L.numGroups) : L.inodeBitmap g ≠ 0 :=
  h.nonzero (.inodeBitmap g) hg (by simp)

omit hm in
/-- The C scan of a block bitmap is the scan of the decoded predicate. -/
theorem scanBits_block (hg : g < L.numGroups) :
    scanBits (d.block L.fs (L.blockBitmap g)) (groupFirstBlock L.fs g) L.totalBlocks L.blocksPerGroup 0 =
    (scanFree (d.store L).blockUsed (L.firstDataBlock + g * L.blocksPerGroup) L.totalBlocks
      L.blocksPerGroup 0).map (· - (L.firstDataBlock + g * L.blocksPerGroup)) := by
  have ht := h.total_le
  have hf := h.fdb_lt
  have hgl := h.group_mul_lt hg
  rw [h.groupFirst_eq hg]
  apply scanBits_eq _ _ _ _ _ _ (.inl (by omega))
  intro j _ hj _
  obtain ⟨e1, e2⟩ := h.groupOf_mk (g := g) (i := j) (by omega)
  simp only [store, e1, e2, hg, show L.firstDataBlock ≤
    L.firstDataBlock + g * L.blocksPerGroup + j by omega, decide_true, Bool.true_and]

theorem run_allocBlockFrom : ∀ (n g : Nat), g + n ≤ L.numGroups →
    (∀ k b, findFree (d.store L).freeBlocks (fun g => scanFree (d.store L).blockUsed
      (L.firstDataBlock + g * L.blocksPerGroup) L.totalBlocks L.blocksPerGroup 0) n g =
        some (k, b) → L.Data b) →
    run (step L.fs) (allocBlockFrom L.fs n g) d =
      match findFree (d.store L).freeBlocks (fun g => scanFree (d.store L).blockUsed
        (L.firstDataBlock + g * L.blocksPerGroup) L.totalBlocks L.blocksPerGroup 0) n g with
      | none => (none, d)
      | some (_, b) => (some b, d.takeBlock L b)
  | 0, _, _, _ => rfl
  | n + 1, g, hn, hdata => by
    have hg : g < L.numGroups := by omega
    have hcnt : (d.store L).freeBlocks g = bgFreeBlocksCount d.bgdt g := by simp [store, hg]
    have ih := run_allocBlockFrom n (g + 1) (by omega)
    simp only [allocBlockFrom, findFree, run_bind, run_getBgdt, hcnt] at hdata ⊢
    by_cases hc : bgFreeBlocksCount d.bgdt g = 0
    · simp only [hc, if_true] at hdata ⊢
      exact ih hdata
    simp only [hc, if_false, run_bind, run_readBlock, (hm g hg).1, blockBitmap_ne_zero h hg] at hdata ⊢
    rw [scanBits_block h hg]
    cases hs : scanFree (d.store L).blockUsed (L.firstDataBlock + g * L.blocksPerGroup)
        L.totalBlocks L.blocksPerGroup 0 with
    | none =>
      simp only [hs] at hdata ⊢
      exact ih hdata
    | some b =>
      simp only [hs] at hdata ⊢
      have hb := hdata g b rfl
      obtain ⟨h1, h2, h3, h4⟩ := scanFree_some hs
      obtain ⟨e1, e2⟩ := h.groupOf_scan hs
      have eb : L.firstDataBlock + g * L.blocksPerGroup +
          (b - (L.firstDataBlock + g * L.blocksPerGroup)) = b := by omega
      have ht := h.total_le
      simp only [Option.map_some, run_bind, run_writeBlock, blockBitmap_ne_zero h hg,
        if_false, if_true, h.groupFirst_eq hg, eb, u32_of_lt (show b < 4294967296 by omega),
        h.data_ne_zero hb, run_pure, run_setBgdt]
      rw [Disk.takeBlock, Disk.editBlockBit, e1, e2, ← run_commit h]
      simp only [run_bind, run_setBgdt]

theorem run_allocBlock (hdata : ∀ g b, (d.store L).nextBlock L = some (g, b) → L.Data b) : run (step L.fs) (allocBlock L.fs) d =
      match (d.store L).nextBlock L with
      | none => (none, d)
      | some (_, b) => (some b, d.takeBlock L b) :=
  run_allocBlockFrom h hm L.numGroups 0 (by omega) hdata

theorem run_freeBlock (b : Nat) : run (step L.fs) (freeBlock L.fs b) d =
    ((), if b < L.firstDataBlock ∨ L.numGroups ≤ L.groupOf b ∨ (d.store L).blockUsed b = false
      then d else d.dropBlock L b) := by
  unfold freeBlock
  by_cases h1 : b < L.firstDataBlock
  · simp only [h1, if_true, true_or, run_pure]
  by_cases h2 : L.numGroups ≤ L.groupOf b
  · have h2' : L.numGroups ≤ (b - L.firstDataBlock) / L.blocksPerGroup := h2
    simp only [h1, h2, h2', if_true, if_false, true_or, or_true, run_pure]
  have h2' : ¬ L.numGroups ≤ (b - L.firstDataBlock) / L.blocksPerGroup := h2
  have hg : L.groupOf b < L.numGroups := not_le.1 h2
  have hused : (d.store L).blockUsed b = bit (d.block L.fs (L.blockBitmap (L.groupOf b))) (L.indexOf b) := by
    simp [store, not_lt.1 h1, hg]
  have eg : bgBlockBitmap d.bgdt ((b - L.firstDataBlock) / L.blocksPerGroup) =
      L.blockBitmap (L.groupOf b) := (hm _ hg).1
  simp only [h1, h2, h2', if_false, false_or, run_bind, run_getBgdt, run_readBlock, eg, blockBitmap_ne_zero h hg, hused]
  change run _ (if (!bit (d.block L.fs (L.blockBitmap (L.groupOf b))) (L.indexOf b)) = true then _
    else _) d = _
  cases hbit : bit (d.block L.fs (L.blockBitmap (L.groupOf b))) (L.indexOf b) with
  | false => simp
  | true =>
    simp only [Bool.not_true, Bool.false_eq_true, Bool.true_eq_false, if_false, if_true, run_bind,
      run_writeBlock, blockBitmap_ne_zero h hg]
    rw [Disk.dropBlock, Disk.editBlockBit, ← run_commit h]
    simp only [run_bind]
    rfl

/-! ## Inodes -/

omit hm in
theorem scanBits_inode (hg : g < L.numGroups) :
    scanBits (d.block L.fs (L.inodeBitmap g)) (u32 (g * L.inodesPerGroup + 1)) (L.totalInodes + 1) L.inodesPerGroup 0 =
    (scanFree (d.store L).inodeUsed (g * L.inodesPerGroup + 1) (L.totalInodes + 1)
      L.inodesPerGroup 0).map (· - (g * L.inodesPerGroup + 1)) := by
  have h32 := h.inodes32
  have hgl := mul_step hg L.inodesPerGroup
  have hp := h.inodesPerGroup.1
  have hti := h.totalInodes
  rw [u32_of_lt (by omega)]
  apply scanBits_eq _ _ _ _ _ _ (.inr (by omega))
  intro j _ hj hlim
  obtain ⟨e1, e2⟩ := h.inoGroup_mk (g := g) (i := j) (by omega)
  have hv : L.ValidIno (g * L.inodesPerGroup + 1 + j) := ⟨by omega, by omega⟩
  simp only [store, e1, e2, hv, decide_true, Bool.true_and]

theorem run_allocInodeFrom (isDir : Bool) : ∀ (n g : Nat), g + n ≤ L.numGroups →
    run (step L.fs) (allocInodeFrom L.fs isDir n g) d =
      match findFree (d.store L).freeInodes (fun g => scanFree (d.store L).inodeUsed
        (g * L.inodesPerGroup + 1) (L.totalInodes + 1) L.inodesPerGroup 0) n g with
      | none => (none, d)
      | some (_, ino) => (some ino, d.takeInode L ino isDir)
  | 0, _, _ => rfl
  | n + 1, g, hn => by
    have hg : g < L.numGroups := by omega
    have hcnt : (d.store L).freeInodes g = bgFreeInodesCount d.bgdt g := by simp [store, hg]
    have ih := run_allocInodeFrom isDir n (g + 1) (by omega)
    simp only [allocInodeFrom, findFree, run_bind, run_getBgdt, hcnt]
    by_cases hc : bgFreeInodesCount d.bgdt g = 0
    · simp only [hc, if_true]
      exact ih
    simp only [hc, if_false, run_bind, run_readBlock, (hm g hg).2.1, inodeBitmap_ne_zero h hg]
    rw [scanBits_inode h hg]
    cases hs : scanFree (d.store L).inodeUsed (g * L.inodesPerGroup + 1) (L.totalInodes + 1) L.inodesPerGroup 0 with
    | none => exact ih
    | some ino =>
      obtain ⟨h1, h2, h3, h4⟩ := scanFree_some hs
      obtain ⟨e1, e2⟩ := h.inoGroup_scan hs
      have ei' : g * L.inodesPerGroup + (ino - (g * L.inodesPerGroup + 1)) + 1 = ino := by omega
      have h32 := h.inodes32
      have hti := h.totalInodes
      simp only [Option.map_some, run_bind, run_writeBlock, inodeBitmap_ne_zero h hg,
        if_false, if_true, ei', u32_of_lt (show ino < 4294967296 by omega), run_pure,
        run_setBgdt]
      rw [Disk.takeInode, Disk.editInodeBit, e1, e2, ← run_commit h]
      simp only [run_bind, run_setBgdt]

theorem run_allocInode (isDir : Bool) : run (step L.fs) (allocInode L.fs isDir) d =
      match (d.store L).nextInode L with
      | none => (none, d)
      | some (_, ino) => (some ino, d.takeInode L ino isDir) :=
  run_allocInodeFrom h hm isDir L.numGroups 0 (by omega)

omit h hm in
theorem countersOnly_put16 (B : Buf) (g p v : Nat) (hp : p = 14 ∨ p = 16) : CountersOnly g B (put16 B (g * 32 + p) v) := by
  refine ⟨fun k o ho => ?_, fun k => ?_, fun k hk => ?_⟩
  · rw [get32_put16_entry (by omega) (by omega)]
  · exact get16_put16_entry (by omega) (by omega) (by omega)
  · exact get16_put16_entry (by omega) (by omega) (.inl (Ne.symm hk))

omit h hm in
theorem CountersOnly.trans {A B C : Buf} (h1 : CountersOnly g A B) (h2 : CountersOnly g B C) : CountersOnly g A C :=
  ⟨fun k o ho => (h2.ptr k o ho).trans (h1.ptr k o ho), fun k => (h2.blocks k).trans (h1.blocks k),
    fun k hk => (h2.inodes k hk).trans (h1.inodes k hk)⟩

omit h hm in
theorem countersOnly_inode (B : Buf) (g m n : Nat) (dir : Prop) [Decidable dir] :
    let B' := put16 B (g * 32 + 14) m
    let B'' := if dir then put16 B' (g * 32 + 16) n else B'
    CountersOnly g B B'' ∧ bgFreeInodesCount B'' g = m % 65536 := by
  have h1 := countersOnly_put16 B g 14 m (.inl rfl)
  dsimp only
  split
  · refine ⟨h1.trans (countersOnly_put16 _ g 16 _ (.inr rfl)), ?_⟩
    simp only [bgFreeInodesCount]
    rw [get16_put16_entry (by omega) (by omega) (by omega), get16_put16]
  · exact ⟨h1, get16_put16 _ _ _⟩

omit h hm in
theorem countersOnly_alloc (B : Buf) (g : Nat) (isDir : Bool) : CountersOnly g B (bgdtAllocInode B g isDir) ∧
    bgFreeInodesCount (bgdtAllocInode B g isDir) g = (bgFreeInodesCount B g - 1) % 65536 := countersOnly_inode ..

omit h hm in
theorem countersOnly_free (B : Buf) (g : Nat) (isDir : Bool) : CountersOnly g B (bgdtFreeInode B g isDir) ∧
    bgFreeInodesCount (bgdtFreeInode B g isDir) g = (bgFreeInodesCount B g + 1) % 65536 := countersOnly_inode ..

theorem run_freeInode (ino : Nat) (isDir : Bool) : run (step L.fs) (freeInode L.fs ino isDir) d =
      ((), if ¬ L.ValidIno ino ∨ (d.store L).inodeUsed ino = false then d
        else d.dropInode L ino isDir) := by
  unfold freeInode
  by_cases hi : L.ValidIno ino
  · have hr : ¬ (ino = 0 ∨ L.totalInodes < ino) := by have := hi.1; have := hi.2; omega
    have hg := h.inoGroup_lt hi
    have hg' : ¬ L.numGroups ≤ (ino - 1) / L.inodesPerGroup := not_le.2 hg
    have hused : (d.store L).inodeUsed ino = bit (d.block L.fs (L.inodeBitmap (L.groupOfIno ino))) (L.indexOfIno ino) := by
      simp [store, hi]
    have eg : bgInodeBitmap d.bgdt ((ino - 1) / L.inodesPerGroup) = L.inodeBitmap (L.groupOfIno ino) := (hm _ hg).2.1
    simp only [hr, hg', if_false, hi, not_true, false_or, run_bind, run_getBgdt,
      run_readBlock, eg, inodeBitmap_ne_zero h hg, hused]
    change run _ (if (!bit (d.block L.fs (L.inodeBitmap (L.groupOfIno ino))) (L.indexOfIno ino)) = true then _ else _) d = _
    cases hbit : bit (d.block L.fs (L.inodeBitmap (L.groupOfIno ino))) (L.indexOfIno ino) with
    | false => simp
    | true =>
      simp only [Bool.not_true, Bool.false_eq_true, Bool.true_eq_false, if_false, if_true, run_bind,
        run_writeBlock, inodeBitmap_ne_zero h hg, run_pure]
      refine Prod.ext rfl ?_
      have hm' := mounted_editInodeBit hm clearBit ino (countersOnly_free d.bgdt (L.groupOfIno ino) isDir).1 1
      have hw := run_writeInode h hm' ino Inode.empty
      rw [if_pos hi] at hw
      rw [Disk.dropInode, ← congrArg Prod.snd hw]
      conv_rhs => rw [Disk.editInodeBit, ← run_commit h]
      simp only [run_bind]
      rfl
  · have hr : ino = 0 ∨ L.totalInodes < ino := by rw [Layout.ValidIno] at hi; omega
    simp only [hr, if_true, hi, not_false_eq_true, true_or, run_pure]

/-! ## The simulation -/

theorem rel_takeBlock {b : Nat} (hb : (d.store L).nextBlock L = some (g, b)) (hd : L.Data b) :
    Rel L (d.takeBlock L b) ((d.store L).takeBlock L g b) := by
  obtain ⟨-, hg, hc, hs⟩ := findFree_some hb
  have eg := (h.groupOf_scan hs).1
  have hg' : L.groupOf b < L.numGroups := h.groupOf_lt hd.2.1
  have hlt := get16_lt d.bgdt (L.groupOf b * 32 + 12)
  have hcnt : (d.store L).freeBlocks g = bgFreeBlocksCount d.bgdt (L.groupOf b) := by
    subst eg; simp [store, hg']
  refine ⟨mounted_editBlockBit hm setBit b (bgFreeBlocksCount d.bgdt (L.groupOf b) - 1) (-1), ?_⟩
  rw [Disk.takeBlock, store_setBlock_data h hd, store_editBlockBit h setBit_edit hd.1 hg']
  have hz : trunc L.blockSize zeros = zeros := by funext i; simp [trunc, zeros]
  simp only [setData, takeBlock, hd, if_true, decide_true, Bool.not_true, Bool.or_false, hcnt, eg, hz]
  rw [mod_eq_of_lt (by rw [bgFreeBlocksCount, ← eg]; omega)]

theorem rel_dropBlock {b : Nat} (h1 : L.firstDataBlock ≤ b) (h2 : L.groupOf b < L.numGroups)
    (hu : (d.store L).blockUsed b = true) : Rel L (d.dropBlock L b) ((d.store L).dropBlock L b) := by
  refine ⟨mounted_editBlockBit hm _ _ _ _, ?_⟩
  have hcnt : (d.store L).freeBlocks (L.groupOf b) = bgFreeBlocksCount d.bgdt (L.groupOf b) := by
    simp [store, h2]
  rw [Disk.dropBlock, store_editBlockBit h clearBit_edit h1 h2, dropBlock, if_neg (by simp [h1, h2, hu]), hcnt]

theorem rel_takeInode (hi : (d.store L).nextInode L = some (g, ino)) (isDir : Bool) :
    Rel L (d.takeInode L ino isDir) ((d.store L).takeInode g ino) := by
  obtain ⟨-, hg, hc, hs⟩ := findFree_some hi
  obtain ⟨h1, h2, h3, -⟩ := scanFree_some hs
  have hv : L.ValidIno ino := ⟨by omega, by omega⟩
  have eg := (h.inoGroup_scan hs).1
  have hc' := countersOnly_alloc d.bgdt (L.groupOfIno ino) isDir
  refine ⟨mounted_editInodeBit hm _ _ hc'.1 _, ?_⟩
  have hlt := get16_lt d.bgdt (L.groupOfIno ino * 32 + 14)
  have hcnt : (d.store L).freeInodes g = bgFreeInodesCount d.bgdt (L.groupOfIno ino) := by
    subst eg; simp [store, h.inoGroup_lt hv]
  rw [Disk.takeInode, store_editInodeBit h setBit_edit hv hc'.1, hc'.2, takeInode, hcnt, eg,
    mod_eq_of_lt (by rw [bgFreeInodesCount, ← eg]; omega)]

theorem rel_dropInode (hi : L.ValidIno ino) (hu : (d.store L).inodeUsed ino = true) (isDir : Bool) :
    Rel L (d.dropInode L ino isDir) ((d.store L).dropInode L ino) := by
  have hc' := countersOnly_free d.bgdt (L.groupOfIno ino) isDir
  refine ⟨mounted_editInodeBit hm clearBit ino hc'.1 1, ?_⟩
  have hcnt : (d.store L).freeInodes (L.groupOfIno ino) = bgFreeInodesCount d.bgdt (L.groupOfIno ino) := by
    simp [store, h.inoGroup_lt hi]
  rw [Disk.dropInode, store_putInode h hi, store_editInodeBit h clearBit_edit hi hc'.1, hc'.2,
    dropInode, if_neg (by simp [hi, hu]), hcnt, Store.setInode]

end

variable {L : Layout} {α β : Type} {p : Drv α} {d : Disk} {f : α → Drv β} {Q : β × Disk → Prop}

/-- One command of the upper interface, run by the lower half of the driver, does to the disk what
the store machine does to the decoded store, unless the latter has gone wild. -/
theorem lower_sim (h : L.Ok) (c : StoreOp.Cmd) (d : Disk) (v : Store) (hR : Rel L d v) (hw : ¬ (Store.step L c v).2.wild = true) :
    (run (Dev.step L.fs) (StoreOp.lower L.fs c) d).1 = (Store.step L c v).1 ∧
      Rel L (run (Dev.step L.fs) (StoreOp.lower L.fs c) d).2 (Store.step L c v).2 := by
  obtain ⟨hm, rfl⟩ := hR
  cases c with
  | readBlock b =>
    have hrun : run (Dev.step L.fs) (StoreOp.lower L.fs (.readBlock b)) d =
      (if b = 0 then none else some (d.block L.fs b), d) := rfl
    rw [hrun]
    simp only [Store.step] at hw ⊢
    by_cases h0 : b = 0
    · simp only [h0, if_true]
      exact ⟨rfl, hm, rfl⟩
    by_cases hb : L.Data b
    · simp only [h0, hb, if_true, if_false]
      have hdat : (d.store L).data b = d.block L.fs b := if_pos hb
      rw [hdat]
      exact ⟨rfl, hm, rfl⟩
    · simp [h0, hb] at hw
  | writeBlock b data =>
    have hrun : run (Dev.step L.fs) (StoreOp.lower L.fs (.writeBlock b data)) d =
      if b = 0 then (false, d) else (true, d.setBlock L.fs b data) := rfl
    rw [hrun]
    simp only [Store.step] at hw ⊢
    by_cases h0 : b = 0
    · simp only [h0, if_true]
      exact ⟨rfl, hm, rfl⟩
    by_cases hb : L.Data b
    · simp only [h0, hb, if_true, if_false]
      exact ⟨rfl, hm, store_setBlock_data h hb data⟩
    · simp [h0, hb] at hw
  | allocBlock =>
    have hdata : ∀ g b, (d.store L).nextBlock L = some (g, b) → L.Data b := by
      intro g b hb
      by_contra hd
      simp [Store.step, hb, Store.takeBlock, hd] at hw
    have hrun : run (Dev.step L.fs) (StoreOp.lower L.fs .allocBlock) d = _ := run_allocBlock h hm hdata
    rw [hrun]
    simp only [Store.step]
    cases hb : (d.store L).nextBlock L with
    | none => exact ⟨rfl, hm, rfl⟩
    | some gb => exact ⟨rfl, rel_takeBlock h hm hb (hdata gb.1 gb.2 hb)⟩
  | freeBlock b =>
    have hrun : run (Dev.step L.fs) (StoreOp.lower L.fs (.freeBlock b)) d = _ := run_freeBlock h hm b
    rw [hrun]
    refine ⟨rfl, ?_⟩
    simp only [Store.step]
    split
    · rename_i hc
      rw [Store.dropBlock, if_pos hc]
      exact ⟨hm, rfl⟩
    · rename_i hc
      simp only [not_or, not_lt, not_le, Bool.not_eq_false] at hc
      exact rel_dropBlock h hm hc.1 hc.2.1 hc.2.2
  | allocInode isDir =>
    have hrun : run (Dev.step L.fs) (StoreOp.lower L.fs (.allocInode isDir)) d = _ :=
      run_allocInode h hm isDir
    rw [hrun]
    simp only [Store.step]
    cases hi : (d.store L).nextInode L with
    | none => exact ⟨rfl, hm, rfl⟩
    | some gi => exact ⟨rfl, rel_takeInode h hm hi isDir⟩
  | freeInode ino isDir =>
    have hrun : run (Dev.step L.fs) (StoreOp.lower L.fs (.freeInode ino isDir)) d = _ :=
      run_freeInode h hm ino isDir
    rw [hrun]
    refine ⟨rfl, ?_⟩
    simp only [Store.step]
    split
    · rename_i hc
      rw [Store.dropInode, if_pos hc]
      exact ⟨hm, rfl⟩
    · rename_i hc
      simp only [not_or, Decidable.not_not, Bool.not_eq_false] at hc
      exact rel_dropInode h hm hc.1 hc.2 isDir
  | readInode ino =>
    have hrun : run (Dev.step L.fs) (StoreOp.lower L.fs (.readInode ino)) d = _ := run_readInode h hm ino
    rw [hrun]
    exact ⟨rfl, hm, rfl⟩
  | writeInode ino i =>
    have hrun : run (Dev.step L.fs) (StoreOp.lower L.fs (.writeInode ino i)) d = _ :=
      run_writeInode h hm ino i
    rw [hrun]
    simp only [Store.step]
    split
    · rename_i hi
      exact ⟨rfl, hm, store_putInode h hi i⟩
    · exact ⟨rfl, hm, rfl⟩

theorem Store.step_wild (L : Layout) (c : StoreOp.Cmd) (v : Store) (hw : v.wild = true) : (step L c v).2.wild = true := by
  cases c with
  | readBlock b => simp only [step]; split; exacts [hw, by split <;> simp [hw]]
  | writeBlock b data => simp only [step]; split; exacts [hw, by split <;> simp [hw, setData]]
  | allocBlock => simp only [step]; split <;> simp [hw, takeBlock]
  | freeBlock b => simp only [step, dropBlock]; split <;> exact hw
  | allocInode isDir => simp only [step]; split <;> simp [hw, takeInode]
  | freeInode ino isDir => simp only [step, dropInode]; split <;> exact hw
  | readInode ino => exact hw
  | writeInode ino i => simp only [step]; split <;> exact hw

/-- **The driver on the device simulates the driver on the store**: every program of the upper half
returns the same answer on both machines and leaves related states, unless the store machine has
gone wild. -/
theorem run_lower (h : L.Ok) (p : Drv α) (d : Disk) (v : Store) (hR : Rel L d v) (hw : (run (step L) p v).2.wild = false) :
    (run (step L.fs) (interp (lower L.fs) p) d).1 = (run (step L) p v).1 ∧ Rel L (run (step L.fs) (interp (lower L.fs) p) d).2
        (run (step L) p v).2 := by
  rw [run_interp]
  exact run_sim (Rel L) (fun v => v.wild = true) (Store.step_wild L)
    (fun c d v hR hw => lower_sim h c d v hR hw) p d v hR (by simp [hw])

def Disk.exec {α : Type} (L : Layout) (p : Drv α) (d : Disk) : α × Disk :=
  Prog.run (Dev.step L.fs) (Prog.interp (StoreOp.lower L.fs) p) d

/-- A run on the decoded store is a run on the disk. -/
theorem exec_of_run (h : L.Ok) {v' : Store} {a : α} (hd : L.Mounted d)
    (hrun : run (step L) p (d.store L) = (a, v')) (hw : v'.wild = false) :
    (d.exec L p).1 = a ∧ L.Mounted (d.exec L p).2 ∧ (d.exec L p).2.store L = v' := by
  have := run_lower h p d (d.store L) ⟨hd, rfl⟩ (by rw [hrun]; exact hw)
  rw [hrun] at this
  exact ⟨this.1, this.2.1, this.2.2⟩

theorem Disk.exec_bind (p : Drv α) (f : α → Drv β) (d : Disk) :
    d.exec L (p >>= f) = (d.exec L p).2.exec L (f (d.exec L p).1) := by
  simp only [Disk.exec, run_interp, run_bind]

/-- A first part that the store describes; of the rest nothing is said. -/
theorem exec_seq (h : L.Ok) {R : α → Store → Prop} (hd : L.Mounted d)
    (hp : wp (step L) p (fun a v' => v'.wild = false ∧ R a v') (d.store L))
    (hf : ∀ a d', L.Mounted d' → R a (d'.store L) → Q (d'.exec L (f a))) : Q (d.exec L (p >>= f)) := by
  obtain ⟨h1, h2, h3⟩ := exec_of_run h hd rfl hp.1
  rw [Disk.exec_bind, h1]
  exact hf _ _ h2 (by rw [h3]; exact hp.2)

/-- A first part that only reads. -/
theorem exec_read (h : L.Ok) {v : Store} {a : α}
    (hd : L.Mounted d ∧ d.store L = v) (hrun : run (step L) p v = (a, v)) (hw : v.wild = false)
    (hf : ∀ d', L.Mounted d' ∧ d'.store L = v → Q (d'.exec L (f a))) : Q (d.exec L (p >>= f)) := by
  obtain ⟨hm, rfl⟩ := hd
  refine exec_seq h hm (R := fun b v' => b = a ∧ v' = d.store L) (wp_of_run hrun ⟨hw, rfl, rfl⟩) ?_
  rintro _ d' hd' ⟨rfl, hs⟩
  exact hf d' ⟨hd', hs⟩

end PureUnix.Ext2
