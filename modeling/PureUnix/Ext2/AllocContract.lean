import PureUnix.Ext2.Sample

/-!
# The allocator's contract (`fs/ext2/alloc.h`)

Runs of the four allocator functions in any order (`AllocRun`). `exact_call` is the step lemma,
`exact_run` the run lemma: exact accounts stay exact. `AllocBlockSpec` and `AllocInodeSpec` are what
a caller may expect of one allocation; they hold in every state a run reaches
(`accounting_exact`).
-/
namespace PureUnix.Ext2
open Lib Nat Function
open Disk
open Layout.Ok

variable {val : Bool} {i : Nat}

/-! ## Runs of the allocator -/

inductive AllocCall where
  | allocBlock
  | freeBlock (b : Nat)
  | allocInode (isDir : Bool)
  | freeInode (ino : Nat) (isDir : Bool)

namespace AllocCall

def exec (fs : Fs) (d : Disk) : AllocCall → Disk
  | .allocBlock => (Prog.run (Dev.step fs) (Ext2.allocBlock fs) d).2
  | .freeBlock b => (Prog.run (Dev.step fs) (Ext2.freeBlock fs b) d).2
  | .allocInode isDir => (Prog.run (Dev.step fs) (Ext2.allocInode fs isDir) d).2
  | .freeInode ino isDir => (Prog.run (Dev.step fs) (Ext2.freeInode fs ino isDir) d).2

/-- The inodes last allocated with `is_dir`. -/
def mark (fs : Fs) (d : Disk) (dirs : Nat → Bool) : AllocCall → Nat → Bool
  | .allocInode isDir =>
    match (Prog.run (Dev.step fs) (Ext2.allocInode fs isDir) d).1 with
    | none => dirs
    | some ino => update dirs ino isDir
  | _ => dirs

/-- Blocks to free are in range and no metadata; an inode in use is freed with the flag it was
allocated with. -/
def Allowed (L : Layout) (d : Disk) (dirs : Nat → Bool) : AllocCall → Prop
  | .freeBlock b => b < L.totalBlocks ∧ ¬ L.Meta b
  | .freeInode ino isDir => L.ValidIno ino →
    d.inodeBit L (L.groupOfIno ino) (L.indexOfIno ino) = true → isDir = dirs ino
  | _ => True

end AllocCall

/-- `AllocRun L d dirs d' dirs'`: some sequence of allowed calls leads from `d` to `d'`. -/
inductive AllocRun (L : Layout) (d : Disk) (dirs : Nat → Bool) : Disk → (Nat → Bool) → Prop where
  | refl : AllocRun L d dirs d dirs
  | call (c : AllocCall) {d' : Disk} {dirs' : Nat → Bool} : AllocRun L d dirs d' dirs' →
    c.Allowed L d' dirs' → AllocRun L d dirs (c.exec L.fs d') (c.mark L.fs d' dirs')

/-- Every bitmap bit and every copy of every counter is as in `d`. -/
structure Restored (L : Layout) (d d' : Disk) : Prop where
  bits : ∀ g i, g < L.numGroups → i < 8 * L.blockSize →
    d'.blockBit L g i = d.blockBit L g i ∧ d'.inodeBit L g i = d.inodeBit L g i
  bgdt : d'.bgdt = d.bgdt
  written : ∀ k, k < L.bgdtBlocks → d'.block L.fs (L.bgdtBlock + k) = d.block L.fs (L.bgdtBlock + k)
  super : d'.superFreeBlocks = d.superFreeBlocks ∧ d'.superFreeInodes = d.superFreeInodes

section
variable {L : Layout} {d : Disk} (h : L.Ok) {dirs : Nat → Bool} (hE : d.Exact L dirs) {g b ino : Nat} {f : Buf → Nat → Buf}
include h hE

theorem exact_call (c : AllocCall) (ha : c.Allowed L d dirs) : (c.exec L.fs d).Exact L (c.mark L.fs d dirs) := by
  cases c with
  | allocBlock =>
    have hdata : ∀ g b, (d.store L).nextBlock L = some (g, b) → L.Data b := fun g b hb =>
      (nextBlock_spec h hE hb).1
    simp only [AllocCall.exec, AllocCall.mark, run_allocBlock h hE.mounted hdata]
    cases hb : (d.store L).nextBlock L with
    | none => exact hE
    | some gb =>
      obtain ⟨h1, -, -, h4⟩ := nextBlock_spec h hE hb
      exact exact_takeBlock h hE h1 h4
  | freeBlock b =>
    simp only [AllocCall.exec, AllocCall.mark, run_freeBlock h hE.mounted]
    split
    · exact hE
    · rename_i hc
      simp only [not_or, not_lt, not_le, Bool.not_eq_false] at hc
      exact exact_dropBlock h hE ⟨hc.1, ha.1, ha.2⟩ hc.2.2
  | allocInode isDir =>
    simp only [AllocCall.exec, AllocCall.mark, run_allocInode h hE.mounted]
    cases hi : (d.store L).nextInode L with
    | none => exact hE
    | some gi =>
      obtain ⟨h1, -, h3⟩ := nextInode_spec h hi
      exact exact_takeInode h hE h1 h3 isDir
  | freeInode ino isDir =>
    simp only [AllocCall.exec, AllocCall.mark, run_freeInode h hE.mounted]
    split
    · exact hE
    rename_i hc
    simp only [not_or, Decidable.not_not, Bool.not_eq_false] at hc
    rw [ha hc.1 (inodeUsed_store hc.1 ▸ hc.2)]
    exact exact_dropInode h hE hc.1 hc.2

omit hE in
/-- Run lemma: exact accounts stay exact. -/
theorem exact_run {d₀ : Disk} {dirs₀ : Nat → Bool} (h0 : d₀.Exact L dirs₀) {d : Disk} {dirs : Nat → Bool}
    (hr : AllocRun L d₀ dirs₀ d dirs) : d.Exact L dirs := by
  induction hr with
  | refl => exact h0
  | call c _ ha ih => exact exact_call h ih c ha

/-! ## Taking and giving back -/

omit hE in
theorem bits_setBlock (hb : L.Loose b) (X : Buf) (hg : g < L.numGroups) (i : Nat) :
    (d.setBlock L.fs b X).blockBit L g i = d.blockBit L g i ∧ (d.setBlock L.fs b X).inodeBit L g i = d.inodeBit L g i := by
  obtain ⟨e1, e2⟩ := hb.bitmaps h X hg
  exact ⟨by rw [blockBit, e1]; rfl, by rw [inodeBit, e2]; rfl⟩

omit hE in
theorem bits_editBlockBit (hf : BitEdit f val) (hd : L.Data b)
    (count : Nat) (δ : Int) (hg : g < L.numGroups) (hi : i < 8 * L.blockSize) :
    (d.editBlockBit L f b count δ).blockBit L g i = (if g = L.groupOf b ∧ i = L.indexOf b then val else d.blockBit L g i) ∧
      (d.editBlockBit L f b count δ).inodeBit L g i = d.inodeBit L g i := by
  have hgb := h.groupOf_lt hd.2.1
  have hv : L.Valid (.blockBitmap (L.groupOf b)) := hgb
  have hv' : L.Valid (.inodeBitmap g) := hg
  refine ⟨blockBit_edit h hf hgb count δ hg hi, ?_⟩
  rw [inodeBit, Disk.editBlockBit, block_commit_meta h hv (within_blockBitmap _) hv' (within_inodeBitmap g) (by simp)]
  rfl

omit hE in
theorem bits_editInodeBit (hf : BitEdit f val) (hn : L.ValidIno ino) (B : Buf) (ε : Int) (hg : g < L.numGroups)
    (hi : i < 8 * L.blockSize) :
    (d.editInodeBit L f ino B ε).blockBit L g i = d.blockBit L g i ∧ (d.editInodeBit L f ino B ε).inodeBit L g i =
        (if g = L.groupOfIno ino ∧ i = L.indexOfIno ino then val else d.inodeBit L g i) := by
  have hgi := h.inoGroup_lt hn
  have hv : L.Valid (.inodeBitmap (L.groupOfIno ino)) := hgi
  have hv' : L.Valid (.blockBitmap g) := hg
  refine ⟨?_, inodeBit_edit h hf hgi B ε hg hi⟩
  rw [blockBit, Disk.editInodeBit, block_commit_meta h hv (within_inodeBitmap _) hv' (within_blockBitmap g) (by simp)]
  rfl

omit h in
theorem restored_of_bits {dirs' : Nat → Bool} {d' : Disk} (hE' : d'.Exact L dirs') (hb : d'.bgdt = d.bgdt)
    (bits : ∀ g i, g < L.numGroups → i < 8 * L.blockSize →
      d'.blockBit L g i = d.blockBit L g i ∧ d'.inodeBit L g i = d.inodeBit L g i) : Restored L d d' where
  bits := bits
  bgdt := hb
  written := fun k hk => by rw [hE'.written k hk, hE.written k hk, hb]
  super := ⟨by rw [hE'.superBlocks, hb, ← hE.superBlocks], by rw [hE'.superInodes, hb, ← hE.superInodes]⟩

omit hE in
theorem bits_takeBlock (hd : L.Data b) (hg : g < L.numGroups) (hi : i < 8 * L.blockSize) : (d.takeBlock L b).blockBit L g i =
      (if g = L.groupOf b ∧ i = L.indexOf b then true else d.blockBit L g i) ∧
    (d.takeBlock L b).inodeBit L g i = d.inodeBit L g i := by
  obtain ⟨e1, e2⟩ := bits_setBlock h hd.loose zeros hg i
  obtain ⟨e3, e4⟩ := bits_editBlockBit h setBit_edit hd (bgFreeBlocksCount d.bgdt (L.groupOf b) - 1) (-1) hg hi
  exact ⟨e1.trans e3, e2.trans e4⟩

theorem restored_block (hd : L.Data b) (hu : (d.store L).blockUsed b = false) :
    ((d.takeBlock L b).store L).blockUsed b = true ∧ Restored L d ((d.takeBlock L b).dropBlock L b) := by
  have hg := h.groupOf_lt hd.2.1
  have hct := count_take h hE hd hu
  have hlt : bgFreeBlocksCount d.bgdt (L.groupOf b) < 65536 := get16_lt _ _
  have hbu := blockUsed_store (d := d) h hd.1 hd.2.1
  have hE1 := exact_takeBlock h hE hd hu
  have hix : L.indexOf b < 8 * L.blockSize := by
    have := h.indexOf_lt b
    have := h.blocksPerGroup.2
    omega
  have hu1 : ((d.takeBlock L b).store L).blockUsed b = true := by
    rw [blockUsed_store h hd.1 hd.2.1, (bits_takeBlock h hd hg hix).1, if_pos ⟨rfl, rfl⟩]
  have hE2 := exact_dropBlock h hE1 hd hu1
  have hb1 : (d.takeBlock L b).bgdt = put16 d.bgdt (L.groupOf b * 32 + 12) (bgFreeBlocksCount d.bgdt (L.groupOf b) - 1) := rfl
  have hb2 : ((d.takeBlock L b).dropBlock L b).bgdt = d.bgdt := by
    have hc : bgFreeBlocksCount (d.takeBlock L b).bgdt (L.groupOf b) + 1 = bgFreeBlocksCount d.bgdt (L.groupOf b) := by
      rw [hb1, bgFreeBlocksCount, get16_put16]
      omega
    change put16 (d.takeBlock L b).bgdt (L.groupOf b * 32 + 12) _ = d.bgdt
    rw [hc, hb1, put16_put16]
    exact put16_get16 _ _
  refine ⟨hu1, restored_of_bits hE hE2 hb2 fun g i hg' hi' => ?_⟩
  obtain ⟨e1, e2⟩ := bits_editBlockBit h clearBit_edit hd (bgFreeBlocksCount (d.takeBlock L b).bgdt (L.groupOf b) + 1) 1 hg' hi'
  obtain ⟨e3, e4⟩ := bits_takeBlock h hd hg' hi'
  refine ⟨e1.trans ?_, e2.trans e4⟩
  split
  · rename_i e
    rw [e.1, e.2, ← hbu, hu]
  · rename_i e
    rw [e3, if_neg e]

omit h hE in
theorem bgdtFreeInode_alloc {B : Buf} (isDir : Bool) (hc : 0 < bgFreeInodesCount B g) (hd : bgUsedDirsCount B g + 1 < 65536) :
    bgdtFreeInode (bgdtAllocInode B g isDir) g isDir = B := by
  have hlt : bgFreeInodesCount B g < 65536 := get16_lt _ _
  have hcnt : bgFreeInodesCount (bgdtAllocInode B g isDir) g + 1 = bgFreeInodesCount B g := by
    rw [(countersOnly_alloc B g isDir).2, mod_eq_of_lt (by omega)]
    omega
  have hused := usedDirs_alloc B g g isDir
  unfold bgdtFreeInode
  simp only [usedDirs_put16, hcnt, hused]
  cases isDir with
  | false =>
    simp only [bgdtAllocInode, Bool.false_eq_true, if_false, false_and, put16_put16]
    exact put16_get16 _ _
  | true =>
    simp only [and_self, if_true, true_and, Nat.mod_eq_of_lt hd]
    rw [if_pos (by omega), Nat.add_sub_cancel]
    simp only [bgdtAllocInode, if_true]
    rw [put16_comm _ _ _ (by omega), put16_put16, put16_comm _ _ _ (by omega), put16_put16]
    have e1 : put16 B (g * 32 + 14) (bgFreeInodesCount B g) = B := put16_get16 _ _
    have e2 : put16 B (g * 32 + 16) (bgUsedDirsCount B g) = B := put16_get16 _ _
    rw [e1, e2]

theorem restored_inode (hi : L.ValidIno ino) (hu : (d.store L).inodeUsed ino = false)
    (isDir : Bool) : ((d.takeInode L ino isDir).store L).inodeUsed ino = true ∧
      Restored L d ((d.takeInode L ino isDir).dropInode L ino isDir) := by
  have hg := h.inoGroup_lt hi
  have hct := count_takeInode h hE hi hu
  have hcap := inodesPerGroup_le h
  have hE1 := exact_takeInode h hE hi hu isDir
  have hB := (countersOnly_alloc d.bgdt (L.groupOfIno ino) isDir).1
  have hu1 : ((d.takeInode L ino isDir).store L).inodeUsed ino = true := by
    rw [Disk.takeInode, store_editInodeBit h setBit_edit hi hB]
    exact update_self _ _ _
  have hE2 := exact_dropInode h hE1 hi hu1
  rw [update_self] at hE2
  have hdirs : bgUsedDirsCount d.bgdt (L.groupOfIno ino) ≤ L.inodesPerGroup := by
    rw [hE.usedDirs _ hg, dirInodes_eq h]; exact markedIn_le
  have hb2 : ((d.takeInode L ino isDir).dropInode L ino isDir).bgdt = d.bgdt :=
    bgdtFreeInode_alloc isDir (by omega) (by omega)
  refine ⟨hu1, restored_of_bits hE hE2 hb2 fun g i hg' hi' => ?_⟩
  obtain ⟨e3, e4⟩ := bits_editInodeBit h clearBit_edit hi
    (bgdtFreeInode (d.takeInode L ino isDir).bgdt (L.groupOfIno ino) isDir) 1 hg' hi'
  obtain ⟨e1, e2⟩ : ((d.takeInode L ino isDir).dropInode L ino isDir).blockBit L g i = _ ∧ _ = _ :=
    bits_setBlock h (slot_loose h hi) _ hg' i
  obtain ⟨e5, e6⟩ := bits_editInodeBit h setBit_edit hi (bgdtAllocInode d.bgdt (L.groupOfIno ino) isDir) (-1) hg' hi'
  refine ⟨e1.trans (e3.trans e5), (e2.trans e4).trans ?_⟩
  split
  · rename_i e
    rw [e.1, e.2, ← inodeUsed_store hi, hu]
  · rename_i e
    exact e6.trans (if_neg e)

end

/-! ## The contract of `alloc.h` -/

/-- `ext2_alloc_block` on `d`: it fails only when no valid bit is zero; otherwise the answer was free
and in range, its bit is the one bit changed, and freeing it restores every bitmap and counter. -/
def AllocBlockSpec (L : Layout) (d : Disk) : Prop :=
  match Prog.run (Dev.step L.fs) (allocBlock L.fs) d with
  | (none, d') => d' = d ∧ ∀ b, L.firstDataBlock ≤ b → b < L.totalBlocks →
      d.blockBit L (L.groupOf b) (L.indexOf b) = true
  | (some b, d') => L.firstDataBlock ≤ b ∧ b < L.totalBlocks ∧
      d.blockBit L (L.groupOf b) (L.indexOf b) = false ∧
      (∀ g i, g < L.numGroups → i < 8 * L.blockSize →
        d'.blockBit L g i = (if g = L.groupOf b ∧ i = L.indexOf b then true else d.blockBit L g i) ∧
        d'.inodeBit L g i = d.inodeBit L g i) ∧
      Restored L d (Prog.run (Dev.step L.fs) (freeBlock L.fs b) d').2

/-- The same for `ext2_alloc_inode`. -/
def AllocInodeSpec (L : Layout) (d : Disk) (isDir : Bool) : Prop :=
  match Prog.run (Dev.step L.fs) (allocInode L.fs isDir) d with
  | (none, d') => d' = d ∧ ∀ ino, L.ValidIno ino →
      d.inodeBit L (L.groupOfIno ino) (L.indexOfIno ino) = true
  | (some ino, d') => L.ValidIno ino ∧
      d.inodeBit L (L.groupOfIno ino) (L.indexOfIno ino) = false ∧
      (∀ g i, g < L.numGroups → i < 8 * L.blockSize → d'.blockBit L g i = d.blockBit L g i ∧ d'.inodeBit L g i =
          (if g = L.groupOfIno ino ∧ i = L.indexOfIno ino then true else d.inodeBit L g i)) ∧
      Restored L d (Prog.run (Dev.step L.fs) (freeInode L.fs ino isDir) d').2

section
variable {L : Layout} {d : Disk} (h : L.Ok) {dirs : Nat → Bool} (hE : d.Exact L dirs)
include h hE

theorem allocBlock_spec : AllocBlockSpec L d := by
  have hdata : ∀ g b, (d.store L).nextBlock L = some (g, b) → L.Data b := fun g b hb =>
    (nextBlock_spec h hE hb).1
  unfold AllocBlockSpec
  rw [run_allocBlock h hE.mounted hdata]
  cases hb : (d.store L).nextBlock L with
  | none =>
    refine ⟨rfl, fun b h1 h2 => ?_⟩
    rw [← blockUsed_store h h1 h2]
    exact nextBlock_none h hE hb h1 h2
  | some gb =>
    obtain ⟨g, b⟩ := gb
    obtain ⟨hd, rfl, hg, hu⟩ := nextBlock_spec h hE hb
    obtain ⟨hu1, hres⟩ := restored_block h hE hd hu
    refine ⟨hd.1, hd.2.1, by rw [← blockUsed_store h hd.1 hd.2.1]; exact hu, fun g i hg' hi' => bits_takeBlock h hd hg' hi', ?_⟩
    rw [run_freeBlock h (exact_takeBlock h hE hd hu).mounted, if_neg (by
      rw [hu1]
      have := hd.1
      simp only [not_or]
      exact ⟨by omega, by omega, by simp⟩)]
    exact hres

theorem allocInode_spec (isDir : Bool) : AllocInodeSpec L d isDir := by
  unfold AllocInodeSpec
  rw [run_allocInode h hE.mounted]
  cases hb : (d.store L).nextInode L with
  | none =>
    refine ⟨rfl, fun ino hi => ?_⟩
    rw [← inodeUsed_store hi]
    exact nextInode_none h hE hb hi
  | some gi =>
    obtain ⟨g, ino⟩ := gi
    obtain ⟨hi, rfl, hu⟩ := nextInode_spec h hb
    obtain ⟨hu1, hres⟩ := restored_inode h hE hi hu isDir
    refine ⟨hi, by rw [← inodeUsed_store hi]; exact hu, fun g i hg' hi' =>
      bits_editInodeBit h setBit_edit hi _ _ hg' hi', ?_⟩
    rw [run_freeInode h (exact_takeInode h hE hi hu isDir).mounted, if_neg (by simp [hi, hu1])]
    exact hres

end

/-- **Exact accounting.** From an image whose accounts are exact, in every state a sequence of
allocator calls reaches: the accounts are exact (each group counter is the number of zero valid
bits, the descriptor table on disk is the one in memory, the superblock holds the sums), both
allocators meet their contract, and freeing a number that is already free changes nothing. -/
theorem accounting_exact {L : Layout} (h : L.Ok) {d₀ d : Disk} {dirs₀ dirs : Nat → Bool}
    (h0 : d₀.Exact L dirs₀) (hr : AllocRun L d₀ dirs₀ d dirs) :
    d.Exact L dirs ∧ AllocBlockSpec L d ∧ (∀ isDir, AllocInodeSpec L d isDir) ∧
      (∀ b, L.firstDataBlock ≤ b → b < L.totalBlocks → d.blockBit L (L.groupOf b) (L.indexOf b) = false →
        (Prog.run (Dev.step L.fs) (freeBlock L.fs b) d).2 = d) ∧
      (∀ ino isDir, L.ValidIno ino → d.inodeBit L (L.groupOfIno ino) (L.indexOfIno ino) = false →
        (Prog.run (Dev.step L.fs) (freeInode L.fs ino isDir) d).2 = d) := by
  have hE := exact_run h h0 hr
  refine ⟨hE, allocBlock_spec h hE, allocInode_spec h hE, fun b h1 h2 hb => ?_, fun ino isDir hi hb => ?_⟩
  · rw [run_freeBlock h hE.mounted, if_pos (.inr (.inr (by rw [blockUsed_store h h1 h2]; exact hb)))]
  · rw [run_freeInode h hE.mounted, if_pos (.inr ((inodeUsed_store hi).trans hb))]

/-- A fresh 16-block image: metadata and inode 1 in use. -/
def freshStore : Store := Store.prefixed (oneGroup 1024 16 16 8) 6 1 (fun _ => Inode.empty) fun _ => zeros

/-- The theorem at the fresh image after one block and one directory inode have been taken. -/
theorem accounting_exact_fresh :
    let L := oneGroup 1024 16 16 8
    let d₀ := freshStore.encode L fun _ => false
    let d := AllocCall.exec L.fs d₀ .allocBlock
    d₀.Exact L (fun _ => false) ∧ AllocBlockSpec L (AllocCall.exec L.fs d (.allocInode true)) := by
  have hok : (oneGroup 1024 16 16 8).Ok := oneGroup_ok (.inl rfl) (by decide) (by decide)
  have h0 : (freshStore.encode (oneGroup 1024 16 16 8) fun _ => false).Exact (oneGroup 1024 16 16 8) fun _ => false :=
    exact_encode hok _ (prefixed_representable (.inl rfl) (by decide) (by decide) (by decide) (by decide))
      (prefixed_exact (.inl rfl) (by decide) (by decide) (by decide))
  have hrun : AllocRun (oneGroup 1024 16 16 8) (freshStore.encode (oneGroup 1024 16 16 8) fun _ => false)
      (fun _ => false) _ _ := .call (.allocInode true) (.call .allocBlock .refl trivial) trivial
  exact ⟨h0, (accounting_exact hok h0 hrun).2.1⟩

end PureUnix.Ext2
