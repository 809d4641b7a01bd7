import Mathlib.Algebra.BigOperators.Group.Finset.Piecewise
import Mathlib.Algebra.Order.BigOperators.Group.Finset
import PureUnix.Ext2.Refine

/-!
# Free-space accounting (`fs/ext2/alloc.c`, `fs/ext2/super.c`)

Each free count is kept three times: as zero bits of a bitmap, as a 16-bit group counter in the
descriptor table (in memory and on disk), and as a 32-bit superblock counter. `Disk.Exact` says that
all copies agree. The scan of `alloc.c` skips a group whose counter is zero, so its answer is right
only because of this agreement.

`dirs` remembers for which inodes `ext2_alloc_inode` was told `is_dir`; `bg_used_dirs_count` counts
those in use.

A bitmap edit keeps the accounts when the counters stored with it are the new numbers of zero bits
(`exact_editBlockBit`, `exact_editInodeBit`); the four state changes of the allocator are instances.
-/
namespace PureUnix.Ext2
open Lib Nat
open Disk
open Layout.Ok
open Finset

variable {dirs : Nat → Bool} {val : Bool}

namespace Disk

def blockBit (L : Layout) (d : Disk) (g i : Nat) : Bool := bit (d.block L.fs (L.blockBitmap g)) i

def inodeBit (L : Layout) (d : Disk) (g i : Nat) : Bool := bit (d.block L.fs (L.inodeBitmap g)) i

/-- Zero bits among the valid bits of group `g`'s block bitmap: bit `i` stands for block
`first_data_block + g * blocks_per_group + i`. -/
def zeroBlocks (L : Layout) (d : Disk) (g : Nat) : Nat :=
  Nat.count (fun i => L.firstDataBlock + g * L.blocksPerGroup + i < L.totalBlocks ∧
    d.blockBit L g i = false) L.blocksPerGroup

/-- Zero bits among the valid bits of group `g`'s inode bitmap: bit `i` stands for inode
`g * inodes_per_group + i + 1`. -/
def zeroInodes (L : Layout) (d : Disk) (g : Nat) : Nat :=
  Nat.count (fun i => g * L.inodesPerGroup + 1 + i < L.totalInodes + 1 ∧ d.inodeBit L g i = false) L.inodesPerGroup

/-- Inodes of group `g` in use that were allocated as directories. -/
def dirInodes (L : Layout) (dirs : Nat → Bool) (d : Disk) (g : Nat) : Nat :=
  Nat.count (fun i => g * L.inodesPerGroup + 1 + i < L.totalInodes + 1 ∧
    d.inodeBit L g i = true ∧ dirs (g * L.inodesPerGroup + 1 + i) = true) L.inodesPerGroup

/-- The superblock's `s_free_blocks_count`. -/
def superFreeBlocks (d : Disk) : Nat := get32 d.bytes 1036
/-- The superblock's `s_free_inodes_count`. -/
def superFreeInodes (d : Disk) : Nat := get32 d.bytes 1040

/-- All copies of the free counts agree, and metadata blocks are marked used. -/
structure Exact (L : Layout) (dirs : Nat → Bool) (d : Disk) : Prop where
  mounted : L.Mounted d
  metaUsed : ∀ b, L.firstDataBlock ≤ b → L.Meta b → d.blockBit L (L.groupOf b) (L.indexOf b) = true
  freeBlocks : ∀ g, g < L.numGroups → bgFreeBlocksCount d.bgdt g = d.zeroBlocks L g
  freeInodes : ∀ g, g < L.numGroups → bgFreeInodesCount d.bgdt g = d.zeroInodes L g
  usedDirs : ∀ g, g < L.numGroups → bgUsedDirsCount d.bgdt g = d.dirInodes L dirs g
  /-- The descriptor table on disk is the one in memory. -/
  written : ∀ k, k < L.bgdtBlocks → d.block L.fs (L.bgdtBlock + k) =
    trunc L.blockSize fun i => d.bgdt (k * L.blockSize + i)
  superBlocks : d.superFreeBlocks = ∑ g ∈ Finset.range L.numGroups, bgFreeBlocksCount d.bgdt g
  superInodes : d.superFreeInodes = ∑ g ∈ Finset.range L.numGroups, bgFreeInodesCount d.bgdt g

end Disk

/-! ## Reading the counts off the decoded store -/

section
variable {L : Layout} {d : Disk} (h : L.Ok) {b g ino n i : Nat} {f : Nat → Nat}
include h

theorem zeroBlocks_eq (hg : g < L.numGroups) : d.zeroBlocks L g =
    freeIn (d.store L).blockUsed (L.firstDataBlock + g * L.blocksPerGroup) L.blocksPerGroup L.totalBlocks := by
  apply count_congr
  intro i hi
  obtain ⟨e1, e2⟩ := h.groupOf_mk (g := g) hi
  have hle : L.firstDataBlock ≤ L.firstDataBlock + g * L.blocksPerGroup + i := by omega
  simp only [Disk.blockBit, store, e1, e2, hg, hle, decide_true, Bool.true_and]

theorem inodeUsed_mk (hi : i < L.inodesPerGroup) (hlim : g * L.inodesPerGroup + 1 + i < L.totalInodes + 1) :
    (d.store L).inodeUsed (g * L.inodesPerGroup + 1 + i) = d.inodeBit L g i := by
  obtain ⟨e1, e2⟩ := h.inoGroup_mk (g := g) hi
  have hv : L.ValidIno (g * L.inodesPerGroup + 1 + i) := ⟨by omega, by omega⟩
  simp only [Disk.inodeBit, store, e1, e2, hv, decide_true, Bool.true_and]

theorem zeroInodes_eq (g : Nat) : d.zeroInodes L g =
    freeIn (d.store L).inodeUsed (g * L.inodesPerGroup + 1) L.inodesPerGroup (L.totalInodes + 1) := by
  refine count_congr fun i hi => and_congr_right fun hlim => ?_
  rw [inodeUsed_mk h hi hlim]

theorem dirInodes_eq (dirs : Nat → Bool) (g : Nat) : d.dirInodes L dirs g =
    markedIn (d.store L).inodeUsed dirs (g * L.inodesPerGroup + 1) L.inodesPerGroup (L.totalInodes + 1) := by
  refine count_congr fun i hi => and_congr_right fun hlim => ?_
  rw [inodeUsed_mk h hi hlim]

theorem ino_range (hi : L.ValidIno ino) : L.groupOfIno ino * L.inodesPerGroup + 1 ≤ ino ∧
    ino < L.groupOfIno ino * L.inodesPerGroup + 1 + L.inodesPerGroup ∧ ino < L.totalInodes + 1 := by
  have hix := ino_eq_mk (L := L) hi.1
  have hil := h.inoIndex_lt ino
  have hle := hi.2
  omega

omit h in
theorem freeBlocks_store (hg : g < L.numGroups) : (d.store L).freeBlocks g = bgFreeBlocksCount d.bgdt g := by simp [store, hg]

omit h in
theorem freeInodes_store (hg : g < L.numGroups) : (d.store L).freeInodes g = bgFreeInodesCount d.bgdt g := by simp [store, hg]

theorem blockUsed_store (h1 : L.firstDataBlock ≤ b) (h2 : b < L.totalBlocks) :
    (d.store L).blockUsed b = d.blockBit L (L.groupOf b) (L.indexOf b) := by
  simp [store, Disk.blockBit, h1, h.groupOf_lt h2]

omit h in
theorem inodeUsed_store (hi : L.ValidIno ino) : (d.store L).inodeUsed ino = d.inodeBit L (L.groupOfIno ino) (L.indexOfIno ino) := by
  simp [store, Disk.inodeBit, hi]

theorem super_setBlock (hb : b < L.totalBlocks) (hne : b ≠ 1024 / L.blockSize) (X : Buf) :
    (d.setBlock L.fs b X).superFreeBlocks = d.superFreeBlocks ∧ (d.setBlock L.fs b X).superFreeInodes = d.superFreeInodes := by
  have hsup := super_range h
  have hsep := h.base_sep hb (super_inside h) hne
  rw [h.base_eq (super_inside h)] at hsep
  have hs : Same 1024 2048 (d.setBlock L.fs b X).bytes d.bytes := copy_same (by omega)
  exact ⟨get32_congr (hs.mono (by omega) (by omega)), get32_congr (hs.mono (by omega) (by omega))⟩

theorem blocks_cap : L.numGroups * L.blocksPerGroup < 4294967296 := by
  have h2 : L.numGroups * L.blocksPerGroup ≤ L.totalBlocks + L.blocksPerGroup - 1 := by
    rw [h.numGroups]; exact div_mul_le_self _ _
  have h3 := h.total_le
  have h4 := h.blocksPerGroup
  have h5 := h.bs_le
  omega

omit h in
theorem sum_update {v : Nat} (hi : i < n) : ∑ g ∈ range n, update f i v g + f i = ∑ g ∈ range n, f g + v := by
  have hm : i ∈ range n := mem_range.2 hi
  rw [sum_update_of_mem hm, ← add_sum_erase _ f hm, sdiff_singleton_eq_erase]
  omega

omit h in
/-- A sum of per-group counts with room in one group can be counted up in 32 bits. -/
theorem sum_succ_lt {per : Nat} (hcap : n * per < 4294967296) (hf : ∀ g, g < n → f g ≤ per) (hi : i < n) (hroom : f i < per) :
    ∑ g ∈ range n, f g + 1 < 4294967296 := by
  have hsum := sum_update (v := f i + 1) (f := f) hi
  have hle : ∑ g ∈ range n, update f i (f i + 1) g ≤ n * per := by
    refine (sum_le_card_nsmul (range n) _ per fun g hg => ?_).trans (by simp)
    by_cases e : g = i
    · subst e; rw [update_self]; exact hroom
    · rw [update_of_ne e]; exact hf g (mem_range.1 hg)
  omega

/-! ## Writes that leave the accounts alone -/

omit h in
theorem Disk.Exact.of_congr {d' : Disk} (hE : d.Exact L dirs) (hb : d'.bgdt = d.bgdt)
    (hbit : ∀ g, g < L.numGroups → d'.block L.fs (L.blockBitmap g) = d.block L.fs (L.blockBitmap g) ∧
      d'.block L.fs (L.inodeBitmap g) = d.block L.fs (L.inodeBitmap g))
    (hw : ∀ k, k < L.bgdtBlocks → d'.block L.fs (L.bgdtBlock + k) = d.block L.fs (L.bgdtBlock + k))
    (hs : d'.superFreeBlocks = d.superFreeBlocks ∧ d'.superFreeInodes = d.superFreeInodes)
    (hg : ∀ b, L.Meta b → L.groupOf b < L.numGroups) : d'.Exact L dirs where
  mounted := fun g hg => by rw [hb]; exact hE.mounted g hg
  metaUsed := fun b h1 h2 => by rw [Disk.blockBit, (hbit _ (hg b h2)).1]; exact hE.metaUsed b h1 h2
  freeBlocks := fun g hg => by
    rw [hb, hE.freeBlocks g hg]
    exact count_congr fun i _ => by simp only [Disk.blockBit, (hbit g hg).1]
  freeInodes := fun g hg => by
    rw [hb, hE.freeInodes g hg]
    exact count_congr fun i _ => by simp only [Disk.inodeBit, (hbit g hg).2]
  usedDirs := fun g hg => by
    rw [hb, hE.usedDirs g hg]
    exact count_congr fun i _ => by simp only [Disk.inodeBit, (hbit g hg).2]
  written := fun k hk => by rw [hw k hk, hb]; exact hE.written k hk
  superBlocks := by rw [hs.1, hb]; exact hE.superBlocks
  superInodes := by rw [hs.2, hb]; exact hE.superInodes

theorem groupOf_meta (hb : L.Meta b) : L.groupOf b < L.numGroups := by
  obtain ⟨r, hr, hw⟩ := hb
  exact h.groupOf_lt (h.inside r b hr hw)

omit h in
theorem within_super : L.Within .super (1024 / L.blockSize) :=
  ⟨le_refl _, by simp [Layout.len, Layout.start]⟩

omit h in
theorem within_bgdt {k : Nat} (hk : k < L.bgdtBlocks) : L.Within .bgdt (L.bgdtBlock + k) :=
  ⟨le_add_right _ _, by simp only [Layout.start, Layout.len]; omega⟩

/-- A block that is none of bitmaps, descriptor table and superblock. -/
def Layout.Loose (L : Layout) (b : Nat) : Prop :=
  b < L.totalBlocks ∧ ∀ r c, L.Valid r → L.Within r c → (∀ g, r ≠ .inodeTable g) → b ≠ c

omit h in
theorem Layout.Data.loose (hd : L.Data b) : L.Loose b := ⟨hd.2.1, fun _ _ hr hw _ => Ne.symm (Layout.Ok.data_ne_meta hr hw hd)⟩

theorem slot_loose (hi : L.ValidIno ino) :
    L.Loose (L.inodeTable (L.groupOfIno ino) + L.indexOfIno ino * L.inodeSize / L.blockSize) := by
  have hv : L.Valid (.inodeTable (L.groupOfIno ino)) := h.inoGroup_lt hi
  have hw := h.slot_within hi
  exact ⟨h.inside _ _ hv hw, fun r c hr hc hne => h.region_ne hv hr hw hc (Ne.symm (hne _))⟩

section
variable (hb : L.Loose b)
include hb

theorem Layout.Loose.bitmaps (X : Buf) (hg : g < L.numGroups) :
    (d.setBlock L.fs b X).block L.fs (L.blockBitmap g) = d.block L.fs (L.blockBitmap g) ∧
      (d.setBlock L.fs b X).block L.fs (L.inodeBitmap g) = d.block L.fs (L.inodeBitmap g) := by
  have hv : L.Valid (.blockBitmap g) ∧ L.Valid (.inodeBitmap g) := ⟨hg, hg⟩
  have h1 := within_blockBitmap (L := L) g
  have h2 := within_inodeBitmap (L := L) g
  exact ⟨block_setBlock_ne h hb.1 (h.inside _ _ hv.1 h1) (hb.2 _ _ hv.1 h1 (by simp)) X,
    block_setBlock_ne h hb.1 (h.inside _ _ hv.2 h2) (hb.2 _ _ hv.2 h2 (by simp)) X⟩

/-- It may be written freely. -/
theorem Disk.Exact.setBlock (hE : d.Exact L dirs) (X : Buf) : (d.setBlock L.fs b X).Exact L dirs := by
  refine hE.of_congr rfl (fun g => hb.bitmaps h X) (fun k hk => ?_) ?_ fun c hc => groupOf_meta h hc
  · exact block_setBlock_ne h hb.1 (h.inside .bgdt _ trivial (within_bgdt hk)) (hb.2 .bgdt _ trivial (within_bgdt hk) (by simp)) X
  · exact super_setBlock h hb.1 (hb.2 .super _ trivial within_super (by simp)) X

end

/-! ## Bitmap edits -/

theorem super_editCommit {r : Region} {a : Nat} (hr : L.Valid r) (ha : L.Within r a) (h1 : r ≠ .super) (X B : Buf) (δ ε : Int) :
    ((d.setBlock L.fs a X).commit L.fs B δ ε).superFreeBlocks = addDelta d.superFreeBlocks δ ∧
      ((d.setBlock L.fs a X).commit L.fs B δ ε).superFreeInodes = addDelta d.superFreeInodes ε := by
  have hsv : L.Valid .super := trivial
  have hne : a ≠ 1024 / L.blockSize := h.region_ne hr hsv ha within_super h1
  obtain ⟨e1, e2⟩ := super_commit h B δ ε
  obtain ⟨s1, s2⟩ := super_setBlock h (h.inside r a hr ha) hne X
  simp only [Disk.superFreeBlocks, Disk.superFreeInodes] at s1 s2 ⊢
  exact ⟨by rw [e1, s1], by rw [e2, s2]⟩

omit h in
theorem addDelta_zero (hn : n < 4294967296) : addDelta n 0 = n := by
  simp only [addDelta]; omega

omit h in
theorem addDelta_pred (h0 : 0 < n) (hn : n < 4294967296) : addDelta n (-1) + 1 = n := by
  simp only [addDelta]; omega

omit h in
theorem addDelta_succ (hn : n + 1 < 4294967296) : addDelta n 1 = n + 1 := by
  simp only [addDelta]; omega

/-- An edit of one data block's bit keeps the accounts when the stored counter is the new number of
zero bits and the superblock moves by the same amount. -/
theorem exact_editBlockBit (hE : d.Exact L dirs) {f : Buf → Nat → Buf}
    (hf : BitEdit f val) {count : Nat} {δ : Int} (hd : L.Data b)
    (hcount : count = freeIn (update (d.store L).blockUsed b val)
      (L.firstDataBlock + L.groupOf b * L.blocksPerGroup) L.blocksPerGroup L.totalBlocks)
    (hsup : addDelta d.superFreeBlocks δ + bgFreeBlocksCount d.bgdt (L.groupOf b) =
      d.superFreeBlocks + count) : (d.editBlockBit L f b count δ).Exact L dirs := by
  have hg := h.groupOf_lt hd.2.1
  have hv : L.Valid (.blockBitmap (L.groupOf b)) := hg
  have hw := within_blockBitmap (L := L) (L.groupOf b)
  have hs := store_editBlockBit (d := d) h hf hd.1 hg count δ
  have hm := mounted_editBlockBit hE.mounted f b count δ
  have hc : count % 65536 = count := by
    have h1 : count ≤ L.blocksPerGroup := hcount ▸ freeIn_le
    have h2 := h.blocksPerGroup.2
    have h3 := h.bs_le
    exact mod_eq_of_lt (by omega)
  have hix := block_eq_mk hd.1
  have hil := h.indexOf_lt b
  have hgc : ∀ g, g < L.numGroups → bgFreeBlocksCount (d.editBlockBit L f b count δ).bgdt g =
      update (fun g => bgFreeBlocksCount d.bgdt g) (L.groupOf b) count g := by
    intro g hg
    rw [← freeBlocks_store hg, hs, hc]
    by_cases e : g = L.groupOf b
    · subst e; simp only [update_self]
    · simp only [update_of_ne e]; exact freeBlocks_store hg
  have hgi : ∀ g, g < L.numGroups → bgFreeInodesCount (d.editBlockBit L f b count δ).bgdt g = bgFreeInodesCount d.bgdt g := by
    intro g hg
    rw [← freeInodes_store hg, hs]
    exact freeInodes_store hg
  obtain ⟨s1, s2⟩ := super_editCommit h hv hw (by simp) (f (d.block L.fs (L.blockBitmap (L.groupOf b))) (L.indexOf b))
    (put16 d.bgdt (L.groupOf b * 32 + 12) count) δ 0
  refine ⟨hm, ?_, ?_, ?_, ?_, ?_, ?_, ?_⟩
  · intro c h1 h2
    have hcb : c ≠ b := fun e => hd.2.2 (e ▸ h2)
    obtain ⟨r, hr, hw'⟩ := h2
    have ht := h.inside r c hr hw'
    rw [← blockUsed_store h h1 ht, hs]
    simp only [update_of_ne hcb]
    rw [blockUsed_store h h1 ht]
    exact hE.metaUsed c h1 ⟨r, hr, hw'⟩
  · intro g hg'
    rw [hgc g hg', zeroBlocks_eq h hg', hs]
    by_cases e : g = L.groupOf b
    · subst e; simp only [update_self]; exact hcount
    simp only [update_of_ne e]
    rw [hE.freeBlocks g hg', zeroBlocks_eq h hg', freeIn_other]
    have := mul_far e L.blocksPerGroup
    omega
  · intro g hg'
    rw [hgi g hg', hE.freeInodes g hg', zeroInodes_eq h, zeroInodes_eq h, hs]
  · intro g hg'
    rw [dirInodes_eq h, hs]
    simp only
    rw [← dirInodes_eq h, ← hE.usedDirs g hg']
    exact get16_put16_entry (by omega) (by omega) (by omega)
  · intro k hk
    exact block_commit_bgdt h _ _ _ hk
  · rw [sum_congr rfl fun g hg' => hgc g (mem_range.1 hg')]
    have hsum := sum_update (v := count) (f := fun g => bgFreeBlocksCount d.bgdt g) hg
    rw [← hE.superBlocks] at hsum
    exact add_right_cancel ((congrArg (· + _) s1).trans (hsup.trans hsum.symm))
  · rw [sum_congr rfl fun g hg' => hgi g (mem_range.1 hg'), ← hE.superInodes]
    simp only [Disk.editBlockBit, s2]
    exact addDelta_zero (get32_lt _ _)

/-- The same for one inode's bit; `B` is the descriptor table with the group's counters stored. -/
theorem exact_editInodeBit {dirs' : Nat → Bool} (hE : d.Exact L dirs) {f : Buf → Nat → Buf}
    (hf : BitEdit f val) {B : Buf} {ε : Int} (hi : L.ValidIno ino)
    (hB : CountersOnly (L.groupOfIno ino) d.bgdt B)
    (hdirs : ∀ c, c ≠ ino → dirs' c = dirs c)
    (hcount : bgFreeInodesCount B (L.groupOfIno ino) = freeIn (update (d.store L).inodeUsed ino val)
      (L.groupOfIno ino * L.inodesPerGroup + 1) L.inodesPerGroup (L.totalInodes + 1))
    (hused : ∀ g, g ≠ L.groupOfIno ino → bgUsedDirsCount B g = bgUsedDirsCount d.bgdt g)
    (hdcount : bgUsedDirsCount B (L.groupOfIno ino) = (d.editInodeBit L f ino B ε).dirInodes L dirs' (L.groupOfIno ino))
    (hsup : addDelta d.superFreeInodes ε + bgFreeInodesCount d.bgdt (L.groupOfIno ino) =
      d.superFreeInodes + bgFreeInodesCount B (L.groupOfIno ino)) :
    (d.editInodeBit L f ino B ε).Exact L dirs' := by
  have hg := h.inoGroup_lt hi
  have hv : L.Valid (.inodeBitmap (L.groupOfIno ino)) := hg
  have hw := within_inodeBitmap (L := L) (L.groupOfIno ino)
  have hs := store_editInodeBit h hf hi hB ε
  have hm := mounted_editInodeBit hE.mounted f ino hB ε
  have hin := ino_range h hi
  have hgc : ∀ g, g < L.numGroups → bgFreeInodesCount (d.editInodeBit L f ino B ε).bgdt g =
      update (fun g => bgFreeInodesCount d.bgdt g) (L.groupOfIno ino) (bgFreeInodesCount B (L.groupOfIno ino)) g := by
    intro g hg
    by_cases e : g = L.groupOfIno ino
    · subst e; simp only [update_self]; rfl
    · simp only [update_of_ne e]; exact hB.inodes g e
  -- numbers of another group are none of the edited one
  have hfar : ∀ g, g ≠ L.groupOfIno ino → ino < g * L.inodesPerGroup + 1 ∨
      g * L.inodesPerGroup + 1 + L.inodesPerGroup ≤ ino := by
    intro g e
    have := mul_far e L.inodesPerGroup
    omega
  obtain ⟨s1, s2⟩ := super_editCommit h hv hw (by simp)
    (f (d.block L.fs (L.inodeBitmap (L.groupOfIno ino))) (L.indexOfIno ino)) B 0 ε
  refine ⟨hm, ?_, ?_, ?_, ?_, ?_, ?_, ?_⟩
  · intro c h1 h2
    have ht : c < L.totalBlocks := by obtain ⟨r, hr, hw'⟩ := h2; exact h.inside r c hr hw'
    rw [← blockUsed_store h h1 ht, hs]
    exact (blockUsed_store h h1 ht).trans (hE.metaUsed c h1 h2)
  · intro g hg'
    rw [zeroBlocks_eq h hg', hs]
    exact (hB.blocks g).trans ((hE.freeBlocks g hg').trans (zeroBlocks_eq h hg'))
  · intro g hg'
    rw [hgc g hg', zeroInodes_eq h, hs]
    by_cases e : g = L.groupOfIno ino
    · subst e; simp only [update_self]; exact hcount
    · simp only [update_of_ne e]
      rw [hE.freeInodes g hg', zeroInodes_eq h, freeIn_other (hfar g e)]
  · intro g hg'
    by_cases e : g = L.groupOfIno ino
    · subst e; exact hdcount
    rw [show bgUsedDirsCount (d.editInodeBit L f ino B ε).bgdt g = _ from hused g e, hE.usedDirs g hg',
      dirInodes_eq h, dirInodes_eq h, hs]
    apply count_congr
    intro i hi'
    have hne : g * L.inodesPerGroup + 1 + i ≠ ino := by have := hfar g e; omega
    simp only [update_of_ne hne, hdirs _ hne]
  · intro k hk
    exact block_commit_bgdt h _ _ _ hk
  · have hb : ∀ g, bgFreeBlocksCount (d.editInodeBit L f ino B ε).bgdt g = bgFreeBlocksCount d.bgdt g := hB.blocks
    rw [sum_congr rfl fun g _ => hb g, ← hE.superBlocks]
    exact s1.trans (addDelta_zero (get32_lt _ _))
  · rw [sum_congr rfl fun g hg' => hgc g (mem_range.1 hg')]
    have hsum := sum_update (v := bgFreeInodesCount B (L.groupOfIno ino)) (f := fun g => bgFreeInodesCount d.bgdt g) hg
    rw [← hE.superInodes] at hsum
    exact add_right_cancel ((congrArg (· + _) s2).trans (hsup.trans hsum.symm))

/-! ## What the two searches find -/

variable {dirs : Nat → Bool} (hE : d.Exact L dirs)
include hE

theorem data_of_free (h1 : L.firstDataBlock ≤ b) (h2 : b < L.totalBlocks)
    (hu : (d.store L).blockUsed b = false) : L.Data b := by
  refine ⟨h1, h2, fun hm => ?_⟩
  rw [blockUsed_store h h1 h2, hE.metaUsed b h1 hm] at hu
  cases hu

theorem nextBlock_spec (hb : (d.store L).nextBlock L = some (g, b)) :
    L.Data b ∧ L.groupOf b = g ∧ g < L.numGroups ∧ (d.store L).blockUsed b = false := by
  obtain ⟨-, hg, -, hs⟩ := findFree_some hb
  obtain ⟨h1, h2, h3, h4⟩ := scanFree_some hs
  exact ⟨data_of_free h hE (by omega) h3 h4, (h.groupOf_scan hs).1, by omega, h4⟩

/-- The search fails only when every valid block is used: a skipped group has counter zero, hence
no zero bit. -/
theorem nextBlock_none (hn : (d.store L).nextBlock L = none) (h1 : L.firstDataBlock ≤ b)
    (h2 : b < L.totalBlocks) : (d.store L).blockUsed b = true := by
  have hg := h.groupOf_lt h2
  have hix := block_eq_mk h1
  have hil := h.indexOf_lt b
  by_cases hc : (d.store L).freeBlocks (L.groupOf b) = 0
  · rw [freeBlocks_store hg, hE.freeBlocks _ hg, zeroBlocks_eq h hg] at hc
    exact freeIn_eq_zero hc (by omega) (by omega) h2
  · have hs := findFree_none hn (L.groupOf b) (by omega) (by omega) hc
    exact scanFree_none hs b (by omega) (by omega) h2

omit hE in
theorem nextInode_spec (hb : (d.store L).nextInode L = some (g, ino)) :
    L.ValidIno ino ∧ L.groupOfIno ino = g ∧ (d.store L).inodeUsed ino = false := by
  obtain ⟨-, hg, -, hs⟩ := findFree_some hb
  obtain ⟨h1, h2, h3, h4⟩ := scanFree_some hs
  exact ⟨⟨by omega, by omega⟩, (h.inoGroup_scan hs).1, h4⟩

theorem nextInode_none (hn : (d.store L).nextInode L = none) (hi : L.ValidIno ino) : (d.store L).inodeUsed ino = true := by
  have hg := h.inoGroup_lt hi
  obtain ⟨h1, h2, h3⟩ := ino_range h hi
  by_cases hc : (d.store L).freeInodes (L.groupOfIno ino) = 0
  · rw [freeInodes_store hg, hE.freeInodes _ hg, zeroInodes_eq h] at hc
    exact freeIn_eq_zero hc h1 h2 h3
  · have hs := findFree_none hn (L.groupOfIno ino) (by omega) (by omega) hc
    exact scanFree_none hs ino h1 h2 h3

/-! ## The four state changes -/

theorem count_take (hd : L.Data b) (hu : (d.store L).blockUsed b = false) : bgFreeBlocksCount d.bgdt (L.groupOf b) =
      freeIn (update (d.store L).blockUsed b true)
        (L.firstDataBlock + L.groupOf b * L.blocksPerGroup) L.blocksPerGroup L.totalBlocks + 1 := by
  have hg := h.groupOf_lt hd.2.1
  have hix := block_eq_mk hd.1
  have hil := h.indexOf_lt b
  rw [hE.freeBlocks _ hg, zeroBlocks_eq h hg]
  exact freeIn_take (by omega) (by omega) hd.2.1 hu

theorem count_drop (hd : L.Data b) (hu : (d.store L).blockUsed b = true) : bgFreeBlocksCount d.bgdt (L.groupOf b) + 1 =
      freeIn (update (d.store L).blockUsed b false)
        (L.firstDataBlock + L.groupOf b * L.blocksPerGroup) L.blocksPerGroup L.totalBlocks := by
  have hg := h.groupOf_lt hd.2.1
  have hix := block_eq_mk hd.1
  have hil := h.indexOf_lt b
  rw [hE.freeBlocks _ hg, zeroBlocks_eq h hg]
  exact (freeIn_drop (by omega) (by omega) hd.2.1 hu).symm

omit h in
theorem count_le_super (hg : g < L.numGroups) :
    bgFreeBlocksCount d.bgdt g ≤ d.superFreeBlocks ∧ bgFreeInodesCount d.bgdt g ≤ d.superFreeInodes := by
  have hm := mem_range.2 hg
  rw [hE.superBlocks, hE.superInodes]
  exact ⟨single_le_sum (f := fun g => bgFreeBlocksCount d.bgdt g) (fun _ _ => zero_le _) hm,
    single_le_sum (f := fun g => bgFreeInodesCount d.bgdt g) (fun _ _ => zero_le _) hm⟩

theorem exact_takeBlock (hd : L.Data b) (hu : (d.store L).blockUsed b = false) : (d.takeBlock L b).Exact L dirs := by
  have hct := count_take h hE hd hu
  have hle := (count_le_super hE (h.groupOf_lt hd.2.1)).1
  have hap := addDelta_pred (n := d.superFreeBlocks) (by omega) (get32_lt _ _)
  exact (exact_editBlockBit h hE setBit_edit hd (by omega) (by omega)).setBlock h hd.loose zeros

theorem exact_dropBlock (hd : L.Data b) (hu : (d.store L).blockUsed b = true) : (d.dropBlock L b).Exact L dirs := by
  have hct := count_drop h hE hd hu
  have hg := h.groupOf_lt hd.2.1
  have hroom := hct ▸ freeIn_le
  have hbound : d.superFreeBlocks + 1 < 4294967296 := by
    rw [hE.superBlocks]
    refine sum_succ_lt (blocks_cap h) (fun g hg' => ?_) hg hroom
    rw [hE.freeBlocks g hg', zeroBlocks_eq h hg']
    exact freeIn_le
  exact exact_editBlockBit h hE clearBit_edit hd hct (by rw [addDelta_succ hbound]; omega)

theorem count_takeInode (hi : L.ValidIno ino) (hu : (d.store L).inodeUsed ino = false) :
    bgFreeInodesCount d.bgdt (L.groupOfIno ino) = freeIn (update (d.store L).inodeUsed ino true)
        (L.groupOfIno ino * L.inodesPerGroup + 1) L.inodesPerGroup (L.totalInodes + 1) + 1 := by
  obtain ⟨h1, h2, h3⟩ := ino_range h hi
  rw [hE.freeInodes _ (h.inoGroup_lt hi), zeroInodes_eq h]
  exact freeIn_take h1 h2 h3 hu

theorem count_dropInode (hi : L.ValidIno ino) (hu : (d.store L).inodeUsed ino = true) :
    bgFreeInodesCount d.bgdt (L.groupOfIno ino) + 1 = freeIn (update (d.store L).inodeUsed ino false)
        (L.groupOfIno ino * L.inodesPerGroup + 1) L.inodesPerGroup (L.totalInodes + 1) := by
  obtain ⟨h1, h2, h3⟩ := ino_range h hi
  rw [hE.freeInodes _ (h.inoGroup_lt hi), zeroInodes_eq h]
  exact (freeIn_drop h1 h2 h3 hu).symm

omit hE in
theorem inodesPerGroup_le : L.inodesPerGroup ≤ 32768 := by
  have h2 := h.inodesPerGroup.2
  have h3 := h.bs_le
  omega

omit h hE in
theorem usedDirs_put16 (B : Buf) (g v k : Nat) : bgUsedDirsCount (put16 B (g * 32 + 14) v) k = bgUsedDirsCount B k :=
  get16_put16_entry (by omega) (by omega) (by omega)

omit h hE in
theorem usedDirs_alloc (B : Buf) (g k : Nat) (isDir : Bool) : bgUsedDirsCount (bgdtAllocInode B g isDir) k =
      if isDir = true ∧ k = g then (bgUsedDirsCount B g + 1) % 65536 else bgUsedDirsCount B k := by
  unfold bgdtAllocInode
  cases isDir with
  | false => simp only [Bool.false_eq_true, if_false, false_and]; exact usedDirs_put16 ..
  | true =>
    simp only [if_true, true_and]
    by_cases e : k = g
    · subst e; rw [if_pos rfl]; exact (get16_put16 _ _ _).trans (by rw [usedDirs_put16])
    · rw [if_neg e]; exact (get16_put16_entry (by omega) (by omega) (.inl (Ne.symm e))).trans (usedDirs_put16 ..)

omit h hE in
theorem usedDirs_free (B : Buf) (g k : Nat) (isDir : Bool) : bgUsedDirsCount (bgdtFreeInode B g isDir) k =
      if isDir = true ∧ k = g then bgUsedDirsCount B g - 1 else bgUsedDirsCount B k := by
  have hlt : bgUsedDirsCount B g < 65536 := get16_lt _ _
  unfold bgdtFreeInode
  simp only [usedDirs_put16]
  cases isDir with
  | false => simp only [Bool.false_eq_true, if_false, false_and]; exact usedDirs_put16 ..
  | true =>
    simp only [true_and]
    by_cases hz : 0 < bgUsedDirsCount B g
    · rw [if_pos hz]
      by_cases e : k = g
      · subst e; rw [if_pos rfl]; exact (get16_put16 _ _ _).trans (mod_eq_of_lt (by omega))
      · rw [if_neg e]; exact (get16_put16_entry (by omega) (by omega) (.inl (Ne.symm e))).trans (usedDirs_put16 ..)
    · rw [if_neg hz, usedDirs_put16]
      split
      · rename_i e; subst e; omega
      · rfl

theorem exact_takeInode (hi : L.ValidIno ino) (hu : (d.store L).inodeUsed ino = false)
    (isDir : Bool) : (d.takeInode L ino isDir).Exact L (update dirs ino isDir) := by
  have hct := count_takeInode h hE hi hu
  have hg := h.inoGroup_lt hi
  have hle := (count_le_super hE hg).2
  have hap := addDelta_pred (n := d.superFreeInodes) (by omega) (get32_lt _ _)
  obtain ⟨hB, hcnt⟩ := countersOnly_alloc d.bgdt (L.groupOfIno ino) isDir
  have hlt : bgFreeInodesCount d.bgdt (L.groupOfIno ino) < 65536 := get16_lt _ _
  obtain ⟨h1, h2, h3⟩ := ino_range h hi
  refine exact_editInodeBit h hE setBit_edit hi hB (fun c hc => update_of_ne hc _ _) (by omega) (fun g hne => ?_) ?_ (by omega)
  · rw [usedDirs_alloc, if_neg (by simp [hne])]
  · have hcap := inodesPerGroup_le h
    have hold := hE.usedDirs _ hg
    have hle' : bgUsedDirsCount d.bgdt (L.groupOfIno ino) ≤ L.inodesPerGroup := by
      rw [hold, dirInodes_eq h]; exact markedIn_le
    rw [usedDirs_alloc, dirInodes_eq h, store_editInodeBit h setBit_edit hi hB]
    refine Eq.trans ?_ (markedIn_take h1 h2 h3 hu isDir).symm
    rw [← dirInodes_eq h, ← hold]
    cases isDir with
    | false => simp
    | true => rw [if_pos ⟨rfl, rfl⟩, if_pos rfl, mod_eq_of_lt (by omega)]

theorem exact_dropInode (hi : L.ValidIno ino) (hu : (d.store L).inodeUsed ino = true) :
    (d.dropInode L ino (dirs ino)).Exact L dirs := by
  have hct := count_dropInode h hE hi hu
  have hg := h.inoGroup_lt hi
  obtain ⟨hB, hcnt⟩ := countersOnly_free d.bgdt (L.groupOfIno ino) (dirs ino)
  have hroom := hct ▸ freeIn_le
  have hcap := inodesPerGroup_le h
  have hbound : d.superFreeInodes + 1 < 4294967296 := by
    rw [hE.superInodes]
    refine sum_succ_lt h.inodes32 (fun g hg' => ?_) hg hroom
    rw [hE.freeInodes g hg', zeroInodes_eq h]
    exact freeIn_le
  obtain ⟨h1, h2, h3⟩ := ino_range h hi
  have hedit : (d.editInodeBit L clearBit ino (bgdtFreeInode d.bgdt (L.groupOfIno ino) (dirs ino)) 1).Exact L dirs := by
    refine exact_editInodeBit h hE clearBit_edit hi hB (fun c hc => rfl) (by omega) (fun g hne => ?_) ?_
      (by rw [addDelta_succ hbound]; omega)
    · rw [usedDirs_free, if_neg (by simp [hne])]
    · have hold := hE.usedDirs _ hg
      rw [usedDirs_free, dirInodes_eq h, store_editInodeBit h clearBit_edit hi hB]
      rw [dirInodes_eq h, markedIn_drop h1 h2 h3 hu] at hold
      cases hdir : dirs ino with
      | false =>
        rw [hold, hdir]
        rfl
      | true =>
        rw [if_pos ⟨rfl, rfl⟩, hold, hdir]
        rfl
  exact hedit.setBlock h (slot_loose h hi) _

end

end PureUnix.Ext2
