import PureUnix.Ext2.Mount

/-!
# Geometries that `ext2_super_read` accepts

What the parameters of a mounted volume must satisfy for the inode table and the bitmaps to be safe to index, and which of the
superblocks that pass the checks of `ext2_super_read` satisfy it. The checks relate the inode size to the block size only by
`inode_size <= block_size`, and the group sizes to nothing: an inode may cross the end of a block, a group may have more bits
than its bitmap block holds, and the size of the descriptor table is computed in 32 bits.

The descriptors are not part of the superblock, and where the inode tables lie is theirs to say: that no two inodes share a byte
is asked for every descriptor table that gives each group a table of its own (`TablesApart`).
-/
namespace PureUnix.Ext2
open Lib Disk Prog List
open Nat

/-! ## What the code computes -/

/-- The bits that `scanBits` looks at. -/
def scanned (bitmap : Buf) (first limit : Nat) : Nat → Nat → List Nat
  | 0, _ => []
  | n + 1, i =>
    if limit ≤ u32 (first + i) then []
    else i :: if bit bitmap i then scanned bitmap first limit n (i + 1) else []

/-- `scanBits` answers with the first of them that is zero. -/
theorem scanBits_eq_find? (bitmap : Buf) (first limit n i : Nat) :
    scanBits bitmap first limit n i = (scanned bitmap first limit n i).find? (! bit bitmap ·) := by
  induction n generalizing i with
  | zero => rfl
  | succ n ih =>
    rw [scanBits, scanned]
    split
    · rfl
    · cases hb : bit bitmap i <;> simp [hb, ih]

namespace Fs
variable (fs : Fs)

/-- An inode number that `ext2_read_inode` and `ext2_write_inode` go on with. -/
def HasInode (ino : Nat) : Prop := ino ≠ 0 ∧ ino ≤ fs.totalInodes ∧ (ino - 1) / fs.inodesPerGroup < fs.numGroups

/-- Disk address of the 128 bytes of an inode. -/
def inodeAddr (bgdt : Buf) (ino : Nat) : Nat := Disk.base fs (inodeBlock fs bgdt ino) + inodeByteOff fs ino % fs.blockSize

def tableInodes (g : Nat) : Nat := min fs.inodesPerGroup (fs.totalInodes - g * fs.inodesPerGroup)

def tableBlocks (g : Nat) : Nat := (fs.tableInodes g * fs.inodeSize + fs.blockSize - 1) / fs.blockSize

/-- The descriptors put the inode tables on the disk, each at a place of its own. -/
structure TablesApart (bgdt : Buf) : Prop where
  onDisk : ∀ g < fs.numGroups, (bgInodeTable bgdt g + fs.tableBlocks g) * fs.sectorsPerBlock ≤ 4294967296
  apart : ∀ g < fs.numGroups, ∀ h < fs.numGroups, g ≠ h →
    bgInodeTable bgdt g + fs.tableBlocks g ≤ bgInodeTable bgdt h ∨ bgInodeTable bgdt h + fs.tableBlocks h ≤ bgInodeTable bgdt g

/-- **A geometry that is safe to index.** -/
structure SafeGeometry : Prop where
  /-- An inode lies inside one block. -/
  inBlock : ∀ ino, fs.HasInode ino → inodeByteOff fs ino % fs.blockSize + 128 ≤ fs.blockSize
  /-- Two inodes do not share a byte. -/
  disjoint : ∀ bgdt, fs.TablesApart bgdt → ∀ ino ino', fs.HasInode ino → fs.HasInode ino' → ino ≠ ino' →
    fs.inodeAddr bgdt ino + 128 ≤ fs.inodeAddr bgdt ino' ∨ fs.inodeAddr bgdt ino' + 128 ≤ fs.inodeAddr bgdt ino
  /-- `bitmap[i / 8]` of `ext2_alloc_block`. -/
  allocBlock : ∀ g < fs.numGroups, ∀ bitmap, ∀ i ∈ scanned bitmap (groupFirstBlock fs g) fs.totalBlocks fs.blocksPerGroup 0, i / 8 < fs.blockSize
  /-- `bitmap[i / 8]` of `ext2_free_block`. -/
  freeBlock : ∀ blk < 4294967296, fs.firstDataBlock ≤ blk → (blk - fs.firstDataBlock) / fs.blocksPerGroup < fs.numGroups →
    (blk - fs.firstDataBlock) % fs.blocksPerGroup / 8 < fs.blockSize
  /-- `bitmap[i / 8]` of `ext2_alloc_inode`. -/
  allocInode : ∀ g < fs.numGroups, ∀ bitmap,
    ∀ i ∈ scanned bitmap (u32 (g * fs.inodesPerGroup + 1)) (fs.totalInodes + 1) fs.inodesPerGroup 0, i / 8 < fs.blockSize
  /-- `bitmap[i / 8]` of `ext2_free_inode`. -/
  freeInode : ∀ ino, fs.HasInode ino → (ino - 1) % fs.inodesPerGroup / 8 < fs.blockSize
  /-- A block is bit `i` of exactly one group. -/
  oneGroup : ∀ b, fs.firstDataBlock ≤ b → b < fs.totalBlocks →
    ∃! g, g < fs.numGroups ∧ ∃ i < fs.blocksPerGroup, u32 (groupFirstBlock fs g + i) = b
  /-- `s_blocks_count + s_blocks_per_group - 1`. -/
  groupCount : fs.totalBlocks + fs.blocksPerGroup - 1 < 4294967296
  /-- `num_groups * sizeof(ext2_bgdt_entry_t)`, `bgdt_bytes + block_size - 1` and `bgdt_blocks * block_size`. -/
  tableSize : fs.numGroups * 32 < 4294967296 ∧ fs.numGroups * 32 + fs.blockSize - 1 < 4294967296 ∧
    (fs.numGroups * 32 + fs.blockSize - 1) / fs.blockSize * fs.blockSize < 4294967296
  /-- `local_idx * fs->inode_size`. -/
  byteOffset : ∀ ino, fs.HasInode ino → (ino - 1) % fs.inodesPerGroup * fs.inodeSize < 4294967296

/-- The relations between the fields that make a geometry safe. -/
structure Related : Prop where
  /-- A group's blocks have a bit in one bitmap block; or first block and block count leave only so many. -/
  blockBits : fs.blocksPerGroup ≤ 8 * fs.blockSize ∨
    fs.totalBlocks - fs.blocksPerGroup + (4294967296 - fs.firstDataBlock) ≤ 8 * fs.blockSize
  /-- A group's inodes have a bit in one bitmap block; or there are only so many inodes. -/
  inodeBits : fs.inodesPerGroup ≤ 8 * fs.blockSize ∨ fs.totalInodes < 8 * fs.blockSize ∨
    fs.totalInodes = 8 * fs.blockSize ∧ ∀ g < fs.numGroups, (g * fs.inodesPerGroup + 1) % 4294967296 ≠ 0
  /-- No inode of a table crosses the end of a block. -/
  inodeFits : ∀ k < min fs.inodesPerGroup fs.totalInodes, k * fs.inodeSize % fs.blockSize + 128 ≤ fs.blockSize
  /-- The descriptor table is smaller than 4 GiB. -/
  descriptors : fs.numGroups * 32 + fs.blockSize ≤ 4294967296

end Fs

/-! ## What the checks establish -/

/-- What holds of the parameters of every superblock that is accepted. -/
structure Fs.Parsed (fs : Fs) : Prop where
  blockSize : fs.blockSize = 1024 ∨ fs.blockSize = 2048 ∨ fs.blockSize = 4096
  sectors : fs.sectorsPerBlock * 512 = fs.blockSize
  inodeSize : 128 ≤ fs.inodeSize ∧ fs.inodeSize ≤ fs.blockSize
  perGroup : 0 < fs.inodesPerGroup ∧ 0 < fs.blocksPerGroup
  lt : fs.totalBlocks < 4294967296 ∧ fs.blocksPerGroup < 4294967296 ∧ fs.firstDataBlock < 4294967296 ∧ fs.totalInodes < 4294967296
  numGroups : fs.numGroups = u32 (fs.totalBlocks + fs.blocksPerGroup - 1) / fs.blocksPerGroup
  pos : 0 < fs.numGroups

theorem superParse_parsed {raw : Buf} {fs : Fs} (h : superParse raw = some fs) : fs.Parsed := by
  have hbs := superParse_blockSize h
  obtain ⟨⟨-, -, -, hisz, hper, hng⟩, rfl⟩ := superParse_eq h
  refine ⟨hbs, ?_, hisz, ⟨pos_of_ne_zero hper.1, pos_of_ne_zero hper.2⟩, ⟨get32_lt _ _, get32_lt _ _, get32_lt _ _, get32_lt _ _⟩,
    rfl, pos_of_ne_zero hng⟩
  have hspb : (superFs raw).sectorsPerBlock = (superFs raw).blockSize / 512 := rfl
  rw [hspb]
  rcases hbs with e | e | e <;> rw [e]

theorem superRead_parsed {fs₀ fs : Fs} {kmalloc : Bool} {d d' : Disk} (h : Prog.run (Dev.step fs₀) (superRead kmalloc) d = (some fs, d')) :
    fs.Parsed := by
  cases hp : superParse (rawSuper (d.sector 2) (d.sector 3)) with
  | none =>
    simp only [superRead, run_bind, run_readSector, hp, run_pure, Prod.mk.injEq, reduceCtorEq, false_and] at h
  | some fs' =>
    simp only [superRead, run_bind, run_readSector, hp] at h
    cases kmalloc with
    | false => cases h
    | true =>
      simp only [Bool.not_true, Bool.false_eq_true, if_false, run_bind] at h
      split at h
      · cases h
      · simp only [run_bind, run_setBgdt, run_pure, Prod.mk.injEq, Option.some.injEq] at h
        rw [← h.1]
        exact superParse_parsed hp

namespace Fs.Parsed
variable {fs : Fs} (h : fs.Parsed)
include h

/-- The sum in the group count does not wrap: the quotient would be 0. -/
theorem groupCount : fs.totalBlocks + fs.blocksPerGroup - 1 < 4294967296 ∧
    fs.numGroups = (fs.totalBlocks + fs.blocksPerGroup - 1) / fs.blocksPerGroup := by
  have hpos := h.pos
  rw [h.numGroups] at hpos ⊢
  obtain ⟨ht, hb, -, -⟩ := h.lt
  have hsum : fs.totalBlocks + fs.blocksPerGroup - 1 < 4294967296 := by
    by_contra hge
    have hwrap : u32 (fs.totalBlocks + fs.blocksPerGroup - 1) < fs.blocksPerGroup := by
      unfold u32
      omega
    rw [div_eq_of_lt hwrap] at hpos
    exact lt_irrefl 0 hpos
  exact ⟨hsum, by rw [u32_of_lt hsum]⟩

theorem group_lt {g : Nat} : g < fs.numGroups ↔ g * fs.blocksPerGroup < fs.totalBlocks := by
  rw [h.groupCount.2, lt_div_iff_mul_lt h.perGroup.2]
  have := h.perGroup.2
  constructor <;> intro hlt <;> omega

end Fs.Parsed

variable {first limit : Nat} {bitmap : Buf}

/-! ## Bits that a scan looks at -/

theorem mem_scanned : ∀ {n k i : Nat}, i ∈ scanned bitmap first limit n k →
    i < k + n ∧ ∀ j, k ≤ j → j ≤ i → u32 (first + j) < limit := by
  intro n
  induction n with
  | zero => intro k i hi; simp [scanned] at hi
  | succ n ih =>
    intro k i hi
    rw [scanned] at hi
    split at hi
    · simp at hi
    rcases mem_cons.1 hi with rfl | hi
    · refine ⟨by omega, fun j h1 h2 => ?_⟩
      obtain rfl : j = i := by omega
      omega
    · split at hi
      · obtain ⟨hlt, hall⟩ := ih hi
        refine ⟨by omega, fun j h1 h2 => ?_⟩
        rcases eq_or_lt_of_le h1 with rfl | hj
        · omega
        · exact hall j hj h2
      · simp at hi

def ones : Buf := fun _ => 255

theorem bit_ones (i : Nat) : bit ones i = true := by
  have hall : ∀ k < 8, ((255 : UInt8) &&& UInt8.ofNat (1 <<< k)) != 0 := by decide
  exact hall (i % 8) (mod_lt i (by decide))

/-- With every bit set the scan goes as far as the numbers stay below the limit. -/
theorem mem_scanned_ones : ∀ {n k i : Nat}, k ≤ i → i < k + n → (∀ j, k ≤ j → j ≤ i → u32 (first + j) < limit) →
    i ∈ scanned ones first limit n k := by
  intro n
  induction n with
  | zero => intro k i h1 h2; omega
  | succ n ih =>
    intro k i h1 h2 hall
    have hk := hall k (le_refl k) h1
    rw [scanned, if_neg (by omega), bit_ones]
    rcases eq_or_lt_of_le h1 with rfl | hlt
    · exact mem_cons_self
    · exact mem_cons_of_mem _ (ih hlt (by omega) fun j h1 h2 => hall j (by omega) h2)

/-- Numbers that count up from below the limit reach it. -/
theorem scanned_lt {n i : Nat} (hlim : limit < 4294967296) (hfirst : first < 4294967296)
    (hi : i ∈ scanned bitmap first limit n 0) : first < limit ∧ first + i < limit := by
  obtain ⟨-, hall⟩ := mem_scanned hi
  have h0 := hall 0 (le_refl 0) (zero_le i)
  rw [add_zero, u32_of_lt hfirst] at h0
  by_contra hge
  have hat := hall (limit - first) (zero_le _) (by omega)
  rw [show first + (limit - first) = limit by omega, u32_of_lt hlim] at hat
  omega

/-! ## The bitmaps -/

namespace Fs.Parsed
variable {fs : Fs} (h : fs.Parsed) {ino : Nat} {bgdt : Buf}
include h

theorem blockBits_iff : fs.blocksPerGroup ≤ 8 * fs.blockSize ∨
      fs.totalBlocks - fs.blocksPerGroup + (4294967296 - fs.firstDataBlock) ≤ 8 * fs.blockSize ↔
    (∀ g < fs.numGroups, ∀ bitmap, ∀ i ∈ scanned bitmap (groupFirstBlock fs g) fs.totalBlocks fs.blocksPerGroup 0, i / 8 < fs.blockSize) ∧
      ∀ blk < 4294967296, fs.firstDataBlock ≤ blk → (blk - fs.firstDataBlock) / fs.blocksPerGroup < fs.numGroups →
        (blk - fs.firstDataBlock) % fs.blocksPerGroup / 8 < fs.blockSize := by
  obtain ⟨htotal, hper, hfirst, -⟩ := h.lt
  have hpos := h.perGroup.2
  constructor
  · intro hcond
    constructor
    · intro g hg bitmap i hi
      have hlt := (mem_scanned hi).1
      rcases hcond with hcond | hcond
      · omega
      have hfirst32 : groupFirstBlock fs g < 4294967296 := u32_lt _
      have hin := scanned_lt htotal hfirst32 hi
      rw [h.group_lt] at hg
      -- the group starts at the first data block, or behind the wrap
      rcases Nat.eq_zero_or_pos g with rfl | hg0
      · rw [groupFirstBlock, Nat.zero_mul, add_zero, u32_of_lt hfirst] at hin
        omega
      · have hmul : fs.blocksPerGroup ≤ g * fs.blocksPerGroup := Nat.le_mul_of_pos_left _ hg0
        by_cases hsmall : fs.blocksPerGroup ≤ 8 * fs.blockSize
        · omega
        have hwrap : groupFirstBlock fs g = fs.firstDataBlock + g * fs.blocksPerGroup - 4294967296 := by
          unfold groupFirstBlock u32
          omega
        omega
    · intro blk hblk hge _
      have h1 := mod_lt (blk - fs.firstDataBlock) hpos
      have h2 := mod_le (blk - fs.firstDataBlock) fs.blocksPerGroup
      rcases hcond with hcond | hcond <;> omega
  · rintro ⟨halloc, hfree⟩
    by_contra hcond
    rw [not_or] at hcond
    obtain ⟨hbig, hmany⟩ := hcond
    have hgroup0 : 0 < fs.numGroups := h.pos
    -- bit `8 * block_size` of group 0 is the first outside
    have hend : 4294967296 ≤ fs.firstDataBlock + 8 * fs.blockSize := by
      by_contra hlt
      have hf := hfree (fs.firstDataBlock + 8 * fs.blockSize) (by omega) (by omega)
      rw [Nat.add_sub_cancel_left, div_eq_of_lt (by omega), Nat.mod_eq_of_lt (by omega)] at hf
      have := hf hgroup0
      omega
    have hg1 : 1 < fs.numGroups := by
      rw [h.group_lt, one_mul]
      omega
    have hwrap : groupFirstBlock fs 1 = fs.firstDataBlock + fs.blocksPerGroup - 4294967296 := by
      unfold groupFirstBlock u32
      omega
    have := halloc 1 hg1 ones (8 * fs.blockSize) (mem_scanned_ones (zero_le _) (by omega) fun j _ hj => by
      rw [u32_of_lt (by omega)]
      omega)
    omega

theorem inodeBits_iff : fs.inodesPerGroup ≤ 8 * fs.blockSize ∨ fs.totalInodes < 8 * fs.blockSize ∨
      fs.totalInodes = 8 * fs.blockSize ∧ (∀ g < fs.numGroups, (g * fs.inodesPerGroup + 1) % 4294967296 ≠ 0) ↔
    (∀ g < fs.numGroups, ∀ bitmap,
      ∀ i ∈ scanned bitmap (u32 (g * fs.inodesPerGroup + 1)) (fs.totalInodes + 1) fs.inodesPerGroup 0, i / 8 < fs.blockSize) ∧
      ∀ ino, fs.HasInode ino → (ino - 1) % fs.inodesPerGroup / 8 < fs.blockSize := by
  have hpos := h.perGroup.1
  have hbs := h.blockSize
  constructor
  · intro hcond
    constructor
    · intro g hg bitmap i hi
      have hlt := (mem_scanned hi).1
      rcases hcond with hcond | hcond | ⟨hcond, hne⟩
      · omega
      · have hin := scanned_lt (by omega) (u32_lt _) hi
        omega
      · have hin := scanned_lt (by omega) (u32_lt _) hi
        have h0 : u32 (g * fs.inodesPerGroup + 1) ≠ 0 := hne g hg
        omega
    · intro ino hino
      have h1 := mod_lt (ino - 1) hpos
      have h2 := mod_le (ino - 1) fs.inodesPerGroup
      obtain ⟨h0, hle, -⟩ := hino
      omega
  · rintro ⟨halloc, hfree⟩
    by_contra hcond
    rw [not_or, not_or] at hcond
    obtain ⟨hbig, hmany, hzero⟩ := hcond
    have heq : fs.totalInodes = 8 * fs.blockSize := by
      by_contra hne
      have hdiv : (8 * fs.blockSize + 1 - 1) / fs.inodesPerGroup = 0 := div_eq_of_lt (by omega)
      have hf := hfree (8 * fs.blockSize + 1) ⟨by omega, by omega, by rw [hdiv]; exact h.pos⟩
      rw [mod_eq_of_lt (by omega)] at hf
      omega
    obtain ⟨g, hg, h0⟩ : ∃ g < fs.numGroups, u32 (g * fs.inodesPerGroup + 1) = 0 := by
      by_contra hnone
      refine hzero ⟨heq, fun g hg h0 => hnone ⟨g, hg, h0⟩⟩
    -- inode number 0 is bit 0 there
    have := halloc g hg ones (8 * fs.blockSize) (mem_scanned_ones (zero_le _) (by omega) fun j _ hj => by
      rw [u32_of_lt (by omega)]
      omega)
    omega

/-! ## Groups and tables -/

theorem oneGroup (b : Nat) (hge : fs.firstDataBlock ≤ b) (hlt : b < fs.totalBlocks) :
    ∃! g, g < fs.numGroups ∧ ∃ i < fs.blocksPerGroup, u32 (groupFirstBlock fs g + i) = b := by
  have hpos := h.perGroup.2
  have hsum := h.groupCount.1
  have hdm := div_add_mod' (b - fs.firstDataBlock) fs.blocksPerGroup
  have hmod := mod_lt (b - fs.firstDataBlock) hpos
  refine ⟨(b - fs.firstDataBlock) / fs.blocksPerGroup, ⟨?_, (b - fs.firstDataBlock) % fs.blocksPerGroup, hmod, ?_⟩, ?_⟩
  · rw [h.group_lt]
    omega
  · unfold groupFirstBlock u32
    omega
  · rintro g ⟨hg, i, hi, he⟩
    rw [h.group_lt] at hg
    -- bit `i` of group `g` is the block at distance `g * blocks_per_group + i`, and fewer than 2^32 bits are in use
    have hx : g * fs.blocksPerGroup + i = b - fs.firstDataBlock := by
      unfold groupFirstBlock u32 at he
      omega
    rw [← hx, mul_comm, mul_add_div hpos, div_eq_of_lt hi, add_zero]

theorem local_lt (hino : fs.HasInode ino) : (ino - 1) % fs.inodesPerGroup < min fs.inodesPerGroup fs.totalInodes := by
  have h1 := mod_lt (ino - 1) h.perGroup.1
  have h2 := mod_le (ino - 1) fs.inodesPerGroup
  obtain ⟨h0, hle, -⟩ := hino
  omega

theorem hasInode_succ {k : Nat} (hk : k < min fs.inodesPerGroup fs.totalInodes) : fs.HasInode (k + 1) :=
  ⟨by omega, by omega, by rw [Nat.add_sub_cancel, div_eq_of_lt (by omega)]; exact h.pos⟩

theorem byteOffset (hr : fs.Related) (hino : fs.HasInode ino) : (ino - 1) % fs.inodesPerGroup * fs.inodeSize < 4294967296 := by
  have hk := h.local_lt hino
  have hbs := h.blockSize
  have hsize := h.inodeSize
  have hbits : (ino - 1) % fs.inodesPerGroup ≤ 32768 := by
    rcases hr.inodeBits with hb | hb | ⟨hb, -⟩ <;> omega
  calc (ino - 1) % fs.inodesPerGroup * fs.inodeSize ≤ 32768 * 4096 := Nat.mul_le_mul hbits (by omega)
    _ < 4294967296 := by decide

theorem table_end (hino : fs.HasInode ino) :
    (ino - 1) % fs.inodesPerGroup * fs.inodeSize + 128 ≤ fs.tableBlocks ((ino - 1) / fs.inodesPerGroup) * fs.blockSize := by
  have hdm := div_add_mod' (ino - 1) fs.inodesPerGroup
  have hmod := mod_lt (ino - 1) h.perGroup.1
  obtain ⟨h0, hle, -⟩ := hino
  generalize (ino - 1) / fs.inodesPerGroup = g at *
  generalize (ino - 1) % fs.inodesPerGroup = k at *
  have hbs : 0 < fs.blockSize := by have := h.blockSize; omega
  have hrow : k + 1 ≤ fs.tableInodes g := by
    unfold Fs.tableInodes
    omega
  have hend : k * fs.inodeSize + 128 ≤ fs.tableInodes g * fs.inodeSize := by
    have := mul_step hrow fs.inodeSize
    have := h.inodeSize
    omega
  have hceil : fs.tableInodes g * fs.inodeSize ≤ fs.tableBlocks g * fs.blockSize := by
    unfold Fs.tableBlocks
    have := div_add_mod' (fs.tableInodes g * fs.inodeSize + fs.blockSize - 1) fs.blockSize
    have := mod_lt (fs.tableInodes g * fs.inodeSize + fs.blockSize - 1) hbs
    omega
  omega

section
variable (hlt : (ino - 1) % fs.inodesPerGroup * fs.inodeSize < 4294967296)
include hlt

theorem inodeBlock_eq (ht : fs.TablesApart bgdt)
    (hino : fs.HasInode ino) :
    inodeBlock fs bgdt ino = bgInodeTable bgdt ((ino - 1) / fs.inodesPerGroup) + (ino - 1) % fs.inodesPerGroup * fs.inodeSize / fs.blockSize ∧
      inodeBlock fs bgdt ino * fs.sectorsPerBlock < 4294967296 := by
  have hoff : inodeByteOff fs ino = (ino - 1) % fs.inodesPerGroup * fs.inodeSize := u32_of_lt hlt
  have hon := ht.onDisk _ hino.2.2
  have hend := h.table_end hino
  unfold inodeBlock
  rw [hoff]
  generalize (ino - 1) / fs.inodesPerGroup = g at *
  generalize (ino - 1) % fs.inodesPerGroup = k at *
  have hbs : 0 < fs.blockSize := by have := h.blockSize; omega
  have hspb : 0 < fs.sectorsPerBlock := by have := h.sectors; omega
  have hin : k * fs.inodeSize / fs.blockSize < fs.tableBlocks g := by
    rw [div_lt_iff_lt_mul hbs]
    omega
  have hle₁ : bgInodeTable bgdt g + k * fs.inodeSize / fs.blockSize + 1 ≤ bgInodeTable bgdt g + fs.tableBlocks g := by omega
  have hle₂ := mul_step hle₁ fs.sectorsPerBlock
  have hle₃ := Nat.le_mul_of_pos_right (bgInodeTable bgdt g + k * fs.inodeSize / fs.blockSize) hspb
  have hblk : u32 (bgInodeTable bgdt g + k * fs.inodeSize / fs.blockSize) = bgInodeTable bgdt g + k * fs.inodeSize / fs.blockSize :=
    u32_of_lt (by omega)
  exact ⟨hblk, by rw [hblk]; omega⟩

theorem inodeAddr_eq (ht : fs.TablesApart bgdt)
    (hino : fs.HasInode ino) :
    fs.inodeAddr bgdt ino = bgInodeTable bgdt ((ino - 1) / fs.inodesPerGroup) * fs.blockSize + (ino - 1) % fs.inodesPerGroup * fs.inodeSize := by
  obtain ⟨hblk, hrange⟩ := h.inodeBlock_eq hlt ht hino
  have hoff : inodeByteOff fs ino = (ino - 1) % fs.inodesPerGroup * fs.inodeSize := u32_of_lt hlt
  unfold Fs.inodeAddr
  rw [Disk.base, u32_of_lt hrange, hoff, mul_assoc, h.sectors, hblk, add_mul, add_assoc, div_add_mod']

theorem disjoint {ino' : Nat}
    (hlt' : (ino' - 1) % fs.inodesPerGroup * fs.inodeSize < 4294967296) (ht : fs.TablesApart bgdt) (hino : fs.HasInode ino)
    (hino' : fs.HasInode ino') (hne : ino ≠ ino') :
    fs.inodeAddr bgdt ino + 128 ≤ fs.inodeAddr bgdt ino' ∨ fs.inodeAddr bgdt ino' + 128 ≤ fs.inodeAddr bgdt ino := by
  have hend := h.table_end hino
  have hend' := h.table_end hino'
  rw [h.inodeAddr_eq hlt ht hino, h.inodeAddr_eq hlt' ht hino']
  by_cases hg : (ino - 1) / fs.inodesPerGroup = (ino' - 1) / fs.inodesPerGroup
  · -- one table: whole inode sizes apart
    have hk : (ino - 1) % fs.inodesPerGroup ≠ (ino' - 1) % fs.inodesPerGroup := by
      intro hk
      have h1 := div_add_mod' (ino - 1) fs.inodesPerGroup
      have h2 := div_add_mod' (ino' - 1) fs.inodesPerGroup
      rw [hg] at h1
      have := hino.1
      have := hino'.1
      omega
    rw [hg]
    have hsize := h.inodeSize.1
    rcases lt_or_gt_of_ne hk with hlt | hlt
    · have hmul := mul_le_mul_right fs.inodeSize (succ_le_of_lt hlt)
      rw [succ_mul] at hmul
      omega
    · have hmul := mul_le_mul_right fs.inodeSize (succ_le_of_lt hlt)
      rw [succ_mul] at hmul
      omega
  · rcases ht.apart _ hino.2.2 _ hino'.2.2 hg with hle | hle
    · have hmul := mul_le_mul_right fs.blockSize hle
      rw [add_mul] at hmul
      omega
    · have hmul := mul_le_mul_right fs.blockSize hle
      rw [add_mul] at hmul
      omega

end

end Fs.Parsed

/-- **Which mounted geometries are safe to index.** -/
theorem safeGeometry_iff {fs₀ fs : Fs} {kmalloc : Bool} {d d' : Disk} (hmount : Prog.run (Dev.step fs₀) (superRead kmalloc) d = (some fs, d')) :
    fs.SafeGeometry ↔ fs.Related := by
  have h := superRead_parsed hmount
  have hbs := h.blockSize
  constructor
  · intro hs
    refine ⟨h.blockBits_iff.2 ⟨hs.allocBlock, hs.freeBlock⟩, h.inodeBits_iff.2 ⟨hs.allocInode, hs.freeInode⟩, ?_, ?_⟩
    · intro k hk
      have hino := h.hasInode_succ hk
      have hoff := hs.byteOffset _ hino
      have hin := hs.inBlock _ hino
      have hlocal : (k + 1 - 1) % fs.inodesPerGroup = k := by rw [Nat.add_sub_cancel, Nat.mod_eq_of_lt (by omega)]
      rwa [inodeByteOff, u32_of_lt hoff, hlocal] at hin
    · have := hs.tableSize.2.1
      omega
  · intro hr
    have hdesc := hr.descriptors
    refine ⟨?_, ?_, (h.blockBits_iff.1 hr.blockBits).1, (h.blockBits_iff.1 hr.blockBits).2, (h.inodeBits_iff.1 hr.inodeBits).1,
      (h.inodeBits_iff.1 hr.inodeBits).2, h.oneGroup, h.groupCount.1, ⟨by omega, by omega, ?_⟩, fun ino hino => h.byteOffset hr hino⟩
    · intro ino hino
      rw [inodeByteOff, u32_of_lt (h.byteOffset hr hino)]
      exact hr.inodeFits _ (h.local_lt hino)
    · exact fun bgdt ht ino ino' hino hino' hne => h.disjoint (h.byteOffset hr hino) (h.byteOffset hr hino') ht hino hino' hne
    · have := div_mul_le_self (fs.numGroups * 32 + fs.blockSize - 1) fs.blockSize
      omega

/-! ## A volume of one group -/

/-- 64 blocks of 1024 bytes in one group with 16 inodes of `size` bytes, the inode table at block 5. -/
def superDisk (size : Nat) : Disk :=
  ⟨put32 (put16 (put32 (put16 (put32 (put32 (put32 (put32 (put32 zeros 1024 16) 1028 64) 1044 1) 1056 8192) 1064 16) 1080 EXT2_MAGIC)
    1100 1) 1112 size) 2056 5, zeros⟩

def superDiskFs (size : Nat) : Fs := superFs (rawSuper ((superDisk size).sector 2) ((superDisk size).sector 3))

/-- With inodes of 128 bytes the volume is safe. -/
theorem safeGeometry_128 : ∃ d', Prog.run (Dev.step (superDiskFs 128)) (superRead true) (superDisk 128) = (some (superDiskFs 128), d') ∧
    (superDiskFs 128).SafeGeometry := by
  have hchecks : superChecks (rawSuper ((superDisk 128).sector 2) ((superDisk 128).sector 3)) := by decide +kernel
  have hrun : Prog.run (Dev.step (superDiskFs 128)) (superRead true) (superDisk 128) = _ := run_superRead (if_pos hchecks) (by decide +kernel)
  exact ⟨_, hrun, (safeGeometry_iff hrun).2 ⟨by decide +kernel, by decide +kernel, by decide +kernel, by decide +kernel⟩⟩

/-- With inodes of 192 bytes, which the mount accepts, inode 6 crosses the end of a block. -/
theorem safeGeometry_192 :
    (Prog.run (Dev.step (superDiskFs 192)) (superRead true) (superDisk 192)).1.isSome = true ∧ (superDiskFs 192).HasInode 6 ∧
      inodeByteOff (superDiskFs 192) 6 % (superDiskFs 192).blockSize + 128 = 1088 ∧ (superDiskFs 192).blockSize = 1024 ∧
      ¬ (superDiskFs 192).SafeGeometry := by
  have hino : (superDiskFs 192).HasInode 6 := by
    unfold Fs.HasInode
    decide +kernel
  have hoff : inodeByteOff (superDiskFs 192) 6 % (superDiskFs 192).blockSize + 128 = 1088 := by decide +kernel
  have hbs : (superDiskFs 192).blockSize = 1024 := by decide +kernel
  refine ⟨by decide +kernel, hino, hoff, hbs, fun hs => ?_⟩
  have := hs.inBlock 6 hino
  omega

end PureUnix.Ext2
