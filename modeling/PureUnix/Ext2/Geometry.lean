import Mathlib.Tactic.Ring
import Mathlib.Tactic.Linarith
import PureUnix.Ext2.Alloc

/-!
# Where the metadata lies

A `Layout` is a mounted geometry together with the three block pointers of each group
descriptor. The driver never changes those pointers, so they are fixed here and `Mounted` says
that the in-memory table holds them. `Layout.Ok` is what a usable image satisfies: the regions
(superblock, descriptor table, the bitmaps and inode table of every group) lie inside the disk
and are pairwise disjoint, and no 32-bit computation on valid numbers wraps.

The rest of the file is block arithmetic: which bytes a write to one block leaves alone
(`block_setBlock_ne`), and the common tail of the four allocator functions, which store the
descriptor table and adjust the superblock (`commit`, `run_commit`).
-/
namespace PureUnix.Ext2
open Lib Prog Bool
open Nat

variable {b c : Nat}

structure Layout extends fs : Fs where
  blockBitmap : Nat → Nat
  inodeBitmap : Nat → Nat
  inodeTable : Nat → Nat

inductive Region where
  | super
  | bgdt
  | blockBitmap (g : Nat)
  | inodeBitmap (g : Nat)
  | inodeTable (g : Nat)
deriving DecidableEq

namespace Layout

def tableBlocks (L : Layout) : Nat :=
  (L.inodesPerGroup * L.inodeSize + L.blockSize - 1) / L.blockSize

/-- First block of a region. The superblock sits at byte 1024 whatever the block size. -/
def start (L : Layout) : Region → Nat
  | .super => 1024 / L.blockSize
  | .bgdt => L.bgdtBlock
  | .blockBitmap g => L.blockBitmap g
  | .inodeBitmap g => L.inodeBitmap g
  | .inodeTable g => L.inodeTable g

def len (L : Layout) : Region → Nat
  | .super => 1
  | .bgdt => L.bgdtBlocks
  | .blockBitmap _ => 1
  | .inodeBitmap _ => 1
  | .inodeTable _ => L.tableBlocks

def Valid (L : Layout) : Region → Prop
  | .super | .bgdt => True
  | .blockBitmap g | .inodeBitmap g | .inodeTable g => g < L.numGroups

def Within (L : Layout) (r : Region) (b : Nat) : Prop := L.start r ≤ b ∧ b < L.start r + L.len r

def isMeta (L : Layout) (b : Nat) : Bool :=
  b == 1024 / L.blockSize
  || (decide (L.bgdtBlock ≤ b) && decide (b < L.bgdtBlock + L.bgdtBlocks))
  || (List.range L.numGroups).any fun g =>
      b == L.blockBitmap g || b == L.inodeBitmap g
      || (decide (L.inodeTable g ≤ b) && decide (b < L.inodeTable g + L.tableBlocks))

def Meta (L : Layout) (b : Nat) : Prop := ∃ r, L.Valid r ∧ L.Within r b

theorem isMeta_iff (L : Layout) (b : Nat) : L.isMeta b = true ↔ L.Meta b := by
  simp only [isMeta, or_eq_true, beq_iff_eq, and_eq_true, decide_eq_true_eq, List.any_eq_true,
    List.mem_range]
  constructor
  · rintro ((h | h) | ⟨g, hg, (h | h) | h⟩)
    · exact ⟨.super, trivial, by simp only [Within, start, len]; omega⟩
    · exact ⟨.bgdt, trivial, h⟩
    · exact ⟨.blockBitmap g, hg, by simp only [Within, start, len]; omega⟩
    · exact ⟨.inodeBitmap g, hg, by simp only [Within, start, len]; omega⟩
    · exact ⟨.inodeTable g, hg, h⟩
  · rintro ⟨r, hv, hw⟩
    cases r with
    | super => simp only [Within, start, len] at hw; exact .inl (.inl (by omega))
    | bgdt => exact .inl (.inr hw)
    | blockBitmap g =>
      simp only [Within, start, len] at hw
      exact .inr ⟨g, hv, .inl (.inl (by omega))⟩
    | inodeBitmap g =>
      simp only [Within, start, len] at hw
      exact .inr ⟨g, hv, .inl (.inr (by omega))⟩
    | inodeTable g => exact .inr ⟨g, hv, .inr hw⟩

instance (L : Layout) (b : Nat) : Decidable (L.Meta b) := decidable_of_iff _ (L.isMeta_iff b)

/-- What the driver relies on about a mounted image's geometry. -/
structure Ok (L : Layout) : Prop where
  mounted : L.mounted = true
  blockSize : L.blockSize = 1024 ∨ L.blockSize = 2048 ∨ L.blockSize = 4096
  sectorsPerBlock : L.sectorsPerBlock = L.blockSize / 512
  blocksPerGroup : 0 < L.blocksPerGroup ∧ L.blocksPerGroup ≤ 8 * L.blockSize
  inodesPerGroup : 0 < L.inodesPerGroup ∧ L.inodesPerGroup ≤ 8 * L.blockSize
  inodeSize : 128 ≤ L.inodeSize ∧ L.inodeSize ∣ L.blockSize
  numGroups : L.numGroups = (L.totalBlocks + L.blocksPerGroup - 1) / L.blocksPerGroup
  totalInodes : L.totalInodes ≤ L.numGroups * L.inodesPerGroup
  /-- Inode numbers fit in 32 bits. -/
  inodes32 : L.numGroups * L.inodesPerGroup < 4294967296
  /-- Every sector of the image has a 32-bit number. -/
  sectors32 : L.totalBlocks * L.sectorsPerBlock ≤ 4294967296
  bgdtBlock : L.bgdtBlock = L.firstDataBlock + 1
  bgdtBlocks : L.bgdtBlocks = (L.numGroups * 32 + L.blockSize - 1) / L.blockSize
  inside : ∀ r b, L.Valid r → L.Within r b → b < L.totalBlocks
  nonzero : ∀ r, L.Valid r → r ≠ .super → L.start r ≠ 0
  disjoint : ∀ r r' b, L.Valid r → L.Valid r' → L.Within r b → L.Within r' b → r = r'

/-- The in-memory descriptor table names the layout's bitmaps and tables. -/
def Mounted (L : Layout) (d : Disk) : Prop := ∀ g, g < L.numGroups →
  bgBlockBitmap d.bgdt g = L.blockBitmap g ∧ bgInodeBitmap d.bgdt g = L.inodeBitmap g ∧
    bgInodeTable d.bgdt g = L.inodeTable g

namespace Ok
variable {L : Layout} (h : L.Ok)
include h

theorem bs_pos : 0 < L.blockSize := by rcases h.blockSize with e | e | e <;> omega

theorem bs_le : L.blockSize ≤ 4096 := by rcases h.blockSize with e | e | e <;> omega

theorem isMounted : ¬ L.mounted = false := by rw [h.mounted]; decide

theorem bs_eq : L.sectorsPerBlock * 512 = L.blockSize := by
  rw [h.sectorsPerBlock]; rcases h.blockSize with e | e | e <;> rw [e]

theorem spb_pos : 2 ≤ L.sectorsPerBlock := by
  rw [h.sectorsPerBlock]; rcases h.blockSize with e | e | e <;> rw [e] <;> decide

theorem total_le : L.totalBlocks ≤ 2147483648 := by
  have h1 := h.sectors32
  have h2 := h.spb_pos
  have : L.totalBlocks * 2 ≤ L.totalBlocks * L.sectorsPerBlock := mul_le_mul_left _ h2
  omega

theorem base_eq (hb : b < L.totalBlocks) : Disk.base L.fs b = b * L.blockSize := by
  have h1 := h.sectors32
  have h2 := h.spb_pos
  have : b * L.sectorsPerBlock < L.totalBlocks * L.sectorsPerBlock :=
    mul_lt_mul_of_pos_right hb (by omega)
  rw [Disk.base, u32_of_lt (by omega), mul_assoc, h.bs_eq]

theorem base_sep (hb : b < L.totalBlocks) (hc : c < L.totalBlocks) (hne : b ≠ c) :
    Disk.base L.fs b + L.blockSize ≤ Disk.base L.fs c ∨
      Disk.base L.fs c + L.blockSize ≤ Disk.base L.fs b := by
  rw [h.base_eq hb, h.base_eq hc]
  exact mul_far hne L.blockSize

end Ok
end Layout

/-! ## Reading a block after a write -/

namespace Disk
variable {L : Layout} {d : Disk}

theorem block_setBlock_self (fs : Fs) (b : Nat) (data : Buf) :
    (d.setBlock fs b data).block fs b = trunc fs.blockSize data := by
  apply trunc_congr
  intro i _ hi
  simp only [setBlock, copy]
  rw [if_pos (by omega), Nat.add_sub_cancel_left]

theorem block_setBlock_ne (h : L.Ok) (hb : b < L.totalBlocks)
    (hc : c < L.totalBlocks) (hne : b ≠ c) (data : Buf) :
    (d.setBlock L.fs b data).block L.fs c = d.block L.fs c := by
  apply trunc_congr
  intro i _ hi
  have := h.base_sep hb hc hne
  simp only [setBlock, copy]
  rw [if_neg (by omega)]

/-! ## The common tail of the allocator functions -/

/-- The disk after `bgdt = B; ext2_bgdt_write_back(); ext2_super_adjust_free(δ, ε)`. -/
def commit (fs : Fs) (d : Disk) (B : Buf) (δ ε : Int) : Disk :=
  let bytes := copy d.bytes (fs.bgdtBlock * fs.blockSize) B (fs.bgdtBlocks * fs.blockSize)
  { bytes := put32 (put32 bytes 1036 (addDelta (get32 bytes 1036) δ)) 1040
      (addDelta (get32 bytes 1040) ε)
    bgdt := B }

theorem run_bgdtWriteFrom (h : L.Ok) (B : Buf) : ∀ (n b : Nat) (d : Disk), 0 < L.bgdtBlock →
    L.bgdtBlock + b + n ≤ L.totalBlocks →
    Prog.run (Dev.step L.fs) (bgdtWriteFrom L.fs B n b) d =
      ((), ⟨copy d.bytes ((L.bgdtBlock + b) * L.blockSize)
        (fun i => B (b * L.blockSize + i)) (n * L.blockSize), d.bgdt⟩)
  | 0, b, d, _, _ => by
    have e : copy d.bytes ((L.bgdtBlock + b) * L.blockSize)
        (fun i => B (b * L.blockSize + i)) (0 * L.blockSize) = d.bytes := by
      funext a
      rw [copy, if_neg (by omega)]
    simp only [bgdtWriteFrom, run_pure, e]
  | n + 1, b, d, hpos, hle => by
    have ht := h.total_le
    have hu : u32 (L.bgdtBlock + b) = L.bgdtBlock + b := u32_of_lt (by omega)
    simp only [bgdtWriteFrom, run_bind, run_writeBlock, hu]
    rw [if_neg (by omega)]
    rw [run_bgdtWriteFrom h B n (b + 1) _ hpos (by omega)]
    simp only [setBlock, h.base_eq (show L.bgdtBlock + b < L.totalBlocks by omega)]
    congr 2
    funext a
    have e1 : (L.bgdtBlock + (b + 1)) * L.blockSize =
        (L.bgdtBlock + b) * L.blockSize + L.blockSize := by ring
    have e2 : (n + 1) * L.blockSize = L.blockSize + n * L.blockSize := by ring
    have e3 : (b + 1) * L.blockSize = b * L.blockSize + L.blockSize := by ring
    simp only [copy, e1, e2, e3]
    split
    · rw [if_pos (by omega)]; congr 1; omega
    · split
      · rw [if_pos (by omega)]
      · rw [if_neg (by omega)]

theorem bgdt_inside (h : L.Ok) : 0 < L.bgdtBlock ∧ L.bgdtBlock + L.bgdtBlocks ≤ L.totalBlocks := by
  have h0 : L.bgdtBlock ≠ 0 := h.nonzero .bgdt trivial (by simp)
  by_cases hn : L.bgdtBlocks = 0
  · have := h.bgdtBlocks
    have hs := h.inside .super _ trivial ⟨le_refl _, by simp [Layout.len]⟩
    have hb := h.bs_pos
    have hng : L.numGroups = 0 := by
      by_contra hc
      have : L.blockSize ≤ L.numGroups * 32 + L.blockSize - 1 := by omega
      have := div_pos this hb
      omega
    have hng' := h.numGroups
    have hp := h.blocksPerGroup.1
    have : L.blocksPerGroup ≤ L.totalBlocks + L.blocksPerGroup - 1 := by omega
    have := div_pos this hp
    omega
  · have := h.inside .bgdt (L.bgdtBlock + L.bgdtBlocks - 1) trivial
      ⟨by simp only [Layout.start]; omega, by simp only [Layout.start, Layout.len]; omega⟩
    omega

theorem run_bgdtWriteBack (h : L.Ok) (d : Disk) :
    Prog.run (Dev.step L.fs) (bgdtWriteBack L.fs) d =
      ((), ⟨copy d.bytes (L.bgdtBlock * L.blockSize) d.bgdt
        (L.bgdtBlocks * L.blockSize), d.bgdt⟩) := by
  have hb := bgdt_inside h
  simp only [bgdtWriteBack, h.mounted, Bool.not_true, Bool.false_eq_true, if_false, run_bind,
    run_getBgdt]
  rw [run_bgdtWriteFrom h d.bgdt _ 0 d hb.1 (by omega)]
  simp

theorem run_superAdjustFree (fs : Fs) (hm : fs.mounted = true) (δ ε : Int) (d : Disk) :
    Prog.run (Dev.step fs) (superAdjustFree fs δ ε) d =
      ((), ⟨put32 (put32 d.bytes 1036 (addDelta (get32 d.bytes 1036) δ)) 1040
        (addDelta (get32 d.bytes 1040) ε), d.bgdt⟩) := by
  have hraw : ∀ i, i < 1024 → rawSuper (d.sector 2) (d.sector 3) i = d.bytes (1024 + i) := by
    intro i hi
    simp only [rawSuper, sector, trunc]
    split
    · rfl
    · rw [if_pos (by omega)]
      exact congrArg d.bytes (by omega)
  have g12 : get32 (rawSuper (d.sector 2) (d.sector 3)) 12 = get32 d.bytes 1036 := by
    simp only [get32, hraw 12 (by omega), hraw 13 (by omega), hraw 14 (by omega), hraw 15 (by omega)]
  have g16 : get32 (rawSuper (d.sector 2) (d.sector 3)) 16 = get32 d.bytes 1040 := by
    simp only [get32, hraw 16 (by omega), hraw 17 (by omega), hraw 18 (by omega), hraw 19 (by omega)]
  simp only [superAdjustFree, hm, Bool.not_true, Bool.false_eq_true, if_false, run_bind,
    run_readSector, run_writeSector, run_pure, g12, g16, setSector]
  congr 2
  funext a
  simp only [copy, put32]
  by_cases h1 : 1024 ≤ a ∧ a < 2048
  · by_cases h2 : a < 1536
    · rw [if_neg (by omega), if_pos (by omega)]
      rw [hraw (a - 1024) (by omega),
        show 1024 + (a - 1024) = a by omega]
      by_cases h3 : 1040 ≤ a ∧ a < 1040 + 4
      · rw [if_pos (by omega), if_pos h3]
        exact congrArg _ (by omega)
      rw [if_neg (by omega), if_neg h3]
      by_cases h4 : 1036 ≤ a ∧ a < 1036 + 4
      · rw [if_pos (by omega), if_pos h4]
        exact congrArg _ (by omega)
      · rw [if_neg (by omega), if_neg h4]
    · rw [if_pos (by omega), if_neg (by omega), if_neg (by omega), if_neg (by omega),
        if_neg (by omega), hraw _ (by omega)]
      exact congrArg d.bytes (by omega)
  · rw [if_neg (by omega), if_neg (by omega), if_neg (by omega), if_neg (by omega)]

theorem run_commit (h : L.Ok) (d : Disk) (B : Buf) (δ ε : Int) :
    (Prog.run (Dev.step L.fs) (do
      Dev.setBgdt B
      bgdtWriteBack L.fs
      superAdjustFree L.fs δ ε) d).2 = d.commit L.fs B δ ε := by
  simp only [run_bind, run_setBgdt, run_bgdtWriteBack h, run_superAdjustFree _ h.mounted, commit]

theorem super_range (h : L.Ok) : 1024 / L.blockSize * L.blockSize ≤ 1024 ∧
    2048 ≤ 1024 / L.blockSize * L.blockSize + L.blockSize := by
  rcases h.blockSize with e | e | e <;> rw [e] <;> decide

theorem block_congr {d d' : Disk} {fs : Fs}
    (h : Same (base fs b) (base fs b + fs.blockSize) d'.bytes d.bytes) :
    d'.block fs b = d.block fs b :=
  trunc_congr fun i _ hi => h (base fs b + i) (by omega) (by omega)

theorem super_inside (h : L.Ok) : 1024 / L.blockSize < L.totalBlocks :=
  h.inside .super _ trivial ⟨le_refl _, by simp [Layout.len, Layout.start]⟩

@[simp] theorem commit_bgdt (fs : Fs) (B : Buf) (δ ε : Int) : (d.commit fs B δ ε).bgdt = B := rfl

theorem block_commit_ne (h : L.Ok) (B : Buf) (δ ε : Int) (hb : b < L.totalBlocks)
    (hs : ¬ L.Within .super b) (hg : ¬ L.Within .bgdt b) :
    (d.commit L.fs B δ ε).block L.fs b = d.block L.fs b := by
  apply block_congr
  intro a h1 h2
  have hsup := super_range h
  have hsep := h.base_sep hb (super_inside h) (by
    intro e; exact hs ⟨by simp only [Layout.start]; omega, by simp only [Layout.start, Layout.len]; omega⟩)
  rw [h.base_eq (super_inside h)] at hsep
  have hb' := h.base_eq hb
  have hout : a < L.bgdtBlock * L.blockSize ∨
      L.bgdtBlock * L.blockSize + L.bgdtBlocks * L.blockSize ≤ a := by
    simp only [Layout.Within, Layout.start, Layout.len, not_and_or, not_le, not_lt] at hg
    rcases hg with hg | hg
    · have := mul_step hg L.blockSize
      omega
    · have := mul_le_mul_right L.blockSize hg
      rw [add_mul] at this; omega
  simp only [commit]
  rw [put32_out (by omega), put32_out (by omega), copy, if_neg (by omega)]

theorem block_commit_bgdt (h : L.Ok) (B : Buf) (δ ε : Int) {k : Nat} (hk : k < L.bgdtBlocks) :
    (d.commit L.fs B δ ε).block L.fs (L.bgdtBlock + k) =
      trunc L.blockSize fun i => B (k * L.blockSize + i) := by
  have hin := bgdt_inside h
  have hb : L.bgdtBlock + k < L.totalBlocks := by omega
  have hbase := h.base_eq hb
  have hsup := super_range h
  have hsep := h.base_sep hb (super_inside h) (by
    intro e
    have := h.disjoint .super .bgdt (L.bgdtBlock + k) trivial trivial
      ⟨by simp only [Layout.start]; omega, by simp only [Layout.start, Layout.len]; omega⟩
      ⟨by simp only [Layout.start]; omega, by simp only [Layout.start, Layout.len]; omega⟩
    cases this)
  rw [h.base_eq (super_inside h)] at hsep
  have hk' := mul_step hk L.blockSize
  rw [add_mul] at hbase
  apply trunc_congr
  intro i _ hi
  simp only [commit]
  rw [put32_out (by omega), put32_out (by omega), copy, if_pos (by omega)]
  congr 1; omega

theorem super_commit (h : L.Ok) (B : Buf) (δ ε : Int) :
    get32 (d.commit L.fs B δ ε).bytes 1036 = addDelta (get32 d.bytes 1036) δ ∧
      get32 (d.commit L.fs B δ ε).bytes 1040 = addDelta (get32 d.bytes 1040) ε := by
  have hsup := super_range h
  have hlt : ∀ (n : Nat) (x : Int), addDelta n x < 4294967296 := by
    intro n x; simp only [addDelta]; omega
  have hcopy : Same 1024 2048
      (copy d.bytes (L.bgdtBlock * L.blockSize) B (L.bgdtBlocks * L.blockSize)) d.bytes := by
    by_cases hz : L.bgdtBlocks = 0
    · intro a _ _
      rw [copy, if_neg (by simp [hz])]
    apply copy_same
    by_contra hc
    -- the superblock's block would lie inside the descriptor table
    have hs1 : L.bgdtBlock ≤ 1024 / L.blockSize := by
      by_contra hlt
      have := mul_step (not_le.1 hlt) L.blockSize
      omega
    have hs2 : 1024 / L.blockSize < L.bgdtBlock + L.bgdtBlocks := by
      by_contra hge
      have := mul_le_mul_right L.blockSize (not_lt.1 hge)
      rw [add_mul] at this; omega
    have := h.disjoint .super .bgdt (1024 / L.blockSize) trivial trivial
      ⟨le_refl _, by simp [Layout.len, Layout.start]⟩ ⟨hs1, hs2⟩
    cases this
  have c1 := get32_congr (hcopy.mono (show 1024 ≤ 1036 by omega) (show 1036 + 4 ≤ 2048 by omega))
  have c2 := get32_congr (hcopy.mono (show 1024 ≤ 1040 by omega) (show 1040 + 4 ≤ 2048 by omega))
  simp only [commit]
  constructor
  · rw [get32_congr (put32_same (by omega)), get32_put32, mod_eq_of_lt (hlt _ _), c1]
  · rw [get32_put32, mod_eq_of_lt (hlt _ _), c2]

end Disk
end PureUnix.Ext2
