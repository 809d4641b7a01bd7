import PureUnix.Ext2.Encode

/-!
# One-group images

The layout `mke2fs` gives a small image: one block group with superblock, descriptor table, the two
bitmaps and the inode table in a row, data behind them. `Store.prefixed` fills such an image with
blocks and inodes allocated from the front. Concrete states used elsewhere are built from these.
-/
namespace PureUnix.Ext2
open Lib Nat
open Layout

variable {bs per total inodes : Nat}

/-- `s_first_data_block`: 1 for 1 KiB blocks, 0 otherwise. -/
def firstBlockOf (bs : Nat) : Nat := if bs = 1024 then 1 else 0

/-- One group with `total` blocks of `bs` bytes and `inodes` inodes; its bitmap has `per` bits. -/
def oneGroup (bs per total inodes : Nat) : Layout where
  fs := {
    mounted := true
    blockSize := bs
    sectorsPerBlock := bs / 512
    inodesPerGroup := inodes
    blocksPerGroup := per
    inodeSize := 128
    firstDataBlock := firstBlockOf bs
    numGroups := 1
    totalInodes := inodes
    totalBlocks := total
    bgdtBlock := firstBlockOf bs + 1
    bgdtBlocks := 1 }
  blockBitmap _ := firstBlockOf bs + 2
  inodeBitmap _ := firstBlockOf bs + 3
  inodeTable _ := firstBlockOf bs + 4

def oneGroupData (bs inodes : Nat) : Nat := firstBlockOf bs + 4 + (inodes * 128 + bs - 1) / bs

section
variable (hbs : bs = 1024 ∨ bs = 2048 ∨ bs = 4096)
include hbs

theorem oneGroup_ok
    (hi : 0 < inodes ∧ inodes ≤ 8 * bs) (ht : oneGroupData bs inodes ≤ total ∧ total ≤ per ∧ per ≤ 8 * bs) :
    (oneGroup bs per total inodes).Ok := by
  have hf : firstBlockOf bs = 1024 / bs := by rcases hbs with rfl | rfl | rfl <;> rfl
  have htb : 0 < (inodes * 128 + bs - 1) / bs := div_pos (by omega) (by omega)
  unfold oneGroupData at ht
  refine ⟨rfl, hbs, rfl, ⟨by simp only [oneGroup]; omega, ht.2.2⟩, hi, ⟨le_refl _, ?_⟩, ?_, by simp [oneGroup],
    by simp only [oneGroup]; omega, ?_, rfl, ?_, ?_, ?_, ?_⟩
  · rcases hbs with rfl | rfl | rfl <;> simp only [oneGroup] <;> decide
  · simp only [oneGroup]
    rw [Nat.div_eq_of_lt_le] <;> omega
  · simp only [oneGroup]
    have : total * (bs / 512) ≤ 32768 * 8 := Nat.mul_le_mul (by omega) (by omega)
    omega
  · simp only [oneGroup]
    rcases hbs with rfl | rfl | rfl <;> rfl
  · rintro r b hr ⟨h1, h2⟩
    cases r <;> simp only [start, len, tableBlocks, oneGroup] at h1 h2 ⊢ <;> omega
  · intro r hr hne
    cases r <;> simp only [start, oneGroup] <;> first | exact absurd rfl hne | omega
  · rintro r r' b hr hr' ⟨h1, h2⟩ ⟨h3, h4⟩
    cases r <;> cases r' <;>
      simp only [start, len, Layout.Valid, tableBlocks, oneGroup, ← hf] at h1 h2 h3 h4 hr hr' <;>
      first
      | rfl
      | (exfalso; omega)
      | (congr 1; omega)

theorem oneGroup_meta {b : Nat} :
    (oneGroup bs per total inodes).Meta b ↔ firstBlockOf bs ≤ b ∧ b < oneGroupData bs inodes := by
  have hf : firstBlockOf bs = 1024 / bs := by rcases hbs with rfl | rfl | rfl <;> rfl
  have hpos := zero_le ((inodes * 128 + bs - 1) / bs)
  unfold oneGroupData
  constructor
  · rintro ⟨r, hr, h1, h2⟩
    cases r <;> simp only [start, len, tableBlocks, oneGroup, ← hf] at h1 h2 <;> omega
  · rintro ⟨h1, h2⟩
    have hg := Nat.one_pos
    have hc : b = firstBlockOf bs ∨ b = firstBlockOf bs + 1 ∨ b = firstBlockOf bs + 2 ∨
      b = firstBlockOf bs + 3 ∨ firstBlockOf bs + 4 ≤ b := by omega
    rcases hc with rfl | rfl | rfl | rfl | hc
    · refine ⟨.super, trivial, ?_⟩
      simp only [Layout.Within, start, len, oneGroup, ← hf]; omega
    · refine ⟨.bgdt, trivial, ?_⟩
      simp only [Layout.Within, start, len, oneGroup]; omega
    · refine ⟨.blockBitmap 0, hg, ?_⟩
      simp only [Layout.Within, start, len, oneGroup]; omega
    · refine ⟨.inodeBitmap 0, hg, ?_⟩
      simp only [Layout.Within, start, len, oneGroup]; omega
    · refine ⟨.inodeTable 0, hg, ?_⟩
      simp only [Layout.Within, start, len, tableBlocks, oneGroup]; omega

theorem oneGroup_data {b : Nat} :
    (oneGroup bs per total inodes).Data b ↔ oneGroupData bs inodes ≤ b ∧ b < total := by
  unfold Layout.Data
  rw [oneGroup_meta hbs]
  have hpos := zero_le ((inodes * 128 + bs - 1) / bs)
  simp only [oneGroup]
  unfold oneGroupData
  omega

end

/-- Blocks below `k` and inodes `1 .. m` are in use. -/
def Store.prefixed (L : Layout) (k m : Nat) (inode : Nat → Inode) (data : Nat → Buf) : Store where
  blockUsed b := decide (L.firstDataBlock ≤ b ∧ b < k)
  inodeUsed ino := decide (ino ≠ 0 ∧ ino ≤ m)
  inode ino := if L.ValidIno ino then inode ino else Inode.empty
  data b := if L.Data b then trunc L.blockSize (data b) else zeros
  freeBlocks g := if g = 0 then L.totalBlocks - k else 0
  freeInodes g := if g = 0 then L.totalInodes - m else 0
  wild := false

section
variable {bs per total inodes k m : Nat} {inode : Nat → Inode} {data : Nat → Buf}
  (hbs : bs = 1024 ∨ bs = 2048 ∨ bs = 4096) (hi : 0 < inodes ∧ inodes ≤ 8 * bs)
  (ht : total ≤ per ∧ per ≤ 8 * bs) (hk : oneGroupData bs inodes ≤ k ∧ k ≤ total) (hm : m ≤ inodes)
include hbs hi ht hk hm

theorem prefixed_representable :
    (Store.prefixed (oneGroup bs per total inodes) k m inode data).Representable (oneGroup bs per total inodes) := by
  have hok := oneGroup_ok hbs hi ⟨by omega, ht⟩
  refine ⟨?_, ?_, ?_, ?_, ?_, ?_, rfl, ?_⟩
  · intro b hb
    simp only [Store.prefixed, decide_eq_true_eq] at hb
    refine ⟨hb.1, hok.groupOf_lt ?_⟩
    simp only [oneGroup]; omega
  · intro ino h
    simp only [Store.prefixed, decide_eq_true_eq] at h
    exact ⟨h.1, by simp only [oneGroup]; omega⟩
  · intro ino h
    simp only [Store.prefixed, if_neg h]
  · intro b
    simp only [Store.prefixed]
    split
    · rw [trunc_trunc]
    · rfl
  · intro g
    simp only [Store.prefixed, oneGroup]
    split <;> refine ⟨by omega, by omega⟩
  · intro g
    simp only [Store.prefixed, oneGroup]
    split <;> refine ⟨by omega, by omega⟩
  · simp only [oneGroup, firstBlockOf]
    split <;> omega

omit hbs hi hm in
theorem prefixed_nextBlock (hk' : k < total) :
    (Store.prefixed (oneGroup bs per total inodes) k m inode data).nextBlock (oneGroup bs per total inodes) = some (0, k) := by
  have hpos := zero_le ((inodes * 128 + bs - 1) / bs)
  have hd : firstBlockOf bs ≤ k := by unfold oneGroupData at hk; omega
  have hs : scanFree (Store.prefixed (oneGroup bs per total inodes) k m inode data).blockUsed
      ((oneGroup bs per total inodes).firstDataBlock + 0 * (oneGroup bs per total inodes).blocksPerGroup)
      (oneGroup bs per total inodes).totalBlocks (oneGroup bs per total inodes).blocksPerGroup 0 = some k := by
    refine scanFree_first ?_ hk' (by simp only [oneGroup]; omega) ?_ ?_
    · simp [Store.prefixed]
    · simp only [oneGroup, firstBlockOf]; split <;> omega
    · intro x h1 h2
      simp only [Store.prefixed, decide_eq_true_eq]
      exact ⟨by omega, h2⟩
  have hc : (Store.prefixed (oneGroup bs per total inodes) k m inode data).freeBlocks 0 ≠ 0 := by
    simp only [Store.prefixed, if_true, oneGroup]; omega
  change findFree _ _ 1 0 = _
  rw [findFree, if_neg hc, hs]

omit hi in
theorem prefixed_exact :
    (Store.prefixed (oneGroup bs per total inodes) k m inode data).Exact (oneGroup bs per total inodes) := by
  have hpos := zero_le ((inodes * 128 + bs - 1) / bs)
  have hd : firstBlockOf bs ≤ k := by unfold oneGroupData at hk; omega
  refine ⟨?_, ?_, ?_⟩
  · intro b h1 h2
    rw [oneGroup_meta hbs] at h2
    simp only [Store.prefixed, decide_eq_true_eq]
    exact ⟨h1, by omega⟩
  · intro g hg
    obtain rfl : g = 0 := by simpa [oneGroup] using hg
    refine Eq.trans ?_ (freeIn_below (k := k) (fun y hy => ?_) ?_ ?_ ?_).symm
    · rfl
    · simp only [Store.prefixed, decide_eq_true_eq]
      simp only [oneGroup] at hy ⊢; omega
    all_goals simp only [oneGroup]; omega
  · intro g hg
    obtain rfl : g = 0 := by simpa [oneGroup] using hg
    refine Eq.trans ?_ (freeIn_below (k := m + 1) (fun y hy => ?_) ?_ ?_ ?_).symm
    · simp only [Store.prefixed, oneGroup, if_true]; omega
    · simp only [Store.prefixed, decide_eq_true_eq]; omega
    all_goals simp only [oneGroup]; omega

end
end PureUnix.Ext2
