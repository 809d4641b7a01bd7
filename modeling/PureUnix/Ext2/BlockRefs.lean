import Mathlib.Data.List.Nodup
import PureUnix.Ext2.BlockMap
import PureUnix.Ext2.Decode

/-!
# The blocks an inode refers to

`Inode.blockRefs` lists the non-zero pointers of an inode: the blocks of its map and the indirect block
itself. `Added` says what a successful `ext2_inode_add_block` has done, `run_inodeAddBlock` that it
either has done that or has changed nothing, and `run_inodeFreeAllBlocks` that
`ext2_inode_free_all_blocks` frees exactly the references.
-/
namespace PureUnix.Ext2
open Lib List Nat
open Store (setData step takeBlock)
open Inode
open Function (update_apply)

variable {k g b c : Nat}

/-- All non-zero block numbers in the inode and in its indirect block. -/
def Inode.blockRefs (bs : Nat) (data : Nat → Buf) (i : Inode) : List Nat :=
  ((List.range (maxBlocks bs)).map (i.blockAt bs data) ++ [i.blkNo 12]).filter (· ≠ 0)

section
variable {bs : Nat} {data data' : Nat → Buf} {i i' : Inode} {b : Nat}

theorem Inode.mem_blockRefs : b ∈ i.blockRefs bs data ↔ b ≠ 0 ∧ ((∃ k, i.blockAt bs data k = b) ∨ b = i.blkNo 12) := by
  simp only [Inode.blockRefs, mem_filter, mem_append, mem_map, mem_range, mem_singleton, decide_eq_true_eq]
  constructor
  · rintro ⟨⟨k, -, hk⟩ | hb, h0⟩
    · exact ⟨h0, .inl ⟨k, hk⟩⟩
    · exact ⟨h0, .inr hb⟩
  · rintro ⟨h0, ⟨k, hk⟩ | hb⟩
    · refine ⟨.inl ⟨k, Nat.lt_of_not_le fun hle => h0 ?_, hk⟩, h0⟩
      rw [← hk, blockAt_far hle]
    · exact ⟨.inr hb, h0⟩

theorem Inode.blockAt_mem_refs (h : i.blockAt bs data k ≠ 0) : i.blockAt bs data k ∈ i.blockRefs bs data :=
  mem_blockRefs.2 ⟨h, .inl ⟨k, rfl⟩⟩

theorem Inode.indirect_mem_refs (h : i.blkNo 12 ≠ 0) : i.blkNo 12 ∈ i.blockRefs bs data :=
  mem_blockRefs.2 ⟨h, .inr rfl⟩

theorem Inode.nodup_blockRefs : (i.blockRefs bs data).Nodup ↔
      (∀ k k', i.blockAt bs data k ≠ 0 → i.blockAt bs data k = i.blockAt bs data k' → k = k') ∧
      ∀ k, i.blockAt bs data k ≠ 0 → i.blockAt bs data k ≠ i.blkNo 12 := by
  unfold Inode.blockRefs List.Nodup
  rw [pairwise_filter, pairwise_append, pairwise_map]
  constructor
  · rintro ⟨h1, -, h3⟩
    have hlt : ∀ k, i.blockAt bs data k ≠ 0 → k < maxBlocks bs := fun k hk =>
      Nat.lt_of_not_le fun hle => hk (blockAt_far hle)
    have hne : ∀ k k', k < k' → i.blockAt bs data k ≠ 0 → i.blockAt bs data k ≠ i.blockAt bs data k' := by
      intro k k' hkk hk he
      have hk' : i.blockAt bs data k' ≠ 0 := by rwa [← he]
      rw [pairwise_iff_getElem] at h1
      have := h1 k k' (by simpa using hlt k hk) (by simpa using hlt k' hk') hkk
      simp only [getElem_range, decide_eq_true_eq] at this
      exact this hk hk' he
    refine ⟨fun k k' hk he => ?_, fun k hk he => ?_⟩
    · rcases lt_trichotomy k k' with h | h | h
      · exact absurd he (hne k k' h hk)
      · exact h
      · exact absurd he.symm (hne k' k h (by rwa [← he]))
    · refine h3 _ (mem_map.2 ⟨k, mem_range.2 (hlt k hk), rfl⟩) _ (mem_singleton.2 rfl) ?_ ?_ he
      · simpa using hk
      · rw [← he]; simpa using hk
  · rintro ⟨h1, h2⟩
    refine ⟨?_, pairwise_singleton _ _, ?_⟩
    · rw [pairwise_iff_getElem]
      intro k k' hk hk' hlt
      simp only [getElem_range, decide_eq_true_eq]
      intro h0 _ he
      exact absurd (h1 k k' h0 he) (by omega)
    · intro a ha c hc hp _
      obtain ⟨k, -, rfl⟩ := mem_map.1 ha
      rw [mem_singleton.1 hc]
      exact h2 k (by simpa using hp)

theorem Inode.blockRefs_congr (h : i.blkNo 12 ≠ 0 → data' (i.blkNo 12) = data (i.blkNo 12)) :
    i.blockRefs bs data' = i.blockRefs bs data := by
  unfold Inode.blockRefs
  rw [map_congr_left fun k _ => blockAt_congr h k]

theorem Inode.blkNo_of_iBlock (h : i'.iBlock = i.iBlock) (k : Nat) : i'.blkNo k = i.blkNo k := by
  unfold blkNo; rw [h]

theorem Inode.blockAt_of_iBlock (h : i'.iBlock = i.iBlock) (k : Nat) : i'.blockAt bs data k = i.blockAt bs data k := by
  simp only [blockAt, blkNo_of_iBlock h]

theorem Inode.blockRefs_of_iBlock (h : i'.iBlock = i.iBlock) : i'.blockRefs bs data = i.blockRefs bs data := by
  unfold Inode.blockRefs
  rw [blkNo_of_iBlock h, map_congr_left fun k _ => blockAt_of_iBlock h k]

end

/-! ## Fresh blocks -/

namespace Store
variable {L : Layout} {v : Store}

/-- Every metadata block with a bitmap bit is marked used. -/
def MetaUsed (L : Layout) (v : Store) : Prop := ∀ b, L.firstDataBlock ≤ b → L.Meta b → v.blockUsed b = true

theorem takeBlock_data (hb : L.Data b) (hc : c ≠ b) : (v.takeBlock L g b).data c = v.data c := by
  simp only [takeBlock, if_pos hb, update_of_ne hc]

theorem blockUsed_takeBlock : (v.takeBlock L g b).blockUsed c = true ↔ c = b ∨ v.blockUsed c = true := by
  simp only [takeBlock, update_apply]
  by_cases hc : c = b <;> simp [hc]

theorem MetaUsed.takeBlock (h : v.MetaUsed L) (g b : Nat) : (v.takeBlock L g b).MetaUsed L :=
  fun c h1 h2 => blockUsed_takeBlock.2 (.inr (h c h1 h2))

theorem nextBlock_spec (h : L.Ok) (hm : v.MetaUsed L) (hb : v.nextBlock L = some (g, b)) :
    L.Data b ∧ v.blockUsed b = false ∧ L.groupOf b = g := by
  obtain ⟨-, hg, -, hs⟩ := findFree_some hb
  obtain ⟨h1, h2, h3, h4⟩ := scanFree_some hs
  refine ⟨⟨by omega, h3, fun hmb => ?_⟩, h4, (h.groupOf_scan hs).1⟩
  rw [hm b (by omega) hmb] at h4
  cases h4

end Store

/-! ## `ext2_inode_add_block` -/

section
variable {L : Layout} {v v' : Store} {i i' : Inode} {idx blk : Nat}

/-- Where the pointer to a new block goes. -/
inductive AddedWhere (L : Layout) (v : Store) (i : Inode) (idx blk : Nat) : Store → Inode → Prop where
  | direct : idx < 12 → AddedWhere L v i idx blk v ((i.setBlk idx blk).addSectors L.fs)
  | indirect : 12 ≤ idx → idx < maxBlocks L.blockSize → i.blkNo 12 ≠ 0 →
    AddedWhere L v i idx blk (v.setData L (i.blkNo 12) (put32 (v.data (i.blkNo 12)) (4 * (idx - 12)) blk)) (i.addSectors L.fs)
  | fresh (g ind : Nat) : 12 ≤ idx → idx < maxBlocks L.blockSize → i.blkNo 12 = 0 →
    v.nextBlock L = some (g, ind) →
    AddedWhere L v i idx blk ((v.takeBlock L g ind).setData L ind (put32 zeros (4 * (idx - 12)) blk))
      (((i.setBlk 12 ind).addSectors L.fs).addSectors L.fs)

/-- The pointer can be placed: its index is in range and an indirect block exists or can be had. -/
def CanAdd (L : Layout) (v : Store) (i : Inode) (idx : Nat) : Prop :=
  idx < 12 ∨ (idx < maxBlocks L.blockSize ∧ (i.blkNo 12 ≠ 0 ∨ v.nextBlock L ≠ none))

theorem AddedWhere.canAdd (ha : AddedWhere L v i idx blk v' i') : CanAdd L v i idx := by
  cases ha with
  | direct h1 => exact .inl h1
  | indirect _ h2 h0 => exact .inr ⟨h2, .inl h0⟩
  | fresh g ind _ h2 _ hn => exact .inr ⟨h2, .inr (by rw [hn]; exact Option.some_ne_none _)⟩

theorem Layout.Ok.data_lt (h : L.Ok) (hb : L.Data b) : b < 4294967296 := by
  have h1 := hb.2.1
  have h2 := h.total_le
  omega

theorem blkNo_fresh {ind : Nat} (hlt : ind < 4294967296) (fs : Fs) : (((i.setBlk 12 ind).addSectors fs).addSectors fs).blkNo 12 = ind :=
  (blkNo_setBlk (by decide) hlt 12).trans (if_pos rfl)

variable (idx blk) in
/-- `ext2_inode_add_block` places the pointer if it can, and changes nothing if it cannot. -/
theorem run_inodeAddBlock (h : L.Ok) (h12 : i.blkNo 12 ≠ 0 → L.Data (i.blkNo 12))
    (hnext : ∀ g b, v.nextBlock L = some (g, b) → L.Data b) :
    (∃ v' i', AddedWhere L v i idx blk v' i' ∧ run (step L) (inodeAddBlock L.fs i idx blk) v = ((true, i'), v')) ∨
    (¬ CanAdd L v i idx ∧ run (step L) (inodeAddBlock L.fs i idx blk) v = ((false, i), v)) := by
  unfold inodeAddBlock
  by_cases h1 : idx < 12
  · rw [if_pos h1]
    exact .inl ⟨_, _, .direct h1, rfl⟩
  rw [if_neg h1]
  by_cases h2 : ptrsPerBlock L.fs ≤ idx - 12
  · rw [if_pos h2]
    refine .inr ⟨?_, rfl⟩
    unfold CanAdd maxBlocks
    unfold ptrsPerBlock at h2
    omega
  rw [if_neg h2]
  have hmax : idx < maxBlocks L.blockSize := by
    unfold maxBlocks
    unfold ptrsPerBlock at h2
    omega
  unfold ensureIndirect
  by_cases h0 : i.blkNo 12 = 0
  · rw [if_pos h0, run_bind, run_bind]
    cases hn : v.nextBlock L with
    | none =>
      rw [Drv.run_allocBlock_none hn]
      refine .inr ⟨?_, rfl⟩
      rintro (hc | ⟨-, hc | hc⟩)
      · exact h1 hc
      · exact hc h0
      · exact hc hn
    | some gb =>
      obtain ⟨g, ind⟩ := gb
      have hd := hnext g ind hn
      have hblk : ((i.setBlk 12 ind).addSectors L.fs).blkNo 12 = ind := blkNo_fresh (i := i) (h.data_lt hd) L.fs
      have hzero : (v.takeBlock L g ind).data ind = zeros := by
        simp only [takeBlock, if_pos hd, update_self]
      rw [Drv.run_allocBlock_some hn]
      simp only [run_pure, Bool.true_eq_false, if_false, run_bind, hblk,
        Drv.run_readBlock (h.data_ne_zero hd) hd, Drv.run_writeBlock (h.data_ne_zero hd) hd, hzero, if_true]
      exact .inl ⟨_, _, .fresh g ind (by omega) hmax h0 hn, rfl⟩
  · rw [if_neg h0]
    have hd := h12 h0
    simp only [run_pure, Bool.true_eq_false, if_false, run_bind, Drv.run_readBlock h0 hd, Drv.run_writeBlock h0 hd, if_true]
    exact .inl ⟨_, _, .indirect (by omega) hmax h0, rfl⟩

theorem get32_setData {L : Layout} (v : Store) (b c k : Nat) (buf : Buf) (hk : k < L.blockSize / 4) :
    get32 ((v.setData L b buf).data c) (4 * k) = if c = b then get32 buf (4 * k) else get32 (v.data c) (4 * k) := by
  simp only [setData, update_apply]
  split
  · exact get32_congr ((trunc_same _ _).mono (by omega) (by omega))
  · rfl

namespace AddedWhere

theorem idx_lt (ha : AddedWhere L v i idx blk v' i') : idx < maxBlocks L.blockSize := by
  cases ha with
  | direct h1 => unfold maxBlocks; omega
  | indirect _ h2 _ => exact h2
  | fresh g ind _ h2 _ _ => exact h2

theorem fields (ha : AddedWhere L v i idx blk v' i') : i' = { i with iBlock := i'.iBlock, iBlocks := i'.iBlocks } := by
  cases ha <;> rfl

theorem blkNo_direct {fs : Fs} (h1 : idx < 12) : ((i.setBlk idx blk).addSectors fs).blkNo 12 = i.blkNo 12 := by
  change (i.setBlk idx blk).blkNo 12 = _
  unfold blkNo setBlk
  simp [show ¬ 12 = idx by omega]

theorem indirect_cases (h : L.Ok) (hnext : ∀ g b, v.nextBlock L = some (g, b) → L.Data b) (ha : AddedWhere L v i idx blk v' i') :
    i'.blkNo 12 = i.blkNo 12 ∨ (i.blkNo 12 = 0 ∧ ∃ g, v.nextBlock L = some (g, i'.blkNo 12)) := by
  cases ha with
  | direct h1 => exact .inl (blkNo_direct h1)
  | indirect _ _ _ => exact .inl rfl
  | fresh g ind _ _ h0 hn =>
    right
    refine ⟨h0, g, ?_⟩
    rwa [blkNo_fresh (h.data_lt (hnext g ind hn))]

theorem data_same (ha : AddedWhere L v i idx blk v' i') (hc : c ≠ i'.blkNo 12)
    (hnext : ∀ g b, v.nextBlock L = some (g, b) → b < 4294967296) : v'.data c = v.data c := by
  cases ha with
  | direct _ => rfl
  | indirect _ _ _ =>
    change c ≠ i.blkNo 12 at hc
    simp only [setData, update_of_ne hc]
  | fresh g ind _ _ _ hn =>
    rw [blkNo_fresh (hnext g ind hn)] at hc
    simp only [setData, takeBlock, update_of_ne hc]
    split
    · rw [update_of_ne hc]
    · rfl

theorem rest (h : L.Ok) (hnext : ∀ g b, v.nextBlock L = some (g, b) → L.Data b) (ha : AddedWhere L v i idx blk v' i') :
    v'.inode = v.inode ∧ v'.inodeUsed = v.inodeUsed ∧ v'.wild = v.wild ∧ (∀ c, v.blockUsed c = true → v'.blockUsed c = true) ∧
      (i'.blkNo 12 = i.blkNo 12 ∨ v'.blockUsed (i'.blkNo 12) = true) ∧
      ∀ c, v'.blockUsed c = true → v.blockUsed c = true ∨ c = i'.blkNo 12 := by
  cases ha with
  | direct h1 =>
    exact ⟨rfl, rfl, rfl, fun _ h => h, .inl (blkNo_direct h1), fun _ h => .inl h⟩
  | indirect _ _ _ => exact ⟨rfl, rfl, rfl, fun _ h => h, .inl rfl, fun _ h => .inl h⟩
  | fresh g ind _ _ h0 hn =>
    have hd := hnext g ind hn
    rw [blkNo_fresh (h.data_lt hd)]
    refine ⟨rfl, rfl, ?_, ?_, .inr ?_, ?_⟩
    · simp [setData, takeBlock, hd]
    · intro c hc
      simp only [setData, takeBlock, update_apply]
      split
      · rfl
      · exact hc
    · simp only [setData, takeBlock, update_self]
    · intro c hc
      simp only [setData, takeBlock, update_apply] at hc
      split at hc
      · exact .inr ‹_›
      · exact .inl hc

theorem blockAt (h : L.Ok) (hblk : blk < 4294967296) (hnext : ∀ g b, v.nextBlock L = some (g, b) → L.Data b)
    (ha : AddedWhere L v i idx blk v' i') (k : Nat) :
    i'.blockAt L.blockSize v'.data k = if k = idx then blk else i.blockAt L.blockSize v.data k := by
  have hsec : ∀ (j : Inode) (n : Nat), (j.addSectors L.fs).blkNo n = j.blkNo n := fun _ _ => rfl
  cases ha with
  | direct h1 =>
    have h12 : ((i.setBlk idx blk).addSectors L.fs).blkNo 12 = i.blkNo 12 := by
      rw [hsec, blkNo_setBlk (by omega) hblk, if_neg (by omega)]
    by_cases hk : k < 12
    · rw [blockAt_direct hk, blockAt_direct hk, hsec, blkNo_setBlk (by omega) hblk]
    · rw [if_neg (by omega)]
      simp only [blockAt, h12, if_neg hk]
  | indirect h1 h2 h0 =>
    unfold maxBlocks at h2
    by_cases hk : k < 12
    · rw [blockAt_direct hk, blockAt_direct hk, hsec, if_neg (by omega)]
    by_cases hf : maxBlocks L.blockSize ≤ k
    · rw [blockAt_far hf, blockAt_far hf, if_neg (by unfold maxBlocks at hf; omega)]
    unfold maxBlocks at hf
    obtain ⟨p, rfl⟩ : ∃ p, k = 12 + p := ⟨k - 12, by omega⟩
    rw [blockAt_ptr (by rw [hsec]; exact h0) (by omega), blockAt_ptr h0 (by omega), hsec,
      get32_setData _ _ _ _ _ (by omega), if_pos rfl]
    by_cases hp : 12 + p = idx
    · rw [if_pos hp, ← hp, Nat.add_sub_cancel_left, get32_put32, Nat.mod_eq_of_lt hblk]
    · rw [if_neg hp, get32_put32_ne (by omega)]
  | fresh g ind h1 h2 h0 hn =>
    unfold maxBlocks at h2
    have hd := hnext g ind hn
    have hblk12 := blkNo_fresh (i := i) (h.data_lt hd) L.fs
    by_cases hk : k < 12
    · rw [blockAt_direct hk, blockAt_direct hk, hsec, hsec, if_neg (by omega),
        blkNo_setBlk (by decide) (h.data_lt hd), if_neg (by omega)]
    by_cases hf : maxBlocks L.blockSize ≤ k
    · rw [blockAt_far hf, blockAt_far hf, if_neg (by unfold maxBlocks at hf; omega)]
    unfold maxBlocks at hf
    obtain ⟨p, rfl⟩ : ∃ p, k = 12 + p := ⟨k - 12, by omega⟩
    rw [blockAt_ptr (by rw [hblk12]; exact h.data_ne_zero hd) (by omega), hblk12,
      blockAt_no_indirect h0 (by omega), get32_setData _ _ _ _ _ (by omega), if_pos rfl]
    by_cases hp : 12 + p = idx
    · rw [if_pos hp, ← hp, Nat.add_sub_cancel_left, get32_put32, Nat.mod_eq_of_lt hblk]
    · rw [if_neg hp, get32_put32_ne (by omega), get32_zeros]

end AddedWhere

/-- `blk` and what the allocator hands out next are data blocks that are new to the inode. -/
structure NewTo (L : Layout) (v : Store) (i : Inode) (blk : Nat) : Prop where
  data : L.Data blk
  notMem : blk ∉ i.blockRefs L.blockSize v.data
  next : ∀ g c, v.nextBlock L = some (g, c) → L.Data c ∧ c ≠ blk ∧ c ∉ i.blockRefs L.blockSize v.data

theorem NewTo.ne_blockAt (hf : NewTo L v i blk) (h0 : i.blockAt L.blockSize v.data k ≠ 0) :
    i.blockAt L.blockSize v.data k ≠ blk := by
  rintro rfl
  exact hf.notMem (blockAt_mem_refs h0)

/-- A block fresh from the allocator is new to an inode whose blocks are in use. -/
theorem NewTo.take (h : L.Ok) (hmeta : v.MetaUsed L) (hused : ∀ c ∈ i.blockRefs L.blockSize v.data, v.blockUsed c = true)
    (hb : v.nextBlock L = some (g, b)) : NewTo L (v.takeBlock L g b) i b ∧
      (i.blkNo 12 ≠ 0 → (v.takeBlock L g b).data (i.blkNo 12) = v.data (i.blkNo 12)) := by
  obtain ⟨hbd, hfree, -⟩ := v.nextBlock_spec h hmeta hb
  have hnot : b ∉ i.blockRefs L.blockSize v.data := fun hm => by
    rw [hused b hm] at hfree
    cases hfree
  have hkeep : i.blkNo 12 ≠ 0 → (v.takeBlock L g b).data (i.blkNo 12) = v.data (i.blkNo 12) := fun h0 =>
    Store.takeBlock_data hbd fun he => hnot (he ▸ indirect_mem_refs h0)
  have hrefs : i.blockRefs L.blockSize (v.takeBlock L g b).data = i.blockRefs L.blockSize v.data := blockRefs_congr hkeep
  refine ⟨⟨hbd, by rwa [hrefs], fun g' c hc => ?_⟩, hkeep⟩
  obtain ⟨hcd, hcfree, -⟩ := (v.takeBlock L g b).nextBlock_spec h (hmeta.takeBlock g b) hc
  rw [← Bool.not_eq_true, Store.blockUsed_takeBlock, not_or] at hcfree
  rw [hrefs]
  exact ⟨hcd, hcfree.1, fun hm => hcfree.2 (hused c hm)⟩

namespace AddedWhere
variable (h : L.Ok) (hf : NewTo L v i blk) (ha : AddedWhere L v i idx blk v' i')
include h hf ha

theorem blockAt_new (k : Nat) :
    i'.blockAt L.blockSize v'.data k = if k = idx then blk else i.blockAt L.blockSize v.data k :=
  ha.blockAt h (h.data_lt hf.data) (fun g c hc => (hf.next g c hc).1) k

theorem indirect_ne (hn : (i.blockRefs L.blockSize v.data).Nodup) : i'.blkNo 12 ≠ blk ∧
    ∀ k, i.blockAt L.blockSize v.data k ≠ 0 → i.blockAt L.blockSize v.data k ≠ i'.blkNo 12 := by
  rcases ha.indirect_cases h fun g c hc => (hf.next g c hc).1 with he | ⟨-, g, hc⟩
  · rw [he]
    refine ⟨fun hb => hf.notMem (hb ▸ indirect_mem_refs ?_), (nodup_blockRefs.1 hn).2⟩
    rw [hb]
    exact h.data_ne_zero hf.data
  · obtain ⟨-, hne, hnot⟩ := hf.next g _ hc
    exact ⟨hne, fun k hk he => hnot (he ▸ blockAt_mem_refs hk)⟩

theorem nodup_refs (hn : (i.blockRefs L.blockSize v.data).Nodup) : (i'.blockRefs L.blockSize v'.data).Nodup := by
  obtain ⟨hneb, hav⟩ := indirect_ne h hf ha hn
  refine nodup_blockRefs.2 ⟨fun k k' => ?_, fun k => ?_⟩
  · rw [blockAt_new h hf ha, blockAt_new h hf ha]
    by_cases hki : k = idx <;> by_cases hki' : k' = idx
    · exact fun _ _ => hki.trans hki'.symm
    · rw [if_pos hki, if_neg hki']
      exact fun h0 he => absurd he.symm (hf.ne_blockAt (he ▸ h0))
    · rw [if_neg hki, if_pos hki']
      exact fun hk he => absurd he (hf.ne_blockAt hk)
    · rw [if_neg hki, if_neg hki']
      exact (nodup_blockRefs.1 hn).1 k k'
  · rw [blockAt_new h hf ha]
    split
    · exact fun _ => hneb.symm
    · exact hav k

theorem mem_refs : c ∈ i'.blockRefs L.blockSize v'.data ↔
    c = blk ∨ (c ≠ 0 ∧ ((∃ k, k ≠ idx ∧ i.blockAt L.blockSize v.data k = c) ∨ c = i'.blkNo 12)) := by
  rw [mem_blockRefs]
  constructor
  · rintro ⟨h0, ⟨k, hk⟩ | hc⟩
    · rw [blockAt_new h hf ha] at hk
      split at hk
      · exact .inl hk.symm
      · exact .inr ⟨h0, .inl ⟨k, ‹_›, hk⟩⟩
    · exact .inr ⟨h0, .inr hc⟩
  · rintro (rfl | ⟨h0, ⟨k, hk, hc⟩ | hc⟩)
    · exact ⟨h.data_ne_zero hf.data, .inl ⟨idx, by rw [blockAt_new h hf ha, if_pos rfl]⟩⟩
    · exact ⟨h0, .inl ⟨k, by rw [blockAt_new h hf ha, if_neg hk, hc]⟩⟩
    · exact ⟨h0, .inr hc⟩

theorem refs_cases (hc : c ∈ i'.blockRefs L.blockSize v'.data) : c = blk ∨ c ∈ i.blockRefs L.blockSize v.data ∨
    v'.blockUsed c = true ∧ ∃ g, v.nextBlock L = some (g, c) := by
  have hnext : ∀ g b, v.nextBlock L = some (g, b) → L.Data b := fun g b hb => (hf.next g b hb).1
  rcases (mem_refs h hf ha).1 hc with rfl | ⟨h0, ⟨k, -, rfl⟩ | rfl⟩
  · exact .inl rfl
  · exact .inr (.inl (blockAt_mem_refs h0))
  · rcases ha.indirect_cases h hnext with he | ⟨hz, g, hg⟩
    · rw [he] at h0 ⊢
      exact .inr (.inl (indirect_mem_refs h0))
    · refine .inr (.inr ⟨?_, g, hg⟩)
      exact (ha.rest h hnext).2.2.2.2.1.resolve_left fun he => h0 (he.trans hz)

end AddedWhere
end

/-! ## `ext2_inode_free_all_blocks` -/

/-- The inode `ext2_inode_free_all_blocks` leaves in memory. -/
def Inode.cleared (i : Inode) : Inode :=
  { i with iBlock := fun j => if j.val < 13 then 0 else i.iBlock j, iBlocks := 0, iSize := 0 }

/-- Free a list of blocks one after the other. -/
def Store.dropBlocks (L : Layout) (v : Store) (l : List Nat) : Store := l.foldl (Store.dropBlock L) v

section
variable {L : Layout}

theorem run_freePtrs : ∀ (ps : List Nat) (v : Store), run (step L) (freePtrs ps) v = ((), v.dropBlocks L (ps.filter (· ≠ 0)))
  | [], _ => rfl
  | p :: ps, v => by
    rw [freePtrs]
    by_cases hp : p ≠ 0
    · rw [if_pos hp, run_bind, run_freePtrs ps, filter_cons_of_pos (by simpa using hp)]
      rfl
    · rw [if_neg hp, run_freePtrs ps, filter_cons_of_neg (by simpa using hp)]

/-- `i_block[k] = 0` for the given `k`. -/
def Inode.clearDirect (i : Inode) (ks : List Nat) : Inode :=
  { i with iBlock := fun j => if j.val ∈ ks then 0 else i.iBlock j }

theorem Inode.clearDirect_cons (i : Inode) (k : Nat) (ks : List Nat) :
    (i.setBlk k 0).clearDirect ks = i.clearDirect (k :: ks) := by
  unfold Inode.clearDirect setBlk
  congr 1
  funext j
  by_cases h1 : j.val ∈ ks
  · simp [h1]
  · by_cases h2 : j.val = k <;> simp [h1, h2]

theorem run_freeDirect : ∀ (ks : List Nat) (i : Inode) (v : Store), ks.Nodup → (∀ k ∈ ks, k < 15) →
    run (step L) (freeDirect ks i) v = (i.clearDirect ks, v.dropBlocks L ((ks.map i.blkNo).filter (· ≠ 0)))
  | [], i, v, _, _ => by simp [freeDirect, Inode.clearDirect, Store.dropBlocks]
  | k :: ks, i, v, hn, hk => by
    obtain ⟨hnot, hn'⟩ := nodup_cons.1 hn
    have hk' : ∀ j ∈ ks, j < 15 := fun j hj => hk j (mem_cons_of_mem _ hj)
    have hmap : ks.map (i.setBlk k 0).blkNo = ks.map i.blkNo := by
      refine map_congr_left fun j hj => ?_
      rw [blkNo_setBlk (hk k (by simp)) (by decide), if_neg (by rintro rfl; exact hnot hj)]
    rw [freeDirect, map_cons]
    by_cases h0 : i.blkNo k ≠ 0
    · rw [if_pos h0, run_bind, run_freeDirect ks _ _ hn' hk', clearDirect_cons, hmap,
        filter_cons_of_pos (by simpa using h0)]
      rfl
    · rw [if_neg h0, run_freeDirect ks _ _ hn' hk', filter_cons_of_neg (by simpa using h0)]
      rw [← clearDirect_cons, setBlk_zero (hk k (by simp)) (not_not.1 h0)]

theorem Store.dropBlock_rest (L : Layout) (v : Store) (b : Nat) :
    (v.dropBlock L b).data = v.data ∧ (v.dropBlock L b).inode = v.inode ∧
      (v.dropBlock L b).inodeUsed = v.inodeUsed ∧ (v.dropBlock L b).wild = v.wild ∧
      (v.dropBlock L b).freeInodes = v.freeInodes := by
  unfold Store.dropBlock
  split <;> exact ⟨rfl, rfl, rfl, rfl, rfl⟩

theorem Store.dropBlocks_data (L : Layout) (v : Store) (l : List Nat) : (v.dropBlocks L l).data = v.data := by
  induction l generalizing v with
  | nil => rfl
  | cons b l ih => exact (ih (v.dropBlock L b)).trans (Store.dropBlock_rest L v b).1

theorem Store.dropBlocks_used (L : Layout) (v : Store) (l : List Nat) : (v.dropBlocks L l).inodeUsed = v.inodeUsed := by
  induction l generalizing v with
  | nil => rfl
  | cons b l ih => exact (ih (v.dropBlock L b)).trans (Store.dropBlock_rest L v b).2.2.1

theorem Store.dropBlocks_append (L : Layout) (v : Store) (l l' : List Nat) :
    v.dropBlocks L (l ++ l') = (v.dropBlocks L l).dropBlocks L l' := foldl_append

theorem Inode.blockRefs_eq (bs : Nat) (data : Nat → Buf) (i : Inode) : i.blockRefs bs data = i.direct.filter (· ≠ 0) ++
      if i.blkNo 12 = 0 then [] else (ptrs (data (i.blkNo 12)) (bs / 4)).filter (· ≠ 0) ++ [i.blkNo 12] := by
  have hd : (range 12).map (i.blockAt bs data) = i.direct :=
    map_congr_left fun k hk => blockAt_direct (mem_range.1 hk)
  unfold Inode.blockRefs maxBlocks
  rw [range_add, map_append, filter_append, filter_append, append_assoc, map_map]
  congr 1
  by_cases h0 : i.blkNo 12 = 0
  · rw [if_pos h0, h0]
    simp only [ne_eq, decide_not, append_eq_nil_iff, filter_eq_nil_iff]
    refine ⟨fun b hb => ?_, by simp⟩
    obtain ⟨k, -, rfl⟩ := mem_map.1 hb
    simp [blockAt_no_indirect h0]
  · rw [if_neg h0]
    congr 1
    · congr 1
      exact map_congr_left fun k hk => blockAt_ptr h0 (mem_range.1 hk)
    · simp [h0]

/-- **`ext2_inode_free_all_blocks`** frees the inode's references and clears them in memory. -/
theorem run_inodeFreeAllBlocks {v : Store} {i : Inode} (h12 : i.blkNo 12 ≠ 0 → L.Data (i.blkNo 12)) :
    run (step L) (inodeFreeAllBlocks L.fs i) v = (i.cleared, v.dropBlocks L (i.blockRefs L.blockSize v.data)) := by
  have hrun := run_freeDirect (L := L) (range 12) i v (nodup_range) (by simp; omega)
  have h12' : (i.clearDirect (range 12)).blkNo 12 = i.blkNo 12 := by
    simp [Inode.clearDirect, blkNo]
  have hmap : (range 12).map i.blkNo = i.direct := rfl
  rw [inodeFreeAllBlocks, run_bind, hrun, blockRefs_eq]
  simp only [h12']
  by_cases h0 : i.blkNo 12 = 0
  · rw [if_neg (not_not.2 h0), if_pos h0, append_nil, run_pure]
    congr 1
    unfold Inode.clearDirect Inode.cleared
    congr 1
    funext j
    have hz : (i.iBlock 12) = 0 := by simpa [blkNo, ← UInt32.toNat_inj] using h0
    by_cases h1 : j.val < 12
    · simp [h1, show j.val < 13 by omega]
    by_cases h2 : j.val < 13
    · have : j = 12 := Fin.ext (by change j.val = 12; omega)
      simp [this, hz]
    · simp [h1, h2]
  · rw [if_pos h0, if_neg h0]
    simp only [run_bind, Drv.run_readBlock h0 (h12 h0), run_freePtrs, Drv.run_freeBlock, run_pure, Store.dropBlocks_data]
    refine Prod.ext ?_ ?_
    · unfold Inode.clearDirect Inode.cleared setBlk
      simp only [mk.injEq, true_and, and_true]
      funext j
      by_cases h1 : j.val < 12
      · simp [h1, show j.val ≠ 12 by omega, show j.val < 13 by omega]
      · by_cases h2 : j.val = 12
        · simp [h2]
        · simp [h1, h2, show ¬ j.val < 13 by omega]
    · rw [Store.dropBlocks_append, Store.dropBlocks_append]
      rfl

end

/-! ## Allocating many blocks -/

/-- The store after `m` calls of `ext2_alloc_block`. -/
def Store.takeMany (L : Layout) : Nat → Store → Option Store
  | 0, v => some v
  | m + 1, v =>
    match v.nextBlock L with
    | none => none
    | some (g, b) => Store.takeMany L m (v.takeBlock L g b)

def Store.CanTake (L : Layout) (v : Store) (m : Nat) : Prop := (v.takeMany L m).isSome = true

instance (L : Layout) (v : Store) (m : Nat) : Decidable (v.CanTake L m) := inferInstanceAs (Decidable (_ = true))

structure SameBits (v v' : Store) : Prop where
  used : v'.blockUsed = v.blockUsed
  free : v'.freeBlocks = v.freeBlocks

namespace SameBits
variable {L : Layout} {v v' w w' : Store}

theorem refl (v : Store) : SameBits v v := ⟨rfl, rfl⟩

theorem trans (h : SameBits v v') (h' : SameBits v' w) : SameBits v w := ⟨h'.used.trans h.used, h'.free.trans h.free⟩

theorem nextBlock (h : SameBits v v') : v'.nextBlock L = v.nextBlock L := by
  unfold Store.nextBlock
  rw [h.used, h.free]

theorem takeBlock (h : SameBits v v') (g b : Nat) : SameBits (v.takeBlock L g b) (v'.takeBlock L g b) := by
  refine ⟨?_, ?_⟩ <;> simp only [Store.takeBlock, h.used, h.free]

theorem canTake (h : SameBits v v') (m : Nat) : v'.CanTake L m ↔ v.CanTake L m := by
  unfold Store.CanTake
  induction m generalizing v v' with
  | zero => exact Iff.rfl
  | succ m ih =>
    rw [Store.takeMany, Store.takeMany, h.nextBlock]
    cases v.nextBlock L with
    | none => exact Iff.rfl
    | some gb => exact ih (h.takeBlock gb.1 gb.2)

end SameBits

section
variable {L : Layout} {v u w w' : Store} {m : Nat}

theorem Store.takeMany_add : ∀ (m k : Nat) {v u : Store}, v.takeMany L m = some u → v.takeMany L (m + k) = u.takeMany L k
  | 0, k, v, u, h => by cases h; rw [zero_add]
  | m + 1, k, v, u, h => by
    rw [succ_add, Store.takeMany]
    rw [Store.takeMany] at h
    cases hn : v.nextBlock L with
    | none => rw [hn] at h; cases h
    | some gb =>
      rw [hn] at h
      exact Store.takeMany_add m k h

/-- The allocation state of `w` is that of `v` after `m` allocations. -/
def Took (L : Layout) (v : Store) (m : Nat) (w : Store) : Prop := ∃ u, v.takeMany L m = some u ∧ SameBits u w

section
variable (ht : Took L v m w)
include ht

theorem Took.step (hb : w.nextBlock L = some (g, b)) (hs : SameBits (w.takeBlock L g b) w') : Took L v (m + 1) w' := by
  obtain ⟨u, hu, hb'⟩ := ht
  refine ⟨u.takeBlock L g b, ?_, (hb'.takeBlock g b).trans hs⟩
  rw [Store.takeMany_add m 1 hu, Store.takeMany, ← hb'.nextBlock, hb]
  rfl

theorem Took.same (hs : SameBits w w') : Took L v m w' := by
  obtain ⟨u, hu, hb⟩ := ht
  exact ⟨u, hu, hb.trans hs⟩

theorem Took.trans {k : Nat} (h' : Took L w k w') : Took L v (m + k) w' := by
  induction k generalizing w m with
  | zero =>
    obtain ⟨u, hu, hs⟩ := h'
    cases hu
    exact ht.same hs
  | succ k ih =>
    obtain ⟨u, hu, hs⟩ := h'
    rw [Store.takeMany] at hu
    cases hn : w.nextBlock L with
    | none => rw [hn] at hu; cases hu
    | some gb =>
      rw [hn] at hu
      have := ih (ht.step hn (.refl _)) ⟨u, hu, hs⟩
      rwa [add_right_comm, add_assoc] at this

theorem Took.canTake_iff (k : Nat) : w.CanTake L k ↔ v.CanTake L (m + k) := by
  obtain ⟨u, hu, hb⟩ := ht
  rw [hb.canTake, Store.CanTake, Store.CanTake, Store.takeMany_add m k hu]

theorem Took.canTake : v.CanTake L m := (ht.canTake_iff 0).1 rfl

theorem Took.full (hn : w.nextBlock L = none) : ¬ v.CanTake L (m + 1) := by
  rw [← ht.canTake_iff 1, Store.CanTake, Store.takeMany, hn]
  exact nofun

end

end

end PureUnix.Ext2
