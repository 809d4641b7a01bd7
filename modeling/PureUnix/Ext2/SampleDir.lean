import PureUnix.Ext2.DirSpec
import PureUnix.Ext2.Sample

/-!
# A full directory of 268 blocks

An image with 2 KiB blocks whose root directory has as many blocks as lookup reads, all tiled by
free slots of 64 bytes. A name of 57 or more bytes does not fit into such a slot.
-/
namespace PureUnix.Ext2
open Lib List Inode

def slots : Buf := fun i => if i % 64 = 4 then 64 else 0

theorem slots_chain : ∀ (m off : Nat), off % 64 = 0 → direntFormat.Chain slots (replicate m ⟨64, none⟩) off (off + 64 * m)
  | 0, off, _ => by change off = _; omega
  | m + 1, off, h => by
    have h0 : recAt slots off = ⟨64, none⟩ := by
      have e : ∀ j, j ≠ 4 → j < 64 → slots (off + j) = 0 := fun j h4 hj => if_neg (by omega)
      have e4 : slots (off + 4) = 64 := if_pos (by omega)
      have hi : deInode slots off = 0 := by
        rw [deInode, get32, show slots off = 0 from e 0 (by omega) (by omega), e 1 (by omega) (by omega),
          e 2 (by omega) (by omega), e 3 (by omega) (by omega)]
        rfl
      have hl : deRecLen slots off = 64 := by
        rw [deRecLen, get16, e4, show slots (off + 4 + 1) = 0 from e 5 (by omega) (by omega)]
        rfl
      rw [recAt, hi, hl, if_pos rfl]
    refine ⟨h0, ⟨by decide, by decide, by rintro d ⟨⟩⟩, ?_⟩
    have := slots_chain m (off + 64) (by omega)
    rw [show off + 64 * (m + 1) = off + 64 + 64 * m by omega]
    exact this

/-- Two KiB blocks: data from block 5 on, 300 blocks in all. -/
def fullDirLayout : Layout := oneGroup 2048 16384 300 16

theorem fullDirLayout_ok : fullDirLayout.Ok := oneGroup_ok (.inr (.inl rfl)) (by decide) (by decide)

/-- Blocks 5 .. 16 direct, block 17 indirect with pointers to 18 .. 273. -/
def fullDirInode : Inode :=
  { Inode.empty with
    iMode := EXT2_S_IFDIR ||| 0o755
    iSize := 548864
    iLinksCount := 2
    iBlocks := 1076
    iBlock := fun k => if k.val < 13 then UInt32.ofNat (5 + k.val) else 0 }

def fullDirStore : Store :=
  Store.prefixed fullDirLayout 274 11 (fun ino => if ino = 2 then fullDirInode else Inode.empty) fun b =>
    if b = 17 then words fun p => if p < 256 then 18 + p else 0 else slots

def fullDirDisk : Disk := fullDirStore.encode fullDirLayout fun _ => false

theorem fullDir_representable : fullDirStore.Representable fullDirLayout :=
  prefixed_representable (.inr (.inl rfl)) (by decide) (by decide) (by decide) (by decide)

theorem fullDir_rel : Rel fullDirLayout fullDirDisk fullDirStore :=
  rel_encode fullDirLayout_ok _ fullDir_representable

theorem fullDir_data {b : Nat} : fullDirLayout.Data b ↔ 5 ≤ b ∧ b < 300 :=
  oneGroup_data (.inr (.inl rfl))

theorem fullDir_metaUsed : fullDirStore.MetaUsed fullDirLayout :=
  (prefixed_exact (.inr (.inl rfl)) (by decide) (by decide) (by decide)).metaUsed

theorem fullDir_blkNo {k : Nat} (hk : k < 13) : fullDirInode.blkNo k = 5 + k := by
  simp only [Inode.blkNo, fullDirInode, dif_pos (show k < 15 by omega), if_pos hk, UInt32.toNat_ofNat']
  omega

theorem fullDir_blockAt (k : Nat) : fullDirInode.blockAt 2048 fullDirStore.data k =
    if k < 12 then 5 + k else if k < 268 then 6 + k else 0 := by
  have h12 : fullDirInode.blkNo 12 = 17 := fullDir_blkNo (by decide)
  by_cases hk : k < 12
  · rw [blockAt_direct hk, if_pos hk, fullDir_blkNo (by omega)]
  rw [if_neg hk]
  by_cases hf : maxBlocks 2048 ≤ k
  · rw [blockAt_far hf, if_neg (by unfold maxBlocks at hf; omega)]
  unfold maxBlocks at hf
  obtain ⟨p, rfl⟩ : ∃ p, k = 12 + p := ⟨k - 12, by omega⟩
  have hd : fullDirStore.data 17 = trunc 2048 (words fun p => if p < 256 then 18 + p else 0) := by
    rfl
  rw [blockAt_ptr (by rw [h12]; decide) (by omega), h12, hd,
    get32_congr ((trunc_same 2048 _).mono (by omega) (by omega)), get32_words]
  by_cases hp : p < 256
  · rw [if_pos hp, if_pos (by omega)]; omega
  · rw [if_neg hp, if_neg (by omega)]

theorem fullDir_range {k : Nat} (h0 : fullDirInode.blockAt 2048 fullDirStore.data k ≠ 0) :
    5 ≤ fullDirInode.blockAt 2048 fullDirStore.data k ∧ fullDirInode.blockAt 2048 fullDirStore.data k < 274 ∧
      fullDirInode.blockAt 2048 fullDirStore.data k ≠ 17 := by
  rw [fullDir_blockAt] at h0 ⊢
  split_ifs at h0 ⊢ <;> omega

theorem fullDir_refs_range {b : Nat} (hb : b ∈ (fullDirStore.inode 2).blockRefs fullDirLayout.blockSize fullDirStore.data) : 5 ≤ b ∧ b < 274 := by
  obtain ⟨h0, ⟨k, rfl⟩ | rfl⟩ := mem_blockRefs.1 hb
  · have := fullDir_range h0
    exact ⟨this.1, this.2.1⟩
  · exact (by decide)

theorem fullDir_slots {k : Nat} (h0 : fullDirInode.blockAt 2048 fullDirStore.data k ≠ 0) :
    Tiled 2048 (fullDirStore.data (fullDirInode.blockAt 2048 fullDirStore.data k)) ∧
    recs 2048 (fullDirStore.data (fullDirInode.blockAt 2048 fullDirStore.data k)) = replicate 32 ⟨64, none⟩ := by
  obtain ⟨h1, h2, h3⟩ := fullDir_range h0
  have hd : ∀ b, 5 ≤ b → b < 274 → b ≠ 17 → fullDirStore.data b = trunc 2048 slots := by
    intro b h1 h2 h3
    simp only [fullDirStore, Store.prefixed, if_pos (fullDir_data.2 ⟨h1, by omega⟩), if_neg h3]
    rfl
  rw [hd _ h1 h2 h3]
  have hc := slots_chain 32 0 rfl
  exact Tiled.of_chain (hc.congr (trunc_same 2048 slots).symm)

theorem fullDir_nblocks : fullDirInode.iSize.toNat / fullDirLayout.blockSize = 268 := by decide

theorem fullDir_dirAt : DirAt fullDirLayout fullDirStore 2 := by
  refine ⟨by decide, by decide, ⟨?_, ?_⟩, by decide, fun k _ h0 => (fullDir_slots h0).1⟩
  · refine nodup_blockRefs.2 ⟨fun k k' h0 he => ?_, fun k h0 he => ?_⟩
    · change fullDirInode.blockAt 2048 fullDirStore.data k ≠ 0 at h0
      change fullDirInode.blockAt 2048 fullDirStore.data k = fullDirInode.blockAt 2048 fullDirStore.data k' at he
      rw [fullDir_blockAt] at h0 he
      rw [fullDir_blockAt] at he
      split at he <;> split at he <;> (try split at he) <;> (try split at he) <;> simp_all <;> omega
    · exact (fullDir_range h0).2.2 (he.trans (fullDir_blkNo (by decide)))
  · intro b hb
    have := fullDir_refs_range hb
    exact fullDir_data.2 (by omega)

theorem fullDir_used : ∀ b ∈ (fullDirStore.inode 2).blockRefs fullDirLayout.blockSize fullDirStore.data,
    fullDirStore.blockUsed b = true := by
  intro b hb
  simp only [fullDirStore, Store.prefixed, decide_eq_true_eq]
  exact ⟨Nat.zero_le _, (fullDir_refs_range hb).2⟩

theorem fullDir_ents : fullDirStore.ents fullDirLayout 2 = [] := by
  rw [eq_nil_iff_forall_not_mem]
  intro d hd
  obtain ⟨k, -, h0, hdk⟩ := mem_entriesUpTo.1 hd
  have hrecs := (fullDir_slots h0).2
  change d ∈ live (recs 2048 (fullDirStore.data (fullDirInode.blockAt 2048 fullDirStore.data k))) at hdk
  rw [hrecs] at hdk
  obtain ⟨r, hr, hrd⟩ := mem_live.1 hdk
  rw [eq_of_mem_replicate hr] at hrd
  cases hrd

theorem fullDir_noRoom {need : Nat} (h : 64 < need) : NoRoom fullDirLayout fullDirStore 2 need := by
  intro k _ h0 r hr hroom
  have hr' := (fullDir_slots h0).2 ▸ hr
  rw [eq_of_mem_replicate hr'] at hroom
  change need ≤ 64 at hroom
  omega

theorem fullDir_nextBlock : fullDirStore.nextBlock fullDirLayout = some (0, 274) :=
  prefixed_nextBlock (by decide) (by decide) (by decide)

end PureUnix.Ext2
