import PureUnix.Ext2.SampleDir
import PureUnix.Ext2.SampleTree

/-!
# A crowded root directory

The image of `SampleDir` with ".", ".." and a file "a" in its first block: 268 blocks, all that lookup reads, and no room in
them for a name of 57 or more bytes. A longer name goes into a new block that lookup never reads.
-/
namespace PureUnix.Ext2
open Lib List Nat Inode Function

variable {aware : Bool} {j need : Nat}

/-! ## The full directory is consistent -/

theorem fullDir_usedInode : fullDirStore.inodeUsed j = true ↔ j ≠ 0 ∧ j ≤ 11 := by
  simp only [fullDirStore, Store.prefixed, decide_eq_true_eq]

theorem fullDir_other (hj : j ≠ 2) : fullDirStore.inode j = Inode.empty := by
  simp only [fullDirStore, Store.prefixed, if_neg hj, ite_self]

theorem fullDir_refs_other (hj : j ≠ 2) : fullDirStore.refs aware fullDirLayout j = [] := by
  rw [Store.refs, fullDir_other hj, refs_of_not_inline (inline_of_not_lnk rfl), dead_empty.2.2.blockRefs]

theorem fullDir_refs :
    fullDirStore.refs aware fullDirLayout 2 = (fullDirStore.inode 2).blockRefs fullDirLayout.blockSize fullDirStore.data :=
  refs_of_not_inline (inline_of_not_lnk (isLnk_of_isDir fullDir_dirAt.isDir))

theorem fullDir_fsInv : FsInv aware false fullDirLayout fullDirStore where
  own := by
    refine ⟨rfl, fun j hj => ?_, fullDir_metaUsed, ⟨fun j hj => ?_, fun j hj b hb => ?_, fun i j hi hj b hb hb' => ?_,
      fun b hb => absurd hb (Set.notMem_empty b)⟩, nofun⟩
    · have := fullDir_usedInode.1 hj
      exact ⟨this.1, le_trans this.2 (by decide)⟩
    · by_cases h2 : j = 2
      · rw [h2, fullDir_refs]
        exact fullDir_dirAt.map.nodup
      · rw [fullDir_refs_other h2]
        exact nodup_nil
    · by_cases h2 : j = 2
      · rw [h2, fullDir_refs] at hb
        exact ⟨fullDir_dirAt.map.data b hb, fullDir_used b hb, Set.notMem_empty b⟩
      · rw [fullDir_refs_other h2] at hb
        cases hb
    · have h2 : ∀ k, b ∈ fullDirStore.refs aware fullDirLayout k → k = 2 := by
        intro k hk
        by_contra hne
        rw [fullDir_refs_other hne] at hk
        cases hk
      rw [h2 i hb, h2 j hb']
  dirs := fun j hj hd => by
    have h2 : j = 2 := by
      by_contra hne
      rw [fullDir_other hne] at hd
      cases hd
    subst h2
    refine ⟨fullDir_dirAt.wf, nofun, fun e he => ?_⟩
    rw [fullDir_ents] at he
    cases he
  root := fullDirLayout_ok.named_of_used (by decide) (fullDir_usedInode.2 (by decide))

/-! ## Three entries -/

def emptyFile : Inode := { Inode.empty with iMode := EXT2_S_IFREG ||| 0o644, iLinksCount := 1 }

/-- The full directory and the file, inode 12. -/
def withFileStore : Store := (fullDirStore.takeInode 0 12).setInode 12 emptyFile

theorem fullDir_nextInode : fullDirStore.nextInode fullDirLayout = some (0, 12) := by decide +kernel

theorem withFile_fsInv : FsInv aware false fullDirLayout withFileStore :=
  (fullDir_fsInv.freshFile fullDir_nextInode (by unfold Inode.NoBlocks; decide) rfl (by decide)).1

/-- The names ".", ".." and "a" over 64 bytes, free slots of 64 bytes behind them. -/
def crowdedBlock : Buf := fun i =>
  if i < 64 then ofList ([2, 0, 0, 0, 12, 0, 1, 2, 46, 0, 0, 0] ++ [2, 0, 0, 0, 12, 0, 2, 2, 46, 46, 0, 0] ++
    [12, 0, 0, 0, 40, 0, 1, 1, 97]) i
  else slots i

def crowdedEntries : List Dent := [⟨dotName, 2, EXT2_FT_DIR⟩, ⟨dotdotName, 2, EXT2_FT_DIR⟩, ⟨[97], 12, EXT2_FT_REG_FILE⟩]

def crowdedRecs : List Rec :=
  [⟨12, some ⟨dotName, 2, EXT2_FT_DIR⟩⟩, ⟨12, some ⟨dotdotName, 2, EXT2_FT_DIR⟩⟩, ⟨40, some ⟨[97], 12, EXT2_FT_REG_FILE⟩⟩] ++
    List.replicate 31 ⟨64, none⟩

theorem crowded_chain : direntFormat.Chain (trunc 2048 crowdedBlock) crowdedRecs 0 2048 := by
  have h : direntFormat.Chain crowdedBlock crowdedRecs 0 2048 := by decide +kernel
  exact h.congr (trunc_same 2048 crowdedBlock).symm

def crowdedStore : Store := (withFileStore.setData fullDirLayout 5 crowdedBlock).setInode 2 fullDirInode

def crowdedDisk : Disk := crowdedStore.encode fullDirLayout fun _ => false

theorem withFile_dirAt : DirAt fullDirLayout withFileStore 2 := (withFile_fsInv : FsInv false false fullDirLayout withFileStore).dirAt rfl rfl

theorem crowded_edited : EditedAt fullDirLayout withFileStore 2 0 crowdedBlock fullDirInode crowdedStore := by
  have h5 : (withFileStore.inode 2).blockAt fullDirLayout.blockSize withFileStore.data 0 = 5 := fullDir_blockAt 0
  refine ⟨by decide, ?_, Inode.SameBody.refl _, ?_, (Tiled.of_chain crowded_chain).1⟩
  · rw [h5]; decide
  · rw [h5]; rfl

theorem crowded_entries : entries 2048 (trunc 2048 crowdedBlock) = crowdedEntries := by
  rw [entries, (Tiled.of_chain crowded_chain).2]
  decide

theorem crowded_ents : crowdedStore.ents fullDirLayout 2 = crowdedEntries := by
  obtain ⟨C, h1, h2⟩ := crowded_edited.ents_split withFile_dirAt
  have hnil : withFileStore.ents fullDirLayout 2 = [] := fullDir_ents
  rw [hnil] at h1
  have hC : C = [] := by
    simp only [nil_eq, append_eq_nil_iff] at h1
    exact h1.2.2
  rw [h2, hC]
  change [] ++ (entries 2048 (trunc 2048 crowdedBlock) ++ []) = _
  rw [crowded_entries, append_nil, nil_append]

theorem crowded_vis : crowdedStore.vis fullDirLayout 2 = crowdedEntries := crowded_ents

theorem crowded_fsInv : FsInv aware false fullDirLayout crowdedStore := by
  refine (withFile_fsInv.edited rfl rfl crowded_edited fun e he => ?_).1
  rw [crowded_ents] at he
  have hmem : e.ino = 2 ∨ e.ino = 12 := by
    simp only [crowdedEntries, mem_cons, not_mem_nil, or_false] at he
    rcases he with rfl | rfl | rfl
    · exact .inl rfl
    · exact .inl rfl
    · exact .inr rfl
  rcases hmem with h | h <;> rw [h] <;> exact fullDirLayout_ok.named_of_used (by decide) rfl

theorem crowded_representable : crowdedStore.Representable fullDirLayout := by
  have h := fullDir_representable
  refine ⟨h.blockUsed, fun j hj => ?_, fun j hj => ?_, fun b => ?_, h.freeBlocks, fun g => ?_, rfl, h.tables⟩
  · exact (crowded_fsInv : FsInv false false fullDirLayout crowdedStore).own.valid j hj
  · have h2 : j ≠ 2 := by rintro rfl; exact hj (by decide)
    have h12 : j ≠ 12 := by rintro rfl; exact hj (by decide)
    simp only [crowdedStore, withFileStore, Store.setInode, Store.setData, Store.takeInode, update_of_ne h2, update_of_ne h12]
    exact fullDir_other h2
  · by_cases hb : b = 5
    · subst hb
      change trunc 2048 crowdedBlock = trunc 2048 (trunc 2048 crowdedBlock)
      rw [trunc_trunc]
    · have hsame : crowdedStore.data b = fullDirStore.data b := update_of_ne hb _ _
      rw [hsame]
      exact h.data b
  · by_cases hg : g = 0
    · subst hg
      exact ⟨by decide, fun hc => absurd hc (by decide)⟩
    · have hsame : crowdedStore.freeInodes g = fullDirStore.freeInodes g := update_of_ne hg _ _
      rw [hsame]
      exact h.freeInodes g

theorem crowded_rel : Rel fullDirLayout crowdedDisk crowdedStore := rel_encode fullDirLayout_ok _ crowded_representable

theorem crowded_consistent : Consistent aware false fullDirLayout crowdedDisk := by
  refine ⟨crowded_rel.1, ?_⟩
  rw [crowded_rel.2]
  exact crowded_fsInv

/-! ## What lookup finds, and where a long name goes -/

theorem crowded_node : crowdedStore.node fullDirLayout 2 = ⟨true, fullDirInode, crowdedEntries, crowdedEntries, []⟩ := by
  rw [Store.node_dir rfl rfl, crowded_ents, crowded_vis]
  rfl

theorem crowded_find (name : Text) :
    (crowdedStore.node fullDirLayout 2).find name = (crowdedEntries.find? fun d => d.name = name).map Dent.ino := by
  rw [crowded_node]
  rfl

theorem crowded_noRoom (h : 64 < need) : NoRoom fullDirLayout crowdedStore 2 need := by
  intro k hk h0 r hr hroom
  have hat : ∀ k, fullDirInode.blockAt 2048 crowdedStore.data k = fullDirInode.blockAt 2048 fullDirStore.data k :=
    crowded_edited.blockAt_eq withFile_dirAt.map
  change r ∈ recs 2048 (crowdedStore.data (fullDirInode.blockAt 2048 crowdedStore.data k)) at hr
  change fullDirInode.blockAt 2048 crowdedStore.data k ≠ 0 at h0
  rw [hat] at h0 hr
  by_cases h5 : fullDirInode.blockAt 2048 fullDirStore.data k = 5
  · have hdata : crowdedStore.data 5 = trunc 2048 crowdedBlock := rfl
    rw [h5, hdata, (Tiled.of_chain crowded_chain).2] at hr
    have hall : ∀ r ∈ crowdedRecs, ¬ r.Room 65 := by decide
    refine hall r hr ?_
    unfold Rec.Room at hroom ⊢
    cases hd : r.dent with
    | none =>
      rw [hd] at hroom
      exact le_trans h hroom
    | some d =>
      rw [hd] at hroom
      exact Nat.le_trans (Nat.add_le_add_right h _) hroom
  · have hsame : crowdedStore.data (fullDirInode.blockAt 2048 fullDirStore.data k) =
        fullDirStore.data (fullDirInode.blockAt 2048 fullDirStore.data k) := update_of_ne h5 _ _
    rw [hsame] at hr
    exact fullDir_noRoom h k hk h0 r hr hroom

theorem crowded_unseen (h : 64 < need) : ¬ SeesInsert fullDirLayout crowdedStore 2 need := by
  rintro (hfew | ⟨k, -, hk, h0, r, hr, hroom⟩)
  · exact absurd hfew (by decide)
  · exact crowded_noRoom h k hk h0 r hr hroom

theorem crowded_seen (h : need ≤ 64) : SeesInsert fullDirLayout crowdedStore 2 need := by
  refine .inr ⟨0, by decide, by decide, ?_⟩
  refine ⟨by decide, ⟨64, none⟩, ?_, h⟩
  decide

/-- Growing takes block 274, and the indirect block has room for its pointer. -/
theorem crowded_canGrow {v : Store} (hb : SameBits fullDirStore v) (hi : v.inode 2 = fullDirInode) : CanGrow fullDirLayout v 2 := by
  refine ⟨0, 274, hb.nextBlock.trans fullDir_nextBlock, ?_⟩
  rw [hi]
  exact .inr ⟨by decide, .inl (by decide)⟩

theorem crowded_nextInode : crowdedStore.nextInode fullDirLayout = some (0, 13) := by decide +kernel

end PureUnix.Ext2
