import PureUnix.Ext2.SampleTree

/-!
# Booking of blocks on runs

Nothing is double-booked on any run of the write calls, and nothing is lost on a run that avoids `Op.Loses`: a call loses a
block when it takes one and cannot place the pointer to it, because the indirect block that the pointer needs cannot be had
or because the pointers of the indirect block are used up. With `aware` set an image may hold fast symbolic links, whose text
counts as no block number; the calls must then leave their names alone.
-/
namespace PureUnix.Ext2

open Lib

section
variable {aware full : Bool} {L : Layout} {v : Store} {d : Disk}

/-! ## Nothing is double-booked -/

/-- Every block number an inode in use refers to is marked used, is no metadata block, and is referred to
once over all inodes in use. -/
def BookedOnce (aware : Bool) (L : Layout) (v : Store) : Prop :=
  ∀ j, v.inodeUsed j = true → ∀ b ∈ v.refs aware L j,
    v.blockUsed b = true ∧ L.Data b ∧ (v.refs aware L j).count b = 1 ∧
    ∀ k, v.inodeUsed k = true → b ∈ v.refs aware L k → k = j

theorem Own.bookedOnce (own : Own aware full L none v ∅) : BookedOnce aware L v := by
  intro j hj b hb
  have hlive : ∀ {k}, v.inodeUsed k = true → v.Live none k := fun hk => ⟨hk, nofun⟩
  obtain ⟨hdata, hused, -⟩ := own.books.owned j (hlive hj) b hb
  refine ⟨hused, hdata, List.count_eq_one_of_mem (own.books.nodup j (hlive hj)) hb, fun k hk hbk => ?_⟩
  exact own.books.sep k j (hlive hk) (hlive hj) b hbk hb

/-- **EXT2 never double-books a block**: on every run of the write calls that spare the names of fast symbolic links, from a
consistent image, in every state reached, every block an inode in use refers to is used, no metadata, and referred to once. -/
theorem never_double_booked (h : L.Ok) (hd : Consistent aware false L d) (ops : List Op)
    (hi : Along L (fun op v => op.Spares aware L v) ops d) : BookedOnce aware L ((runOps L ops d).store L) :=
  (hd.run h ops hi nofun).inv.own.bookedOnce

/-- The file of the sample image is removed, and another takes its place. -/
theorem never_double_booked_sample : BookedOnce true smallLayout ((runOps smallLayout [.unlink sampleEnv [slash, 70] false,
      .write sampleEnv [slash, 71] [1, 2, 3] true] (oneFileDisk 1024 8192 64)).store smallLayout) := by
  exact never_double_booked (oneFile_ok (.inl rfl) (by decide)) (oneFile_consistent (.inl rfl) (by decide)) _
    ⟨oneFile_spares, trivial, trivial⟩

/-! ## A name for a free inode -/

/-- The entries ".", "..", "F" and "G" in a block of 1024 bytes. -/
def staleBlock : Buf :=
  ofList ([2, 0, 0, 0, 12, 0, 1, 2, 46, 0, 0, 0] ++ [2, 0, 0, 0, 12, 0, 2, 2, 46, 46, 0, 0] ++
    [12, 0, 0, 0, 12, 0, 1, 1, 70, 0, 0, 0] ++ [13, 0, 0, 0, 220, 3, 1, 1, 71])

/-- G is inode 13, which is free; its record still has the block of F. -/
def staleInode (j : Nat) : Inode :=
  if j = 13 then Inode.small (EXT2_S_IFREG ||| 0o644) 1 3 (oneGroupData 1024 16 + 1) else oneFileInode 1024 j

theorem stale_small : Small 1024 8192 64 (oneGroupData 1024 16 + 2) 12 staleInode
    (fun b => if b = oneGroupData 1024 16 then staleBlock else ofList [97, 98, 99]) (oneFileBlk 1024) := by
  have s : Small 1024 8192 64 _ 12 _ _ _ := oneFile_small (.inl rfl) (by decide)
  have hsame : ∀ j ≤ 12, staleInode j = oneFileInode 1024 j := fun j hj => if_neg (by omega)
  refine ⟨s.size, s.total, s.inodes, s.first, fun j h0 hj => ?_, s.range, s.sep, s.cover, fun j h0 hj hd => ?_⟩
  · rw [hsame j hj]
    exact s.single j h0 hj
  · rw [hsame j hj] at hd ⊢
    obtain rfl := oneFileInode_isDir hd
    exact ⟨rfl, by decide, by decide +kernel⟩

def staleDisk : Disk := stale_small.store.encode smallLayout fun _ => false

/-- The books of the image balance and its directory is well formed, but removing G frees the block of F. -/
theorem stale_name_unbooks : smallLayout.Mounted staleDisk ∧ (staleDisk.store smallLayout).MetaUsed smallLayout ∧
    BookedOnce true smallLayout (staleDisk.store smallLayout) ∧
    (∀ j, (staleDisk.store smallLayout).inodeUsed j = true → ((staleDisk.store smallLayout).inode j).isDir = true →
      DirWf 1024 (staleDisk.store smallLayout).data ((staleDisk.store smallLayout).inode j)) ∧
    (∀ j, (staleDisk.store smallLayout).inodeUsed j = true →
      ((staleDisk.store smallLayout).inode j).blkNo 13 = 0 ∧ ((staleDisk.store smallLayout).inode j).blkNo 14 = 0) ∧
    ¬ BookedOnce true smallLayout ((runOps smallLayout [.unlink sampleEnv [slash, 71] false] staleDisk).store smallLayout) := by
  have hstore : staleDisk.store smallLayout = stale_small.store := stale_small.rel.2
  have hused : ∀ {j}, stale_small.store.inodeUsed j = true → j ≠ 0 ∧ j ≤ 12 := Small.used.1
  have own : Own true false smallLayout none stale_small.store ∅ := stale_small.own
  have hplain : ∀ j ≤ 12, (staleInode j).blkNo 13 = 0 ∧ (staleInode j).blkNo 14 = 0 := by decide
  rw [hstore]
  refine ⟨stale_small.rel.1, own.metaUsed, own.bookedOnce, fun j hj hd => ?_, fun j hj => ?_, fun hb => ?_⟩
  · rw [stale_small.inode_eq (hused hj)] at hd
    exact stale_small.dirWf (hused hj) hd
  · rw [stale_small.inode_eq (hused hj)]
    exact hplain j (hused hj).2
  · have hrun := (stale_small.exec ((Op.unlink sampleEnv [slash, 71] false).prog smallLayout.fs) (by decide +kernel)).2
    rw [runOps, runOps, staleDisk, hrun] at hb
    exact absurd (hb 12 (by decide +kernel) 8 (by decide +kernel)).1 (by decide +kernel)

/-! ## Nothing is lost -/

end

end PureUnix.Ext2
