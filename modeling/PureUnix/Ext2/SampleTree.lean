import PureUnix.Ext2.Runs
import PureUnix.Ext2.Sample

/-!
# Small trees

Images of one group in which every inode in use has at most one block. `Small.fsInv` says when such an image is
consistent; the images that other modules evaluate are cases of it.
-/
namespace PureUnix.Ext2

open Lib Nat
open Store
open Inode (blkNo)

/-- A clock that stands still; the heap has memory. -/
def sampleEnv : Env := ⟨fun _ => 0, 0, 0, true, true⟩

def Inode.Single (i : Inode) (b : Nat) : Prop := i.blkNo 0 = b ∧ ∀ k, k < 13 → k ≠ 0 → i.blkNo k = 0

/-- An inode with one block, or none if `b` is zero. -/
def Inode.small (mode links : UInt16) (size b : Nat) : Inode :=
  { Inode.empty with
    iMode := mode
    iSize := UInt32.ofNat size
    iLinksCount := links
    iBlocks := if b = 0 then 0 else 2
    iBlock := fun k => if k.val = 0 then UInt32.ofNat b else 0 }

section
variable {i : Inode} {b size : Nat} {bs : Nat} {data : Nat → Buf} {mode links : UInt16}

theorem Inode.small_isLnk : (Inode.small mode links size b).isLnk = (mode &&& EXT2_S_IFMT == EXT2_S_IFLNK) := rfl

theorem Inode.small_isDir : (Inode.small mode links size b).isDir = (mode &&& EXT2_S_IFMT == EXT2_S_IFDIR) := rfl

theorem Inode.small_single (hb : b < 4294967296) : (Inode.small mode links size b).Single b := by
  constructor
  · exact UInt32.toNat_ofNat_of_lt hb
  · intro k hk h0
    simp only [blkNo, Inode.small, dif_pos (show k < 15 by omega), if_neg h0]
    rfl

theorem Inode.Single.blockAt (hs : i.Single b) (k : Nat) : i.blockAt bs data k = if k = 0 then b else 0 := by
  by_cases hk : k < 12
  · rw [Inode.blockAt_direct hk]
    by_cases h0 : k = 0
    · rw [if_pos h0, h0, hs.1]
    · rw [if_neg h0, hs.2 k (by omega) h0]
  · rw [Inode.blockAt_no_indirect (hs.2 12 (by decide) (by decide)) (by omega), if_neg (by omega)]

theorem Inode.Single.mem_blockRefs (hs : i.Single b) {c : Nat} : c ∈ i.blockRefs bs data ↔ c ≠ 0 ∧ c = b := by
  rw [Inode.mem_blockRefs]
  refine and_congr_right fun h0 => ?_
  simp only [hs.blockAt, hs.2 12 (by decide) (by decide)]
  constructor
  · rintro (⟨k, hk⟩ | hc)
    · split at hk
      · exact hk.symm
      · exact absurd hk.symm h0
    · exact absurd hc h0
  · rintro rfl
    exact .inl ⟨0, if_pos rfl⟩

theorem Inode.Single.nodup (hs : i.Single b) : (i.blockRefs bs data).Nodup := by
  refine Inode.nodup_blockRefs.2 ⟨fun k k' h0 he => ?_, fun k h0 => ?_⟩
  · simp only [hs.blockAt] at h0 he
    by_cases hk : k = 0
    · by_cases hk' : k' = 0
      · rw [hk, hk']
      · rw [if_neg hk'] at he
        exact absurd he h0
    · exact absurd (if_neg hk) h0
  · rw [hs.2 12 (by decide) (by decide)]
    exact h0

end

/-- The inodes `1 .. m` of an image, the block of each, and the blocks in use below `k`; of the names nothing is asked. -/
structure Small (bs per total k m : Nat) (inode : Nat → Inode) (data : Nat → Buf) (blk : Nat → Nat) : Prop where
  size : bs = 1024 ∨ bs = 2048 ∨ bs = 4096
  total : k ≤ total ∧ total ≤ per ∧ per ≤ 8 * bs
  inodes : 2 ≤ m ∧ m ≤ 16
  first : oneGroupData bs 16 ≤ k
  single : ∀ j, j ≠ 0 → j ≤ m → (inode j).Single (blk j) ∧ (inode j).isLnk = false
  range : ∀ j, j ≠ 0 → j ≤ m → blk j ≠ 0 → oneGroupData bs 16 ≤ blk j ∧ blk j < k
  sep : ∀ i j, i ≠ 0 → i ≤ m → j ≠ 0 → j ≤ m → blk i = blk j → blk i ≠ 0 → i = j
  cover : ∀ b, oneGroupData bs 16 ≤ b → b < k → ∃ j, j ≠ 0 ∧ j ≤ m ∧ blk j = b
  dirs : ∀ j, j ≠ 0 → j ≤ m → (inode j).isDir = true → (inode j).iSize.toNat = bs ∧ blk j ≠ 0 ∧ Tiled bs (data (blk j))

theorem oneGroupData_ge (bs inodes : Nat) : firstBlockOf bs + 4 ≤ oneGroupData bs inodes := by
  exact le_add_right _ _

namespace Small

theorem used {L : Layout} {k m j : Nat} {inode : Nat → Inode} {data : Nat → Buf} :
    (prefixed L k m inode data).inodeUsed j = true ↔ j ≠ 0 ∧ j ≤ m := by
  simp only [prefixed, decide_eq_true_eq]

section
variable {bs per total k m : Nat} {inode : Nat → Inode} {data : Nat → Buf} {blk : Nat → Nat}
  (s : Small bs per total k m inode data blk) {j b : Nat} {aware full : Bool}

abbrev layout (_ : Small bs per total k m inode data blk) : Layout := oneGroup bs per total 16

abbrev store (_ : Small bs per total k m inode data blk) : Store := prefixed (oneGroup bs per total 16) k m inode data

include s

theorem layout_ok : s.layout.Ok := oneGroup_ok s.size
  (by rcases s.size with rfl | rfl | rfl <;> decide) ⟨le_trans s.first s.total.1, s.total.2⟩

theorem inode_eq (hj : j ≠ 0 ∧ j ≤ m) : s.store.inode j = inode j := by
  have hv : s.layout.ValidIno j := ⟨hj.1, le_trans hj.2 s.inodes.2⟩
  simp only [prefixed, if_pos hv]

theorem data_iff : s.layout.Data b ↔ oneGroupData bs 16 ≤ b ∧ b < total := oneGroup_data s.size

omit s in
theorem ne_zero (hb : oneGroupData bs 16 ≤ b) : b ≠ 0 := by
  have := oneGroupData_ge bs 16
  omega

theorem data_eq (hb : oneGroupData bs 16 ≤ b ∧ b < k) : s.store.data b = trunc bs (data b) := by
  have hd : s.layout.Data b := s.data_iff.2 ⟨hb.1, lt_of_lt_of_le hb.2 s.total.1⟩
  simp only [prefixed, if_pos hd]
  rfl

theorem blockUsed (hb : oneGroupData bs 16 ≤ b) :
    s.store.blockUsed b = true ↔ b < k := by
  have hfirst : firstBlockOf bs ≤ b := by
    have := oneGroupData_ge bs 16
    omega
  simp only [prefixed, decide_eq_true_eq]
  exact ⟨And.right, fun h => ⟨hfirst, h⟩⟩

theorem mem_refs (hj : j ≠ 0 ∧ j ≤ m) :
    b ∈ s.store.refs aware s.layout j ↔ b ≠ 0 ∧ b = blk j := by
  obtain ⟨hs, hl⟩ := s.single j hj.1 hj.2
  rw [refs, s.inode_eq hj, Inode.refs_of_not_inline (Inode.inline_of_not_lnk hl), hs.mem_blockRefs]

theorem own : Own aware full s.layout none s.store ∅ where
  wild := rfl
  valid := fun j hj => ⟨(used.1 hj).1, le_trans (used.1 hj).2 s.inodes.2⟩
  metaUsed := (prefixed_exact s.size s.total.2 ⟨s.first, s.total.1⟩ s.inodes.2).metaUsed
  books := by
    refine ⟨fun j hj => ?_, fun j hj b hb => ?_, fun i j hi hj b hb hb' => ?_, fun b hb => absurd hb (Set.notMem_empty b)⟩
    · have hj := used.1 hj.1
      obtain ⟨hs, hl⟩ := s.single j hj.1 hj.2
      rw [refs, s.inode_eq hj, Inode.refs_of_not_inline (Inode.inline_of_not_lnk hl)]
      exact hs.nodup
    · have hj := used.1 hj.1
      obtain ⟨h0, rfl⟩ := (s.mem_refs hj).1 hb
      have hr := s.range j hj.1 hj.2 h0
      exact ⟨s.data_iff.2 ⟨hr.1, lt_of_lt_of_le hr.2 s.total.1⟩, (s.blockUsed hr.1).2 hr.2, Set.notMem_empty _⟩
    · have hi := used.1 hi.1
      have hj := used.1 hj.1
      obtain ⟨h0, rfl⟩ := (s.mem_refs hi).1 hb
      exact s.sep i j hi.1 hi.2 hj.1 hj.2 ((s.mem_refs hj).1 hb').2 h0
  all := fun _ b hb hu => by
    have hb := s.data_iff.1 hb
    obtain ⟨j, h0, hj, rfl⟩ := s.cover b hb.1 ((s.blockUsed hb.1).1 hu)
    exact .inr ⟨j, ⟨used.2 ⟨h0, hj⟩, by simp⟩, (s.mem_refs ⟨h0, hj⟩).2 ⟨ne_zero hb.1, rfl⟩⟩

theorem named {n : Nat} (hn : n ≠ 0 ∧ n ≤ m) : Named s.layout s.store n :=
  ⟨⟨hn.1, lt_of_le_of_lt (le_trans hn.2 s.inodes.2) (by decide)⟩, fun _ => .inl (used.2 hn)⟩

theorem block (hj : j ≠ 0 ∧ j ≤ m) (hd : (inode j).isDir = true) :
    Same 0 bs (s.store.data (blk j)) (data (blk j)) := by
  rw [s.data_eq (s.range j hj.1 hj.2 (s.dirs j hj.1 hj.2 hd).2.1)]
  exact trunc_same bs _

theorem tiled (hj : j ≠ 0 ∧ j ≤ m) (hd : (inode j).isDir = true) :
    Tiled bs (s.store.data (blk j)) ∧
      recs bs (s.store.data (blk j)) = recs bs (data (blk j)) := by
  have ht := (s.dirs j hj.1 hj.2 hd).2.2
  exact Tiled.of_chain (ht.congr (s.block hj hd).symm)

theorem ents (hj : j ≠ 0 ∧ j ≤ m) (hd : (inode j).isDir = true) :
    s.store.ents s.layout j = entries bs (data (blk j)) := by
  obtain ⟨hs, -⟩ := s.single j hj.1 hj.2
  obtain ⟨hsize, hb, -⟩ := s.dirs j hj.1 hj.2 hd
  have hpos : 0 < bs := by rcases s.size with rfl | rfl | rfl <;> decide
  rw [Store.ents, s.inode_eq hj, Inode.dirEntries, hsize]
  change (inode j).entriesUpTo bs _ (bs / bs) = _
  rw [Nat.div_self hpos]
  unfold Inode.entriesUpTo
  simp only [List.range_one, List.flatMap_singleton, hs.blockAt, if_true]
  rw [blockEntries, if_neg hb, entries, (s.tiled hj hd).2, entries]

theorem dirWf (hj : j ≠ 0 ∧ j ≤ m) (hd : (inode j).isDir = true) : DirWf bs s.store.data (s.store.inode j) := by
  obtain ⟨hs, -⟩ := s.single j hj.1 hj.2
  refine ⟨?_, fun k' _ h0 => ?_⟩
  · rw [s.inode_eq hj, (s.dirs j hj.1 hj.2 hd).1]
    exact mod_self bs
  · rw [s.inode_eq hj, hs.blockAt] at h0 ⊢
    by_cases hk : k' = 0
    · rw [if_pos hk]
      exact (s.tiled hj hd).1
    · exact absurd (if_neg hk) h0

/-- **Consistent images**: every name is that of an inode in use. -/
theorem fsInv (hnames : ∀ j, j ≠ 0 → j ≤ m → (inode j).isDir = true → ∀ e ∈ entries bs (data (blk j)), e.ino ≠ 0 ∧ e.ino ≤ m) :
    FsInv aware full s.layout s.store where
  own := s.own
  root := s.named ⟨by decide, s.inodes.1⟩
  dirs := fun j hj hd => by
    have hj := used.1 hj
    rw [s.inode_eq hj] at hd
    obtain ⟨hs, -⟩ := s.single j hj.1 hj.2
    obtain ⟨hsize, hb, -⟩ := s.dirs j hj.1 hj.2 hd
    have hpos : 0 < bs := by rcases s.size with rfl | rfl | rfl <;> decide
    refine ⟨s.dirWf hj hd, fun _ k' hk' => ?_, fun e he => ?_⟩
    · rw [s.inode_eq hj, hsize] at hk'
      change bs / bs ≤ k' at hk'
      rw [Nat.div_self hpos] at hk'
      rw [s.inode_eq hj, hs.blockAt, if_neg (by omega)]
    · rw [s.ents hj hd] at he
      exact s.named (hnames j hj.1 hj.2 hd e he)

theorem rel : Rel s.layout (s.store.encode s.layout fun _ => false)
    s.store :=
  rel_encode s.layout_ok _ (prefixed_representable s.size (by rcases s.size with rfl | rfl | rfl <;> decide) s.total.2 ⟨s.first, s.total.1⟩ s.inodes.2)

/-- A program on the disk that holds the image. -/
theorem exec {α : Type} (p : Drv α) (hw : (Prog.run (step s.layout) p s.store).2.wild = false) :
    ((s.store.encode s.layout fun _ => false).exec s.layout p).1 = (Prog.run (step s.layout) p s.store).1 ∧
      ((s.store.encode s.layout fun _ => false).exec s.layout p).2.store s.layout = (Prog.run (step s.layout) p s.store).2 := by
  have hs := s.rel.2
  obtain ⟨h1, -, h3⟩ := exec_of_run s.layout_ok s.rel.1 rfl (by rw [← hs] at hw; exact hw)
  rw [hs] at h1 h3
  exact ⟨h1, h3⟩

end
end Small

/-! ## A file in the root directory -/

/-- The entries ".", ".." and "F", the last one up to the end of the block. -/
def oneFileBlock (bs : Nat) : Buf :=
  ofList ([2, 0, 0, 0, 12, 0, 1, 2, 46, 0, 0, 0] ++ [2, 0, 0, 0, 12, 0, 2, 2, 46, 46, 0, 0] ++
    [12, 0, 0, 0, UInt8.ofNat ((bs - 24) % 256), UInt8.ofNat ((bs - 24) / 256), 1, 1, 70])

def oneFileBlk (bs j : Nat) : Nat := if j = 2 then oneGroupData bs 16 else if j = 12 then oneGroupData bs 16 + 1 else 0

def oneFileInode (bs j : Nat) : Inode :=
  if j = 2 then Inode.small (EXT2_S_IFDIR ||| 0o755) 2 bs (oneGroupData bs 16)
  else if j = 12 then Inode.small (EXT2_S_IFREG ||| 0o644) 1 3 (oneGroupData bs 16 + 1)
  else Inode.empty

def oneFileData (bs b : Nat) : Buf := if b = oneGroupData bs 16 then oneFileBlock bs else ofList [97, 98, 99]

/-- An image with the file F, inode 12, that holds "abc". -/
def oneFileStore (bs per total : Nat) : Store :=
  Store.prefixed (oneGroup bs per total 16) (oneGroupData bs 16 + 2) 12 (oneFileInode bs) (oneFileData bs)

def oneFileDisk (bs per total : Nat) : Disk := (oneFileStore bs per total).encode (oneGroup bs per total 16) fun _ => false

theorem oneFileBlk_ne {bs j : Nat} (hb : oneFileBlk bs j ≠ 0) : j = 2 ∨ j = 12 := by
  unfold oneFileBlk at hb
  by_contra hn
  rw [not_or] at hn
  simp only [hn.1, hn.2, if_false, ne_eq, not_true_eq_false] at hb

theorem oneFileInode_isDir {bs j : Nat} (hd : (oneFileInode bs j).isDir = true) : j = 2 := by
  by_contra h2
  unfold oneFileInode at hd
  simp only [h2, if_false] at hd
  split at hd
  · rw [Inode.small_isDir] at hd
    exact absurd hd (by decide)
  · cases hd

theorem oneFile_small {bs per total : Nat} (hbs : bs = 1024 ∨ bs = 2048 ∨ bs = 4096)
    (ht : oneGroupData bs 16 + 2 ≤ total ∧ total ≤ per ∧ per ≤ 8 * bs) :
    Small bs per total (oneGroupData bs 16 + 2) 12 (oneFileInode bs) (oneFileData bs) (oneFileBlk bs) where
  size := hbs
  total := ht
  inodes := by decide
  first := le_add_right _ _
  single := fun j h0 hj => by
    have hlt : oneGroupData bs 16 + 1 < 4294967296 := by rcases hbs with rfl | rfl | rfl <;> decide
    unfold oneFileInode oneFileBlk
    by_cases h2 : j = 2
    · simp only [h2, if_true]
      exact ⟨Inode.small_single (by omega), by rw [Inode.small_isLnk]; decide⟩
    by_cases h12 : j = 12
    · simp only [h12, if_true, show (12 : Nat) ≠ 2 by decide, if_false]
      exact ⟨Inode.small_single hlt, by rw [Inode.small_isLnk]; decide⟩
    · simp only [h2, h12, if_false]
      exact ⟨by unfold Inode.Single; decide, rfl⟩
  range := fun j _ _ hb => by
    rcases oneFileBlk_ne hb with rfl | rfl
    · exact ⟨Nat.le_refl _, Nat.lt_add_of_pos_right (by decide)⟩
    · exact ⟨Nat.le_succ _, Nat.lt_succ_self _⟩
  sep := fun i j _ _ _ _ he hb => by
    rcases oneFileBlk_ne hb with rfl | rfl <;> rcases oneFileBlk_ne (he ▸ hb) with rfl | rfl
    · rfl
    · exact absurd he (Nat.ne_of_lt (Nat.lt_succ_self _))
    · exact absurd he (Nat.ne_of_gt (Nat.lt_succ_self _))
    · rfl
  cover := fun b h1 h2 => by
    have hb : b = oneGroupData bs 16 ∨ b = oneGroupData bs 16 + 1 := by omega
    rcases hb with rfl | rfl
    · exact ⟨2, by decide, by decide, rfl⟩
    · exact ⟨12, by decide, by decide, rfl⟩
  dirs := fun j _ _ hd => by
    obtain rfl := oneFileInode_isDir hd
    rcases hbs with rfl | rfl | rfl
    · exact ⟨rfl, by decide, by decide +kernel⟩
    · exact ⟨rfl, by decide, by decide +kernel⟩
    · exact ⟨rfl, by decide, by decide +kernel⟩

abbrev smallLayout : Layout := oneGroup 1024 8192 64 16

section
variable {bs per total : Nat} (hbs : bs = 1024 ∨ bs = 2048 ∨ bs = 4096) (ht : oneGroupData bs 16 + 2 ≤ total ∧ total ≤ per ∧ per ≤ 8 * bs)
include hbs ht

theorem oneFile_ok : (oneGroup bs per total 16).Ok := (oneFile_small hbs ht).layout_ok

theorem oneFile_store : (oneFileDisk bs per total).store (oneGroup bs per total 16) = oneFileStore bs per total := (oneFile_small hbs ht).rel.2

theorem oneFile_consistent {aware full : Bool} : Consistent aware full (oneGroup bs per total 16) (oneFileDisk bs per total) := by
  have s := oneFile_small hbs ht
  refine ⟨s.rel.1, ?_⟩
  rw [oneFile_store hbs ht]
  refine s.fsInv fun j _ _ hd => ?_
  obtain rfl := oneFileInode_isDir hd
  rcases hbs with rfl | rfl | rfl <;> decide +kernel

theorem oneFile_exec {α : Type} (p : Drv α) (hw : (Prog.run (step (oneGroup bs per total 16)) p (oneFileStore bs per total)).2.wild = false) :
    ((oneFileDisk bs per total).exec (oneGroup bs per total 16) p).1 =
        (Prog.run (step (oneGroup bs per total 16)) p (oneFileStore bs per total)).1 ∧
      ((oneFileDisk bs per total).exec (oneGroup bs per total 16) p).2.store (oneGroup bs per total 16) =
        (Prog.run (step (oneGroup bs per total 16)) p (oneFileStore bs per total)).2 :=
  (oneFile_small hbs ht).exec p hw

end

/-- The file of the small image is no symbolic link. -/
theorem oneFile_spares : (Op.unlink sampleEnv [slash, 70] false).Spares true smallLayout
    ((oneFileDisk 1024 8192 64).store smallLayout) := by
  rw [oneFile_store (.inl rfl) (by decide)]
  intro n hn
  obtain rfl : 12 = n := Option.some.inj ((show _ = some 12 by decide +kernel).symm.trans hn)
  decide +kernel

end PureUnix.Ext2
