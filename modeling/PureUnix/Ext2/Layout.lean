import PureUnix.Lib.Bytes

/-!
# On-disk structures (`fs/ext2/ext2.h`)

`Fs` is the mounted file system's `ext2_fs_t`, less the `disk` and `bgdt` pointers (the disk and
the descriptor table are machine state, see `Device.lean`). `uint32_t` values are natural numbers
and every computation on them that could wrap is taken through `u32`.

`Inode` is `ext2_inode_t`, field by field with the C widths, and `Inode.decode`/`Inode.encode`
are the packed 128-byte layout: `decode_encode` says that nothing is lost on the way.
-/
namespace PureUnix.Ext2
open Lib Nat

variable {b : Buf} {off k : Nat}

/-- `uint32_t` arithmetic. -/
def u32 (n : Nat) : Nat := n % 4294967296

theorem u32_of_lt {n : Nat} (h : n < 4294967296) : u32 n = n := mod_eq_of_lt h

theorem u32_lt (n : Nat) : u32 n < 4294967296 := mod_lt n (by decide)

/-- `ext2_fs_t` (ext2.h:183). -/
structure Fs where
  mounted : Bool
  blockSize : Nat
  sectorsPerBlock : Nat
  inodesPerGroup : Nat
  blocksPerGroup : Nat
  inodeSize : Nat
  firstDataBlock : Nat
  numGroups : Nat
  totalInodes : Nat
  totalBlocks : Nat
  bgdtBlock : Nat
  bgdtBlocks : Nat
deriving DecidableEq, Repr

def EXT2_ROOT_INODE : Nat := 2

def EXT2_S_IFREG : UInt16 := 0x8000
def EXT2_S_IFDIR : UInt16 := 0x4000
def EXT2_S_IFLNK : UInt16 := 0xA000
def EXT2_S_IFMT : UInt16 := 0xF000

def EXT2_FT_REG_FILE : UInt8 := 1
def EXT2_FT_DIR : UInt8 := 2
def EXT2_FT_SYMLINK : UInt8 := 7

/-- `ext2_inode_t` (ext2.h:135). -/
structure Inode where
  iMode : UInt16
  iUid : UInt16
  iSize : UInt32
  iAtime : UInt32
  iCtime : UInt32
  iMtime : UInt32
  iDtime : UInt32
  iGid : UInt16
  iLinksCount : UInt16
  /-- 512-byte sectors, not blocks. -/
  iBlocks : UInt32
  iFlags : UInt32
  iOsd1 : UInt32
  /-- `[0..11]` direct, `[12]` singly indirect, `[13]` and `[14]` unused by the driver. -/
  iBlock : Fin 15 → UInt32
  iGeneration : UInt32
  iFileAcl : UInt32
  iDirAcl : UInt32
  iFaddr : UInt32
  iOsd2 : Fin 12 → UInt8

namespace Inode
variable {i : Inode}

/-- `memset(&inode, 0, sizeof(inode))`. -/
def empty : Inode :=
  ⟨0, 0, 0, 0, 0, 0, 0, 0, 0, 0, 0, 0, fun _ => 0, 0, 0, 0, 0, fun _ => 0⟩

/-- The 128 bytes at the start of `b`, read as a packed `ext2_inode_t`. -/
def decode (b : Buf) : Inode where
  iMode := UInt16.ofNat (get16 b 0)
  iUid := UInt16.ofNat (get16 b 2)
  iSize := UInt32.ofNat (get32 b 4)
  iAtime := UInt32.ofNat (get32 b 8)
  iCtime := UInt32.ofNat (get32 b 12)
  iMtime := UInt32.ofNat (get32 b 16)
  iDtime := UInt32.ofNat (get32 b 20)
  iGid := UInt16.ofNat (get16 b 24)
  iLinksCount := UInt16.ofNat (get16 b 26)
  iBlocks := UInt32.ofNat (get32 b 28)
  iFlags := UInt32.ofNat (get32 b 32)
  iOsd1 := UInt32.ofNat (get32 b 36)
  iBlock k := UInt32.ofNat (get32 b (40 + 4 * k))
  iGeneration := UInt32.ofNat (get32 b 100)
  iFileAcl := UInt32.ofNat (get32 b 104)
  iDirAcl := UInt32.ofNat (get32 b 108)
  iFaddr := UInt32.ofNat (get32 b 112)
  iOsd2 k := b (116 + k)

/-- Byte `k` of the packed structure. -/
def encode (i : Inode) : Buf := fun k =>
  if k < 2 then leByte i.iMode.toNat k
  else if k < 4 then leByte i.iUid.toNat (k - 2)
  else if k < 8 then leByte i.iSize.toNat (k - 4)
  else if k < 12 then leByte i.iAtime.toNat (k - 8)
  else if k < 16 then leByte i.iCtime.toNat (k - 12)
  else if k < 20 then leByte i.iMtime.toNat (k - 16)
  else if k < 24 then leByte i.iDtime.toNat (k - 20)
  else if k < 26 then leByte i.iGid.toNat (k - 24)
  else if k < 28 then leByte i.iLinksCount.toNat (k - 26)
  else if k < 32 then leByte i.iBlocks.toNat (k - 28)
  else if k < 36 then leByte i.iFlags.toNat (k - 32)
  else if k < 40 then leByte i.iOsd1.toNat (k - 36)
  else if h : k < 100 then leByte (i.iBlock ⟨(k - 40) / 4, by omega⟩).toNat ((k - 40) % 4)
  else if k < 104 then leByte i.iGeneration.toNat (k - 100)
  else if k < 108 then leByte i.iFileAcl.toNat (k - 104)
  else if k < 112 then leByte i.iDirAcl.toNat (k - 108)
  else if k < 116 then leByte i.iFaddr.toNat (k - 112)
  else if h : k < 128 then i.iOsd2 ⟨k - 116, by omega⟩
  else 0

theorem get32_of_bytes (v : UInt32) (h0 : b off = leByte v.toNat 0)
    (h1 : b (off + 1) = leByte v.toNat 1) (h2 : b (off + 2) = leByte v.toNat 2)
    (h3 : b (off + 3) = leByte v.toNat 3) : UInt32.ofNat (get32 b off) = v := by
  have hv := v.toNat_lt
  apply UInt32.toNat_inj.1
  simp only [get32, h0, h1, h2, h3, leByte_toNat, UInt32.toNat_ofNat']
  omega

theorem get16_of_bytes (v : UInt16) (h0 : b off = leByte v.toNat 0)
    (h1 : b (off + 1) = leByte v.toNat 1) : UInt16.ofNat (get16 b off) = v := by
  have hv := v.toNat_lt
  apply UInt16.toNat_inj.1
  simp only [get16, h0, h1, leByte_toNat, UInt16.toNat_ofNat']
  omega

theorem encode_block (i : Inode) (k : Fin 15) (j : Nat) (hj : j < 4) :
    encode i (40 + 4 * k + j) = leByte (i.iBlock k).toNat j := by
  have e : (40 + 4 * (k : Nat) + j - 40) / 4 = k := by omega
  have e' : (40 + 4 * (k : Nat) + j - 40) % 4 = j := by omega
  simp (disch := omega) only [encode, if_neg, dif_pos, e, e']

theorem encode_osd2 (i : Inode) (k : Fin 12) : encode i (116 + k) = i.iOsd2 k := by
  have hk := k.isLt
  simp (disch := omega) only [encode, if_neg, dif_neg, dif_pos, Nat.add_sub_cancel_left]

/-- **The packed layout loses nothing**: what is written to the inode table reads back. -/
theorem decode_encode (i : Inode) : decode (encode i) = i := by
  obtain ⟨m, u, s, a, c, mt, d, g, l, b, f, o, blk, gen, fa, da, fad, o2⟩ := i
  simp only [decode, mk.injEq]
  refine ⟨get16_of_bytes _ rfl rfl, get16_of_bytes _ rfl rfl, get32_of_bytes _ rfl rfl rfl rfl,
    get32_of_bytes _ rfl rfl rfl rfl, get32_of_bytes _ rfl rfl rfl rfl,
    get32_of_bytes _ rfl rfl rfl rfl, get32_of_bytes _ rfl rfl rfl rfl, get16_of_bytes _ rfl rfl,
    get16_of_bytes _ rfl rfl, get32_of_bytes _ rfl rfl rfl rfl, get32_of_bytes _ rfl rfl rfl rfl,
    get32_of_bytes _ rfl rfl rfl rfl, ?_, get32_of_bytes _ rfl rfl rfl rfl,
    get32_of_bytes _ rfl rfl rfl rfl, get32_of_bytes _ rfl rfl rfl rfl,
    get32_of_bytes _ rfl rfl rfl rfl, ?_⟩
  · funext k
    exact get32_of_bytes _ (encode_block _ k 0 (by omega)) (encode_block _ k 1 (by omega))
      (encode_block _ k 2 (by omega)) (encode_block _ k 3 (by omega))
  · exact funext (encode_osd2 _)

theorem decode_congr {a : Buf} (h : Same 0 128 a b) : decode a = decode b := by
  have g16 : ∀ o, o + 2 ≤ 128 → get16 a o = get16 b o := fun o ho =>
    get16_congr (h.mono (by omega) (by omega))
  have g32 : ∀ o, o + 4 ≤ 128 → get32 a o = get32 b o := fun o ho =>
    get32_congr (h.mono (by omega) (by omega))
  simp only [decode, mk.injEq]
  refine ⟨by rw [g16 0 (by omega)], by rw [g16 2 (by omega)], by rw [g32 4 (by omega)],
    by rw [g32 8 (by omega)], by rw [g32 12 (by omega)], by rw [g32 16 (by omega)],
    by rw [g32 20 (by omega)], by rw [g16 24 (by omega)], by rw [g16 26 (by omega)],
    by rw [g32 28 (by omega)], by rw [g32 32 (by omega)], by rw [g32 36 (by omega)], ?_,
    by rw [g32 100 (by omega)], by rw [g32 104 (by omega)], by rw [g32 108 (by omega)],
    by rw [g32 112 (by omega)], ?_⟩
  · funext k
    rw [g32 (40 + 4 * k) (by have := k.isLt; omega)]
  · funext k
    exact h _ (by omega) (by have := k.isLt; omega)

/-! ## Field tests and updates used by the driver -/

/-- `(i_mode & EXT2_S_IFMT) == EXT2_S_IFDIR`. -/
def isDir (i : Inode) : Bool := i.iMode &&& EXT2_S_IFMT == EXT2_S_IFDIR
def isReg (i : Inode) : Bool := i.iMode &&& EXT2_S_IFMT == EXT2_S_IFREG
def isLnk (i : Inode) : Bool := i.iMode &&& EXT2_S_IFMT == EXT2_S_IFLNK

/-- `i_block[k]` as a block number. -/
def blkNo (i : Inode) (k : Nat) : Nat := if h : k < 15 then (i.iBlock ⟨k, h⟩).toNat else 0

/-- `i_block[k] = blk`. -/
def setBlk (i : Inode) (k blk : Nat) : Inode :=
  { i with iBlock := fun j => if j.val = k then UInt32.ofNat blk else i.iBlock j }

theorem blkNo_setBlk {blk : Nat} (hk : k < 15) (hb : blk < 4294967296) (j : Nat) :
    (i.setBlk k blk).blkNo j = if j = k then blk else i.blkNo j := by
  unfold blkNo setBlk
  by_cases hj : j < 15
  · by_cases e : j = k
    · simp only [e, if_true, dif_pos hk, UInt32.toNat_ofNat', mod_eq_of_lt hb]
    · simp only [hj, e, if_false, dif_pos]
  · rw [dif_neg hj, dif_neg hj, if_neg (by omega)]

theorem setBlk_zero (hk : k < 15) (h : i.blkNo k = 0) : i.setBlk k 0 = i := by
  have hz : i.iBlock ⟨k, hk⟩ = 0 := by simpa [blkNo, hk, ← UInt32.toNat_inj] using h
  have hf : (fun j => if j.val = k then UInt32.ofNat 0 else i.iBlock j) = i.iBlock := by
    funext j
    split
    · rename_i hj
      exact hz.symm.trans (congrArg i.iBlock (Fin.ext hj.symm))
    · rfl
  unfold setBlk
  rw [hf]

end Inode
end Ext2

export Ext2 (u32 u32_lt u32_of_lt)

end PureUnix
