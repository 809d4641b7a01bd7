import PureUnix.Ext2.Accounting

/-!
# Writing a store to a disk

`Store.encode L dirs v` lays the store `v` out as a disk: bitmaps, inode tables and data blocks in
their places, the descriptor table and the superblock with the counters. `store_encode` says that
decoding gets `v` back, so that every store with values in range (`Representable`) is the decoded
form of some disk and statements about stores are statements about disks. `exact_encode` adds that
the disk's accounts are exact when the store's counters are.
-/
namespace PureUnix.Ext2
open Lib List Finset Layout Layout.Ok
open Nat (mod_eq_of_lt mul_comm)
open Store (ext)
open Disk (store)

variable {L : Layout} {r : Region} {b : Nat}

/-! ## Finding the region of a block -/

def Layout.regions (L : Layout) : List Region :=
  .super :: .bgdt :: (List.range L.numGroups).flatMap fun g =>
    [.blockBitmap g, .inodeBitmap g, .inodeTable g]

theorem Layout.mem_regions : r ∈ L.regions ↔ L.Valid r := by
  cases r <;> simp [regions, Valid]

instance (L : Layout) (r : Region) (b : Nat) : Decidable (L.Within r b) :=
  inferInstanceAs (Decidable (_ ∧ _))

def Layout.regionOf (L : Layout) (b : Nat) : Option Region := L.regions.find? fun r => L.Within r b

theorem Layout.regionOf_within (h : L.Ok) (hr : L.Valid r) (hb : L.Within r b) : L.regionOf b = some r := by
  unfold regionOf
  cases hf : L.regions.find? fun r => L.Within r b with
  | none =>
    have := find?_eq_none.1 hf r (mem_regions.2 hr)
    simp [hb] at this
  | some r' =>
    have h1 := find?_some hf
    have h2 := mem_regions.1 (mem_of_find?_eq_some hf)
    rw [h.disjoint r' r b h2 hr (by simpa using h1) hb]

theorem Layout.regionOf_data (hb : L.Data b) : L.regionOf b = none := by
  unfold regionOf
  rw [find?_eq_none]
  intro r hr hw
  exact hb.2.2 ⟨r, mem_regions.1 hr, by simpa using hw⟩

/-! ## Packed bits -/

/-- Byte `k` of a bitmap with bits `p`. -/
def packBits (p : Nat → Bool) (k : Nat) : UInt8 :=
  UInt8.ofNat ((p (8 * k)).toNat + 2 * (p (8 * k + 1)).toNat + 4 * (p (8 * k + 2)).toNat +
    8 * (p (8 * k + 3)).toNat + 16 * (p (8 * k + 4)).toNat + 32 * (p (8 * k + 5)).toNat +
    64 * (p (8 * k + 6)).toNat + 128 * (p (8 * k + 7)).toNat)

theorem bit_packBits (p : Nat → Bool) (i : Nat) : bit (packBits p) i = p i := by
  have hk : ∀ b0 b1 b2 b3 b4 b5 b6 b7 : Bool, ∀ j : Fin 8,
      ((UInt8.ofNat (b0.toNat + 2 * b1.toNat + 4 * b2.toNat + 8 * b3.toNat + 16 * b4.toNat +
        32 * b5.toNat + 64 * b6.toNat + 128 * b7.toNat) &&& UInt8.ofNat (1 <<< j.val)) != 0) =
      [b0, b1, b2, b3, b4, b5, b6, b7].getD j.val false := by decide +kernel
  have hmod : i % 8 < 8 := Nat.mod_lt _ (by omega)
  have hi : i = 8 * (i / 8) + i % 8 := by omega
  have := hk (p (8 * (i / 8))) (p (8 * (i / 8) + 1)) (p (8 * (i / 8) + 2)) (p (8 * (i / 8) + 3))
    (p (8 * (i / 8) + 4)) (p (8 * (i / 8) + 5)) (p (8 * (i / 8) + 6)) (p (8 * (i / 8) + 7)) ⟨i % 8, hmod⟩
  rw [bit, packBits, this]
  conv_rhs => rw [hi]
  generalize i / 8 = q, i % 8 = m at hmod
  interval_cases m <;> rfl

/-! ## The disk of a store -/

def bgdtEntry (L : Layout) (dirs : Nat → Bool) (v : Store) (g : Nat) : Buf :=
  put16 (put16 (put16 (put32 (put32 (put32 zeros 0 (L.blockBitmap g)) 4 (L.inodeBitmap g)) 8
    (L.inodeTable g)) 12 (v.freeBlocks g)) 14 (v.freeInodes g)) 16
    (markedIn v.inodeUsed dirs (g * L.inodesPerGroup + 1) L.inodesPerGroup (L.totalInodes + 1))

def Store.encodeBgdt (L : Layout) (dirs : Nat → Bool) (v : Store) : Buf := fun i =>
  bgdtEntry L dirs v (i / 32) (i % 32)

def Store.encodeSuper (L : Layout) (v : Store) : Buf :=
  put32 (put32 zeros 1036 (∑ g ∈ Finset.range L.numGroups, v.freeBlocks g)) 1040
    (∑ g ∈ Finset.range L.numGroups, v.freeInodes g)

/-- Byte `o` of block `b`. -/
def Store.encodeBlock (L : Layout) (dirs : Nat → Bool) (v : Store) (b o : Nat) : UInt8 :=
  match L.regionOf b with
  | some .super => v.encodeSuper L (b * L.blockSize + o)
  | some .bgdt => v.encodeBgdt L dirs ((b - L.bgdtBlock) * L.blockSize + o)
  | some (.blockBitmap g) =>
    packBits (fun i => v.blockUsed (L.firstDataBlock + g * L.blocksPerGroup + i)) o
  | some (.inodeBitmap g) => packBits (fun i => v.inodeUsed (g * L.inodesPerGroup + 1 + i)) o
  | some (.inodeTable g) =>
    let k := (b - L.inodeTable g) * L.blockSize + o
    (v.inode (g * L.inodesPerGroup + 1 + k / L.inodeSize)).encode (k % L.inodeSize)
  | none => v.data b o

def Store.encode (L : Layout) (dirs : Nat → Bool) (v : Store) : Disk where
  bytes a := v.encodeBlock L dirs (a / L.blockSize) (a % L.blockSize)
  bgdt := v.encodeBgdt L dirs

/-- The values of a store that a disk can hold. -/
structure Store.Representable (L : Layout) (v : Store) : Prop where
  blockUsed : ∀ b, v.blockUsed b = true → L.firstDataBlock ≤ b ∧ L.groupOf b < L.numGroups
  inodeUsed : ∀ ino, v.inodeUsed ino = true → L.ValidIno ino
  inode : ∀ ino, ¬ L.ValidIno ino → v.inode ino = Inode.empty
  data : ∀ b, v.data b = if L.Data b then trunc L.blockSize (v.data b) else zeros
  freeBlocks : ∀ g, v.freeBlocks g < 65536 ∧ (L.numGroups ≤ g → v.freeBlocks g = 0)
  freeInodes : ∀ g, v.freeInodes g < 65536 ∧ (L.numGroups ≤ g → v.freeInodes g = 0)
  wild : v.wild = false
  tables : ∀ g, g < L.numGroups → L.blockBitmap g < 4294967296 ∧ L.inodeBitmap g < 4294967296 ∧ L.inodeTable g < 4294967296

section
variable {L : Layout} (h : L.Ok) (dirs : Nat → Bool) (v : Store) {g o : Nat}
include h

theorem block_encode (hb : b < L.totalBlocks) :
    (v.encode L dirs).block L.fs b = trunc L.blockSize (v.encodeBlock L dirs b) := by
  have hbs := h.bs_pos
  apply trunc_congr
  intro i _ hi
  have e : b * L.blockSize + i = i + L.blockSize * b := by rw [mul_comm]; omega
  simp only [Store.encode, h.base_eq hb, e, Nat.add_mul_div_left _ _ hbs, Nat.div_eq_of_lt hi,
    Nat.zero_add, Nat.add_mul_mod_self_left, mod_eq_of_lt hi]

theorem block_encode_region (hr : L.Valid r) (hb : L.Within r b) {X : Buf}
    (hX : L.regionOf b = some r → v.encodeBlock L dirs b = X) :
    (v.encode L dirs).block L.fs b = trunc L.blockSize X := by
  rw [block_encode h dirs v (h.inside r b hr hb), hX (regionOf_within h hr hb)]

omit h in
theorem bgdt_field32 (ho : o + 4 ≤ 32) : get32 (v.encodeBgdt L dirs) (g * 32 + o) = get32 (bgdtEntry L dirs v g) o := by
  have e : ∀ j, j < 32 → v.encodeBgdt L dirs (g * 32 + j) = bgdtEntry L dirs v g j := fun j hj => by
    simp only [Store.encodeBgdt]
    rw [show (g * 32 + j) / 32 = g by omega, show (g * 32 + j) % 32 = j by omega]
  simp only [get32, Nat.add_assoc]
  rw [e o (by omega), e (o + 1) (by omega), e (o + 2) (by omega), e (o + 3) (by omega)]

omit h in
theorem bgdt_field16 (ho : o + 2 ≤ 32) : get16 (v.encodeBgdt L dirs) (g * 32 + o) = get16 (bgdtEntry L dirs v g) o := by
  have e : ∀ j, j < 32 → v.encodeBgdt L dirs (g * 32 + j) = bgdtEntry L dirs v g j := fun j hj => by
    simp only [Store.encodeBgdt]
    rw [show (g * 32 + j) / 32 = g by omega, show (g * 32 + j) % 32 = j by omega]
  simp only [get16, Nat.add_assoc]
  rw [e o (by omega), e (o + 1) (by omega)]

omit h in
theorem bgdtEntry_ptr (ho : o + 4 ≤ 12) : get32 (bgdtEntry L dirs v g) o =
    get32 (put32 (put32 (put32 zeros 0 (L.blockBitmap g)) 4 (L.inodeBitmap g)) 8 (L.inodeTable g)) o := by
  simp only [bgdtEntry]
  rw [get32_congr (put16_same (by omega)), get32_congr (put16_same (by omega)), get32_congr (put16_same (by omega))]

theorem bits_encode (hg : g < L.numGroups) {i : Nat} (hi : i < 8 * L.blockSize) :
    (v.encode L dirs).blockBit L g i = v.blockUsed (L.firstDataBlock + g * L.blocksPerGroup + i) ∧
      (v.encode L dirs).inodeBit L g i = v.inodeUsed (g * L.inodesPerGroup + 1 + i) := by
  have hvb : L.Valid (.blockBitmap g) := hg
  have hvi : L.Valid (.inodeBitmap g) := hg
  have e1 := block_encode_region h dirs v hvb (within_blockBitmap g)
    (X := packBits fun i => v.blockUsed (L.firstDataBlock + g * L.blocksPerGroup + i))
    (fun hr => by funext o; simp only [Store.encodeBlock, hr])
  have e2 := block_encode_region h dirs v hvi (within_inodeBitmap g)
    (X := packBits fun i => v.inodeUsed (g * L.inodesPerGroup + 1 + i))
    (fun hr => by funext o; simp only [Store.encodeBlock, hr])
  rw [Disk.blockBit, Disk.inodeBit, e1, e2, bit_congr (trunc_same _ _) hi, bit_congr (trunc_same _ _) hi,
    bit_packBits, bit_packBits]
  exact ⟨rfl, rfl⟩

theorem inode_encode {ino : Nat} (hi : L.ValidIno ino) :
    Inode.decode (fun i => (v.encode L dirs).block L.fs (L.inodeTable (L.groupOfIno ino) +
      L.indexOfIno ino * L.inodeSize / L.blockSize)
      (L.indexOfIno ino * L.inodeSize % L.blockSize + i)) = v.inode ino := by
  have hvt : L.Valid (.inodeTable (L.groupOfIno ino)) := h.inoGroup_lt hi
  have hfit := h.slot_fits ino
  have h128 := h.inodeSize.1
  have hdm := Nat.div_add_mod (L.indexOfIno ino * L.inodeSize) L.blockSize
  rw [block_encode h dirs v (h.inside _ _ hvt (h.slot_within hi))]
  conv_rhs => rw [← Inode.decode_encode (v.inode ino)]
  apply Inode.decode_congr
  intro i _ hlt
  have hk : L.indexOfIno ino * L.inodeSize / L.blockSize * L.blockSize +
      (L.indexOfIno ino * L.inodeSize % L.blockSize + i) = i + L.inodeSize * L.indexOfIno ino := by
    rw [Nat.mul_comm L.inodeSize, Nat.mul_comm _ L.blockSize]; omega
  simp only [trunc]
  rw [if_pos (by omega)]
  simp only [Store.encodeBlock, regionOf_within h hvt (h.slot_within hi), Nat.add_sub_cancel_left, hk]
  rw [Nat.add_mul_div_left _ _ (by omega), Nat.div_eq_of_lt (by omega), Nat.zero_add,
    ← ino_eq_mk hi.1, Nat.add_mul_mod_self_left, mod_eq_of_lt (by omega)]

variable {v} (hv : v.Representable L)
include hv

omit h in
theorem mounted_encode : L.Mounted (v.encode L dirs) := by
  intro g hg
  obtain ⟨h1, h2, h3⟩ := hv.tables g hg
  have e0 : bgBlockBitmap (v.encode L dirs).bgdt g = get32 (bgdtEntry L dirs v g) 0 :=
    bgdt_field32 (g := g) (o := 0) dirs v (by omega)
  have e4 : bgInodeBitmap (v.encode L dirs).bgdt g = get32 (bgdtEntry L dirs v g) 4 :=
    bgdt_field32 (g := g) (o := 4) dirs v (by omega)
  have e8 : bgInodeTable (v.encode L dirs).bgdt g = get32 (bgdtEntry L dirs v g) 8 :=
    bgdt_field32 (g := g) (o := 8) dirs v (by omega)
  rw [e0, e4, e8, bgdtEntry_ptr dirs v (by omega), bgdtEntry_ptr dirs v (by omega), bgdtEntry_ptr dirs v (by omega)]
  refine ⟨?_, ?_, ?_⟩
  · rw [get32_congr (put32_same (by omega)), get32_congr (put32_same (by omega)), get32_put32, mod_eq_of_lt h1]
  · rw [get32_congr (put32_same (by omega)), get32_put32, mod_eq_of_lt h2]
  · rw [get32_put32, mod_eq_of_lt h3]

omit h in
theorem bgdt_counts (g : Nat) : bgFreeBlocksCount (v.encode L dirs).bgdt g = v.freeBlocks g ∧
    bgFreeInodesCount (v.encode L dirs).bgdt g = v.freeInodes g := by
  have e1 : bgFreeBlocksCount (v.encode L dirs).bgdt g = get16 (bgdtEntry L dirs v g) 12 :=
    bgdt_field16 dirs v (by omega)
  have e2 : bgFreeInodesCount (v.encode L dirs).bgdt g = get16 (bgdtEntry L dirs v g) 14 :=
    bgdt_field16 dirs v (by omega)
  rw [e1, e2]
  simp only [bgdtEntry]
  refine ⟨?_, ?_⟩
  · rw [get16_congr (put16_same (by omega)), get16_congr (put16_same (by omega)), get16_put16, mod_eq_of_lt (hv.freeBlocks g).1]
  · rw [get16_congr (put16_same (by omega)), get16_put16, mod_eq_of_lt (hv.freeInodes g).1]

/-- **Decoding undoes encoding.** -/
theorem store_encode : (v.encode L dirs).store L = v := by
  have hcb := fun g => (bgdt_counts dirs hv g).1
  have hci := fun g => (bgdt_counts dirs hv g).2
  refine ext ?_ ?_ ?_ ?_ ?_ ?_ hv.wild.symm
  · funext b
    by_cases hc : L.firstDataBlock ≤ b ∧ L.groupOf b < L.numGroups
    · have hix : L.indexOf b < 8 * L.blockSize := by
        have := h.indexOf_lt b
        have := h.blocksPerGroup.2
        omega
      have := (bits_encode h dirs v hc.2 hix).1
      rw [← block_eq_mk hc.1] at this
      simp only [store, hc, decide_true, Bool.true_and]
      exact this
    · have hf : v.blockUsed b = false := by
        by_contra hb
        exact hc (hv.blockUsed b (by simpa using hb))
      rw [hf]
      simp only [store, Bool.and_eq_false_iff, decide_eq_false_iff_not]
      exact .inl (by omega)
  · funext ino
    by_cases hi : L.ValidIno ino
    · have hix : L.indexOfIno ino < 8 * L.blockSize := by
        have := h.inoIndex_lt ino
        have := h.inodesPerGroup.2
        omega
      have := (bits_encode h dirs v (h.inoGroup_lt hi) hix).2
      rw [← ino_eq_mk hi.1] at this
      simp only [store, hi, decide_true, Bool.true_and]
      exact this
    · have hf : v.inodeUsed ino = false := by
        by_contra hb
        exact hi (hv.inodeUsed ino (by simpa using hb))
      simp [store, hi, hf]
  · funext ino
    simp only [store]
    split
    · rename_i hi; exact inode_encode h dirs v hi
    · rename_i hi; exact (hv.inode ino hi).symm
  · funext b
    rw [hv.data b]
    simp only [store]
    split
    · rename_i hd
      rw [block_encode h dirs v hd.2.1]
      congr 1
      funext o
      simp only [Store.encodeBlock, regionOf_data hd]
    · rfl
  · funext g
    simp only [store, hcb]
    split
    · rfl
    · rename_i hg; exact ((hv.freeBlocks g).2 (by omega)).symm
  · funext g
    simp only [store, hci]
    split
    · rfl
    · rename_i hg; exact ((hv.freeInodes g).2 (by omega)).symm

theorem rel_encode : Rel L (v.encode L dirs) v := ⟨mounted_encode dirs hv, store_encode h dirs hv⟩

/-! ## Exact accounts -/

end

/-- The counters of a store are the numbers of free blocks and inodes. -/
structure Store.Exact (L : Layout) (v : Store) : Prop where
  metaUsed : ∀ b, L.firstDataBlock ≤ b → L.Meta b → v.blockUsed b = true
  freeBlocks : ∀ g, g < L.numGroups → v.freeBlocks g =
    freeIn v.blockUsed (L.firstDataBlock + g * L.blocksPerGroup) L.blocksPerGroup L.totalBlocks
  freeInodes : ∀ g, g < L.numGroups → v.freeInodes g =
    freeIn v.inodeUsed (g * L.inodesPerGroup + 1) L.inodesPerGroup (L.totalInodes + 1)

theorem sum_lt {n per : Nat} {f : Nat → Nat} (hcap : n * per < 4294967296)
    (hf : ∀ g, g < n → f g ≤ per) : ∑ g ∈ Finset.range n, f g < 4294967296 := by
  have hle : ∑ g ∈ Finset.range n, f g ≤ n * per :=
    (Finset.sum_le_card_nsmul (Finset.range n) _ per fun g hg => hf g (Finset.mem_range.1 hg)).trans (by simp)
  omega

section
variable {L : Layout} (h : L.Ok) (dirs : Nat → Bool) {v : Store} (hv : v.Representable L)
include h

theorem super_encode : Same 1024 2048 (v.encode L dirs).bytes (v.encodeSuper L) := by
  intro a h1 h2
  have hb : a / L.blockSize = 1024 / L.blockSize := by
    rcases h.blockSize with e | e | e <;> rw [e] <;> omega
  have hr : L.regionOf (a / L.blockSize) = some .super := by
    have hv : L.Valid .super := trivial
    rw [hb]; exact regionOf_within h hv within_super
  simp only [Store.encode, Store.encodeBlock, hr]
  rw [mul_comm, Nat.div_add_mod]

include hv

theorem exact_encode (he : v.Exact L) : (v.encode L dirs).Exact L dirs := by
  have hs := store_encode h dirs hv
  have hm : ∀ b, L.Meta b → b < L.totalBlocks := by
    rintro b ⟨r, hr, hw⟩; exact h.inside r b hr hw
  have hsb := sum_lt (blocks_cap h) fun g hg => he.freeBlocks g hg ▸ freeIn_le
  have hsi := sum_lt h.inodes32 fun g hg => he.freeInodes g hg ▸ freeIn_le
  have hsup := super_encode (v := v) h dirs
  refine ⟨mounted_encode dirs hv, ?_, ?_, ?_, ?_, ?_, ?_, ?_⟩
  · intro b h1 h2
    rw [← blockUsed_store h h1 (hm b h2), hs]
    exact he.metaUsed b h1 h2
  · intro g hg
    rw [(bgdt_counts dirs hv g).1, zeroBlocks_eq h hg, hs]
    exact he.freeBlocks g hg
  · intro g hg
    rw [(bgdt_counts dirs hv g).2, zeroInodes_eq h, hs]
    exact he.freeInodes g hg
  · intro g hg
    have e1 : bgUsedDirsCount (v.encode L dirs).bgdt g = get16 (bgdtEntry L dirs v g) 16 :=
      bgdt_field16 dirs v (by omega)
    have hcap := inodesPerGroup_le h
    rw [e1, dirInodes_eq h, hs, bgdtEntry, get16_put16, mod_eq_of_lt]
    exact Nat.lt_of_le_of_lt markedIn_le (by omega)
  · intro k hk
    have hvb : L.Valid .bgdt := trivial
    apply block_encode_region h dirs v hvb (within_bgdt hk)
    intro hr
    funext i
    simp only [Store.encodeBlock, hr, Nat.add_sub_cancel_left, Store.encode]
  · rw [sum_congr rfl fun g _ => (bgdt_counts dirs hv g).1]
    rw [Disk.superFreeBlocks, get32_congr (hsup.mono (by omega) (by omega)), Store.encodeSuper,
      get32_congr (put32_same (by omega)), get32_put32, mod_eq_of_lt hsb]
  · rw [sum_congr rfl fun g _ => (bgdt_counts dirs hv g).2]
    rw [Disk.superFreeInodes, get32_congr (hsup.mono (by omega) (by omega)), Store.encodeSuper, get32_put32, mod_eq_of_lt hsi]

end
end PureUnix.Ext2
