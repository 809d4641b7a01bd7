import PureUnix.Ext2.Store

/-!
# Disk edits through the decoder

The allocator and the inode table code change a disk in four ways: a bitmap bit with its
counters (`Disk.editBlockBit`, `Disk.editInodeBit`), an inode slot (`Disk.putInode`), and a data
block (`Disk.setBlock`). Each has one lemma saying what it does to the decoded store; the regions
of a layout do not overlap, so each edit shows up in the one field it is about.
-/
namespace PureUnix.Ext2
open Lib Nat Inode
open Disk
open Layout

variable {i c b g k o p v : Nat} {r r' r₀ : Region} {B : Buf}

namespace Layout.Ok
variable {L : Layout} (h : L.Ok) {b g ino : Nat}
include h

theorem fdb_lt : L.firstDataBlock < L.totalBlocks := by
  have := bgdt_inside h
  have := h.bgdtBlock
  omega

theorem group_mul_lt (hg : g < L.numGroups) : g * L.blocksPerGroup < L.totalBlocks := by
  have hp := h.blocksPerGroup.1
  rw [h.numGroups, lt_div_iff_mul_lt hp] at hg
  omega

theorem groupFirst_eq (hg : g < L.numGroups) : groupFirstBlock L.fs g = L.firstDataBlock + g * L.blocksPerGroup := by
  have h1 := h.group_mul_lt hg
  have h2 := h.fdb_lt
  have h3 := h.total_le
  rw [groupFirstBlock, u32_of_lt (by omega)]

theorem groupOf_lt (hb : b < L.totalBlocks) : L.groupOf b < L.numGroups := by
  have hp := h.blocksPerGroup.1
  rw [groupOf, h.numGroups, lt_div_iff_mul_lt hp]
  have := div_mul_le_self (b - L.firstDataBlock) L.blocksPerGroup
  omega

theorem indexOf_lt (b : Nat) : L.indexOf b < L.blocksPerGroup := mod_lt _ h.blocksPerGroup.1

theorem groupOf_mk (hi : i < L.blocksPerGroup) : L.groupOf (L.firstDataBlock + g * L.blocksPerGroup + i) = g ∧
      L.indexOf (L.firstDataBlock + g * L.blocksPerGroup + i) = i := by
  refine (Nat.div_mod_unique h.blocksPerGroup.1).2 ⟨?_, hi⟩
  rw [Nat.mul_comm]
  omega

theorem groupOf_scan {used : Nat → Bool} (hs : scanFree used (L.firstDataBlock + g * L.blocksPerGroup) k L.blocksPerGroup 0 = some b) :
    L.groupOf b = g ∧ L.indexOf b = b - (L.firstDataBlock + g * L.blocksPerGroup) := by
  obtain ⟨h1, h2, -, -⟩ := scanFree_some hs
  obtain ⟨i, rfl⟩ := Nat.exists_eq_add_of_le h1
  simpa using h.groupOf_mk (by omega)

omit h in
theorem block_eq_mk (hb : L.firstDataBlock ≤ b) :
    b = L.firstDataBlock + L.groupOf b * L.blocksPerGroup + L.indexOf b := by
  have := div_add_mod (b - L.firstDataBlock) L.blocksPerGroup
  simp only [groupOf, indexOf]
  rw [mul_comm] at this
  omega

theorem inoGroup_lt (hi : L.ValidIno ino) : L.groupOfIno ino < L.numGroups := by
  have h1 := h.totalInodes
  have h2 := hi.1
  have h3 := hi.2
  rw [groupOfIno, div_lt_iff_lt_mul h.inodesPerGroup.1]
  omega

theorem inoIndex_lt (ino : Nat) : L.indexOfIno ino < L.inodesPerGroup := mod_lt _ h.inodesPerGroup.1

theorem inoGroup_mk (hi : i < L.inodesPerGroup) : L.groupOfIno (g * L.inodesPerGroup + 1 + i) = g ∧
      L.indexOfIno (g * L.inodesPerGroup + 1 + i) = i := by
  refine (Nat.div_mod_unique h.inodesPerGroup.1).2 ⟨?_, hi⟩
  rw [Nat.mul_comm]
  omega

theorem inoGroup_scan {used : Nat → Bool} (hs : scanFree used (g * L.inodesPerGroup + 1) k L.inodesPerGroup 0 = some ino) :
    L.groupOfIno ino = g ∧ L.indexOfIno ino = ino - (g * L.inodesPerGroup + 1) := by
  obtain ⟨h1, h2, -, -⟩ := scanFree_some hs
  obtain ⟨i, rfl⟩ := Nat.exists_eq_add_of_le h1
  simpa using h.inoGroup_mk (by omega)

omit h in
theorem ino_eq_mk (hi : ino ≠ 0) : ino = L.groupOfIno ino * L.inodesPerGroup + 1 + L.indexOfIno ino := by
  have := div_add_mod (ino - 1) L.inodesPerGroup
  simp only [groupOfIno, indexOfIno]
  rw [mul_comm] at this
  omega

/-! ## Where the bitmaps and inode slots are -/

theorem data_ne_zero (hb : L.Data b) : b ≠ 0 := by
  rintro rfl
  obtain ⟨h1, _, h3⟩ := hb
  have hbg := h.bgdtBlock
  rcases h.blockSize with e | e | e
  · -- 1 KiB blocks and first data block 0: the descriptor table would be the superblock's block
    have hlen : L.bgdtBlocks ≠ 0 := by
      have := h.bgdtBlocks
      have hg := h.groupOf_lt (by omega)
      intro h0
      rw [e] at this
      omega
    have := h.disjoint .super .bgdt 1 trivial trivial (by simp [Layout.Within, start, len, e])
      (by simp only [Layout.Within, start, len]; omega)
    cases this
  · exact h3 ⟨.super, trivial, by simp [Layout.Within, start, len, e]⟩
  · exact h3 ⟨.super, trivial, by simp [Layout.Within, start, len, e]⟩

omit h in
theorem within_blockBitmap (g : Nat) : L.Within (.blockBitmap g) (L.blockBitmap g) :=
  ⟨le_refl _, lt_succ_self _⟩

omit h in
theorem within_inodeBitmap (g : Nat) : L.Within (.inodeBitmap g) (L.inodeBitmap g) :=
  ⟨le_refl _, lt_succ_self _⟩

theorem byteOff_eq (ino : Nat) : inodeByteOff L.fs ino = L.indexOfIno ino * L.inodeSize := by
  have h1 := h.inoIndex_lt ino
  have h2 := h.inodesPerGroup.2
  have h3 := le_of_dvd h.bs_pos h.inodeSize.2
  have hbs := h.bs_le
  have : L.indexOfIno ino * L.inodeSize ≤ 32768 * 4096 := Nat.mul_le_mul (by omega) (by omega)
  rw [inodeByteOff, u32_of_lt (by simp only [indexOfIno] at this; omega), indexOfIno]

theorem slot_fits (ino : Nat) : L.indexOfIno ino * L.inodeSize % L.blockSize + 128 ≤ L.blockSize := by
  obtain ⟨h1, k, hk⟩ := h.inodeSize
  have hb := h.bs_pos
  have hk0 : 0 < k := by
    rcases Nat.eq_zero_or_pos k with rfl | hp
    · rw [Nat.mul_zero] at hk; omega
    · exact hp
  rw [hk, mul_comm (L.indexOfIno ino), mul_mod_mul_left]
  have hlt := mod_lt (L.indexOfIno ino) hk0
  have := mul_le_mul_left L.inodeSize (succ_le_of_lt hlt)
  rw [mul_succ] at this
  omega

theorem slot_within (_ : L.ValidIno ino) : L.Within (.inodeTable (L.groupOfIno ino))
      (L.inodeTable (L.groupOfIno ino) + L.indexOfIno ino * L.inodeSize / L.blockSize) := by
  have hb := h.bs_pos
  refine ⟨le_add_right _ _, ?_⟩
  simp only [start, len, Layout.tableBlocks]
  apply Nat.add_lt_add_left
  rw [Nat.lt_div_iff_mul_lt hb]
  have h1 := Nat.mul_lt_mul_of_pos_right (h.inoIndex_lt ino) (show 0 < L.inodeSize by
    have := h.inodeSize.1; omega)
  have h2 := div_mul_le_self (L.indexOfIno ino * L.inodeSize) L.blockSize
  omega

theorem region_ne (hr : L.Valid r) (hr' : L.Valid r') (hb : L.Within r b) (hc : L.Within r' c) (hne : r ≠ r') : b ≠ c := by
  rintro rfl
  exact hne (h.disjoint r r' b hr hr' hb hc)

omit h in
theorem data_ne_meta (hr : L.Valid r) (hb : L.Within r b) (hc : L.Data c) : b ≠ c := by
  rintro rfl
  exact hc.2.2 ⟨r, hr, hb⟩

end Layout.Ok
/-! ## What the decoding depends on -/

namespace Disk
variable {L : Layout} {d d' : Disk}

theorem blockUsed_congr (hb : ∀ g, g < L.numGroups → d'.block L.fs (L.blockBitmap g) = d.block L.fs (L.blockBitmap g)) :
    (d'.store L).blockUsed = (d.store L).blockUsed := by
  funext b
  simp only [store]
  by_cases hg : L.groupOf b < L.numGroups
  · rw [hb _ hg]
  · simp [hg]

theorem inodeUsed_congr (h : L.Ok) (hb : ∀ g, g < L.numGroups →
    d'.block L.fs (L.inodeBitmap g) = d.block L.fs (L.inodeBitmap g)) :
    (d'.store L).inodeUsed = (d.store L).inodeUsed := by
  funext ino
  simp only [store]
  by_cases hi : L.ValidIno ino
  · rw [hb _ (h.inoGroup_lt hi)]
  · simp [hi]

theorem inode_congr (h : L.Ok) (hb : ∀ g b, g < L.numGroups → L.Within (.inodeTable g) b →
    d'.block L.fs b = d.block L.fs b) : (d'.store L).inode = (d.store L).inode := by
  funext ino
  simp only [store]
  split
  · rename_i hi
    rw [hb _ _ (h.inoGroup_lt hi) (h.slot_within hi)]
  · rfl

theorem data_congr (hb : ∀ b, L.Data b → d'.block L.fs b = d.block L.fs b) : (d'.store L).data = (d.store L).data := by
  funext b
  simp only [store]
  split
  · rename_i hd
    rw [hb b hd]
  · rfl

/-! ## Writes to one metadata block followed by a commit -/

theorem block_setBlock_commit (h : L.Ok) {a : Nat} (hr : L.Valid r) (ha : L.Within r a)
    (X B : Buf) (δ ε : Int) (hc : c < L.totalBlocks) (hs : ¬ L.Within .super c)
    (hg : ¬ L.Within .bgdt c) :
    ((d.setBlock L.fs a X).commit L.fs B δ ε).block L.fs c =
      if c = a then trunc L.blockSize X else d.block L.fs c := by
  rw [block_commit_ne h B δ ε hc hs hg]
  split
  · rename_i e
    rw [e, block_setBlock_self]
  · rename_i hne
    exact block_setBlock_ne h (h.inside r a hr ha) hc (Ne.symm hne) X

theorem not_within_of_region (h : L.Ok) (hr : L.Valid r) (hr' : L.Valid r')
    (hb : L.Within r b) (hne : r ≠ r') : ¬ L.Within r' b :=
  fun hw => hne (h.disjoint r r' b hr hr' hb hw)

theorem not_within_of_data (hr : L.Valid r) (hb : L.Data b) : ¬ L.Within r b :=
  fun hw => hb.2.2 ⟨r, hr, hw⟩

end Disk

/-! ## Descriptor stores -/

/-- Descriptor fields of other groups, and other fields of the same group, survive a store. -/
theorem get32_put16_entry (ho : o + 4 ≤ p) (hp : p + 2 ≤ 32) :
    get32 (put16 B (g * 32 + p) v) (k * 32 + o) = get32 B (k * 32 + o) := by
  apply get32_congr
  apply put16_same
  rcases lt_or_ge g k with hlt | hge
  · omega
  · omega

theorem get16_put16_entry (ho : o + 2 ≤ 32) (hp : p + 2 ≤ 32) (hne : g ≠ k ∨ o + 2 ≤ p ∨ p + 2 ≤ o) :
    get16 (put16 B (g * 32 + p) v) (k * 32 + o) = get16 B (k * 32 + o) := by
  apply get16_congr
  apply put16_same
  omega

theorem mounted_put16 {L : Layout} {d d' : Disk} (hm : L.Mounted d) (hp : 12 ≤ p)
    (hp' : p + 2 ≤ 32) (hB : d'.bgdt = put16 d.bgdt (g * 32 + p) v) : L.Mounted d' := by
  intro k hk
  obtain ⟨h1, h2, h3⟩ := hm k hk
  have h0 := get32_put16_entry (B := d.bgdt) (g := g) (k := k) (v := v) (by omega : 0 + 4 ≤ p) hp'
  simp only [bgBlockBitmap, bgInodeBitmap, bgInodeTable, hB] at *
  rw [get32_put16_entry (by omega) hp', get32_put16_entry (by omega) hp']
  exact ⟨by simpa using h0.trans (by simpa using h1), h2, h3⟩

/-! ## Scans -/

theorem scanBits_eq (bitmap : Buf) (used : Nat → Bool) (first limit : Nat) :
    ∀ (n i : Nat), (limit < 4294967296 ∧ first + i < 4294967296 ∨ first + i + n ≤ 4294967296) →
      (∀ j, i ≤ j → j < i + n → first + j < limit → used (first + j) = bit bitmap j) →
      scanBits bitmap first limit n i = (scanFree used first limit n i).map (· - first)
  | 0, _, _, _ => rfl
  | n + 1, i, hlt, hb => by
    simp only [scanBits, scanFree, u32_of_lt (show first + i < 4294967296 by omega)]
    by_cases hi : limit ≤ first + i
    · simp [hi]
    simp only [hi, if_false, hb i (le_refl _) (by omega) (by omega)]
    split
    · exact scanBits_eq bitmap used first limit n (i + 1) (by omega) fun j h1 h2 h3 => hb j (by omega) (by omega) h3
    · simp

/-! ## Writes to data blocks -/

open Layout.Ok

section
variable {L : Layout} {d : Disk} {f : Buf → Nat → Buf} {val : Bool} {b a j ino : Nat}

theorem store_setBlock_data (h : L.Ok) (hd : L.Data b) (X : Buf) : (d.setBlock L.fs b X).store L = (d.store L).setData L b X := by
  have hmeta : ∀ r c, L.Valid r → L.Within r c → (d.setBlock L.fs b X).block L.fs c = d.block L.fs c := fun r c hr hw =>
    block_setBlock_ne h hd.2.1 (h.inside r c hr hw) (Ne.symm (data_ne_meta hr hw hd)) X
  have e1 := blockUsed_congr fun g hg => hmeta (.blockBitmap g) _ hg (within_blockBitmap g)
  have e2 := inodeUsed_congr h fun g hg => hmeta (.inodeBitmap g) _ hg (within_inodeBitmap g)
  have e3 := inode_congr h fun g c hg hw => hmeta (.inodeTable g) c hg hw
  have e4 : ((d.setBlock L.fs b X).store L).data = update (d.store L).data b (trunc L.blockSize X) := by
    funext c
    by_cases hc : c = b
    · subst hc
      simp only [update_self, store, hd, if_true, block_setBlock_self]
    rw [update_of_ne hc]
    simp only [store]
    split
    · rename_i hdc
      exact block_setBlock_ne h hd.2.1 hdc.2.1 (Ne.symm hc) X
    · rfl
  exact Store.ext e1 e2 e3 e4 rfl rfl rfl

/-! ## Bitmap updates -/

/-- A bitmap edit `f` that sets bit `i` to `val` and leaves the others. -/
def BitEdit (f : Buf → Nat → Buf) (val : Bool) : Prop :=
  ∀ X i j, bit (f X i) j = if j = i then val else bit X j

theorem setBit_edit : BitEdit setBit true := fun X i j => by
  rw [bit_setBit]; by_cases e : j = i <;> simp [e]

theorem clearBit_edit : BitEdit clearBit false := fun X i j => by
  rw [bit_clearBit]; by_cases e : j = i <;> simp [e]

theorem block_commit_meta (h : L.Ok) (h₀ : L.Valid r₀) (ha : L.Within r₀ a) (hr : L.Valid r) (hc : L.Within r c)
    (hne : r ≠ .super ∧ r ≠ .bgdt ∧ r ≠ r₀) (X B : Buf) (δ ε : Int) :
    ((d.setBlock L.fs a X).commit L.fs B δ ε).block L.fs c = d.block L.fs c := by
  rw [block_setBlock_commit h h₀ ha X B δ ε (h.inside r c hr hc) (not_within_of_region h hr trivial hc hne.1)
    (not_within_of_region h hr trivial hc hne.2.1), if_neg (h.region_ne hr h₀ hc ha hne.2.2)]

theorem block_commit_data (h : L.Ok) (h₀ : L.Valid r₀) (ha : L.Within r₀ a) (hd : L.Data c) (X B : Buf) (δ ε : Int) :
    ((d.setBlock L.fs a X).commit L.fs B δ ε).block L.fs c = d.block L.fs c := by
  rw [block_setBlock_commit h h₀ ha X B δ ε hd.2.1 (not_within_of_data trivial hd)
    (not_within_of_data trivial hd), if_neg (Ne.symm (data_ne_meta h₀ ha hd))]

/-- A bitmap edit before a commit changes one bit of one bitmap. -/
theorem bit_commit {bitmap : Nat → Region} (h : L.Ok) (hf : BitEdit f val) (hmap : bitmap = .blockBitmap ∨ bitmap = .inodeBitmap)
    (hg : g < L.numGroups) (hk : k < L.numGroups) (hj : j < 8 * L.blockSize) (B : Buf) (δ ε : Int) :
    bit (((d.setBlock L.fs (L.start (bitmap g)) (f (d.block L.fs (L.start (bitmap g))) i)).commit L.fs B δ ε).block L.fs
        (L.start (bitmap k))) j =
      if k = g ∧ j = i then val else bit (d.block L.fs (L.start (bitmap k))) j := by
  have hv : ∀ k, k < L.numGroups → L.Valid (bitmap k) := by
    rcases hmap with rfl | rfl <;> exact fun _ hk => hk
  have hw : ∀ k, L.Within (bitmap k) (L.start (bitmap k)) := by
    rcases hmap with rfl | rfl <;> exact fun _ => ⟨le_refl _, lt_succ_self _⟩
  have hne : ∀ r, r ≠ g → bitmap r ≠ .super ∧ bitmap r ≠ .bgdt ∧ bitmap r ≠ bitmap g := by
    rcases hmap with rfl | rfl <;> simp
  by_cases e : k = g
  · subst e
    have h1 : bitmap k ≠ .super ∧ bitmap k ≠ .bgdt := by rcases hmap with rfl | rfl <;> simp
    rw [block_setBlock_commit h (hv k hk) (hw k) _ B δ ε (h.inside _ _ (hv k hk) (hw k))
      (not_within_of_region h (hv k hk) trivial (hw k) h1.1) (not_within_of_region h (hv k hk) trivial (hw k) h1.2),
      if_pos rfl, bit_congr (trunc_same _ _) hj, hf]
    simp only [true_and]
  · rw [block_commit_meta h (hv g hg) (hw g) (hv k hk) (hw k) (hne k e), if_neg (by simp [e])]

/-- One block bit edited, the group's counter stored, the superblock adjusted. -/
def Disk.editBlockBit (L : Layout) (d : Disk) (f : Buf → Nat → Buf) (b count : Nat) (δ : Int) : Disk :=
  (d.setBlock L.fs (L.blockBitmap (L.groupOf b)) (f (d.block L.fs (L.blockBitmap (L.groupOf b))) (L.indexOf b))).commit L.fs
    (put16 d.bgdt (L.groupOf b * 32 + 12) count) δ 0

theorem blockBit_edit (h : L.Ok) (hf : BitEdit f val)
    (hg : L.groupOf b < L.numGroups) (count : Nat) (δ : Int) (hk : k < L.numGroups)
    (hj : j < 8 * L.blockSize) :
    bit ((d.editBlockBit L f b count δ).block L.fs (L.blockBitmap k)) j =
      if k = L.groupOf b ∧ j = L.indexOf b then val else bit (d.block L.fs (L.blockBitmap k)) j :=
  bit_commit h hf (.inl rfl) hg hk hj _ _ _

theorem store_editBlockBit (h : L.Ok) (hf : BitEdit f val)
    (hb : L.firstDataBlock ≤ b) (hg : L.groupOf b < L.numGroups) (count : Nat) (δ : Int) :
    (d.editBlockBit L f b count δ).store L = { d.store L with
      blockUsed := update (d.store L).blockUsed b val
      freeBlocks := update (d.store L).freeBlocks (L.groupOf b) (count % 65536) } := by
  have hv : L.Valid (.blockBitmap (L.groupOf b)) := hg
  have hw := within_blockBitmap (L := L) (L.groupOf b)
  have hmeta : ∀ r c, L.Valid r → L.Within r c → r ≠ .super ∧ r ≠ .bgdt ∧ r ≠ .blockBitmap (L.groupOf b) →
      (d.editBlockBit L f b count δ).block L.fs c = d.block L.fs c := fun r c hr hc hne =>
    block_commit_meta h hv hw hr hc hne _ _ _ _
  have hix : ∀ c, L.indexOf c < 8 * L.blockSize := fun c => by
    have := h.indexOf_lt c
    have := h.blocksPerGroup.2
    omega
  have e1 : ((d.editBlockBit L f b count δ).store L).blockUsed = update (d.store L).blockUsed b val := by
    funext c
    by_cases hc : c = b
    · subst hc
      simp only [update_self, store, hg, hb, decide_true, Bool.true_and,
        blockBit_edit h hf hg count δ hg (hix c), and_self, if_true]
    rw [update_of_ne hc]
    by_cases hfd : L.firstDataBlock ≤ c
    · by_cases hcg : L.groupOf c < L.numGroups
      · simp only [store, blockBit_edit h hf hg count δ hcg (hix c)]
        rw [if_neg]
        rintro ⟨hk, hi⟩
        exact hc (by rw [block_eq_mk hfd, block_eq_mk hb, hk, hi])
      · simp [store, hcg]
    · simp [store, hfd]
  have e2 := inodeUsed_congr h fun k hk => hmeta (.inodeBitmap k) _ hk (within_inodeBitmap k) (by simp)
  have e3 := inode_congr h fun k c hk hc => hmeta (.inodeTable k) c hk hc (by simp)
  have e4 : ((d.editBlockBit L f b count δ).store L).data = (d.store L).data :=
    data_congr fun c hd => block_commit_data h hv hw hd _ _ _ _
  have e5 : ((d.editBlockBit L f b count δ).store L).freeBlocks =
      update (d.store L).freeBlocks (L.groupOf b) (count % 65536) := by
    funext k
    simp only [store, Disk.editBlockBit, commit_bgdt, bgFreeBlocksCount]
    by_cases hk : k = L.groupOf b
    · subst hk
      simp only [update_self, hg, if_true, get16_put16]
    · rw [update_of_ne hk, get16_put16_entry (by omega) (by omega) (.inl (Ne.symm hk))]
  have e6 : ((d.editBlockBit L f b count δ).store L).freeInodes = (d.store L).freeInodes := by
    funext k
    simp only [store, Disk.editBlockBit, commit_bgdt, bgFreeInodesCount]
    rw [get16_put16_entry (by omega) (by omega) (.inr (.inr (by omega)))]
  exact Store.ext e1 e2 e3 e4 e5 e6 rfl

/-- One inode bit edited, the group's counters stored, the superblock adjusted. -/
def Disk.editInodeBit (L : Layout) (d : Disk) (f : Buf → Nat → Buf) (ino : Nat) (B : Buf) (ε : Int) : Disk :=
  (d.setBlock L.fs (L.inodeBitmap (L.groupOfIno ino))
      (f (d.block L.fs (L.inodeBitmap (L.groupOfIno ino))) (L.indexOfIno ino))).commit L.fs B 0 ε

/-- `B` differs from `A` only in the inode counters of group `g`. -/
structure CountersOnly (g : Nat) (A B : Buf) : Prop where
  ptr : ∀ k o, o + 4 ≤ 12 → get32 B (k * 32 + o) = get32 A (k * 32 + o)
  blocks : ∀ k, bgFreeBlocksCount B k = bgFreeBlocksCount A k
  inodes : ∀ k, k ≠ g → bgFreeInodesCount B k = bgFreeInodesCount A k

theorem inodeBit_edit (h : L.Ok) (hf : BitEdit f val)
    (hg : L.groupOfIno ino < L.numGroups) (B : Buf) (ε : Int) (hk : k < L.numGroups)
    (hj : j < 8 * L.blockSize) :
    bit ((d.editInodeBit L f ino B ε).block L.fs (L.inodeBitmap k)) j =
      if k = L.groupOfIno ino ∧ j = L.indexOfIno ino then val
      else bit (d.block L.fs (L.inodeBitmap k)) j :=
  bit_commit h hf (.inr rfl) hg hk hj _ _ _

theorem store_editInodeBit (h : L.Ok) (hf : BitEdit f val)
    (hi : L.ValidIno ino) (hB : CountersOnly (L.groupOfIno ino) d.bgdt B) (ε : Int) :
    (d.editInodeBit L f ino B ε).store L = { d.store L with
      inodeUsed := update (d.store L).inodeUsed ino val
      freeInodes := update (d.store L).freeInodes (L.groupOfIno ino) (bgFreeInodesCount B (L.groupOfIno ino)) } := by
  have hg := h.inoGroup_lt hi
  have hv : L.Valid (.inodeBitmap (L.groupOfIno ino)) := hg
  have hw := within_inodeBitmap (L := L) (L.groupOfIno ino)
  have hmeta : ∀ r c, L.Valid r → L.Within r c → r ≠ .super ∧ r ≠ .bgdt ∧ r ≠ .inodeBitmap (L.groupOfIno ino) →
      (d.editInodeBit L f ino B ε).block L.fs c = d.block L.fs c := fun r c hr hc hne =>
    block_commit_meta h hv hw hr hc hne _ _ _ _
  have hix : ∀ c, L.indexOfIno c < 8 * L.blockSize := fun c => by
    have := h.inoIndex_lt c
    have := h.inodesPerGroup.2
    omega
  have e1 : ((d.editInodeBit L f ino B ε).store L).inodeUsed = update (d.store L).inodeUsed ino val := by
    funext c
    by_cases hc : c = ino
    · subst hc
      simp only [update_self, store, hi, decide_true, Bool.true_and, inodeBit_edit h hf hg B ε hg (hix c), and_self, if_true]
    rw [update_of_ne hc]
    by_cases hcv : L.ValidIno c
    · simp only [store, inodeBit_edit h hf hg B ε (h.inoGroup_lt hcv) (hix c)]
      rw [if_neg]
      rintro ⟨hk, he⟩
      exact hc (by rw [ino_eq_mk hcv.1, ino_eq_mk hi.1, hk, he])
    · simp [store, hcv]
  have e2 := blockUsed_congr fun k hk => hmeta (.blockBitmap k) _ hk (within_blockBitmap k) (by simp)
  have e3 := inode_congr h fun k c hk hc => hmeta (.inodeTable k) c hk hc (by simp)
  have e4 : ((d.editInodeBit L f ino B ε).store L).data = (d.store L).data :=
    data_congr fun c hd => block_commit_data h hv hw hd _ _ _ _
  have e5 : ((d.editInodeBit L f ino B ε).store L).freeInodes = update (d.store L).freeInodes (L.groupOfIno ino)
        (bgFreeInodesCount B (L.groupOfIno ino)) := by
    funext k
    simp only [store, Disk.editInodeBit, commit_bgdt]
    by_cases hk : k = L.groupOfIno ino
    · subst hk
      simp only [update_self, hg, if_true]
    · rw [update_of_ne hk, hB.inodes k hk]
  have e6 : ((d.editInodeBit L f ino B ε).store L).freeBlocks = (d.store L).freeBlocks := by
    funext k
    simp only [store, Disk.editInodeBit, commit_bgdt, hB.blocks k]
  exact Store.ext e2 e1 e3 e4 e6 e5 rfl

theorem mounted_editBlockBit (hm : L.Mounted d) (f : Buf → Nat → Buf) (b count : Nat) (δ : Int) :
    L.Mounted (d.editBlockBit L f b count δ) := mounted_put16 hm (by omega) (by omega) rfl

theorem mounted_editInodeBit (hm : L.Mounted d) (f : Buf → Nat → Buf) (ino : Nat)
    (hB : CountersOnly (L.groupOfIno ino) d.bgdt B) (ε : Int) :
    L.Mounted (d.editInodeBit L f ino B ε) := by
  intro k hk
  obtain ⟨h1, h2, h3⟩ := hm k hk
  have h0 := hB.ptr k 0 (by omega)
  simp only [Disk.editInodeBit, commit_bgdt, bgBlockBitmap, bgInodeBitmap, bgInodeTable] at *
  exact ⟨by simpa using h0.trans (by simpa using h1), (hB.ptr k 4 (by omega)).trans h2, (hB.ptr k 8 (by omega)).trans h3⟩

/-! ## The inode table -/

/-- The disk after `ext2_write_inode`. -/
def Disk.putInode (L : Layout) (d : Disk) (ino : Nat) (i : Inode) : Disk :=
  d.setBlock L.fs (L.inodeTable (L.groupOfIno ino) + L.indexOfIno ino * L.inodeSize / L.blockSize)
    (copy (d.block L.fs (L.inodeTable (L.groupOfIno ino) + L.indexOfIno ino * L.inodeSize / L.blockSize))
      (L.indexOfIno ino * L.inodeSize % L.blockSize) i.encode 128)

theorem slot_sep (h : L.Ok) (hne : i ≠ j) (hblk : i * L.inodeSize / L.blockSize = j * L.inodeSize / L.blockSize) :
    i * L.inodeSize % L.blockSize + 128 ≤ j * L.inodeSize % L.blockSize ∨
      j * L.inodeSize % L.blockSize + 128 ≤ i * L.inodeSize % L.blockSize := by
  have h128 := h.inodeSize.1
  have e1 := div_add_mod (i * L.inodeSize) L.blockSize
  have e2 := div_add_mod (j * L.inodeSize) L.blockSize
  rw [hblk] at e1
  have := mul_far hne L.inodeSize
  omega

theorem store_putInode (h : L.Ok) (hi : L.ValidIno ino) (x : Inode) :
    (d.putInode L ino x).store L = (d.store L).setInode ino x := by
  have hg := h.inoGroup_lt hi
  have hv : L.Valid (.inodeTable (L.groupOfIno ino)) := hg
  have hw := h.slot_within hi
  have hother : ∀ c, c < L.totalBlocks → c ≠ L.inodeTable (L.groupOfIno ino) +
      L.indexOfIno ino * L.inodeSize / L.blockSize →
      (d.putInode L ino x).block L.fs c = d.block L.fs c := fun c hc hne =>
    block_setBlock_ne h (h.inside _ _ hv hw) hc (Ne.symm hne) _
  have hmeta : ∀ r c, L.Valid r → L.Within r c → r ≠ .inodeTable (L.groupOfIno ino) →
      (d.putInode L ino x).block L.fs c = d.block L.fs c := fun r c hr hc hne =>
    hother c (h.inside r c hr hc) (h.region_ne hr hv hc hw hne)
  have e1 := blockUsed_congr fun k hk => hmeta (.blockBitmap k) _ hk (within_blockBitmap k) (by simp)
  have e2 := inodeUsed_congr h fun k hk => hmeta (.inodeBitmap k) _ hk (within_inodeBitmap k) (by simp)
  have e3 := data_congr fun c hd => hother c hd.2.1 (Ne.symm (data_ne_meta hv hw hd))
  have e4 : ((d.putInode L ino x).store L).inode = update (d.store L).inode ino x := by
    funext c
    by_cases hc : c = ino
    · subst hc
      rw [update_self]
      simp only [store, hi, if_true]
      have hfit := h.slot_fits c
      conv_rhs => rw [← decode_encode x]
      apply decode_congr
      intro i _ hlt
      simp only [Disk.putInode, block_setBlock_self, trunc, copy]
      rw [if_pos (by omega), if_pos (by omega), Nat.add_sub_cancel_left]
    · rw [update_of_ne hc]
      simp only [store]
      split
      · rename_i hcv
        by_cases hk : L.groupOfIno c = L.groupOfIno ino
        · by_cases hb : L.indexOfIno c * L.inodeSize / L.blockSize = L.indexOfIno ino * L.inodeSize / L.blockSize
          · have hne : L.indexOfIno c ≠ L.indexOfIno ino := by
              intro e
              apply hc
              rw [ino_eq_mk hcv.1, ino_eq_mk hi.1, hk, e]
            have hsep := slot_sep h hne hb
            have hfit := h.slot_fits c
            apply decode_congr
            intro i _ hlt
            simp only [hk, hb, Disk.putInode, block_setBlock_self, trunc, copy]
            rw [if_pos (by omega), if_neg (by omega)]
          · rw [hk, hother _ (h.inside (.inodeTable (L.groupOfIno c)) _ (h.inoGroup_lt hcv)
              (by have := h.slot_within hcv; rwa [hk] at this ⊢)) (by omega)]
        · rw [hmeta (.inodeTable (L.groupOfIno c)) _ (h.inoGroup_lt hcv) (h.slot_within hcv) (by simpa using hk)]
      · rfl
  exact Store.ext e1 e2 e4 e3 rfl rfl rfl

end
end PureUnix.Ext2
