import PureUnix.Ext2.Life

/-!
# Reading and writing files

`ext2_read_file_ino` returns `Inode.bytes`. `write_data_blocks` fills an empty inode block by block;
`Filling` is the invariant of its loop: the blocks so far hold the data so far, every block taken is
referred to, and the slots ahead are empty.
-/
namespace PureUnix.Ext2
open Lib List Nat
open Store
open Inode

variable {b bs g len : Nat} {w' : Store} {i i' : Inode}

/-! ## Reading -/

/-- `copy_block` without its device access. -/
def copyStep (bs : Nat) (data : Nat → Buf) (b : Nat) (c : CopyCtx) : Int × CopyCtx :=
  (0, ⟨if b = 0 then c.dst else copy c.dst c.pos (data b) (min c.remaining bs), c.pos + min c.remaining bs,
    c.remaining - min c.remaining bs⟩)

/-- The buffer after `n` bytes of a map have been copied. -/
def filledBuf (bs : Nat) (data : Nat → Buf) (blk : Nat → Nat) (n : Nat) : Buf := fun q =>
  if q < n ∧ blk (q / bs) ≠ 0 then data (blk (q / bs)) (q % bs) else 0

section
variable {bs : Nat} {data : Nat → Buf} {blk : Nat → Nat}

theorem filledBuf_step (m n : Nat) (h1 : m * bs ≤ n) (h2 : n ≤ (m + 1) * bs) : filledBuf bs data blk n =
      if blk m = 0 then filledBuf bs data blk (m * bs)
      else copy (filledBuf bs data blk (m * bs)) (m * bs) (data (blk m)) (n - m * bs) := by
  have hblock : ∀ q, m * bs ≤ q → q < n → q / bs = m ∧ q % bs = q - m * bs := by
    intro q hq hqn
    have e : q / bs = m := Nat.div_eq_of_lt_le hq (by omega)
    have := Nat.div_add_mod q bs
    rw [e, Nat.mul_comm] at this
    omega
  funext q
  by_cases hq : q < m * bs
  · have hc : copy (filledBuf bs data blk (m * bs)) (m * bs) (data (blk m)) (n - m * bs) q = filledBuf bs data blk (m * bs) q :=
      if_neg (by omega)
    have e : filledBuf bs data blk n q = filledBuf bs data blk (m * bs) q := by
      simp only [filledBuf, hq, show q < n by omega]
    split
    · exact e
    · rw [hc]; exact e
  · have hz : filledBuf bs data blk (m * bs) q = 0 := if_neg fun h => hq h.1
    by_cases hqn : q < n
    · obtain ⟨e1, e2⟩ := hblock q (by omega) hqn
      by_cases h0 : blk m = 0
      · rw [if_pos h0, hz]
        exact if_neg fun h => h.2 (by rw [e1]; exact h0)
      · rw [if_neg h0, copy, if_pos (by omega), ← e2]
        refine (if_pos ⟨hqn, by rw [e1]; exact h0⟩).trans ?_
        rw [e1]
    · have e : filledBuf bs data blk n q = 0 := if_neg fun h => hqn h.1
      rw [e]
      split
      · exact hz.symm
      · rw [copy, if_neg (by omega)]
        exact hz.symm

theorem foldVisits_copy (hbs : 0 < bs) (size : Nat) : ∀ (m : Nat),
    foldVisits (copyStep bs data) ((range m).map blk) ⟨zeros, 0, size⟩ =
      (0, ⟨filledBuf bs data blk (min (m * bs) size), min (m * bs) size, size - min (m * bs) size⟩)
  | 0 => by
    have : filledBuf bs data blk 0 = zeros := by
      funext q
      simp [filledBuf, zeros]
    simp [foldVisits, this]
  | m + 1 => by
    have hmul : (m + 1) * bs = m * bs + bs := succ_mul m bs
    rw [range_succ, map_append, foldVisits_append, foldVisits_copy hbs size m, if_neg (fun h => h rfl)]
    rw [map_singleton, foldVisits_go rfl]
    dsimp only [foldVisits, copyStep]
    have hpos : min (m * bs) size + min (size - min (m * bs) size) bs = min ((m + 1) * bs) size := by omega
    have hrem : size - min (m * bs) size - min (size - min (m * bs) size) bs = size - min ((m + 1) * bs) size := by omega
    congr 3
    by_cases hle : m * bs ≤ size
    · rw [filledBuf_step m (min ((m + 1) * bs) size) (by omega) (by omega), min_eq_left hle]
      congr 2
      omega
    rw [min_eq_right (show size ≤ (m + 1) * bs by omega), min_eq_right (show size ≤ m * bs by omega)]
    split
    · rfl
    · funext q
      rw [copy, if_neg (by omega)]

end

section
variable {aware full : Bool} {L : Layout} {v : Store} {n : Nat} {env : Env}

theorem run_copyBlock (hb : b ≠ 0 → L.Data b) (c : CopyCtx) :
    run (step L) (copyBlock L.fs b c) v = (copyStep L.blockSize v.data b c, v) := by
  unfold copyBlock copyStep
  by_cases h0 : b = 0
  · simp only [h0, if_true, run_pure]
  · simp only [h0, if_false, run_bind, Drv.run_readBlock h0 (hb h0), run_pure]

theorem copied_bytes (hbs : 0 < bs) (data : Nat → Buf) (i : Inode) :
    foldVisits (copyStep bs data) (i.visits bs data i.iSize.toNat) ⟨zeros, 0, i.iSize.toNat⟩ =
      (0, (foldVisits (copyStep bs data) (i.visits bs data i.iSize.toNat) ⟨zeros, 0, i.iSize.toNat⟩).2) ∧
    slice (foldVisits (copyStep bs data) (i.visits bs data i.iSize.toNat) ⟨zeros, 0, i.iSize.toNat⟩).2.dst 0 i.iSize.toNat =
      i.bytes bs data := by
  rw [visits_eq, foldVisits_copy hbs]
  refine ⟨rfl, ?_⟩
  dsimp only
  refine map_congr_left fun p hp => ?_
  have hp := mem_range.1 hp
  rw [zero_add]
  -- the block of byte `p` is visited unless the iterator has stopped before it
  have hceil : p / bs < (i.iSize.toNat + bs - 1) / bs := by
    rw [lt_div_iff_mul_lt hbs]
    have := div_mul_le_self p bs
    omega
  have hcap : 12 ≤ iterCap bs := by unfold iterCap; omega
  have hdm := div_add_mod p bs
  have hml := mod_lt p hbs
  generalize hm : (if i.blkNo 12 = 0 then 12 else iterCap bs) = cap
  unfold byteAt filledBuf
  by_cases hv : p / bs < cap
  · have hlt : p < min (min ((i.iSize.toNat + bs - 1) / bs) cap * bs) i.iSize.toNat := by
      have hle : p / bs + 1 ≤ min ((i.iSize.toNat + bs - 1) / bs) cap := by omega
      have := mul_le_mul_right bs hle
      rw [succ_mul, mul_comm (p / bs)] at this
      omega
    have hc : p / bs < iterCap bs := by
      split at hm <;> omega
    simp only [hlt, hc, true_and]
  · have hlt : ¬ p < min (min ((i.iSize.toNat + bs - 1) / bs) cap * bs) i.iSize.toNat := by
      intro hlt
      have h1 : p < cap * bs := lt_of_lt_of_le (lt_of_lt_of_le hlt (min_le_left _ _))
        (mul_le_mul_right _ (min_le_right _ _))
      exact hv ((div_lt_iff_lt_mul hbs).2 h1)
    rw [if_neg fun h => hlt h.1]
    split at hm
    · rename_i h0
      rw [if_neg fun h => h.2 (blockAt_no_indirect h0 (by omega))]
    · rw [if_neg fun h => hv (hm ▸ h.1)]

/-- **`ext2_read_file_ino`** returns the bytes of the file. -/
theorem run_readFileIno (h : L.Ok) (hv : L.ValidIno n) (hr : (v.inode n).isReg = true) (hm : MapOk L v.data (v.inode n))
    (hk : env.kcalloc = true) (h1 : u32 ((v.inode n).iSize.toNat + 1) ≠ 0) :
    run (step L) (readFileIno L.fs env n) v = (some ((v.inode n).bytes L.blockSize v.data), v) := by
  unfold readFileIno
  rw [run_bind, Drv.run_readInode hv]
  dsimp only
  rw [if_neg (by rw [hr]; decide), if_neg (by rw [hk]; exact not_or.2 ⟨by decide, h1⟩)]
  by_cases h0 : (v.inode n).iSize.toNat = 0
  · rw [bytes, h0]
    rfl
  rw [if_neg h0]
  have hrun := run_iterBlocks (copyBlock L.fs) h.bs_pos (v.inode n)
    (v.inode n).iSize.toNat ⟨zeros, 0, (v.inode n).iSize.toNat⟩ hm.indirect fun b hb c => run_copyBlock (fun hb0 => by
      rw [visits_eq] at hb
      obtain ⟨k, -, rfl⟩ := mem_map.1 hb
      exact hm.blockAt hb0) c
  obtain ⟨h1, h2⟩ := copied_bytes h.bs_pos v.data (v.inode n)
  rw [run_bind, hrun]
  rw [if_neg (by rw [h1]; exact Int.lt_irrefl 0), run_pure, h2]

theorem run_readFileIno_none (hv : L.ValidIno n → (v.inode n).isReg = false ∨ env.kcalloc = false ∨ u32 ((v.inode n).iSize.toNat + 1) = 0) :
    run (step L) (readFileIno L.fs env n) v = (none, v) := by
  unfold readFileIno
  by_cases hi : L.ValidIno n
  · rw [run_bind, Drv.run_readInode hi]
    dsimp only
    rcases hv hi with hr | hk
    · rw [if_pos hr, run_pure]
    · rw [if_pos hk, ite_self, run_pure]
  · rw [run_bind, Drv.run_readInode_invalid hi]
    rfl

end

/-! ## The loop of `write_data_blocks` -/

/-- The first `idx` blocks of `data` are in place; `s` is the store the loop started from. -/
structure Filling (aware full : Bool) (L : Layout) (v₀ : Store) (n : Nat) (s : Store) (data : Text) (idx : Nat)
    (v : Store) (i : Inode) (P : Set Nat) : Prop where
  work : Work aware full L v₀ (some n) v P
  holds : Holds L v P i
  refd : ∀ c ∈ P, c ∈ i.blockRefs L.blockSize v.data
  ahead : ∀ k, idx ≤ k → i.blockAt L.blockSize v.data k = 0
  behind : ∀ k, k < idx → i.blockAt L.blockSize v.data k ≠ 0 ∧
    ∀ q, q < L.blockSize → v.data (i.blockAt L.blockSize v.data k) q = ofList data (k * L.blockSize + q)
  within : ∀ k, k < idx → k * L.blockSize < data.length
  indirect : i.blkNo 12 ≠ 0 ↔ 12 < idx
  sectors : i.iBlocks = UInt32.ofNat ((idx + if 12 < idx then 1 else 0) * L.sectorsPerBlock)
  took : Took L s (idx + if 12 < idx then 1 else 0) v
  used : v.inodeUsed = s.inodeUsed

/-- What `write_data_blocks` copies into block `idx`. -/
def chunkBuf (bs : Nat) (rest : Text) : Buf := copy zeros 0 (ofList rest) (min rest.length bs)

theorem chunkBuf_eq {q : Nat} {data : Text} {off : Nat} (hq : q < bs) :
    chunkBuf bs (data.drop off) q = ofList data (off + q) := by
  unfold chunkBuf copy ofList zeros
  split
  · rw [Nat.sub_zero, getD_eq_getElem?_getD, getD_eq_getElem?_getD, getElem?_drop]
  rename_i hlt
  rw [length_drop] at hlt
  rw [getD_eq_getElem?_getD, getElem?_eq_none (by omega)]
  rfl

section
variable {aware full : Bool} {L : Layout} {v₀ s v v' : Store} {n idx : Nat} {data : Text} {i i' : Inode} {P : Set Nat} {rc : Int}

theorem Filling.step (h : L.Ok) (hf : Filling aware full L v₀ n s data idx v i P) (hlt : idx * L.blockSize < data.length)
    (hb : v.nextBlock L = some (g, b))
    (ha : AddedWhere L ((v.takeBlock L g b).setData L b (chunkBuf L.blockSize (data.drop (idx * L.blockSize)))) i idx b v' i') :
    ∃ P', Filling aware full L v₀ n s data (idx + 1) v' i' P' := by
  obtain ⟨hbd, -, hbP, -⟩ := hf.work.own.next h hb
  have hb0 := h.data_ne_zero hbd
  have hbr : b ∉ i.blockRefs L.blockSize v.data := fun hm => hbP (hf.holds.held b hm)
  generalize hbuf : chunkBuf L.blockSize (data.drop (idx * L.blockSize)) = buf at ha
  have hkeep : ∀ c, c ≠ b → ((v.takeBlock L g b).setData L b buf).data c = v.data c := by
    intro c hc
    simp only [setData, takeBlock, if_pos hbd, update_of_ne hc]
  have hk12 : i.blkNo 12 ≠ 0 → ((v.takeBlock L g b).setData L b buf).data (i.blkNo 12) = v.data (i.blkNo 12) := fun h0 =>
    hkeep _ fun he => hbr (he ▸ indirect_mem_refs h0)
  have hat₁ : ∀ k, i.blockAt L.blockSize ((v.takeBlock L g b).setData L b buf).data k = i.blockAt L.blockSize v.data k :=
    blockAt_congr hk12
  have hrefs₁ : i.blockRefs L.blockSize ((v.takeBlock L g b).setData L b buf).data = i.blockRefs L.blockSize v.data :=
    blockRefs_congr hk12
  have w₁ := (hf.work.take h hb).write (Set.mem_insert b P) buf
  have hnext : ∀ g' c, ((v.takeBlock L g b).setData L b buf).nextBlock L = some (g', c) → L.Data c := fun g' c hc => (w₁.own.next h hc).1
  obtain ⟨P', w', -, hh', hleft⟩ := w₁.added h (hf.holds.congr (Set.subset_insert _ _) hk12) (Set.mem_insert _ _)
    (by rw [hrefs₁]; exact hbr) ha
  have hat : ∀ k, i'.blockAt L.blockSize v'.data k = if k = idx then b else i.blockAt L.blockSize v.data k := by
    intro k
    rw [ha.blockAt h (h.data_lt hbd) hnext, hat₁]
  obtain ⟨-, havoid⟩ := nodup_blockRefs.1 hh'.nodup
  have hsame : ∀ k, i'.blockAt L.blockSize v'.data k ≠ 0 → v'.data (i'.blockAt L.blockSize v'.data k) =
        ((v.takeBlock L g b).setData L b buf).data (i'.blockAt L.blockSize v'.data k) := fun k hk =>
    ha.data_same (havoid k hk) fun g' c hc => h.data_lt (hnext g' c hc)
  refine ⟨P', w', hh', fun c hc => ?_, fun k hk => ?_, fun k hk => ?_, fun k hk => ?_, ?_, ?_, ?_, ?_⟩
  · by_contra hcn
    obtain ⟨hcP, hcr, hcb⟩ := hleft (by rw [hat₁]; exact hf.ahead idx (le_refl _)) c hc hcn
    rw [hrefs₁] at hcr
    exact hcr (hf.refd c (hcP.resolve_left hcb))
  · rw [hat, if_neg (by omega)]
    exact hf.ahead k (by omega)
  · have hk0 : i'.blockAt L.blockSize v'.data k ≠ 0 := by
      rw [hat]
      split
      · exact hb0
      · exact (hf.behind k (by omega)).1
    refine ⟨hk0, fun q hq => ?_⟩
    rw [hsame k hk0, hat]
    by_cases hki : k = idx
    · rw [if_pos hki, hki]
      have hself : ((v.takeBlock L g b).setData L b buf).data b = trunc L.blockSize buf := update_self ..
      rw [hself, trunc, if_pos hq, ← hbuf, chunkBuf_eq hq]
    rw [if_neg hki]
    obtain ⟨hne, hdat⟩ := hf.behind k (by omega)
    rw [hkeep _ (Holds.ne_blockAt hbr hne)]
    exact hdat q hq
  · rcases Nat.lt_succ_iff_lt_or_eq.1 hk with hk | rfl
    · exact hf.within k hk
    · exact hlt
  · -- the indirect block appears with the pointer of block 12
    cases ha with
    | direct h1 =>
      rw [AddedWhere.blkNo_direct h1, hf.indirect]
      omega
    | indirect h1 _ h0 =>
      exact ⟨fun _ => by omega, fun _ => h0⟩
    | fresh g' ind h1 _ _ hn =>
      rw [blkNo_fresh (h.data_lt (hnext g' ind hn))]
      exact ⟨fun _ => by omega, fun _ => h.data_ne_zero (hnext g' ind hn)⟩
  · have hadd : ∀ (j : Inode) (m : Nat), j.iBlocks = UInt32.ofNat (m * L.sectorsPerBlock) →
        (j.addSectors L.fs).iBlocks = UInt32.ofNat ((m + 1) * L.sectorsPerBlock) := by
      intro j m hj
      rw [succ_mul, UInt32.ofNat_add, ← hj]
      rfl
    cases ha with
    | direct h1 =>
      have hs := hf.sectors
      rw [if_neg (by omega)] at hs ⊢
      exact hadd _ _ hs
    | indirect h1 _ h0 =>
      have hlt := hf.indirect.1 h0
      have hs := hf.sectors
      rw [if_pos hlt] at hs
      rw [if_pos (by omega)]
      exact hadd _ _ hs
    | fresh g' ind h1 _ h0 hn =>
      have hge : ¬ 12 < idx := fun hc => (hf.indirect.2 hc) h0
      have hs := hf.sectors
      rw [if_neg hge] at hs
      rw [if_pos (by omega)]
      exact hadd _ _ (hadd (i.setBlk 12 ind) _ hs)
  · have ht : Took L s (idx + (if 12 < idx then 1 else 0) + 1) ((v.takeBlock L g b).setData L b buf) :=
      hf.took.step hb ⟨rfl, rfl⟩
    cases ha with
    | direct h1 =>
      rw [if_neg (by omega)] at ht ⊢
      exact ht
    | indirect h1 _ h0 =>
      have := hf.indirect.1 h0
      rw [if_pos this] at ht
      rw [if_pos (by omega)]
      exact ht.same ⟨rfl, rfl⟩
    | fresh g' ind h1 _ h0 hn =>
      have : ¬ 12 < idx := fun hc => (hf.indirect.2 hc) h0
      rw [if_neg this] at ht
      rw [if_pos (by omega)]
      exact ht.step hn ⟨rfl, rfl⟩
  · exact (ha.rest h hnext).2.1.trans hf.used

/-- With `c` blocks taken before it, writing `len` bytes takes a block it cannot refer to: exactly 13 blocks can be
had and a 14th is needed for the indirect block, or the data goes past the last pointer of the indirect block. -/
def WriteLoses (L : Layout) (s : Store) (c len : Nat) : Prop :=
  (12 * L.blockSize < len ∧ s.CanTake L (c + 13) ∧ ¬ s.CanTake L (c + 14)) ∨
  (maxBlocks L.blockSize * L.blockSize < len ∧ s.CanTake L (c + (maxBlocks L.blockSize + 2)))

theorem WriteLoses.before {v s : Store} {c : Nat} (ht : Took L v c s) (hl : WriteLoses L s 0 len) : WriteLoses L v c len := by
  simpa only [WriteLoses, ht.canTake_iff, zero_add] using hl

theorem Filling.idx_le (hf : Filling aware full L v₀ n s data idx v i P) : idx ≤ maxBlocks L.blockSize := by
  by_contra hlt
  exact (hf.behind (maxBlocks L.blockSize) (by omega)).1 (blockAt_far (le_refl _))

/-- The round that cannot place its pointer loses a block. -/
theorem Filling.loses (h : L.Ok) (hf : Filling aware full L v₀ n s data idx v i P)
    (hlt : idx * L.blockSize < data.length) (hb : v.nextBlock L = some (g, b)) {v₂ : Store}
    (hs : SameBits (v.takeBlock L g b) v₂) (hc : ¬ CanAdd L v₂ i idx) : WriteLoses L s 0 data.length := by
  have hle := hf.idx_le
  have ht := hf.took.step hb hs
  unfold CanAdd at hc
  rw [not_or, not_and_or, not_or] at hc
  obtain ⟨h12, hc⟩ := hc
  rcases lt_or_ge idx (maxBlocks L.blockSize) with hmax | hmax
  · obtain ⟨h0, hnone⟩ := hc.resolve_left (not_not.2 hmax)
    have hle12 : ¬ 12 < idx := fun hlt12 => h0 (hf.indirect.2 hlt12)
    have he : idx = 12 := by omega
    subst he
    exact .inl ⟨hlt, ht.canTake, ht.full (not_not.1 hnone)⟩
  · have he : idx = maxBlocks L.blockSize := by omega
    have hgt : 12 < maxBlocks L.blockSize := by
      unfold maxBlocks
      rcases h.blockSize with e | e | e <;> omega
    rw [he, if_pos hgt] at ht
    exact .inr ⟨he ▸ hlt, by rw [zero_add]; exact ht.canTake⟩

/-- `write_data_blocks` has the blocks for `len` bytes: those of the data, and one more behind the twelfth. -/
def WriteFits (L : Layout) (s : Store) (len : Nat) : Prop :=
  len ≤ maxBlocks L.blockSize * L.blockSize ∧
  s.CanTake L ((len + L.blockSize - 1) / L.blockSize + if 12 * L.blockSize < len then 1 else 0)

instance (L : Layout) (s : Store) (len : Nat) : Decidable (WriteFits L s len) := inferInstanceAs (Decidable (_ ∧ _))

theorem Store.CanTake.mono {m k : Nat} (h : s.CanTake L k) (hmk : m ≤ k) : s.CanTake L m := by
  obtain ⟨j, rfl⟩ := Nat.exists_eq_add_of_le hmk
  unfold Store.CanTake at h ⊢
  cases hm : s.takeMany L m with
  | some w => rfl
  | none =>
    induction m generalizing s with
    | zero => cases hm
    | succ m ih =>
      rw [succ_add, Store.takeMany] at h
      rw [Store.takeMany] at hm
      cases hn : s.nextBlock L with
      | none => rw [hn] at h; cases h
      | some gb =>
        rw [hn] at h hm
        exact ih h (le_add_right m j) hm

theorem lt_blocksFor {idx : Nat} (hbs : 0 < bs) (hlt : idx * bs < len) : idx + 1 ≤ (len + bs - 1) / bs := by
  rw [le_div_iff_mul_le hbs, succ_mul]
  omega

theorem WriteLoses.not_fits (h : L.Ok) (hl : WriteLoses L s 0 len) : ¬ WriteFits L s len := by
  rintro ⟨hmax, hfit⟩
  rcases hl with ⟨h12, -, hno⟩ | ⟨hlt, -⟩
  · rw [if_pos h12] at hfit
    exact hno (hfit.mono (succ_le_succ (lt_blocksFor h.bs_pos h12)))
  · omega

theorem Filling.not_fits (h : L.Ok) (hf : Filling aware full L v₀ n s data idx v i P)
    (hlt : idx * L.blockSize < data.length) (hb : v.nextBlock L = none) : ¬ WriteFits L s data.length := by
  rintro ⟨-, hfit⟩
  refine hf.took.full hb (hfit.mono ?_)
  have hidx := lt_blocksFor h.bs_pos hlt
  by_cases h12 : 12 < idx
  · have : 12 * L.blockSize < data.length := lt_of_le_of_lt (mul_le_mul_right _ (by omega)) hlt
    rw [if_pos h12, if_pos this]
    omega
  · rw [if_neg h12]
    omega

/-- How `write_data_blocks` ends: all data in place, or out of space with what it holds still referred to,
except for at most one block. -/
inductive Filled (aware full : Bool) (L : Layout) (v₀ : Store) (n : Nat) (s : Store) (data : Text) :
    Int → Inode → Store → Prop where
  | done {idx : Nat} {v : Store} {i : Inode} {P : Set Nat} : Filling aware full L v₀ n s data idx v i P →
    data.length ≤ idx * L.blockSize → Filled aware full L v₀ n s data 0 i v
  | nospace {v : Store} {i : Inode} {P : Set Nat} : ¬ WriteFits L s data.length → Work aware full L v₀ (some n) v P →
    Holds L v P i → v.inodeUsed = s.inodeUsed → (full = true → ∀ c ∈ P, c ∈ i.blockRefs L.blockSize v.data) → Filled aware full L v₀ n s data (-ENOSPC) i v

/-- Only pointers and the sector count of the inode in memory change. -/
def Inode.PtrsOnly (i i' : Inode) : Prop := i' = { i with iBlock := i'.iBlock, iBlocks := i'.iBlocks }

theorem Inode.PtrsOnly.trans {i'' : Inode} (h : i.PtrsOnly i') (h' : i'.PtrsOnly i'') : i.PtrsOnly i'' := by
  unfold Inode.PtrsOnly at h h' ⊢
  rw [h', h]

theorem Inode.PtrsOnly.iMode (h : i.PtrsOnly i') : i'.iMode = i.iMode := by rw [h]

theorem Inode.PtrsOnly.iLinksCount (h : i.PtrsOnly i') : i'.iLinksCount = i.iLinksCount := by rw [h]

theorem drop_chunk (data : Text) (off bs : Nat) :
    (data.drop off).drop (min (data.drop off).length bs) = data.drop (off + bs) := by
  rw [drop_drop]
  by_cases hle : bs ≤ (data.drop off).length
  · rw [min_eq_right hle]
  · rw [length_drop] at hle ⊢
    rw [drop_eq_nil_of_le (by omega), drop_eq_nil_of_le (by omega)]

/-- **The loop of `write_data_blocks`** from any round on. -/
theorem wp_writeBlocksFrom (h : L.Ok) (hl : full = true → ¬ WriteLoses L s 0 data.length) : ∀ (fuel idx : Nat) (v : Store)
    (i : Inode) (P : Set Nat), Filling aware full L v₀ n s data idx v i P → data.length ≤ idx * L.blockSize + fuel →
    wp (step L) (writeBlocksFrom L.fs fuel (data.drop (idx * L.blockSize)) idx i)
      (fun r v' => Filled aware full L v₀ n s data r.1 r.2 v' ∧ i.PtrsOnly r.2) v
  | 0, idx, v, i, P, hf, hfuel => ⟨.done hf hfuel, rfl⟩
  | fuel + 1, idx, v, i, P, hf, hfuel => by
    refine wp_ite (fun h0 => ?_) fun h0 => ?_
    · rw [length_drop] at h0
      exact ⟨.done hf (by omega), rfl⟩
    · rw [length_drop] at h0
      have hlt : idx * L.blockSize < data.length := by omega
      cases hb : v.nextBlock L with
      | none =>
        refine wp_seq_run (Drv.run_allocBlock_none hb) ?_
        exact ⟨.nospace (hf.not_fits h hlt hb) hf.work hf.holds hf.used fun _ => hf.refd, rfl⟩
      | some gb =>
        obtain ⟨g, b⟩ := gb
        obtain ⟨hbd, -, hbP, -⟩ := hf.work.own.next h hb
        refine wp_seq_run (Drv.run_allocBlock_some hb) ?_
        refine wp_seq_run (Drv.run_writeBlock (h.data_ne_zero hbd) hbd) ?_
        have w₁ := (hf.work.take h hb).write (Set.mem_insert b P) (chunkBuf L.blockSize (data.drop (idx * L.blockSize)))
        have hk12 : i.blkNo 12 ≠ 0 → ((v.takeBlock L g b).setData L b
            (chunkBuf L.blockSize (data.drop (idx * L.blockSize)))).data (i.blkNo 12) = v.data (i.blkNo 12) := by
          intro hi0
          have hne : i.blkNo 12 ≠ b := fun he => hbP (hf.holds.held _ (he ▸ indirect_mem_refs hi0))
          simp only [setData, takeBlock, if_pos hbd, update_of_ne hne]
        have hh₁ := hf.holds.congr (Set.subset_insert b P) hk12
        rcases run_inodeAddBlock idx b h (hh₁.indirect w₁.own) fun g' c hc => (w₁.own.next h hc).1 with
          ⟨v', i', ha, hrun⟩ | ⟨hcan, hrun⟩
        · refine wp_seq_run hrun ?_
          obtain ⟨P', hf'⟩ := hf.step h hlt hb ha
          rw [drop_chunk, ← succ_mul]
          refine wp_mono (wp_writeBlocksFrom h hl fuel (idx + 1) v' i' P' hf' ?_) fun r v'' hr => ?_
          · rw [succ_mul]
            have := h.bs_pos
            omega
          · have hp : i.PtrsOnly i' := ha.fields
            exact ⟨hr.1, hp.trans hr.2⟩
        · refine wp_seq_run hrun ?_
          have hlose := hf.loses h hlt hb ⟨rfl, rfl⟩ hcan
          exact ⟨.nospace (hlose.not_fits h) w₁ hh₁ hf.used fun hfull => absurd hlose (hl hfull), rfl⟩

/-- **`write_data_blocks`** into an inode without blocks. -/
theorem wp_writeDataBlocks (h : L.Ok) (w : Work aware full L v₀ (some n) s ∅) (hz : i.NoBlocks)
    (h0 : i.iBlocks = 0) (hl : full = true → ¬ WriteLoses L s 0 data.length) :
    wp (step L) (writeDataBlocks L.fs i data) (fun r v' => Filled aware full L v₀ n s data r.1 r.2 v' ∧ i.PtrsOnly r.2) s := by
  have hf : Filling aware full L v₀ n s data 0 s i ∅ := by
    refine ⟨w, ⟨?_, fun c hc => ?_⟩, fun c hc => absurd hc (Set.notMem_empty c), fun k _ => hz.blockAt _ _ k, fun k hk => ?_,
      fun k hk => ?_, ?_, by rw [h0]; simp, ⟨s, rfl, SameBits.refl s⟩, rfl⟩
    · rw [hz.blockRefs]; exact nodup_nil
    · rw [hz.blockRefs] at hc; cases hc
    · omega
    · omega
    · rw [hz 12 (by decide)]
      exact ⟨fun hc => absurd rfl hc, fun hc => absurd hc (by decide)⟩
  have hd : data.drop (0 * L.blockSize) = data := by rw [zero_mul, drop_zero]
  have := wp_writeBlocksFrom h hl data.length 0 s i ∅ hf (by omega)
  rwa [hd] at this

theorem Filling.fits (h : L.Ok) (hf : Filling aware full L v₀ n s data idx v i P) (hlen : data.length ≤ idx * L.blockSize) :
    WriteFits L s data.length := by
  have hbs := h.bs_pos
  have h12 : 12 < idx ↔ 12 * L.blockSize < data.length := by
    refine ⟨hf.within 12, fun hlt => ?_⟩
    exact Nat.lt_of_mul_lt_mul_right (Nat.lt_of_lt_of_le hlt hlen)
  have hidx : (data.length + L.blockSize - 1) / L.blockSize = idx := by
    refine Nat.div_eq_of_lt_le ?_ (by rw [Nat.succ_mul]; omega)
    cases idx with
    | zero => omega
    | succ k =>
      have := hf.within k (lt_succ_self k)
      rw [succ_mul]
      omega
  refine ⟨le_trans hlen (mul_le_mul_right _ hf.idx_le), ?_⟩
  have := hf.took.canTake
  simp only [h12] at this
  rw [hidx]
  exact this

theorem Filling.bytes (h : L.Ok) (hf : Filling aware full L v₀ n s data idx v i P) (hlen : data.length ≤ idx * L.blockSize)
    (hb : i'.iBlock = i.iBlock) (hs : i'.iSize.toNat = data.length) :
    i'.bytes L.blockSize v.data =
      (range data.length).map fun p => if p / L.blockSize < iterCap L.blockSize then ofList data p else 0 := by
  unfold Inode.bytes
  rw [hs]
  refine map_congr_left fun p hp => ?_
  have hp := mem_range.1 hp
  have hk : p / L.blockSize < idx := (div_lt_iff_lt_mul h.bs_pos).2 (by omega)
  obtain ⟨hne, hdat⟩ := hf.behind _ hk
  have := hdat (p % L.blockSize) (mod_lt _ h.bs_pos)
  rw [mul_comm, div_add_mod] at this
  unfold byteAt
  rw [blockAt_of_iBlock hb, this]
  simp only [ne_eq, hne, not_false_eq_true, and_true]

/-! ## `ext2_write_file` behind path resolution -/

/-- What a file written with `data` reads back as. -/
def readBack (bs : Nat) (data : Text) : Text :=
  (List.range data.length).map fun p => if p / bs < iterCap bs then ofList data p else 0

/-- The contents `ext2_write_file` writes over a file that holds `old`; `none` if `kmalloc` gives no memory for
them, as for none at all. An append that cannot read the old contents writes the new ones alone. -/
def finalData (env : Env) (old data : Text) (append : Bool) : Option Text :=
  if append then
    if env.kcalloc = true ∧ u32 (old.length + 1) ≠ 0 then
      if env.kmalloc = true ∧ u32 (old.length + data.length) ≠ 0 then
        some ((old ++ data).take (u32 (old.length + data.length))) else none
    else some data
  else some data

theorem Inode.noBlocks_cleared (i : Inode) : i.cleared.NoBlocks := by
  intro k hk
  interval_cases k <;> rfl

/-- The file `n` has been replaced by `final`. -/
structure Wrote (bs : Nat) (g : Graph) (n : Nat) (final : Text) (g' : Graph) : Prop where
  used : (g n).used = true
  isReg : (g n).inode.isReg = true
  length : final.length ≤ maxBlocks bs * bs
  node : ∃ i', g' = Function.update g n ⟨true, i', [], [], readBack bs final⟩ ∧
    i'.iMode = (g n).inode.iMode ∧ i'.iLinksCount = (g n).inode.iLinksCount

/-- The write failed after the old contents had gone. -/
structure Emptied (g : Graph) (n : Nat) (g' : Graph) : Prop where
  used : (g n).used = true
  isReg : (g n).inode.isReg = true
  node : ∃ i', g' = Function.update g n ⟨true, i', [], [], []⟩ ∧
    i'.iMode = (g n).inode.iMode ∧ i'.iLinksCount = (g n).inode.iLinksCount

/-- The store with the blocks of `n` freed, from which `write_data_blocks` starts. -/
def Store.freed (L : Layout) (v : Store) (n : Nat) : Store := v.dropBlocks L ((v.inode n).blockRefs L.blockSize v.data)

section
variable (hf : Filled aware full L v₀ n s data rc i v)
include hf

theorem Filled.holds : ∃ P, Work aware full L v₀ (some n) v P ∧ Holds L v P i := by
  cases hf with
  | done hfill _ => exact ⟨_, hfill.work, hfill.holds⟩
  | nospace _ hw hh _ _ => exact ⟨_, hw, hh⟩

theorem Filled.used : v.inodeUsed = s.inodeUsed := by
  cases hf with
  | done hfill _ => exact hfill.used
  | nospace _ _ _ hu _ => exact hu

theorem Filled.fits : rc ≠ 0 → ¬ WriteFits L s data.length := by
  cases hf with
  | done _ _ => exact fun hc => absurd rfl hc
  | nospace hno _ _ _ _ => exact fun _ => hno

end

theorem Filled.fits_of_zero (h : L.Ok) (hf : Filled aware full L v₀ n s data rc i v) : rc = 0 → WriteFits L s data.length := by
  cases hf with
  | done hfill hle => exact fun _ => hfill.fits h hle
  | nospace _ _ _ _ _ => exact fun hc => absurd hc (by decide)

theorem Filled.indirect (hf : Filled aware full L v₀ n s data rc i v) (h0 : i.blkNo 12 ≠ 0) : L.Data (i.blkNo 12) := by
  obtain ⟨P, hw, hh⟩ := hf.holds
  exact hh.indirect hw.own h0

theorem Filled.putBack (h : L.Ok) (inv : FsInv aware full L v₀) (hf : Filled aware full L v₀ n s data rc i v)
    (hu : v.inodeUsed n = true) (hr : i.isReg = true) (i' : Inode)
    (hlen : data.length < 4294967296 → i'.iSize.toNat = data.length) (hm : i'.iMode = i.iMode) (hb : i'.iBlock = i.iBlock) :
    (rc = 0 → FsInv aware full L (v.setInode n i') ∧ data.length ≤ maxBlocks L.blockSize * L.blockSize ∧
      (v.setInode n i').node L = update (v₀.node L) n ⟨true, i', [], [], readBack L.blockSize data⟩) ∧
    (rc ≠ 0 → FsInv aware full L ((v.dropBlocks L (i.blockRefs L.blockSize v.data)).setInode n i.cleared) ∧
      ((v.dropBlocks L (i.blockRefs L.blockSize v.data)).setInode n i.cleared).node L =
        update (v₀.node L) n ⟨true, i.cleared, [], [], []⟩) := by
  have hr' : i'.isReg = true := by unfold isReg at hr ⊢; rw [hm]; exact hr
  cases hf with
  | @done idx _ _ P hfill hle =>
    refine ⟨fun _ => ?_, fun hc => absurd rfl hc⟩
    have w := hfill.work.setInode i'
    have hino : (v.setInode n i').inode n = i' := update_self ..
    have hu' : (v.setInode n i').inodeUsed n = true := hu
    have hmax := le_trans hle (mul_le_mul_right _ hfill.idx_le)
    have h32 : data.length < 4294967296 := by
      unfold maxBlocks at hmax
      rcases h.blockSize with e | e | e <;> rw [e] at hmax <;> omega
    refine ⟨inv.putBack w hu' ?_ ?_ (fun _ c hc => ?_) fun hd => ?_, hmax, ?_⟩
    · rw [hino]; exact inline_of_not_lnk (isLnk_of_isReg hr')
    · have hk : Holds L (v.setInode n i') P i := hfill.holds.congr subset_rfl fun _ => rfl
      rw [hino]
      exact hk.of_iBlock hb
    · rw [hino, blockRefs_of_iBlock hb]
      exact hfill.refd c hc
    · rw [hino, isDir_of_isReg hr'] at hd; cases hd
    · rw [w.frame.node_eq, node_reg hu' (by rw [hino]; exact hr'), hino]
      have := hfill.bytes h hle hb (hlen h32)
      change update (v₀.node L) n (Node.mk true i' [] [] (i'.bytes L.blockSize v.data)) = _
      rw [this]
      rfl
  | @nospace _ _ P _ hw hh _ hall =>
    refine ⟨fun hc => absurd hc (by decide), fun _ => ?_⟩
    have w := (hw.dropBlocks h hh.nodup hh.held).setInode i.cleared
    have hino : ((v.dropBlocks L (i.blockRefs L.blockSize v.data)).setInode n i.cleared).inode n = i.cleared :=
      update_self ..
    have hu' : ((v.dropBlocks L (i.blockRefs L.blockSize v.data)).setInode n i.cleared).inodeUsed n = true := by
      change (v.dropBlocks L _).inodeUsed n = true
      rw [Store.dropBlocks_used]; exact hu
    have hr'' : i.cleared.isReg = true := hr
    refine ⟨inv.putBack w hu' ?_ ⟨?_, fun c hc => ?_⟩ (fun hf c hc => absurd (hall hf c hc.1) hc.2) fun hd => ?_, ?_⟩
    · rw [hino]; exact inline_of_not_lnk (isLnk_of_isReg hr'')
    · rw [hino, i.noBlocks_cleared.blockRefs]; exact nodup_nil
    · rw [hino, i.noBlocks_cleared.blockRefs] at hc; cases hc
    · rw [hino, isDir_of_isReg hr''] at hd; cases hd
    · rw [w.frame.node_eq, node_reg hu' (by rw [hino]; exact hr''), hino]
      rfl

theorem FsInv.wp_replaceContents (h : L.Ok) (inv : FsInv aware full L v) (hu : v.inodeUsed n = true)
    (hr : (v.inode n).isReg = true) (env : Env) (final : Text)
    (hl : full = true → ¬ WriteLoses L (v.freed L n) 0 final.length) :
    wp (step L) (replaceContents L.fs env n (v.inode n) final) (fun rc v' => FsInv aware full L v' ∧
      ((rc = 0 ∧ WriteFits L (v.freed L n) final.length ∧ Wrote L.blockSize (v.node L) n final (v'.node L)) ∨
       (rc ≠ 0 ∧ ¬ WriteFits L (v.freed L n) final.length ∧ Emptied (v.node L) n (v'.node L)))) v := by
  have hv := inv.own.valid n hu
  have hnl : (v.inode n).inline aware = false := inline_of_not_lnk (isLnk_of_isReg hr)
  have hmap := inv.own.mapOk hu hnl
  have href : v.refs aware L n = (v.inode n).blockRefs L.blockSize v.data := refs_of_not_inline hnl
  have w := (inv.own.checkout hu).start.dropBlocks h hmap.nodup fun b hb => .inr (by rw [href]; exact hb)
  have hempty : (∅ ∪ {b | b ∈ v.refs aware L n}) \ {b | b ∈ (v.inode n).blockRefs L.blockSize v.data} = (∅ : Set Nat) := by
    rw [href, Set.empty_union, sdiff_self, Set.bot_eq_empty]
  rw [hempty] at w
  refine wp_seq_run (run_inodeFreeAllBlocks hmap.indirect) ?_
  refine Prog.wp_seq (wp_writeDataBlocks h w (v.inode n).noBlocks_cleared rfl hl) ?_
  rintro ⟨rc, i'⟩ v' ⟨hf, hp⟩
  have hmode : i'.iMode = (v.inode n).iMode := hp.iMode
  have hlinks := hp.iLinksCount
  have hr' : i'.isReg = true := by unfold isReg at hr ⊢; rw [hmode]; exact hr
  have hu' : v'.inodeUsed n = true := by rw [hf.used, Store.dropBlocks_used]; exact hu
  obtain ⟨h0, h1⟩ := hf.putBack h inv hu' hr' ({ i' with iSize := UInt32.ofNat final.length }.touch (env.time 2))
    (fun hlt => UInt32.toNat_ofNat_of_lt hlt) rfl rfl
  refine wp_ite (fun hrc => ?_) fun hrc => ?_
  · obtain ⟨hinv, hnode⟩ := h1 hrc
    refine wp_seq_run (run_inodeFreeAllBlocks hf.indirect) ?_
    refine wp_seq_run (Drv.run_writeInode hv) ?_
    exact ⟨hinv, .inr ⟨hrc, hf.fits hrc, by simpa using hu, by simpa using hr, _, hnode, by rw [node_inode]; exact hmode,
      by rw [node_inode]; exact hlinks⟩⟩
  · have hrc : rc = 0 := not_not.1 hrc
    obtain ⟨hinv, hlen, hnode⟩ := h0 hrc
    refine wp_seq_run (Drv.run_writeInode hv) ?_
    exact ⟨hinv, .inl ⟨rfl, hf.fits_of_zero h hrc, by simpa using hu, by simpa using hr, hlen, _, hnode, by rw [node_inode]; exact hmode,
      by rw [node_inode]; exact hlinks⟩⟩

/-- **`ext2_write_file`** on any named inode: the file is replaced, or emptied, or nothing happens. -/
theorem FsInv.wp_writeFileIno (h : L.Ok) (inv : FsInv aware full L v) (hn : Named L v n) (env : Env) (data : Text)
    (append : Bool) (hl : full = true → (v.inode n).isReg = true → ∀ final,
      finalData env (v.node L n).bytes data append = some final → ¬ WriteLoses L (v.freed L n) 0 final.length) :
    wp (step L) (writeFileIno L.fs env n data append) (fun rc v' => FsInv aware full L v' ∧
      ((rc = 0 ∧ ∃ final, finalData env (v.node L n).bytes data append = some final ∧
          WriteFits L (v.freed L n) final.length ∧ Wrote L.blockSize (v.node L) n final (v'.node L)) ∨
       (rc ≠ 0 ∧ ((v' = v ∧ (L.ValidIno n → (v.inode n).isReg = true → finalData env (v.node L n).bytes data append = none)) ∨
         (Emptied (v.node L) n (v'.node L) ∧ ∃ final, finalData env (v.node L n).bytes data append = some final ∧
           ¬ WriteFits L (v.freed L n) final.length))))) v := by
  by_cases hv : L.ValidIno n
  swap
  · refine wp_seq_run (Drv.run_readInode_invalid hv) ?_
    exact ⟨inv, .inr ⟨show (- EIO) ≠ 0 by decide, .inl ⟨rfl, fun hc => absurd hc hv⟩⟩⟩
  refine wp_seq_run (Drv.run_readInode hv) ?_
  refine wp_ite (fun hr => ⟨inv, .inr ⟨show -EISDIR ≠ 0 by decide, .inl ⟨rfl, fun _ hc => ?_⟩⟩⟩) fun hr => ?_
  · rw [hr] at hc; cases hc
  have hr : (v.inode n).isReg = true := by simpa using hr
  have hu := FsInv.used_of_isReg hn hv hr
  have hmap := inv.own.mapOk hu (inline_of_not_lnk (isLnk_of_isReg hr))
  have hfinal : run (step L) (finalContents L.fs env n data append) v = (finalData env (v.node L n).bytes data append, v) := by
    unfold finalContents finalData
    cases append with
    | false => rfl
    | true =>
      have hlen : (v.node L n).bytes.length = (v.inode n).iSize.toNat := by rw [node_reg hu hr, length_bytes]
      rw [if_pos rfl, run_bind, hlen]
      by_cases hk : env.kcalloc = true ∧ u32 ((v.inode n).iSize.toNat + 1) ≠ 0
      · rw [run_readFileIno h hv hr hmap hk.1 hk.2, if_pos hk, node_reg hu hr, ← length_bytes L.blockSize v.data]
        rfl
      rw [run_readFileIno_none fun _ => .inr ?_, if_neg hk]
      · rfl
      · rcases Decidable.not_and_iff_not_or_not.1 hk with hk | hk
        · exact .inl (by simpa using hk)
        · exact .inr (not_not.1 hk)
  refine wp_seq_run hfinal ?_
  cases hfin : finalData env (v.node L n).bytes data append with
  | none => exact ⟨inv, .inr ⟨show -ENOSPC ≠ 0 by decide, .inl ⟨rfl, fun _ _ => rfl⟩⟩⟩
  | some final =>
    refine wp_mono (inv.wp_replaceContents h hu hr env final fun hf => hl hf hr final hfin) ?_
    rintro rc v' ⟨hinv, ⟨h0, hfit, hw⟩ | ⟨h0, hno, he⟩⟩
    · exact ⟨hinv, .inl ⟨h0, final, rfl, hfit, hw⟩⟩
    · exact ⟨hinv, .inr ⟨h0, .inr ⟨he, final, rfl, hno⟩⟩⟩

end
end PureUnix.Ext2
