import PureUnix.Lib.Wp
import PureUnix.Ext2.Store

/-!
# The block map of an inode (`fs/ext2/inode.c`; `inode_block_at` of `fs/ext2/dir.c`)

Twelve direct pointers and one indirect block. Reader and writer walk the map with code of their own:
`ext2_iter_blocks` copies at most 256 pointers of the indirect block, whatever the block size, while
`ext2_inode_add_block`, `ext2_inode_free_all_blocks` and `inode_block_at` use all `block_size / 4`.

`Inode.blockAt` is the map as a function and `Inode.visits` what the iterator sees of it.
-/
namespace PureUnix.Ext2
open Lib List Nat
open Store

/-- `fs->block_size / sizeof(uint32_t)`. -/
def ptrsPerBlock (fs : Fs) : Nat := fs.blockSize / 4

/-- The first `n` pointers of an indirect block. -/
def ptrs (ind : Buf) (n : Nat) : List Nat := (List.range n).map fun p => get32 ind (4 * p)

namespace Inode

def direct (i : Inode) : List Nat := (List.range 12).map i.blkNo

/-- `i_blocks += fs->sectors_per_block`. -/
def addSectors (fs : Fs) (i : Inode) : Inode :=
  { i with iBlocks := i.iBlocks + UInt32.ofNat fs.sectorsPerBlock }

end Inode

/-! ## `ext2_iter_blocks` -/

section
variable {S : Type}

/-- One of the two loops of `ext2_iter_blocks`, over the block numbers `blks`: the callback's verdict,
the bytes remaining and the callback's context. -/
def iterLoop (fs : Fs) (cb : Nat → S → Drv (Int × S)) : List Nat → Nat → S → Drv (Int × Nat × S)
  | [], remaining, ctx => pure (0, remaining, ctx)
  | blk :: blks, remaining, ctx =>
    if remaining = 0 then pure (0, 0, ctx)
    else do
      let rc ← cb blk ctx
      if rc.1 ≠ 0 then pure (rc.1, remaining - min remaining fs.blockSize, rc.2)
      else iterLoop fs cb blks (remaining - min remaining fs.blockSize) rc.2

/-- `ext2_iter_blocks` (inode.c:47). -/
def iterBlocks (fs : Fs) (inode : Inode) (nbytes : Nat) (cb : Nat → S → Drv (Int × S)) (ctx : S) : Drv (Int × S) := do
  let d ← iterLoop fs cb inode.direct nbytes ctx
  if d.1 ≠ 0 then pure (d.1, d.2.2)
  else if d.2.1 = 0 ∨ inode.blkNo 12 = 0 then pure (0, d.2.2)
  else do
    match ← Drv.readBlock (inode.blkNo 12) with
    | none => pure (-1, d.2.2)
    | some ind => do
      -- `if (ptrs_per_block > 256) ptrs_per_block = 256;    /* safety cap */`
      let r ← iterLoop fs cb (ptrs ind (min (ptrsPerBlock fs) 256)) d.2.1 d.2.2
      pure (r.1, r.2.2)

end

/-! ## `ext2_inode_add_block`, `ext2_inode_free_all_blocks`, `inode_block_at` -/

/-- The block of pointers, allocated on first use. -/
def ensureIndirect (fs : Fs) (inode : Inode) : Drv (Bool × Inode) :=
  if inode.blkNo 12 = 0 then do
    match ← Drv.allocBlock with
    | none => pure (false, inode)
    | some ind => pure (true, (inode.setBlk 12 ind).addSectors fs)
  else pure (true, inode)

/-- `ext2_inode_add_block` (inode.c:122). The inode is changed in memory only. -/
def inodeAddBlock (fs : Fs) (inode : Inode) (logicalIndex newBlk : Nat) : Drv (Bool × Inode) :=
  if logicalIndex < 12 then pure (true, (inode.setBlk logicalIndex newBlk).addSectors fs)
  else if ptrsPerBlock fs ≤ logicalIndex - 12 then pure (false, inode)
  else do
    let e ← ensureIndirect fs inode
    if e.1 = false then pure (false, e.2)
    else do
      match ← Drv.readBlock (e.2.blkNo 12) with
      | none => pure (false, e.2)
      | some ro => do
        if ← Drv.writeBlock (e.2.blkNo 12) (put32 ro (4 * (logicalIndex - 12)) newBlk) then
          pure (true, e.2.addSectors fs)
        else pure (false, e.2)

/-- Free and clear the direct pointers `ks`. -/
def freeDirect : List Nat → Inode → Drv Inode
  | [], inode => pure inode
  | k :: ks, inode =>
    if inode.blkNo k ≠ 0 then do
      Drv.freeBlock (inode.blkNo k)
      freeDirect ks (inode.setBlk k 0)
    else freeDirect ks inode

/-- Free the non-zero ones of the pointers `ps`. -/
def freePtrs : List Nat → Drv Unit
  | [] => pure ()
  | p :: ps =>
    if p ≠ 0 then do
      Drv.freeBlock p
      freePtrs ps
    else freePtrs ps

/-- `ext2_inode_free_all_blocks` (inode.c:158). -/
def inodeFreeAllBlocks (fs : Fs) (inode : Inode) : Drv Inode := do
  let inode ← freeDirect (List.range 12) inode
  if inode.blkNo 12 ≠ 0 then do
    match ← Drv.readBlock (inode.blkNo 12) with
    | none => pure ()
    | some ro => freePtrs (ptrs ro (ptrsPerBlock fs))
    Drv.freeBlock (inode.blkNo 12)
    pure { inode.setBlk 12 0 with iBlocks := 0, iSize := 0 }
  else pure { inode with iBlocks := 0, iSize := 0 }

/-- `inode_block_at` (dir.c:22). -/
def inodeBlockAt (fs : Fs) (inode : Inode) (index : Nat) : Drv Nat :=
  if index < 12 then pure (inode.blkNo index)
  else if inode.blkNo 12 = 0 then pure 0
  else if ptrsPerBlock fs ≤ index - 12 then pure 0
  else do
    match ← Drv.readBlock (inode.blkNo 12) with
    | none => pure 0
    | some ro => pure (get32 ro (4 * (index - 12)))

/-! ## The map as a function -/

/-- Most logical blocks an inode can map. -/
def maxBlocks (bs : Nat) : Nat := 12 + bs / 4

/-- Most logical blocks `ext2_iter_blocks` visits. -/
def iterCap (bs : Nat) : Nat := 12 + min (bs / 4) 256

namespace Inode

/-- Block `k` of the inode; 0 for a hole. -/
def blockAt (bs : Nat) (data : Nat → Buf) (i : Inode) (k : Nat) : Nat :=
  if k < 12 then i.blkNo k
  else if i.blkNo 12 = 0 then 0
  else if bs / 4 ≤ k - 12 then 0
  else get32 (data (i.blkNo 12)) (4 * (k - 12))

/-- The block numbers `ext2_iter_blocks` visits for `nbytes` bytes. -/
def visits (bs : Nat) (data : Nat → Buf) (i : Inode) (nbytes : Nat) : List Nat :=
  (i.direct ++ if i.blkNo 12 = 0 then [] else ptrs (data (i.blkNo 12)) (min (bs / 4) 256)).take ((nbytes + bs - 1) / bs)

end Inode

variable {bs k : Nat} {data : Nat → Buf} {i : Inode}

theorem length_ptrs (b : Buf) (n : Nat) : (ptrs b n).length = n := by simp [ptrs]

theorem Inode.length_direct (i : Inode) : i.direct.length = 12 := by simp [Inode.direct]

theorem Inode.blockAt_direct (hk : k < 12) : i.blockAt bs data k = i.blkNo k := if_pos hk

theorem Inode.blockAt_ptr (h : i.blkNo 12 ≠ 0) (hk : k < bs / 4) :
    i.blockAt bs data (12 + k) = get32 (data (i.blkNo 12)) (4 * k) := by
  rw [Inode.blockAt, if_neg (by omega), if_neg h, if_neg (by omega), Nat.add_sub_cancel_left]

theorem Inode.blockAt_no_indirect (h : i.blkNo 12 = 0) (hk : 12 ≤ k) : i.blockAt bs data k = 0 := by
  rw [Inode.blockAt, if_neg (by omega), if_pos h]

theorem Inode.blockAt_far (hk : maxBlocks bs ≤ k) : i.blockAt bs data k = 0 := by
  unfold maxBlocks at hk
  rw [Inode.blockAt, if_neg (by omega)]
  split
  · rfl
  · rw [if_pos (by omega)]

theorem Inode.blockAt_congr {data' : Nat → Buf} (h : i.blkNo 12 ≠ 0 → data' (i.blkNo 12) = data (i.blkNo 12)) (k : Nat) :
    i.blockAt bs data' k = i.blockAt bs data k := by
  unfold Inode.blockAt
  by_cases h0 : i.blkNo 12 = 0
  · simp only [h0, if_true]
  · rw [h h0]

/-- The visited block numbers are those of the map, up to where the iterator stops. -/
theorem Inode.visits_eq (bs : Nat) (data : Nat → Buf) (i : Inode) (nbytes : Nat) : i.visits bs data nbytes =
      (range (min ((nbytes + bs - 1) / bs) (if i.blkNo 12 = 0 then 12 else iterCap bs))).map (i.blockAt bs data) := by
  unfold Inode.visits iterCap
  by_cases h0 : i.blkNo 12 = 0
  · rw [if_pos h0, if_pos h0, append_nil, Inode.direct, ← map_take, take_range]
    refine map_congr_left fun k hk => (blockAt_direct ?_).symm
    have := mem_range.1 hk
    omega
  · rw [if_neg h0, if_neg h0]
    refine ext_getElem ?_ fun k h1 h2 => ?_
    · simp [length_ptrs, length_direct]
    · simp only [length_map, length_range] at h2
      rw [getElem_take, getElem_map, getElem_range]
      by_cases hk : k < 12
      · rw [getElem_append_left (by rw [length_direct]; exact hk), blockAt_direct hk]
        simp [Inode.direct]
      · obtain ⟨p, rfl⟩ : ∃ p, k = 12 + p := ⟨k - 12, by omega⟩
        rw [blockAt_ptr h0 (by omega)]
        simp [ptrs, length_direct]

/-! ## Running on a store -/

section
variable {S : Type} {f : Nat → S → Int × S} {x : Nat} {s : S}

/-- A callback without effect on the store, folded over block numbers until it answers. -/
def foldVisits (f : Nat → S → Int × S) : List Nat → S → Int × S
  | [], s => (0, s)
  | blk :: blks, s => if (f blk s).1 ≠ 0 then f blk s else foldVisits f blks (f blk s).2

theorem foldVisits_stop (h : (f x s).1 ≠ 0) (xs : List Nat) : foldVisits f (x :: xs) s = f x s := if_pos h

theorem foldVisits_go (h : (f x s).1 = 0) (xs : List Nat) :
    foldVisits f (x :: xs) s = foldVisits f xs (f x s).2 := if_neg (not_not.2 h)

theorem foldVisits_append (f : Nat → S → Int × S) (xs ys : List Nat) (s : S) : foldVisits f (xs ++ ys) s =
      if (foldVisits f xs s).1 ≠ 0 then foldVisits f xs s else foldVisits f ys (foldVisits f xs s).2 := by
  induction xs generalizing s with
  | nil => simp [foldVisits]
  | cons x xs ih =>
    rw [cons_append]
    by_cases hx : (f x s).1 = 0
    · rw [foldVisits_go hx, foldVisits_go hx, ih]
    · rw [foldVisits_stop hx, foldVisits_stop hx, if_pos hx]

variable {L : Layout} {v : Store} {cb : Nat → S → Drv (Int × S)} {f : Nat → S → Int × S}

theorem ceil_pos {n bs : Nat} (hn : n ≠ 0) (hbs : 0 < bs) : (n + bs - 1) / bs = (n - min n bs + bs - 1) / bs + 1 := by
  by_cases h : n ≤ bs
  · have h1 : (n + bs - 1) / bs = 1 := Nat.div_eq_of_lt_le (by omega) (by omega)
    have h0 : (0 + bs - 1) / bs = 0 := Nat.div_eq_of_lt (by omega)
    rw [Nat.min_eq_left h, Nat.sub_self, h1, h0]
  · rw [← Nat.add_div_right _ hbs]
    congr 1; omega

variable (cb f) in
theorem run_iterLoop (hbs : 0 < L.blockSize) : ∀ (blks : List Nat) (remaining : Nat) (s : S),
    (∀ b ∈ blks.take ((remaining + L.blockSize - 1) / L.blockSize), ∀ s, run (step L) (cb b s) v = (f b s, v)) →
    ∃ rem', run (step L) (iterLoop L.fs cb blks remaining s) v =
        (((foldVisits f (blks.take ((remaining + L.blockSize - 1) / L.blockSize)) s).1, rem',
          (foldVisits f (blks.take ((remaining + L.blockSize - 1) / L.blockSize)) s).2), v) ∧
      ((foldVisits f (blks.take ((remaining + L.blockSize - 1) / L.blockSize)) s).1 = 0 →
        rem' = remaining - blks.length * L.blockSize) := by
  intro blks
  induction blks with
  | nil => intro remaining s _; exact ⟨remaining, by simp [iterLoop, foldVisits], by simp⟩
  | cons blk blks ih =>
    intro remaining s hcb
    by_cases hr : remaining = 0
    · subst hr
      have h0 : (0 + L.blockSize - 1) / L.blockSize = 0 := div_eq_of_lt (by omega)
      exact ⟨0, by rw [iterLoop, if_pos rfl, h0]; rfl, by simp⟩
    rw [ceil_pos hr hbs] at hcb ⊢
    rw [take_succ_cons] at hcb ⊢
    have hb := hcb blk (by simp) s
    obtain ⟨rem', hrun, hrem⟩ := ih (remaining - min remaining L.blockSize) (f blk s).2 fun b hb => hcb b (by simp [hb])
    have hrun' : run (step L) (iterLoop L.fs cb (blk :: blks) remaining s) v =
        if (f blk s).1 ≠ 0 then (((f blk s).1, remaining - min remaining L.blockSize, (f blk s).2), v)
        else run (step L) (iterLoop L.fs cb blks (remaining - min remaining L.blockSize) (f blk s).2) v := by
      rw [iterLoop, if_neg hr, run_bind, hb]
      simp only [run_ite, run_pure]
    rw [hrun']
    by_cases hf : (f blk s).1 = 0
    · rw [foldVisits_go hf, if_neg (not_not.2 hf), hrun]
      refine ⟨rem', rfl, fun h => ?_⟩
      rw [hrem h, length_cons, add_mul, one_mul]
      omega
    · rw [foldVisits_stop hf, if_pos hf]
      exact ⟨_, rfl, fun h => absurd h hf⟩

variable (cb) in
/-- **`ext2_iter_blocks`** with a callback that only reads: a fold over the visited block numbers. -/
theorem run_iterBlocks (hbs : 0 < L.blockSize) (i : Inode) (nbytes : Nat) (s : S) (h12 : i.blkNo 12 ≠ 0 → L.Data (i.blkNo 12))
    (hcb : ∀ b ∈ i.visits L.blockSize v.data nbytes, ∀ s, run (step L) (cb b s) v = (f b s, v)) :
    run (step L) (iterBlocks L.fs i nbytes cb s) v = (foldVisits f (i.visits L.blockSize v.data nbytes) s, v) := by
  have hv : i.visits L.blockSize v.data nbytes = i.direct.take ((nbytes + L.blockSize - 1) / L.blockSize) ++
      (if i.blkNo 12 = 0 then [] else ptrs (v.data (i.blkNo 12)) (min (L.blockSize / 4) 256)).take
        ((nbytes + L.blockSize - 1) / L.blockSize - 12) := by
    rw [Inode.visits, take_append, i.length_direct]
  rw [hv] at hcb ⊢
  obtain ⟨rem', hrun, hrem⟩ := run_iterLoop (v := v) cb f hbs i.direct nbytes s fun b hb => hcb b (mem_append_left _ hb)
  rw [foldVisits_append, iterBlocks, run_bind, hrun]
  simp only [run_ite, run_pure]
  by_cases hr : (foldVisits f (i.direct.take ((nbytes + L.blockSize - 1) / L.blockSize)) s).1 ≠ 0
  · rw [if_pos hr, if_pos hr]
  rw [if_neg hr, if_neg hr]
  have hz := hrem (not_not.1 hr)
  rw [i.length_direct] at hz
  have hsum : ∀ n : Nat, (n - 12 * L.blockSize + L.blockSize - 1) / L.blockSize =
      (n + L.blockSize - 1) / L.blockSize - 12 := by
    intro n
    by_cases hn : n ≤ 12 * L.blockSize
    · have h1 : (n + L.blockSize - 1) / L.blockSize < 13 := by
        rw [Nat.div_lt_iff_lt_mul hbs]; omega
      rw [Nat.sub_eq_zero_of_le hn, Nat.zero_add, Nat.div_eq_of_lt (by omega)]
      omega
    · rw [← Nat.sub_mul_div]
      congr 1; omega
  by_cases hstop : rem' = 0 ∨ i.blkNo 12 = 0
  · rw [if_pos hstop]
    have hnil : (if i.blkNo 12 = 0 then [] else ptrs (v.data (i.blkNo 12)) (min (L.blockSize / 4) 256)).take
        ((nbytes + L.blockSize - 1) / L.blockSize - 12) = [] := by
      rcases hstop with h | h
      · rw [← hsum, ← hz, h, zero_add, div_eq_of_lt (by omega), take_zero]
      · rw [if_pos h, take_nil]
    rw [hnil, foldVisits]
  · rw [if_neg hstop]
    obtain ⟨-, h0⟩ := not_or.1 hstop
    rw [if_neg h0] at hcb ⊢
    rw [run_bind, Drv.run_readBlock h0 (h12 h0)]
    obtain ⟨rem2, hrun2, -⟩ := run_iterLoop (v := v) cb f hbs (ptrs (v.data (i.blkNo 12)) (min (L.blockSize / 4) 256)) rem'
      (foldVisits f (i.direct.take ((nbytes + L.blockSize - 1) / L.blockSize)) s).2
      (fun b hb => hcb b (mem_append_right _ (by rwa [hz, hsum] at hb)))
    rw [hz, hsum] at hrun2
    simp only [run_bind, ptrsPerBlock, hz, hrun2, run_pure]

end

theorem run_inodeBlockAt {L : Layout} {v : Store} {i : Inode} (h12 : i.blkNo 12 ≠ 0 → L.Data (i.blkNo 12)) (k : Nat) :
    run (step L) (inodeBlockAt L.fs i k) v = (i.blockAt L.blockSize v.data k, v) := by
  unfold inodeBlockAt Inode.blockAt ptrsPerBlock
  by_cases h1 : k < 12
  · rw [if_pos h1, if_pos h1, run_pure]
  by_cases h2 : i.blkNo 12 = 0
  · rw [if_neg h1, if_neg h1, if_pos h2, if_pos h2, run_pure]
  by_cases h3 : L.blockSize / 4 ≤ k - 12
  · rw [if_neg h1, if_neg h1, if_neg h2, if_neg h2, if_pos h3, if_pos h3, run_pure]
  · rw [if_neg h1, if_neg h1, if_neg h2, if_neg h2, if_neg h3, if_neg h3, run_bind, Drv.run_readBlock h2 (h12 h2), run_pure]

end PureUnix.Ext2
