import PureUnix.Ext2.BlockCache

/-!
# The block cache when sectors fail

One call of `ext2_read_block` or `ext2_write_block` during which any sector access may fail. A read that fails empties the
slot it was filling, so what the slots show is still on the disk. A write that fails has already replaced the sectors before
the one that failed, and leaves a copy of the block in its slot as it was: the copy is then wrong unless those sectors held
the same bytes before.
-/
namespace PureUnix.Ext2

open Lib Nat
open Disk
open CachedDisk

namespace CachedDisk

/-- Every slot that is not empty equals its block on the disk. -/
def Current (fs : Fs) (c : CachedDisk) : Prop := ∀ i, (c.cache i).blkNo ≠ 0 → c.held fs i = c.disk.block fs (c.cache i).blkNo

/-- Neither the slots nor what a later read returns, whichever sectors fail then, differ from the disk. -/
def ShowsDisk (fs : Fs) (c : CachedDisk) : Prop :=
  c.Current fs ∧ ∀ io b data, (cachedReadBlock fs io c b).1 = some data → data = c.disk.block fs b

end CachedDisk

/-- The call leaves no copy behind: the write changes no sector of a cached block, or it writes all sectors of a block and refreshes
the only copy. -/
def BlockCall.LeavesNoCopy (fs : Fs) (io : Sectors) (c : CachedDisk) : BlockCall → Prop
  | .read _ => True
  | .flush => True
  | .write b data =>
    let stored := storedSectors io (u32 (b * fs.sectorsPerBlock)) fs.sectorsPerBlock 0
    b = 0 ∨ ∀ i, (c.cache i).blkNo ≠ 0 → Disk.base fs (c.cache i).blkNo = Disk.base fs b →
      stored = fs.sectorsPerBlock ∧ c.slotOf b = some i ∨ ∀ k < stored * 512, data k = c.disk.block fs b k

/-! ## The sector loops -/

theorem storedSectors_le (io : Sectors) (lba : Nat) : ∀ n s, storedSectors io lba n s ≤ n
  | 0, _ => le_refl 0
  | n + 1, s => by
    rw [storedSectors]
    split
    · exact succ_le_succ (storedSectors_le io lba n (s + 1))
    · exact zero_le _

theorem CachedDisk.current_iff {fs : Fs} {c : CachedDisk} :
    c.Current fs ↔ ∀ i b, c.label i = some b → c.held fs i = c.disk.block fs b := by
  constructor
  · intro hc i b hi
    obtain ⟨rfl, h0⟩ := label_eq_some.1 hi
    exact hc i h0
  · intro hc i h0
    exact hc i _ (label_eq_some.2 ⟨rfl, h0⟩)

section
variable {fs : Fs} {io : Sectors} {c : CachedDisk} {b b' : Nat}
  (hbs : fs.blockSize = 1024 ∨ fs.blockSize = 2048 ∨ fs.blockSize = 4096) (hspb : fs.sectorsPerBlock = fs.blockSize / 512)
include hbs hspb

theorem base_apart (hne : base fs b ≠ base fs b') :
    base fs b + fs.blockSize ≤ base fs b' ∨ base fs b' + fs.blockSize ≤ base fs b := by
  unfold base u32 at hne ⊢
  rcases hbs with e | e | e <;> rw [hspb, e] at hne ⊢ <;> omega

/-! ## What the slots show -/

theorem CachedDisk.Current.showsDisk (hc : c.Current fs) : c.ShowsDisk fs := by
  refine ⟨hc, fun io b data h => ?_⟩
  unfold cachedReadBlock at h
  split at h
  · cases h
  rename_i h0
  split at h
  · rename_i i hs
    obtain rfl := Option.some.inj h
    have hi := slotOf_some hs
    rw [← hi]
    exact hc i (hi ▸ h0)
  · dsimp only at h
    split at h
    · rename_i hok
      obtain rfl := Option.some.inj h
      exact load_true hbs hspb (Prod.ext hok rfl)
    · cases h

/-- **A read keeps the slots current**, whichever of its sectors fail. -/
theorem cachedReadBlock_current (hc : c.Current fs) (io : Sectors) (b : Nat) : (cachedReadBlock fs io c b).2.Current fs := by
  rw [CachedDisk.current_iff] at hc ⊢
  unfold cachedReadBlock
  split
  · exact hc
  rename_i h0
  split
  · simpa only [touch_disk, touch_label, touch_held] using hc
  dsimp only
  split
  · rename_i hok
    -- the slot given up shows what was loaded
    have hload := load_true hbs hspb (Prod.ext hok rfl)
    intro i k hi
    rw [touch_label, setSlot_label] at hi
    rw [touch_held, setSlot_held]
    by_cases he : i = c.victim
    · rw [he, update_self, if_neg h0, Option.some.injEq] at hi
      have hk : b = k := hi
      rw [he, update_self, hload, hk]
      rfl
    · rw [update_of_ne he] at hi ⊢
      exact hc i k hi
  · -- the slot given up is empty
    intro i k hi
    rw [setSlot_label] at hi
    rw [setSlot_held]
    by_cases he : i = c.victim
    · rw [he, update_self] at hi
      cases hi
    · rw [update_of_ne he] at hi ⊢
      exact hc i k hi

theorem block_stored (b : Nat) (d : Disk) (data : Buf) {n : Nat} (hn : n ≤ fs.blockSize) (b' : Nat) :
    ({ d with bytes := copy d.bytes (base fs b) data n } : Disk).block fs b' =
      if base fs b' = base fs b then fun k => if k < n then data k else d.block fs b' k else d.block fs b' := by
  split
  · rename_i he
    funext k
    simp only [block, trunc, copy, he]
    by_cases hk : k < n
    · rw [if_pos (by omega), if_pos (by omega), if_pos hk, Nat.add_sub_cancel_left]
    · split
      · rw [if_neg (by omega)]
      · rfl
  · rename_i hne
    apply trunc_congr
    intro k _ hk
    have := base_apart hbs hspb hne
    simp only [copy]
    rw [if_neg (by omega)]

/-- **A write keeps the slots current** exactly if it leaves no copy behind. -/
theorem cachedWriteBlock_current_iff (hc : c.Current fs) (io : Sectors) (b : Nat) (data : Buf) :
    (cachedWriteBlock fs io c b data).2.Current fs ↔ (BlockCall.write b data).LeavesNoCopy fs io c := by
  unfold cachedWriteBlock BlockCall.LeavesNoCopy
  by_cases h0 : b = 0
  · simp only [h0, if_true, true_or, iff_true]
    exact hc
  have hlba : (u32 (b * fs.sectorsPerBlock) + 0) * 512 = base fs b := rfl
  have hdata : (fun i => data (0 * 512 + i)) = data := by
    funext i
    rw [zero_mul, zero_add]
  simp only [h0, if_false, false_or]
  rw [storeSectors_eq io data _ _ _ _ (lba_last hbs hspb b), hlba, hdata]
  have hle := storedSectors_le io (u32 (b * fs.sectorsPerBlock)) fs.sectorsPerBlock 0
  generalize storedSectors io (u32 (b * fs.sectorsPerBlock)) fs.sectorsPerBlock 0 = stored at hle ⊢
  have hn : stored * 512 ≤ fs.blockSize := by
    omega
  have hstored := block_stored hbs hspb b c.disk data hn
  -- a slot that is not refreshed
  have hkept : ∀ i, (c.cache i).blkNo ≠ 0 →
      (c.held fs i = ({ c.disk with bytes := copy c.disk.bytes (base fs b) data (stored * 512) } : Disk).block fs (c.cache i).blkNo ↔
        (base fs (c.cache i).blkNo = base fs b → ∀ k < stored * 512, data k = c.disk.block fs b k)) := by
    intro i hi
    rw [hc i hi, hstored]
    by_cases hbase : base fs (c.cache i).blkNo = base fs b
    · have hsame : c.disk.block fs (c.cache i).blkNo = c.disk.block fs b := by
        unfold block
        rw [hbase]
      rw [if_pos hbase, hsame, funext_iff]
      refine ⟨fun h _ k hk => ?_, fun h k => ?_⟩
      · rw [h k, if_pos hk]
      · split
        · exact (h hbase k ‹_›).symm
        · rfl
    · rw [if_neg hbase]
      exact ⟨fun _ h => absurd h hbase, fun _ => rfl⟩
  have hplain := forall_congr' fun i => imp_congr_right fun hi => hkept i hi
  by_cases hall : stored = fs.sectorsPerBlock
  swap
  · simp only [hall, decide_false, Bool.false_eq_true, if_false, false_and, false_or]
    exact hplain
  simp only [hall, decide_true, if_true, true_and]
  rw [hall] at hplain hkept hstored
  cases hs : c.slotOf b with
  | none =>
    simp only [reduceCtorEq, false_or]
    exact hplain
  | some j =>
    have hj := slotOf_some hs
    simp only [Option.some.injEq]
    refine forall_congr' fun i => ?_
    by_cases he : j = i
    · -- the refreshed slot
      subst he
      simp only [true_or, implies_true, iff_true]
      intro _
      have hblk : ∀ s, ((c.setSlot j s).cache j).blkNo = s.blkNo := fun s => by simp [setSlot]
      change (c.setSlot j _).held fs j = _
      rw [setSlot_held, update_self, hblk]
      rw [hj, sectors_bytes hbs hspb]
      funext k
      simp only [trunc, copy, block]
      by_cases hk : k < fs.blockSize
      · simp [hk]
      · simp [hk]
    · have hother : (c.setSlot j { c.cache j with data := copy (c.cache j).data 0 data fs.blockSize }).cache i = c.cache i :=
        update_of_ne (Ne.symm he) _ _
      have hheld : (c.setSlot j { c.cache j with data := copy (c.cache j).data 0 data fs.blockSize }).held fs i = c.held fs i := by
        unfold held
        rw [hother]
      simp only [he, false_or]
      change (((c.setSlot j _).cache i).blkNo ≠ 0 → (c.setSlot j _).held fs i = block fs _ ((c.setSlot j _).cache i).blkNo) ↔ _
      rw [hother, hheld]
      exact imp_congr_right fun hi => hkept i hi

/-- **When a call during which sectors fail leaves the cache coherent.** -/
theorem faulty_call_iff (io : Sectors) (hc : c.Current fs) (call : BlockCall) :
    (cachedStep fs io c call).2.ShowsDisk fs ↔ call.LeavesNoCopy fs io c := by
  have hshows : (cachedStep fs io c call).2.ShowsDisk fs ↔ (cachedStep fs io c call).2.Current fs :=
    ⟨And.left, fun h => h.showsDisk hbs hspb⟩
  rw [hshows]
  cases call with
  | read b => exact iff_of_true (cachedReadBlock_current hbs hspb hc io b) trivial
  | write b data => exact cachedWriteBlock_current_iff hbs hspb hc io b data
  | flush => exact iff_of_true (fun i hi => absurd rfl hi) trivial

end

/-- Block 7 of a disk of zeros has been read. -/
def sevenRead : CachedDisk := (cachedReadBlock kilobyteFs ⟨fun _ => true, fun _ => true⟩ ⟨fun _ => ⟨0, 0, zeros⟩, 0, ⟨zeros, zeros⟩⟩ 7).2

theorem sevenRead_current : sevenRead.Current kilobyteFs :=
  cachedReadBlock_current (.inl rfl) rfl (fun _ h => absurd rfl h) _ 7

/-- Its first sector cannot be written: nothing is. -/
theorem faulty_call_first : (cachedStep kilobyteFs ⟨fun _ => true, fun lba => lba != 14⟩ sevenRead (.write 7 fun _ => 1)).2.ShowsDisk kilobyteFs := by
  refine (faulty_call_iff (.inl rfl) rfl ⟨fun _ => true, fun lba => lba != 14⟩ sevenRead_current (.write 7 fun _ => 1)).2 (.inr ?_)
  intro i _ _
  refine .inr fun k hk => ?_
  have hnone : storedSectors ⟨fun _ => true, fun lba => lba != 14⟩ (u32 (7 * kilobyteFs.sectorsPerBlock)) kilobyteFs.sectorsPerBlock 0 = 0 := by
    decide
  omega

/-- Its second sector cannot be written: the first is on the disk, and reads go on returning the old block. -/
theorem faulty_call_second : sevenRead.Current kilobyteFs ∧
    ¬ (cachedStep kilobyteFs ⟨fun _ => true, fun lba => lba != 15⟩ sevenRead (.write 7 fun _ => 1)).2.ShowsDisk kilobyteFs := by
  refine ⟨sevenRead_current, fun hshows => ?_⟩
  have hslot := congrFun (hshows.1 0 (by decide)) 0
  revert hslot
  decide

end PureUnix.Ext2
