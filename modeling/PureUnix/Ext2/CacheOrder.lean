import PureUnix.Lib.Stamps
import PureUnix.Ext2.BlockCache

/-!
# Which slot a miss gives up

The slots of the block cache are stamped with the value of a counter at each use, and a miss gives up the slot with the lowest
stamp. That is the slot of the block read longest ago as long as later stamps are higher. Two things break it. The counter has
32 bits and wraps. And `ext2_block_cache_flush` sets the counter back but leaves the stamps of the slots it empties: a block
read after a flush gets a stamp below those of empty slots, and the next miss takes its slot.
-/
namespace PureUnix.Ext2

open Lib List Nat
open Function

/-- A call during which sectors may fail. -/
def faultyStep (fs : Fs) (c : CachedDisk) (call : Sectors × BlockCall) : BlockAnswer × CachedDisk := cachedStep fs call.1 c call.2

/-- When a block was last asked for, counted in calls; 0 if never. The list has the latest call first. -/
def lastRead : List BlockCall → Nat → Nat
  | [], _ => 0
  | .read b' :: past, b => if b' = b then past.length + 1 else lastRead past b
  | _ :: past, b => lastRead past b

def BlockCall.isRead : BlockCall → Bool
  | .read _ => true
  | _ => false

def BlockCall.isFlush : BlockCall → Bool
  | .flush => true
  | _ => false

/-- The calls of a run, latest first. -/
def history (calls : List (Sectors × BlockCall)) : List BlockCall := (calls.map Prod.snd).reverse

namespace CachedDisk

def stamp (c : CachedDisk) (i : SlotNo) : Nat := (c.cache i).lruSeq

/-- The cache as it is in BSS when the kernel starts. -/
def Booted (c : CachedDisk) : Prop := c.lruSeq = 0 ∧ ∀ i, (c.cache i).blkNo = 0 ∧ c.stamp i = 0

/-- `ext2_read_block` will look for a slot to give up. -/
def Misses (c : CachedDisk) (b : Nat) : Prop := b ≠ 0 ∧ c.slotOf b = none

/-- The next use gets a stamp that is not used: the counter does not wrap, and a flush leaves no stamp at or above the next
one except in the slot that is filled first. -/
def Orderly (c : CachedDisk) (call : Sectors × BlockCall) : Prop :=
  match call.2 with
  | .read _ => c.lruSeq + 1 < 4294967296
  | .write _ _ => True
  | .flush => ∀ i, i ≠ c.victim → c.stamp i = 0 ∨ c.stamp i = 1 ∧ i < c.victim

instance (c : CachedDisk) : ∀ call, Decidable (c.Orderly call)
  | (_, .read _) => inferInstanceAs (Decidable (c.lruSeq + 1 < 4294967296))
  | (_, .write _ _) => isTrue trivial
  | (_, .flush) => inferInstanceAs (Decidable (∀ i, i ≠ c.victim → c.stamp i = 0 ∨ c.stamp i = 1 ∧ i < c.victim))

/-- **Stamps follow the order of use.** -/
structure Ordered (past : List BlockCall) (c : CachedDisk) : Prop where
  /-- A block in a slot was read in the past, at the latest by the last use. -/
  le : ∀ i, (c.cache i).blkNo ≠ 0 → c.stamp i ≤ c.lruSeq
  /-- Of two blocks in slots the one with the lower stamp was read longer ago. -/
  recent : ∀ i j, i ≠ j → (c.cache i).blkNo ≠ 0 → (c.cache j).blkNo ≠ 0 → Before c.stamp i j →
    c.stamp i < c.stamp j ∧ lastRead past (c.cache i).blkNo < lastRead past (c.cache j).blkNo
  /-- Empty slots come before others. -/
  empty : ∀ i j, (c.cache i).blkNo = 0 → (c.cache j).blkNo ≠ 0 → Before c.stamp i j
  /-- They still do when the first of them is filled. -/
  next : ∀ i, (c.cache i).blkNo = 0 → i ≠ c.victim → c.stamp i ≤ c.lruSeq ∨ c.stamp i = c.lruSeq + 1 ∧ i < c.victim

end CachedDisk

theorem lastRead_le : ∀ (past : List BlockCall) (b : Nat), lastRead past b ≤ past.length
  | [], _ => le_refl 0
  | .read b' :: past, b => by
    have := lastRead_le past b
    rw [lastRead, length_cons]
    split <;> omega
  | .write _ _ :: past, b => le_succ_of_le (lastRead_le past b)
  | .flush :: past, b => le_succ_of_le (lastRead_le past b)

theorem lastRead_read_self (past : List BlockCall) (b : Nat) : lastRead (.read b :: past) b = past.length + 1 := if_pos rfl

theorem lastRead_read_ne (past : List BlockCall) {b b' : Nat} (h : b' ≠ b) : lastRead (.read b' :: past) b = lastRead past b := if_neg h

namespace CachedDisk
variable {c c' : CachedDisk} {past : List BlockCall} {i j : SlotNo} {b : Nat} {fs : Fs} {io : Sectors}

theorem victim_before (c : CachedDisk) (h : i ≠ c.victim) : Before c.stamp c.victim i := by
  have hall : ∀ i : SlotNo, i ∈ [0, 1, 2, 3] := by decide
  exact lowest_before (by decide) i (hall i) h

theorem stamp_touch (h : c.lruSeq + 1 < 4294967296) : (c.touch i).stamp = update c.stamp i (c.lruSeq + 1) := by
  rw [← u32_of_lt h]
  exact setSlot_read Slot.lruSeq c i _

theorem lruSeq_touch (h : c.lruSeq + 1 < 4294967296) : (c.touch i).lruSeq = c.lruSeq + 1 := u32_of_lt h

theorem victim_congr (h : c'.stamp = c.stamp) : c'.victim = c.victim := by
  change lowest c'.stamp 0 [1, 2, 3] = lowest c.stamp 0 [1, 2, 3]
  rw [h]

namespace Ordered

section
variable (h : c.Ordered past)
include h

theorem once (hi : (c.cache i).blkNo ≠ 0) (he : (c.cache i).blkNo = (c.cache j).blkNo) : i = j := by
  by_contra hne
  rcases Before.total c.stamp hne with hij | hij
  · have := (h.recent i j hne hi (he ▸ hi) hij).2
    rw [he] at this
    exact lt_irrefl _ this
  · have := (h.recent j i (Ne.symm hne) (he ▸ hi) hi hij).2
    rw [he] at this
    exact lt_irrefl _ this

theorem victim_empty (hi : (c.cache i).blkNo = 0) : (c.cache c.victim).blkNo = 0 := by
  by_contra hv
  have hne : i ≠ c.victim := by
    rintro rfl
    exact hv hi
  exact (h.empty i c.victim hi hv).asymm (c.victim_before hne)

/-- **A slot is used**: it holds the block already, or it is the one given up for it. -/
theorem use (hb : b ≠ 0) (hblk : ∀ j, (c'.cache j).blkNo = if j = i then b else (c.cache j).blkNo)
    (hstamp : c'.stamp = update c.stamp i (c.lruSeq + 1)) (hseq : c'.lruSeq = c.lruSeq + 1)
    (hother : ∀ j, j ≠ i → (c.cache j).blkNo ≠ b) (hi : (c.cache i).blkNo ≠ 0 ∨ i = c.victim) : c'.Ordered (.read b :: past) := by
  have hself : c'.stamp i = c.lruSeq + 1 := by rw [hstamp, update_self]
  have hstamp' : ∀ j, j ≠ i → c'.stamp j = c.stamp j := fun j hj => by rw [hstamp, update_of_ne hj]
  have hblk' : ∀ j, j ≠ i → (c'.cache j).blkNo = (c.cache j).blkNo := fun j hj => by rw [hblk, if_neg hj]
  have hblki : (c'.cache i).blkNo = b := by rw [hblk, if_pos rfl]
  have hbefore : ∀ j k, j ≠ i → k ≠ i → (Before c'.stamp j k ↔ Before c.stamp j k) := by
    intro j k hj hk
    unfold Before
    rw [hstamp' j hj, hstamp' k hk]
  -- an empty slot is below the new stamp
  have hbelow : ∀ j, j ≠ i → (c.cache j).blkNo = 0 → c.stamp j ≤ c.lruSeq ∨ c.stamp j = c.lruSeq + 1 ∧ j < i := by
    intro j hj h0
    rcases hi with hi | rfl
    · exact .inl ((h.empty j i h0 hi).le.trans (h.le i hi))
    · exact h.next j h0 hj
  refine ⟨fun j hj => ?_, fun j k hjk hj hk hjk' => ?_, fun j k hj hk => ?_, fun j hj _ => .inl ?_⟩
  · by_cases he : j = i
    · rw [he, hself, hseq]
    · rw [hblk' j he] at hj
      have := h.le j hj
      rw [hstamp' j he]
      omega
  · by_cases hji : j = i
    · have hki : k ≠ i := fun e => hjk (hji.trans e.symm)
      rw [hblk' k hki] at hk
      have := h.le k hk
      have hlt := hjk'.le
      rw [hji, hstamp' k hki] at hlt
      omega
    · rw [hblk' j hji] at hj
      have hnew : lastRead (.read b :: past) (c'.cache j).blkNo = lastRead past (c.cache j).blkNo := by
        rw [hblk' j hji]
        exact lastRead_read_ne past (hother j hji).symm
      by_cases hki : k = i
      · have := h.le j hj
        have hold := lastRead_le past (c.cache j).blkNo
        rw [hki, hstamp' j hji, hblki, lastRead_read_self]
        omega
      · rw [hblk' k hki] at hk
        rw [hnew, hstamp' j hji, hstamp' k hki, hblk' k hki, lastRead_read_ne past (hother k hki).symm]
        exact h.recent j k hjk hj hk ((hbefore j k hji hki).1 hjk')
  · have hji : j ≠ i := by
      rintro rfl
      exact hb (hblki.symm.trans hj)
    rw [hblk' j hji] at hj
    by_cases hki : k = i
    · unfold Before
      rw [hki, hself, hstamp' j hji]
      exact (hbelow j hji hj).imp lt_succ_of_le id
    · rw [hblk' k hki] at hk
      exact (hbefore j k hji hki).2 (h.empty j k hj hk)
  · have hji : j ≠ i := by
      rintro rfl
      exact hb (hblki.symm.trans hj)
    rw [hblk' j hji] at hj
    rw [hstamp' j hji]
    have := hbelow j hji hj
    omega

/-- The stamps stay. A slot holds what it held, or it is empty; that may be new for the slot to give up. -/
theorem keep {past' : List BlockCall} (hblk : ∀ j, (c'.cache j).blkNo ≠ 0 → (c'.cache j).blkNo = (c.cache j).blkNo)
    (hempty : ∀ j, j ≠ c.victim → (c'.cache j).blkNo = 0 → (c.cache j).blkNo = 0) (hstamp : c'.stamp = c.stamp)
    (hseq : c'.lruSeq = c.lruSeq) (hpast : ∀ j, (c.cache j).blkNo ≠ 0 → lastRead past' (c.cache j).blkNo = lastRead past (c.cache j).blkNo) :
    c'.Ordered past' := by
  refine ⟨fun j hj => ?_, fun j k hjk hj hk hjk' => ?_, fun j k hj hk => ?_, fun j hj hv => ?_⟩
  · rw [hblk j hj] at hj
    rw [hstamp, hseq]
    exact h.le j hj
  · have ej := hblk j hj
    have ek := hblk k hk
    rw [ej] at hj ⊢
    rw [ek] at hk ⊢
    rw [hstamp] at hjk' ⊢
    rw [hpast j hj, hpast k hk]
    exact h.recent j k hjk hj hk hjk'
  · rw [hstamp]
    by_cases he : j = c.victim
    · rw [he] at hj ⊢
      refine c.victim_before ?_
      rintro rfl
      exact hk hj
    · exact h.empty j k (hempty j he hj) (hblk k hk ▸ hk)
  · rw [victim_congr hstamp] at hv ⊢
    rw [hstamp, hseq]
    exact h.next j (hempty j hv hj) hv

end

end Ordered

/-! ## The calls -/

/-- What `ext2_read_block` does to slots and counter. -/
theorem read_cases (fs : Fs) (io : Sectors) (c : CachedDisk) (b : Nat) :
    b = 0 ∧ (cachedReadBlock fs io c b).1 = none ∧ (cachedReadBlock fs io c b).2 = c ∨
    (∃ i, b ≠ 0 ∧ (c.cache i).blkNo = b ∧ (cachedReadBlock fs io c b).2 = c.touch i) ∨
    c.Misses b ∧ ∃ data,
      (cachedReadBlock fs io c b).2 = (c.setSlot c.victim { c.cache c.victim with blkNo := b, data := data }).touch c.victim ∨
      (cachedReadBlock fs io c b).1 = none ∧
        (cachedReadBlock fs io c b).2 = c.setSlot c.victim { c.cache c.victim with blkNo := 0, data := data } := by
  unfold cachedReadBlock
  by_cases h0 : b = 0
  · exact .inl ⟨h0, by rw [if_pos h0], by rw [if_pos h0]⟩
  rw [if_neg h0]
  cases hs : c.slotOf b with
  | some i => exact .inr (.inl ⟨i, h0, slotOf_some hs, rfl⟩)
  | none =>
    refine .inr (.inr ⟨⟨h0, hs⟩,
      (loadSectors io c.disk (u32 (b * fs.sectorsPerBlock)) fs.sectorsPerBlock 0 (c.cache c.victim).data).2, ?_⟩)
    dsimp only
    split
    · exact .inl rfl
    · exact .inr ⟨rfl, rfl⟩

theorem write_keeps (fs : Fs) (io : Sectors) (c : CachedDisk) (b : Nat) (data : Buf) :
    (∀ j, ((cachedWriteBlock fs io c b data).2.cache j).blkNo = (c.cache j).blkNo) ∧
      (cachedWriteBlock fs io c b data).2.stamp = c.stamp ∧ (cachedWriteBlock fs io c b data).2.lruSeq = c.lruSeq := by
  unfold cachedWriteBlock
  split
  · exact ⟨fun _ => rfl, rfl, rfl⟩
  dsimp only
  split
  · split
    · rename_i i _
      exact ⟨congrFun ((setSlot_read Slot.blkNo c i _).trans (update_eq_self i _)), (setSlot_read Slot.lruSeq c i _).trans (update_eq_self i _), rfl⟩
    · exact ⟨fun _ => rfl, rfl, rfl⟩
  · exact ⟨fun _ => rfl, rfl, rfl⟩

theorem blkNo_touch (c : CachedDisk) (i j : SlotNo) : ((c.touch i).cache j).blkNo = (c.cache j).blkNo :=
  congrFun ((setSlot_read Slot.blkNo c i { c.cache i with lruSeq := u32 (c.lruSeq + 1) }).trans (update_eq_self i _)) j

theorem blkNo_setSlot (c : CachedDisk) (i : SlotNo) (s : Slot) (j : SlotNo) :
    ((c.setSlot i s).cache j).blkNo = if j = i then s.blkNo else (c.cache j).blkNo :=
  (congrFun (setSlot_read Slot.blkNo c i s) j).trans (Function.update_apply ..)

/-- A slot is filled or emptied without being used. -/
theorem stamp_refill (c : CachedDisk) (i : SlotNo) (b : Nat) (data : Buf) :
    (c.setSlot i { c.cache i with blkNo := b, data := data }).stamp = c.stamp :=
  (setSlot_read Slot.lruSeq c i _).trans (update_eq_self i _)

/-- **The step**: every call keeps the order. -/
theorem Ordered.step (h : c.Ordered past) (fs : Fs) {call : Sectors × BlockCall} (hcall : c.Orderly call) :
    (faultyStep fs c call).2.Ordered (call.2 :: past) := by
  obtain ⟨io, call⟩ := call
  cases call with
  | read b =>
    have hseq : c.lruSeq + 1 < 4294967296 := hcall
    change (cachedReadBlock fs io c b).2.Ordered _
    rcases read_cases fs io c b with ⟨h0, -, he⟩ | ⟨i, h0, hi, he⟩ | ⟨⟨h0, hnone⟩, data, he | ⟨-, he⟩⟩ <;> rw [he]
    · exact h.keep (fun _ _ => rfl) (fun _ _ hj => hj) rfl rfl fun j hj => lastRead_read_ne past (h0 ▸ hj.symm)
    · refine h.use h0 (fun j => ?_) (stamp_touch hseq) (lruSeq_touch hseq) (fun j hj hjb => ?_) (.inl (hi ▸ h0))
      · rw [blkNo_touch]
        split
        · next hj => rw [hj, hi]
        · rfl
      · exact hj (h.once (hjb ▸ h0) (hjb.trans hi.symm))
    · refine h.use h0 (fun j => ?_) ?_ (lruSeq_touch hseq) (fun j _ => slotOf_none hnone j) (.inr rfl)
      · rw [blkNo_touch, blkNo_setSlot]
      · rw [stamp_touch (show (c.setSlot c.victim _).lruSeq + 1 < 4294967296 from hseq), stamp_refill]
        rfl
    · refine h.keep (fun j hj => ?_) (fun j hv hj => ?_) (stamp_refill c c.victim 0 data) rfl
        fun j _ => lastRead_read_ne past (slotOf_none hnone j).symm
      · rw [blkNo_setSlot] at hj ⊢
        split at hj
        · exact absurd rfl hj
        · next hv => rw [if_neg hv]
      · rwa [blkNo_setSlot, if_neg hv] at hj
  | write b data =>
    obtain ⟨h1, h2, h3⟩ := write_keeps fs io c b data
    exact h.keep (fun j _ => h1 j) (fun j _ hj => h1 j ▸ hj) h2 h3 fun _ _ => rfl
  | flush =>
    refine ⟨fun i hi => absurd rfl hi, fun i j _ hi => absurd rfl hi, fun i j _ hj => absurd rfl hj, fun i _ hi => ?_⟩
    exact (hcall i hi).imp le_of_eq id

/-- **The run.** -/
theorem Ordered.run {calls : List (Sectors × BlockCall)} (h : c.Ordered past) (hcalls : Along (faultyStep fs) Orderly c calls) :
    (runs (faultyStep fs) c calls).2.Ordered (history calls ++ past) := by
  induction calls generalizing c past with
  | nil => exact h
  | cons call calls ih =>
    have hrest := ih (h.step fs hcalls.1) hcalls.2
    simpa [history] using hrest

theorem Booted.ordered (h : c.Booted) : c.Ordered [] := by
  refine ⟨fun i hi => absurd (h.2 i).1 hi, fun i j _ hi => absurd (h.2 i).1 hi, fun i j _ hj => absurd (h.2 j).1 hj, fun i _ _ => .inl ?_⟩
  rw [(h.2 i).2]
  exact zero_le _

/-! ## A block stays for three reads -/

theorem Ordered.older_last (h : c.Ordered past) (hi : (c.cache i).blkNo ≠ 0) (hlast : c.stamp i = c.lruSeq) : older c.stamp i = 3 := by
  have hothers : ∀ j, j ≠ i → Before c.stamp j i := by
    intro j hj
    by_cases h0 : (c.cache j).blkNo = 0
    · exact h.empty j i h0 hi
    refine (Before.total c.stamp hj).resolve_right fun hij => ?_
    have hlt := (h.recent i j (Ne.symm hj) hi h0 hij).1
    have hle := h.le j h0
    omega
  exact succ_injective (older_top hothers)

/-- A call other than a flush leaves a block in its slot that is not the first to go, and a read brings it one place nearer to that. -/
theorem Ordered.stays_step (h : c.Ordered past) (fs : Fs) {io : Sectors} {call : BlockCall} (hcall : c.Orderly (io, call)) (hflush : call.isFlush = false)
    (hi : (c.cache i).blkNo ≠ 0) (holder : call.isRead = true → 0 < older c.stamp i) :
    ((cachedStep fs io c call).2.cache i).blkNo = (c.cache i).blkNo ∧
      older c.stamp i ≤ older (cachedStep fs io c call).2.stamp i + if call.isRead then 1 else 0 := by
  cases call with
  | flush => cases hflush
  | write b data =>
    obtain ⟨h1, h2, -⟩ := write_keeps fs io c b data
    refine ⟨h1 i, ?_⟩
    change older c.stamp i ≤ older (cachedWriteBlock fs io c b data).2.stamp i
    rw [h2]
  | read b =>
    have hseq : c.lruSeq + 1 < 4294967296 := hcall
    have hv := ne_of_older (holder rfl) fun j hj => c.victim_before hj
    change ((cachedReadBlock fs io c b).2.cache i).blkNo = _ ∧ _ ≤ older (cachedReadBlock fs io c b).2.stamp i + 1
    rcases read_cases fs io c b with ⟨-, -, he⟩ | ⟨j, -, -, he⟩ | ⟨-, data, he | ⟨-, he⟩⟩ <;> rw [he]
    · exact ⟨rfl, le_succ _⟩
    · rw [blkNo_touch, stamp_touch hseq]
      refine ⟨rfl, ?_⟩
      by_cases hj : j = i
      · subst hj
        exact le_succ_of_le (older_raise (le_succ_of_le (h.le j hi)))
      · exact older_update c.stamp (c.lruSeq + 1) hj
    · rw [blkNo_touch, blkNo_setSlot, if_neg hv.symm, stamp_touch (show (c.setSlot c.victim _).lruSeq + 1 < 4294967296 from hseq), stamp_refill]
      exact ⟨rfl, older_update c.stamp _ hv⟩
    · rw [blkNo_setSlot, if_neg hv.symm, stamp_refill]
      exact ⟨rfl, le_succ _⟩

/-- A block stays in its slot for as many reads as there are slots to go before it. -/
theorem Ordered.stays {more : List (Sectors × BlockCall)} (h : c.Ordered past) (hmore : Along (faultyStep fs) Orderly c more)
    (hflush : ∀ call ∈ more, call.2.isFlush = false) (hi : (c.cache i).blkNo ≠ 0)
    (hreads : (more.countP fun call => call.2.isRead) ≤ older c.stamp i) :
    ((runs (faultyStep fs) c more).2.cache i).blkNo = (c.cache i).blkNo := by
  induction more generalizing c past with
  | nil => rfl
  | cons call more ih =>
    obtain ⟨io, call⟩ := call
    rw [countP_cons] at hreads
    obtain ⟨hsame, holder⟩ := h.stays_step fs hmore.1 (hflush (io, call) mem_cons_self) hi fun hread => by
      simp only [hread, if_true] at hreads
      omega
    have hrest := ih (h.step fs hmore.1) hmore.2 (fun call hc => hflush call (mem_cons_of_mem _ hc)) (by
      change ((cachedStep fs io c call).2.cache i).blkNo ≠ 0
      rw [hsame]
      exact hi) (by
      change _ ≤ older (cachedStep fs io c call).2.stamp i
      dsimp only at hreads
      omega)
    exact hrest.trans hsame

/-! ## Least recently used -/

/-- A miss changes one slot: an empty one if there is one, else the one whose block was read longest ago. -/
def GivesUpOldest (fs : Fs) (past : List BlockCall) (c : CachedDisk) : Prop :=
  ∀ io b, c.Misses b → ∃ v, (∀ i, i ≠ v → (cachedReadBlock fs io c b).2.cache i = c.cache i) ∧
    ((∃ i, (c.cache i).blkNo = 0) → (c.cache v).blkNo = 0) ∧
    ((∀ i, (c.cache i).blkNo ≠ 0) → ∀ i, i ≠ v → lastRead past (c.cache v).blkNo < lastRead past (c.cache i).blkNo)

/-- A block just read is still there after three more reads, with any writes between them. -/
def KeepsThree (fs : Fs) (c : CachedDisk) : Prop :=
  ∀ io b, (cachedReadBlock fs io c b).1.isSome = true → c.Orderly (io, .read b) →
    ∀ more, Along (faultyStep fs) Orderly (cachedReadBlock fs io c b).2 more → (∀ call ∈ more, call.2.isFlush = false) →
      (more.countP fun call => call.2.isRead) ≤ 3 → ∃ i, ((runs (faultyStep fs) (cachedReadBlock fs io c b).2 more).2.cache i).blkNo = b

theorem Ordered.givesUpOldest (h : c.Ordered past) : c.GivesUpOldest fs past := by
  intro io b hmiss
  refine ⟨c.victim, fun i hi => ?_, fun ⟨i, hi⟩ => h.victim_empty hi, fun hfull i hi => ?_⟩
  · rcases read_cases fs io c b with ⟨h0, -⟩ | ⟨j, -, hj, -⟩ | ⟨-, data, he | ⟨-, he⟩⟩
    · exact absurd h0 hmiss.1
    · exact absurd hj (slotOf_none hmiss.2 j)
    · rw [he]
      simp [touch, setSlot, update_of_ne hi]
    · rw [he]
      simp [setSlot, update_of_ne hi]
  · exact (h.recent c.victim i hi.symm (hfull _) (hfull _) (c.victim_before hi)).2

theorem Ordered.keepsThree (h : c.Ordered past) : c.KeepsThree fs := by
  intro io b hsome hcall more hmore hflush hreads
  have hseq : c.lruSeq + 1 < 4294967296 := hcall
  have hread := h.step fs hcall
  -- the block is in the slot used last
  have hlast : ∃ i, b ≠ 0 ∧ ((cachedReadBlock fs io c b).2.cache i).blkNo = b ∧
      (cachedReadBlock fs io c b).2.stamp i = (cachedReadBlock fs io c b).2.lruSeq := by
    rcases read_cases fs io c b with ⟨-, hnone, -⟩ | ⟨i, h0, hi, he⟩ | ⟨⟨h0, -⟩, data, he | ⟨hnone, -⟩⟩
    · rw [hnone] at hsome
      cases hsome
    · refine ⟨i, h0, ?_, ?_⟩
      · rw [he, blkNo_touch, hi]
      · rw [he, stamp_touch hseq, update_self, lruSeq_touch hseq]
    · refine ⟨c.victim, h0, ?_, ?_⟩
      · rw [he, blkNo_touch, blkNo_setSlot, if_pos rfl]
      · rw [he, stamp_touch (show (c.setSlot c.victim _).lruSeq + 1 < 4294967296 from hseq), update_self]
        exact (lruSeq_touch (show (c.setSlot c.victim _).lruSeq + 1 < 4294967296 from hseq)).symm
    · rw [hnone] at hsome
      cases hsome
  obtain ⟨i, h0, hi, hstamp⟩ := hlast
  have holder := hread.older_last (hi.symm ▸ h0) hstamp
  exact ⟨i, (hread.stays hmore hflush (hi.symm ▸ h0) (by omega)).trans hi⟩

end CachedDisk

/-- **Eviction follows the order of use** on every run of calls whose next stamps are fresh. -/
theorem least_recently_used (fs : Fs) {start : CachedDisk} (hboot : start.Booted) {calls : List (Sectors × BlockCall)}
    (hcalls : Along (faultyStep fs) CachedDisk.Orderly start calls) :
    (runs (faultyStep fs) start calls).2.GivesUpOldest fs (history calls) ∧ (runs (faultyStep fs) start calls).2.KeepsThree fs := by
  have h := hboot.ordered.run hcalls
  rw [append_nil] at h
  exact ⟨h.givesUpOldest, h.keepsThree⟩

/-- The cache at boot, over a disk of zeros. -/
def bootCache : CachedDisk := ⟨fun _ => ⟨0, 0, zeros⟩, 0, ⟨zeros, zeros⟩⟩

theorem bootCache_booted : bootCache.Booted := ⟨rfl, fun _ => ⟨rfl, rfl⟩⟩

/-- A flush at mount, then five reads. -/
theorem least_recently_used_five :
    let calls := (BlockCall.flush :: [5, 6, 7, 8, 5].map BlockCall.read).map fun call => (goodSectors, call)
    (runs (faultyStep kilobyteFs) bootCache calls).2.GivesUpOldest kilobyteFs (history calls) := by
  intro calls
  have horderly : Along (faultyStep kilobyteFs) CachedDisk.Orderly bootCache calls := by decide
  exact (least_recently_used kilobyteFs bootCache_booted horderly).1

/-- Four blocks are read and flushed. Block 5 is read into an empty slot, and the next miss takes that slot again. -/
theorem flush_loses_order :
    let calls := ([1, 2, 3, 4].map BlockCall.read ++ [BlockCall.flush, BlockCall.read 5]).map fun call => (goodSectors, call)
    ¬ (runs (faultyStep kilobyteFs) bootCache calls).2.GivesUpOldest kilobyteFs (history calls) := by
  intro calls hall
  obtain ⟨v, hother, hempty, -⟩ := hall goodSectors 6 ⟨by decide, by decide⟩
  have hv : v = 0 := by
    by_contra hne
    have := congrArg Slot.blkNo (hother 0 (Ne.symm hne))
    revert this
    decide
  subst hv
  have := hempty ⟨1, by decide⟩
  revert this
  decide

end PureUnix.Ext2
