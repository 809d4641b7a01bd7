import Mathlib.Data.List.FinRange
import PureUnix.Lib.Machine
import PureUnix.Lib.Slots
import PureUnix.Ext2.Geometry

/-!
# The block cache (`fs/ext2/block.c`)

Four slots, each with the number of the block it holds (0 when it is empty), the time of its last use and a copy of
the block. `ext2_read_block` answers from a slot or loads the block into the slot used longest ago; `ext2_write_block`
writes through and refreshes a copy in place. `Dev.step` of `Device.lean` reads and writes the disk directly; with
every sector access succeeding the two cannot be told apart (`cache_transparent`), which is what the rest of the driver's
model rests on.

The counter of uses has 32 bits and wraps. It only picks the slot to give up, so nothing below depends on it.
-/
namespace PureUnix.Ext2

open Lib Nat
open Function

/-- `EXT2_BLOCK_CACHE_SLOTS`. -/
abbrev SlotNo := Fin 4

/-- `block_cache_slot_t`. -/
structure Slot where
  /-- 0 = empty slot -/
  blkNo : Nat
  lruSeq : Nat
  data : Buf

/-- `g_cache`, `g_lru_seq` and the disk under them. -/
structure CachedDisk where
  cache : SlotNo → Slot
  lruSeq : Nat
  disk : Disk

/-- Which sectors the device reads and writes without an error. -/
structure Sectors where
  readOk : Nat → Bool
  writeOk : Nat → Bool

def goodSectors : Sectors := ⟨fun _ => true, fun _ => true⟩

theorem goodSectors_ok (lba : Nat) : goodSectors.readOk lba = true ∧ goodSectors.writeOk lba = true := ⟨rfl, rfl⟩

namespace CachedDisk

/-- `ext2_block_cache_flush` (block.c:34). -/
def flush (c : CachedDisk) : CachedDisk :=
  { c with cache := fun i => { c.cache i with blkNo := 0 }, lruSeq := 0 }

/-- The first slot that holds the block. -/
def slotOf (c : CachedDisk) (blkNo : Nat) : Option SlotNo :=
  (List.finRange 4).find? fun i => (c.cache i).blkNo = blkNo

/-- The first of the slots with the lowest `lru_seq`. -/
def victim (c : CachedDisk) : SlotNo :=
  ([1, 2, 3] : List SlotNo).foldl (fun v i => if (c.cache i).lruSeq < (c.cache v).lruSeq then i else v) 0

def setSlot (c : CachedDisk) (i : SlotNo) (s : Slot) : CachedDisk :=
  { c with cache := update c.cache i s }

/-- Slot `i` becomes the last one used. -/
def touch (c : CachedDisk) (i : SlotNo) : CachedDisk :=
  { c.setSlot i { c.cache i with lruSeq := u32 (c.lruSeq + 1) } with lruSeq := u32 (c.lruSeq + 1) }

end CachedDisk

/-- The sector loop of `ext2_read_block`: `n` sectors to go from sector `s`; whether all could be read, and the buffer. -/
def loadSectors (io : Sectors) (d : Disk) (lba : Nat) : Nat → Nat → Buf → Bool × Buf
  | 0, _, data => (true, data)
  | n + 1, s, data =>
    if io.readOk (u32 (lba + s)) then loadSectors io d lba n (s + 1) (copy data (s * 512) (d.sector (u32 (lba + s))) 512)
    else (false, data)

/-- The sector loop of `ext2_write_block`. -/
def storeSectors (io : Sectors) (data : Buf) (lba : Nat) : Nat → Nat → Disk → Bool × Disk
  | 0, _, d => (true, d)
  | n + 1, s, d =>
    if io.writeOk (u32 (lba + s)) then
      storeSectors io data lba n (s + 1) (d.setSector (u32 (lba + s)) fun i => data (s * 512 + i))
    else (false, d)

/-- `ext2_read_block` (block.c:41): the `block_size` bytes behind the pointer it returns, or `NULL`. -/
def cachedReadBlock (fs : Fs) (io : Sectors) (c : CachedDisk) (blkNo : Nat) : Option Buf × CachedDisk :=
  if blkNo = 0 then (none, c)
  else
    match c.slotOf blkNo with
    | some i => (some (trunc fs.blockSize (c.cache i).data), c.touch i)
    | none =>
      let v := c.victim
      let r := loadSectors io c.disk (u32 (blkNo * fs.sectorsPerBlock)) fs.sectorsPerBlock 0 (c.cache v).data
      if r.1 then
        (some (trunc fs.blockSize r.2), (c.setSlot v { c.cache v with blkNo := blkNo, data := r.2 }).touch v)
      else
        -- invalidate slot on error
        (none, c.setSlot v { c.cache v with blkNo := 0, data := r.2 })

/-- `ext2_write_block` (block.c:82); `true` stands for a return value of 0. -/
def cachedWriteBlock (fs : Fs) (io : Sectors) (c : CachedDisk) (blkNo : Nat) (data : Buf) : Bool × CachedDisk :=
  if blkNo = 0 then (false, c)
  else
    let r := storeSectors io data (u32 (blkNo * fs.sectorsPerBlock)) fs.sectorsPerBlock 0 c.disk
    if r.1 then
      match c.slotOf blkNo with
      | some i =>
        (true, { c.setSlot i { c.cache i with data := copy (c.cache i).data 0 data fs.blockSize } with disk := r.2 })
      | none => (true, { c with disk := r.2 })
    else (false, { c with disk := r.2 })

/-! ## Sequences of calls -/

inductive BlockCall where
  | read (blkNo : Nat)
  | write (blkNo : Nat) (data : Buf)
  | flush

inductive BlockAnswer where
  | block (b : Option Buf)
  | status (ok : Bool)
  | unit

def cachedStep (fs : Fs) (io : Sectors) (c : CachedDisk) : BlockCall → BlockAnswer × CachedDisk
  | .read b => (.block (cachedReadBlock fs io c b).1, (cachedReadBlock fs io c b).2)
  | .write b data => (.status (cachedWriteBlock fs io c b data).1, (cachedWriteBlock fs io c b data).2)
  | .flush => (.unit, c.flush)

/-- The same call on the disk itself. -/
def directStep (fs : Fs) (d : Disk) : BlockCall → BlockAnswer × Disk
  | .read b => (.block (Dev.step fs (.readBlock b) d).1, (Dev.step fs (.readBlock b) d).2)
  | .write b data => (.status (Dev.step fs (.writeBlock b data) d).1, (Dev.step fs (.writeBlock b data) d).2)
  | .flush => (.unit, d)

/-! ## Whole blocks -/

/-- A block number whose sector numbers do not wrap. -/
def InRange (fs : Fs) (blkNo : Nat) : Prop := blkNo * fs.sectorsPerBlock < 4294967296

instance (fs : Fs) (blkNo : Nat) : Decidable (InRange fs blkNo) := inferInstanceAs (Decidable (_ < _))

section
variable {fs : Fs} {io : Sectors} {d : Disk} {b b' : Nat} (hbs : fs.blockSize = 1024 ∨ fs.blockSize = 2048 ∨ fs.blockSize = 4096)
  (hspb : fs.sectorsPerBlock = fs.blockSize / 512)

/-- Sectors that `ext2_write_block` stores before one fails, `n` to go from sector `s`. -/
def storedSectors (io : Sectors) (lba : Nat) : Nat → Nat → Nat
  | 0, _ => 0
  | n + 1, s => if io.writeOk (u32 (lba + s)) then storedSectors io lba n (s + 1) + 1 else 0

/-- The write loop stores a front part of the data and reports whether that was all. -/
theorem storeSectors_eq (io : Sectors) (data : Buf) (lba : Nat) : ∀ (n s : Nat) (d : Disk), lba + s + n ≤ 4294967296 →
    storeSectors io data lba n s d = (decide (storedSectors io lba n s = n),
      { d with bytes := copy d.bytes ((lba + s) * 512) (fun i => data (s * 512 + i)) (storedSectors io lba n s * 512) })
  | 0, s, d, _ => by
    rw [storedSectors, copy_zero]
    rfl
  | n + 1, s, d, h => by
    rw [storeSectors, storedSectors]
    split
    · rw [u32_of_lt (by omega), storeSectors_eq io data lba n (s + 1) _ (by omega)]
      have hnext : (fun i => data ((s + 1) * 512 + i)) = fun i => data (s * 512 + (512 + i)) := by
        funext i
        exact congrArg data (by omega)
      simp only [Disk.setSector, add_right_cancel_iff]
      rw [hnext, show (lba + (s + 1)) * 512 = (lba + s) * 512 + 512 by omega,
        show (storedSectors io lba n (s + 1) + 1) * 512 = 512 + storedSectors io lba n (s + 1) * 512 by omega,
        copy_copy d.bytes (fun i => data (s * 512 + i))]
    · rw [copy_zero, decide_eq_false (by omega)]

theorem loadSectors_true {io : Sectors} {d : Disk} {lba : Nat} : ∀ {n s : Nat} {data data' : Buf}, lba + s + n ≤ 4294967296 →
    loadSectors io d lba n s data = (true, data') →
    data' = copy data (s * 512) (fun i => d.bytes ((lba + s) * 512 + i)) (n * 512)
  | 0, s, data, data', _, h => by
    rw [copy_zero]
    exact (Prod.mk.inj h).2.symm
  | n + 1, s, data, data', hle, h => by
    rw [loadSectors, u32_of_lt (by omega)] at h
    split at h
    · rw [loadSectors_true (by omega) h, show (s + 1) * 512 = s * 512 + 512 by omega]
      exact d.copy_sector ..
    · cases h

theorem loadSectors_ok (hio : ∀ lba, io.readOk lba = true) (lba : Nat) : ∀ (n s : Nat) (data : Buf), (loadSectors io d lba n s data).1 = true
  | 0, _, _ => rfl
  | n + 1, s, data => by
    rw [loadSectors, if_pos (hio _)]
    exact loadSectors_ok hio lba n (s + 1) _

theorem storedSectors_all (hio : ∀ lba, io.writeOk lba = true) (lba : Nat) : ∀ n s, storedSectors io lba n s = n
  | 0, _ => rfl
  | n + 1, s => by rw [storedSectors, if_pos (hio _), storedSectors_all hio lba n]

include hbs hspb

theorem sectors_bytes : fs.sectorsPerBlock * 512 = fs.blockSize := by
  rw [hspb]
  rcases hbs with e | e | e <;> rw [e]

theorem InRange.base (h : InRange fs b) : Disk.base fs b = b * fs.blockSize := by
  rw [Disk.base, u32_of_lt h, mul_assoc, sectors_bytes hbs hspb]

theorem InRange.block_ne (h : InRange fs b) (h' : InRange fs b') (hne : b ≠ b') (data : Buf) :
    (d.setBlock fs b data).block fs b' = d.block fs b' := by
  apply trunc_congr
  intro i _ hi
  simp only [Disk.setBlock, copy]
  rw [h.base hbs hspb, h'.base hbs hspb, if_neg]
  have := mul_far hne fs.blockSize
  omega

theorem lba_last (b : Nat) : u32 (b * fs.sectorsPerBlock) + fs.sectorsPerBlock ≤ 4294967296 := by
  unfold u32
  rcases hbs with e | e | e <;> rw [hspb, e] <;> omega

theorem load_true {d : Disk} {data data' : Buf}
    (h : loadSectors io d (u32 (b * fs.sectorsPerBlock)) fs.sectorsPerBlock 0 data = (true, data')) :
    trunc fs.blockSize data' = d.block fs b := by
  rw [loadSectors_true (lba_last hbs hspb b) h]
  apply trunc_congr
  intro i _ hi
  simp only [copy, sectors_bytes hbs hspb]
  rw [if_pos (by omega), Disk.base]
  exact congrArg d.bytes (by omega)

theorem load_block (hio : ∀ lba, io.readOk lba = true) (b : Nat) (data : Buf) :
    ∃ data', loadSectors io d (u32 (b * fs.sectorsPerBlock)) fs.sectorsPerBlock 0 data = (true, data') ∧
      trunc fs.blockSize data' = d.block fs b := by
  have hload : loadSectors io d (u32 (b * fs.sectorsPerBlock)) fs.sectorsPerBlock 0 data = (true, _) := Prod.ext (loadSectors_ok hio ..) rfl
  exact ⟨_, hload, load_true hbs hspb hload⟩

theorem store_block (hio : ∀ lba, io.writeOk lba = true) (data : Buf) :
    storeSectors io data (u32 (b * fs.sectorsPerBlock)) fs.sectorsPerBlock 0 d = (true, d.setBlock fs b data) := by
  rw [storeSectors_eq _ _ _ _ _ _ (lba_last hbs hspb b), storedSectors_all hio, sectors_bytes hbs hspb]
  simp only [add_zero, zero_mul, zero_add]
  rfl

end

/-! ## Coherence -/

namespace CachedDisk

/-- The block a slot holds. -/
def label (c : CachedDisk) (i : SlotNo) : Option Nat := if (c.cache i).blkNo = 0 then none else some (c.cache i).blkNo

/-- The copy in a slot. -/
def held (fs : Fs) (c : CachedDisk) (i : SlotNo) : Buf := trunc fs.blockSize (c.cache i).data

/-- **The state of the cache**: non-empty slots hold different blocks, each a copy of what is on disk. -/
structure Sound (fs : Fs) (c : CachedDisk) : Prop where
  distinct : ∀ i j, (c.cache i).blkNo ≠ 0 → (c.cache i).blkNo = (c.cache j).blkNo → i = j
  current : ∀ i, (c.cache i).blkNo ≠ 0 → c.held fs i = c.disk.block fs (c.cache i).blkNo

section
variable {fs : Fs} {c : CachedDisk} {i : SlotNo} {b : Nat}

theorem label_eq_some : c.label i = some b ↔ (c.cache i).blkNo = b ∧ b ≠ 0 := by
  unfold label
  split
  · rename_i h
    rw [h]
    simp only [reduceCtorEq, false_iff, not_and, not_not]
    exact fun e => e.symm
  · rename_i h
    rw [Option.some.injEq]
    refine ⟨fun e => ⟨e, e ▸ h⟩, And.left⟩

theorem sound_iff : c.Sound fs ↔ Coherent (c.disk.block fs) c.label (c.held fs) := by
  constructor
  · rintro ⟨h1, h2⟩
    refine ⟨fun i j k hi hj => ?_, fun i k hi => ?_⟩
    · obtain ⟨rfl, h0⟩ := label_eq_some.1 hi
      exact h1 i j h0 (label_eq_some.1 hj).1.symm
    · obtain ⟨rfl, h0⟩ := label_eq_some.1 hi
      exact h2 i h0
  · rintro ⟨h1, h2⟩
    refine ⟨fun i j h0 he => ?_, fun i h0 => ?_⟩
    · exact h1 i j _ (label_eq_some.2 ⟨rfl, h0⟩) (label_eq_some.2 ⟨he.symm, h0⟩)
    · exact h2 i _ (label_eq_some.2 ⟨rfl, h0⟩)

theorem slotOf_some (h : c.slotOf b = some i) : (c.cache i).blkNo = b := by
  simpa using List.find?_some h

theorem slotOf_none (h : c.slotOf b = none) (i : SlotNo) : (c.cache i).blkNo ≠ b := by
  simpa using List.find?_eq_none.1 h i (List.mem_finRange i)

theorem slotOf_label (h : c.slotOf b = some i) (h0 : b ≠ 0) : c.label i = some b := label_eq_some.2 ⟨slotOf_some h, h0⟩

theorem slotOf_unlabelled (h : c.slotOf b = none) (i : SlotNo) : c.label i ≠ some b :=
  fun hi => slotOf_none h i (label_eq_some.1 hi).1

@[simp] theorem touch_disk : (c.touch i).disk = c.disk := rfl

/-- What is read off the slots when one of them is set. -/
theorem setSlot_read {α : Type} (g : Slot → α) (c : CachedDisk) (i : SlotNo) (s : Slot) :
    (fun j => g ((c.setSlot i s).cache j)) = update (fun j => g (c.cache j)) i (g s) :=
  funext (apply_update (fun _ => g) c.cache i s)

theorem setSlot_label (s : Slot) : (c.setSlot i s).label = update c.label i (if s.blkNo = 0 then none else some s.blkNo) :=
  setSlot_read (fun s => if s.blkNo = 0 then none else some s.blkNo) c i s

theorem setSlot_held (s : Slot) : (c.setSlot i s).held fs = update (c.held fs) i (trunc fs.blockSize s.data) :=
  setSlot_read (fun s => trunc fs.blockSize s.data) c i s

@[simp] theorem touch_label : (c.touch i).label = c.label := (setSlot_label _).trans (update_eq_self i c.label)

@[simp] theorem touch_held : (c.touch i).held fs = c.held fs := (setSlot_held _).trans (update_eq_self i (c.held fs))

end
end CachedDisk

/-! ## The cache is transparent -/

/-- The block number of a call, if it has one, is in range. -/
def BlockCall.InRange (fs : Fs) : BlockCall → Prop
  | .read b => Ext2.InRange fs b
  | .write b _ => Ext2.InRange fs b
  | .flush => True

/-- A sound cache of blocks in range. -/
structure CachedDisk.Inv (fs : Fs) (c : CachedDisk) : Prop where
  sound : c.Sound fs
  range : ∀ i b, c.label i = some b → InRange fs b

theorem CachedDisk.Inv.of_empty {fs : Fs} {c : CachedDisk} (h : ∀ i, (c.cache i).blkNo = 0) : c.Inv fs := by
  have hlabel : ∀ i, c.label i = none := fun i => if_pos (h i)
  refine ⟨CachedDisk.sound_iff.2 (Coherent.of_empty hlabel), fun i b hi => ?_⟩
  rw [hlabel i] at hi
  cases hi

section
variable {fs : Fs} {io : Sectors} {c : CachedDisk} {b : Nat} (hbs : fs.blockSize = 1024 ∨ fs.blockSize = 2048 ∨ fs.blockSize = 4096)
  (hspb : fs.sectorsPerBlock = fs.blockSize / 512) (hio : ∀ lba, io.readOk lba = true ∧ io.writeOk lba = true)
include hbs hspb hio

/-- **`ext2_read_block`** through the cache. -/
theorem cachedReadBlock_spec (inv : c.Inv fs) (hb : InRange fs b) :
    (cachedReadBlock fs io c b).1 = (if b = 0 then none else some (c.disk.block fs b)) ∧
      (cachedReadBlock fs io c b).2.disk = c.disk ∧ (cachedReadBlock fs io c b).2.Inv fs := by
  have hcoh := CachedDisk.sound_iff.1 inv.sound
  unfold cachedReadBlock
  by_cases h0 : b = 0
  · rw [if_pos h0, if_pos h0]
    exact ⟨rfl, rfl, inv⟩
  rw [if_neg h0, if_neg h0]
  cases hs : c.slotOf b with
  | some i =>
    -- a hit: only the time of the last use changes
    have hl := CachedDisk.slotOf_label hs h0
    refine ⟨congrArg some (hcoh.copy i b hl), rfl, CachedDisk.sound_iff.2 ?_, ?_⟩
    · simpa only [CachedDisk.touch_disk, CachedDisk.touch_label, CachedDisk.touch_held] using hcoh
    · simpa only [CachedDisk.touch_label] using inv.range
  | none =>
    -- a miss: no slot has the block, and the slot given up is filled from disk
    have hnew := CachedDisk.slotOf_unlabelled hs
    obtain ⟨data, hload, hdata⟩ := load_block (d := c.disk) hbs hspb (fun lba => (hio lba).1) b (c.cache c.victim).data
    simp only [hload, if_true]
    refine ⟨congrArg some hdata, rfl, CachedDisk.sound_iff.2 ?_, ?_⟩
    · rw [CachedDisk.touch_label, CachedDisk.touch_held, CachedDisk.setSlot_label, CachedDisk.setSlot_held]
      simp only [if_neg h0, hdata]
      exact hcoh.fill hnew
    · intro j b' hj
      rw [CachedDisk.touch_label, CachedDisk.setSlot_label] at hj
      simp only [if_neg h0] at hj
      by_cases e : j = c.victim
      · rw [e, update_self, Option.some.injEq] at hj
        exact hj ▸ hb
      · rw [update_of_ne e] at hj
        exact inv.range j b' hj

/-- **`ext2_write_block`** through the cache. -/
theorem cachedWriteBlock_spec (inv : c.Inv fs) (hb : InRange fs b) (data : Buf) :
    (cachedWriteBlock fs io c b data).1 = (Dev.step fs (.writeBlock b data) c.disk).1 ∧
      (cachedWriteBlock fs io c b data).2.disk = (Dev.step fs (.writeBlock b data) c.disk).2 ∧
      (cachedWriteBlock fs io c b data).2.Inv fs := by
  have hcoh := CachedDisk.sound_iff.1 inv.sound
  unfold cachedWriteBlock
  simp only [Dev.step]
  by_cases h0 : b = 0
  · rw [if_pos h0, if_pos h0]
    exact ⟨rfl, rfl, inv⟩
  rw [if_neg h0, if_neg h0, store_block hbs hspb (fun lba => (hio lba).2)]
  have hother : ∀ j l, c.label j = some l → l ≠ b → (c.disk.setBlock fs b data).block fs l = c.disk.block fs l :=
    fun j l hj hl => hb.block_ne hbs hspb (inv.range j l hj) (Ne.symm hl) data
  cases hs : c.slotOf b with
  | some i =>
    -- the copy is refreshed in place; no other slot holds the block
    have hl := CachedDisk.slotOf_label hs h0
    have hcopy : trunc fs.blockSize (copy (c.cache i).data 0 data fs.blockSize) = (c.disk.setBlock fs b data).block fs b := by
      rw [Disk.block_setBlock_self]
      apply trunc_congr
      intro k _ hk
      simp only [copy]
      rw [if_pos (by omega)]
      rfl
    have hlabel : (c.setSlot i { c.cache i with data := copy (c.cache i).data 0 data fs.blockSize }).label = c.label := by
      rw [CachedDisk.setSlot_label]
      exact update_eq_self i c.label
    refine ⟨rfl, rfl, CachedDisk.sound_iff.2 ?_, ?_⟩
    · change Coherent ((c.disk.setBlock fs b data).block fs) (c.setSlot i _).label ((c.setSlot i _).held fs)
      rw [hlabel, CachedDisk.setSlot_held]
      simp only [hcopy]
      exact hcoh.refresh hl hother
    · intro j b' hj
      change (c.setSlot i _).label j = some b' at hj
      rw [hlabel] at hj
      exact inv.range j b' hj
  | none => exact ⟨rfl, rfl, CachedDisk.sound_iff.2 (hcoh.skip (CachedDisk.slotOf_unlabelled hs) hother), inv.range⟩

theorem cachedStep_refines (inv : c.Inv fs) {call : BlockCall} (hcall : call.InRange fs) : (cachedStep fs io c call).2.Inv fs ∧
      directStep fs c.disk call = ((cachedStep fs io c call).1, (cachedStep fs io c call).2.disk) := by
  cases call with
  | read b =>
    obtain ⟨h1, h2, h3⟩ := cachedReadBlock_spec hbs hspb hio inv hcall
    exact ⟨h3, Prod.ext (congrArg BlockAnswer.block h1.symm) h2.symm⟩
  | write b data =>
    obtain ⟨h1, h2, h3⟩ := cachedWriteBlock_spec hbs hspb hio inv hcall data
    refine ⟨h3, ?_⟩
    simp only [directStep, cachedStep, h1, h2]
  | flush => exact ⟨CachedDisk.Inv.of_empty fun _ => rfl, rfl⟩

end

/-- **The block cache is transparent.** From an empty cache, with every sector readable and writable, any calls on blocks
whose sector numbers do not wrap are answered as the disk itself would answer them and leave the disk as the same calls
on the disk itself would; and the cache is then sound. -/
theorem cache_transparent {fs : Fs} (hbs : fs.blockSize = 1024 ∨ fs.blockSize = 2048 ∨ fs.blockSize = 4096)
    (hspb : fs.sectorsPerBlock = fs.blockSize / 512) {io : Sectors} (hio : ∀ lba, io.readOk lba = true ∧ io.writeOk lba = true)
    (c : CachedDisk) (hempty : ∀ i, (c.cache i).blkNo = 0) (calls : List BlockCall) (hcalls : ∀ call ∈ calls, call.InRange fs) :
    runs (directStep fs) c.disk calls = ((runs (cachedStep fs io) c calls).1, (runs (cachedStep fs io) c calls).2.disk) ∧
      (runs (cachedStep fs io) c calls).2.Sound fs := by
  have hstep : ∀ (c : CachedDisk) (call : BlockCall), c.Inv fs → call.InRange fs → (cachedStep fs io c call).2.Inv fs ∧
      directStep fs c.disk call = ((cachedStep fs io c call).1, (cachedStep fs io c call).2.disk) :=
    fun c call inv hcall => cachedStep_refines hbs hspb hio inv hcall
  have h := runs_refine hstep (CachedDisk.Inv.of_empty hempty) (along_of_forall hcalls c.disk)
  exact ⟨h.2, h.1.sound⟩

def kilobyteFs : Fs := ⟨true, 1024, 2, 32, 8192, 128, 1, 1, 32, 64, 2, 1⟩

/-- Two reads around a write of the same block. -/
theorem cache_transparent_reread :
    (runs (cachedStep kilobyteFs ⟨fun _ => true, fun _ => true⟩) ⟨fun _ => ⟨0, 0, zeros⟩, 0, ⟨zeros, zeros⟩⟩
      [.read 7, .write 7 (fun _ => 1), .read 7]).2.Sound kilobyteFs := by
  have hcalls : ∀ call ∈ [.read 7, .write 7 (fun _ => 1), .read 7], BlockCall.InRange kilobyteFs call := by
    have h7 : InRange kilobyteFs 7 := by decide
    simp [BlockCall.InRange, h7]
  exact (cache_transparent (.inl rfl) rfl (fun _ => ⟨rfl, rfl⟩) _ (fun _ => rfl) _ hcalls).2

end PureUnix.Ext2
