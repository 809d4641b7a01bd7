import PureUnix.Lib.FirstFit
import PureUnix.Lib.Machine
import PureUnix.Kernel.Image

/-!
# Physical frames (`kernel/pmm.c`)

One bit for each of the 32768 frames below 128 MiB, set when the frame is taken, and a counter of the clear bits.
`pmm_init` sets all bits, clears those of the usable regions the boot loader reports, and sets again those of low
memory, the kernel and the bitmap. The bitmap is an array of 32-bit words; bit `f % 32` of word `f / 32` is bit
`f % 8` of byte `f / 8`.

The boot loader's tables are read from memory. A table with entries of size 0 keeps the kernel in its loop, so the
readers have fuel, and `none` when it runs out.
-/
namespace PureUnix.Kernel

open Lib List

def MAX_MEMORY_BYTES : Nat := 128 * 1024 * 1024
def FRAME_SIZE : Nat := 4096
def MAX_FRAMES : Nat := 32768

/-- The static state of pmm.c. -/
structure Pmm where
  frameBitmap : Buf
  totalFrames : Nat
  freeFrames : Nat

variable {I : Pmm → Prop} {g : Nat}

namespace Pmm

def frameTest (p : Pmm) (frame : Nat) : Bool := bit p.frameBitmap frame

/-- `frame_set` (pmm.c:16). -/
def frameSet (p : Pmm) (frame : Nat) : Pmm :=
  if MAX_FRAMES ≤ frame then p
  else if p.frameTest frame then p
  else { p with
    frameBitmap := setBit p.frameBitmap frame
    freeFrames := if p.freeFrames ≠ 0 then p.freeFrames - 1 else p.freeFrames }

/-- `frame_clear` (pmm.c:30). -/
def frameClear (p : Pmm) (frame : Nat) : Pmm :=
  if MAX_FRAMES ≤ frame then p
  else if p.frameTest frame then
    { p with frameBitmap := clearBit p.frameBitmap frame, freeFrames := u32 (p.freeFrames + 1) }
  else p

/-- The loop of `mark_region_free` at `addr`; `n` bounds the turns. -/
def clearFrom (stop : Nat) : Nat → Nat → Pmm → Pmm
  | 0, _, p => p
  | n + 1, addr, p =>
    if addr + FRAME_SIZE ≤ stop then clearFrom stop n (addr + FRAME_SIZE) (p.frameClear (addr / FRAME_SIZE)) else p

/-- `mark_region_free` (pmm.c:47): base and end are cut to 32 bits before they are rounded. -/
def markRegionFree (p : Pmm) (base length : Nat) : Pmm :=
  let start := alignUp (u32 base)
  let stop := alignDown (u32 ((base + length) % 18446744073709551616))
  clearFrom (if MAX_MEMORY_BYTES < stop then MAX_MEMORY_BYTES else stop) MAX_FRAMES start p

/-- The loop of `reserve_region` at `addr`; `n` bounds the turns. -/
def setFrom (stop : Nat) : Nat → Nat → Pmm → Pmm
  | 0, _, p => p
  | n + 1, addr, p => if addr < stop then setFrom stop n (addr + FRAME_SIZE) (p.frameSet (addr / FRAME_SIZE)) else p

/-- `reserve_region` (pmm.c:59). -/
def reserveRegion (p : Pmm) (base length : Nat) : Pmm :=
  let stop := alignUp (u32 (base + length))
  setFrom (if MAX_MEMORY_BYTES < stop then MAX_MEMORY_BYTES else stop) MAX_FRAMES (alignDown base) p

/-- `pmm_alloc_frame` (pmm.c:139): an address, or 0. -/
def allocFrame (p : Pmm) : Nat × Pmm :=
  match scanFree p.frameTest 0 p.totalFrames p.totalFrames 0 with
  | some i => (u32 (i * FRAME_SIZE), p.frameSet i)
  | none => (0, p)

/-- `pmm_free_frame` (pmm.c:150). -/
def freeFrame (p : Pmm) (frame : Nat) : Pmm := p.frameClear (frame / FRAME_SIZE)

end Pmm

/-! ## The boot loader's memory map -/

def get64 (b : Buf) (off : Nat) : Nat := get32 b off + 4294967296 * get32 b (off + 4)

/-- A region of the memory map; type 1 is usable memory. -/
structure MmapEntry where
  base : Nat
  length : Nat
  type : Nat
deriving DecidableEq, Repr

section
variable {σ : Type} (mem : Buf) (visit : σ → MmapEntry → σ)

/-- The entries of a Multiboot2 memory map tag (pmm.c:86). -/
def mmapTagEntries (entrySize mmapEnd : Nat) : Nat → Nat → σ → Option σ
  | 0, _, _ => none
  | fuel + 1, entry, s =>
    if entry < mmapEnd then
      mmapTagEntries entrySize mmapEnd fuel (u32 (entry + entrySize))
        (visit s ⟨get64 mem entry, get64 mem (entry + 8), get32 mem (entry + 16)⟩)
    else some s

/-- The tags of `parse_multiboot2` (pmm.c:71) from `cursor` on. -/
def multiboot2Tags (stop : Nat) : Nat → Nat → σ → Option σ
  | 0, _, _ => none
  | fuel + 1, cursor, s =>
    if cursor < stop then
      if get32 mem cursor = 0 then some s
      else
        let size := get32 mem (cursor + 4)
        let next := u32 (cursor + u32 (size + 7) / 8 * 8)
        if get32 mem cursor = 6 then
          match mmapTagEntries mem visit (get32 mem (cursor + 8)) (u32 (cursor + size)) (fuel + 1) (u32 (cursor + 16)) s with
          | none => none
          | some s => multiboot2Tags stop fuel next s
        else multiboot2Tags stop fuel next s
    else some s

/-- The entries of `parse_multiboot1` (pmm.c:104): `base_addr` is at byte 4, `length` at 12, `type` at 20. -/
def multiboot1Entries (stop : Nat) : Nat → Nat → σ → Option σ
  | 0, _, _ => none
  | fuel + 1, cursor, s =>
    if cursor < stop then
      multiboot1Entries stop fuel (u32 (cursor + u32 (get32 mem cursor + 4)))
        (visit s ⟨get64 mem (cursor + 4), get64 mem (cursor + 12), get32 mem (cursor + 20)⟩)
    else some s

def MULTIBOOT1_BOOTLOADER_MAGIC : Nat := 0x2BADB002
def MULTIBOOT2_BOOTLOADER_MAGIC : Nat := 0x36D76289

/-- The regions `pmm_init` goes through. Without a map it takes the memory above 1 MiB that a Multiboot1 loader reports,
or 15 MiB of it. -/
def bootRegions (fuel magic mbiAddr : Nat) (s : σ) : Option σ :=
  if magic = MULTIBOOT2_BOOTLOADER_MAGIC then
    multiboot2Tags mem visit (u32 (mbiAddr + get32 mem mbiAddr)) fuel (u32 (mbiAddr + 8)) s
  else if magic = MULTIBOOT1_BOOTLOADER_MAGIC then
    let flags := get32 mem mbiAddr
    if flags.testBit 6 then
      multiboot1Entries mem visit (u32 (get32 mem (mbiAddr + 48) + get32 mem (mbiAddr + 44))) fuel (get32 mem (mbiAddr + 48)) s
    else if flags.testBit 0 then some (visit s ⟨0x100000, get32 mem (mbiAddr + 8) * 1024, 1⟩)
    else some s
  else some (visit s ⟨0x100000, 15 * 1024 * 1024, 1⟩)

end

def memoryMap (mem : Buf) (fuel magic mbiAddr : Nat) : Option (List MmapEntry) :=
  bootRegions mem (fun l e => l ++ [e]) fuel magic mbiAddr []

/-- A region is made free if it is usable. -/
def Pmm.markEntry (p : Pmm) (e : MmapEntry) : Pmm := if e.type = 1 then p.markRegionFree e.base e.length else p

def Pmm.full : Pmm := ⟨fun _ => 0xFF, MAX_FRAMES, 0⟩

/-- `pmm_init` (pmm.c:116). -/
def pmmInit (k : KernelImage) (mem : Buf) (fuel magic mbiAddr : Nat) : Option Pmm :=
  (bootRegions mem Pmm.markEntry fuel magic mbiAddr Pmm.full).map fun p =>
    let p := p.reserveRegion 0 0x100000
    let p := p.reserveRegion kernelStart (k.kernelEnd - kernelStart)
    p.reserveRegion k.frameBitmap 4096

/-! ## Bits -/

namespace Pmm
variable {p : Pmm} {f g : Nat}

@[simp] theorem totalFrames_frameSet : (p.frameSet f).totalFrames = p.totalFrames := by
  unfold frameSet
  split
  · rfl
  · split <;> rfl

@[simp] theorem totalFrames_frameClear : (p.frameClear f).totalFrames = p.totalFrames := by
  unfold frameClear
  split
  · rfl
  · split <;> rfl

theorem frameTest_frameSet : (p.frameSet f).frameTest g = (p.frameTest g || decide (g = f ∧ f < MAX_FRAMES)) := by
  unfold frameSet
  split
  · rename_i h
    simp [Nat.not_lt.2 h]
  rename_i h
  split
  · rename_i ht
    by_cases e : g = f
    · simp [e, ht]
    · simp [e]
  · simp only [frameTest, bit_setBit]
    rw [Bool.or_comm]
    simp [Nat.lt_of_not_le h]

theorem frameTest_frameClear : (p.frameClear f).frameTest g = (p.frameTest g && !decide (g = f ∧ f < MAX_FRAMES)) := by
  unfold frameClear
  split
  · rename_i h
    simp [Nat.not_lt.2 h]
  rename_i h
  split
  · simp only [frameTest, bit_clearBit]
    by_cases e : g = f
    · simp [e, Nat.lt_of_not_le h]
    · simp [e]
  · rename_i ht
    by_cases e : g = f
    · simp [e, ht]
    · simp [e]

theorem markRegionFree_keeps (hI : ∀ p f, I p → I (p.frameClear f)) (h : I p) (base length : Nat) :
    I (p.markRegionFree base length) := by
  have hloop : ∀ (stop n addr : Nat) (p : Pmm), I p → I (clearFrom stop n addr p) := by
    intro stop n
    induction n with
    | zero => exact fun _ _ h => h
    | succ n ih =>
      intro addr p h
      unfold clearFrom
      split
      · exact ih _ _ (hI _ _ h)
      · exact h
  exact hloop _ _ _ _ h

theorem reserveRegion_keeps (hI : ∀ p f, I p → I (p.frameSet f)) (h : I p) (base length : Nat) :
    I (p.reserveRegion base length) := by
  have hloop : ∀ (stop n addr : Nat) (p : Pmm), I p → I (setFrom stop n addr p) := by
    intro stop n
    induction n with
    | zero => exact fun _ _ h => h
    | succ n ih =>
      intro addr p h
      unfold setFrom
      split
      · exact ih _ _ (hI _ _ h)
      · exact h
  exact hloop _ _ _ _ h

theorem frameTest_clearFrom {stop : Nat} (hstop : stop ≤ MAX_MEMORY_BYTES) : ∀ (n addr : Nat) (p : Pmm), addr % 4096 = 0 →
    stop ≤ addr + n * 4096 → (clearFrom stop n addr p).frameTest g =
      (p.frameTest g && !decide (addr ≤ g * 4096 ∧ g * 4096 + 4096 ≤ stop))
  | 0, addr, p, _, h => by
    have hnot : ¬ (addr ≤ g * 4096 ∧ g * 4096 + 4096 ≤ stop) := by omega
    simp [clearFrom, hnot]
  | n + 1, addr, p, hmod, h => by
    unfold clearFrom
    split
    · rename_i hle
      rw [FRAME_SIZE] at hle ⊢
      rw [frameTest_clearFrom hstop n (addr + 4096) _ (by omega) (by omega), frameTest_frameClear, Bool.and_assoc,
        ← Bool.not_or, ← Bool.decide_or]
      congr 2
      rw [decide_eq_decide]
      simp only [MAX_MEMORY_BYTES, MAX_FRAMES] at hstop ⊢
      omega
    · rename_i hle
      rw [FRAME_SIZE] at hle
      have hnot : ¬ (addr ≤ g * 4096 ∧ g * 4096 + 4096 ≤ stop) := by omega
      simp [hnot]

theorem frameTest_setFrom {stop : Nat} (hstop : stop ≤ MAX_MEMORY_BYTES) (h4 : stop % 4096 = 0) : ∀ (n addr : Nat) (p : Pmm), addr % 4096 = 0 →
    stop ≤ addr + n * 4096 → (setFrom stop n addr p).frameTest g = (p.frameTest g || decide (addr ≤ g * 4096 ∧ g * 4096 < stop))
  | 0, addr, p, _, h => by
    have hnot : ¬ (addr ≤ g * 4096 ∧ g * 4096 < stop) := by omega
    simp [setFrom, hnot]
  | n + 1, addr, p, hmod, h => by
    unfold setFrom
    split
    · rw [FRAME_SIZE]
      rw [frameTest_setFrom hstop h4 n (addr + 4096) _ (by omega) (by omega), frameTest_frameSet, Bool.or_assoc, ← Bool.decide_or]
      congr 1
      rw [decide_eq_decide]
      simp only [MAX_MEMORY_BYTES, MAX_FRAMES] at hstop ⊢
      omega
    · have hnot : ¬ (addr ≤ g * 4096 ∧ g * 4096 < stop) := by omega
      simp [hnot]

end Pmm

/-- Where the range that `mark_region_free` clears starts, and where it ends. -/
def MmapEntry.first (e : MmapEntry) : Nat := alignUp (u32 e.base)

def MmapEntry.stop (e : MmapEntry) : Nat :=
  min MAX_MEMORY_BYTES (alignDown (u32 ((e.base + e.length) % 18446744073709551616)))

/-- The frame is in that range. -/
def MmapEntry.Frees (e : MmapEntry) (f : Nat) : Prop := e.first ≤ f * 4096 ∧ f * 4096 + 4096 ≤ e.stop

instance (e : MmapEntry) (f : Nat) : Decidable (e.Frees f) := inferInstanceAs (Decidable (_ ∧ _))

namespace Pmm
variable {p : Pmm} {g : Nat}

/-- The loops have turns enough for all memory. -/
theorem all_frames (addr : Nat) : MAX_MEMORY_BYTES ≤ addr + MAX_FRAMES * 4096 := by
  simp only [MAX_MEMORY_BYTES, MAX_FRAMES]
  omega

theorem cap_eq (x : Nat) : (if MAX_MEMORY_BYTES < x then MAX_MEMORY_BYTES else x) = min MAX_MEMORY_BYTES x := by
  split <;> omega

theorem frameTest_markRegionFree (e : MmapEntry) :
    (p.markRegionFree e.base e.length).frameTest g = (p.frameTest g && !decide (e.Frees g)) := by
  unfold markRegionFree
  simp only [cap_eq]
  have hstop : e.stop ≤ MAX_MEMORY_BYTES := Nat.min_le_left _ _
  exact frameTest_clearFrom hstop _ _ _ (alignUp_mod _) (Nat.le_trans hstop (all_frames _))

theorem frameTest_reserveRegion {base length : Nat} (h : base + length ≤ 0xFFFFF000) (hg : g < MAX_FRAMES) :
    (p.reserveRegion base length).frameTest g = (p.frameTest g || decide (base < g * 4096 + 4096 ∧ g * 4096 < base + length)) := by
  unfold reserveRegion
  have hu : u32 (base + length) = base + length := u32_of_lt (by omega)
  obtain ⟨h1, h2⟩ := alignUp_spec h
  have hup := alignUp_mod (base + length)
  have hdown := alignDown_mod base
  have hle : alignDown base ≤ base ∧ base < alignDown base + 4096 := by
    unfold alignDown
    omega
  have hstop : min MAX_MEMORY_BYTES (alignUp (base + length)) ≤ MAX_MEMORY_BYTES := Nat.min_le_left _ _
  have hmod : min MAX_MEMORY_BYTES (alignUp (base + length)) % 4096 = 0 := by
    simp only [MAX_MEMORY_BYTES]
    omega
  simp only [MAX_FRAMES] at hg
  simp only [hu, cap_eq]
  rw [frameTest_setFrom hstop hmod _ _ _ hdown (Nat.le_trans hstop (all_frames _))]
  congr 1
  rw [decide_eq_decide]
  simp only [MAX_MEMORY_BYTES]
  omega

/-! ## The counter -/

def zeroBits (p : Pmm) : Nat := Nat.count (fun f => p.frameTest f = false) MAX_FRAMES

structure Counted (p : Pmm) : Prop where
  total : p.totalFrames = MAX_FRAMES
  free : p.freeFrames = p.zeroBits

theorem zeroBits_le (p : Pmm) : p.zeroBits ≤ MAX_FRAMES := Nat.count_le _

theorem frameSet_counted (f : Nat) (h : p.Counted) : (p.frameSet f).Counted := by
  refine ⟨by rw [totalFrames_frameSet, h.total], ?_⟩
  by_cases hchange : f < MAX_FRAMES ∧ p.frameTest f = false
  · -- one clear bit less
    have hcount : p.zeroBits = (p.frameSet f).zeroBits + 1 := by
      refine count_succ_of_one hchange.1 (fun g _ hne => ?_) hchange.2 ?_
      · rw [frameTest_frameSet]
        simp [hne]
      · rw [frameTest_frameSet]
        simp [hchange.1]
    have hfree : (p.frameSet f).freeFrames = if p.freeFrames ≠ 0 then p.freeFrames - 1 else p.freeFrames := by
      rw [frameSet, if_neg (Nat.not_le.2 hchange.1), if_neg (by rw [hchange.2]; decide)]
    rw [hfree, h.free]
    split <;> omega
  · have hsame : p.frameSet f = p := by
      unfold frameSet
      split
      · rfl
      rename_i hf
      rw [if_pos]
      by_contra hc
      exact hchange ⟨Nat.lt_of_not_le hf, by simpa using hc⟩
    rw [hsame]
    exact h.free

theorem frameClear_counted (f : Nat) (h : p.Counted) : (p.frameClear f).Counted := by
  refine ⟨by rw [totalFrames_frameClear, h.total], ?_⟩
  by_cases hchange : f < MAX_FRAMES ∧ p.frameTest f = true
  · -- one clear bit more
    have hcount : (p.frameClear f).zeroBits = p.zeroBits + 1 := by
      refine count_succ_of_one hchange.1 (fun g _ hne => ?_) ?_ ?_
      · rw [frameTest_frameClear]
        simp [hne]
      · rw [frameTest_frameClear]
        simp [hchange.1]
      · rw [hchange.2]
        decide
    have hfree : (p.frameClear f).freeFrames = u32 (p.freeFrames + 1) := by
      rw [frameClear, if_neg (Nat.not_le.2 hchange.1), if_pos hchange.2]
    have hle := p.zeroBits_le
    simp only [MAX_FRAMES] at hle
    rw [hfree, h.free, hcount, u32_of_lt (by omega)]
  · have hsame : p.frameClear f = p := by
      unfold frameClear
      split
      · rfl
      rename_i hf
      rw [if_neg]
      intro hc
      exact hchange ⟨Nat.lt_of_not_le hf, hc⟩
    rw [hsame]
    exact h.free

theorem frameTest_full (f : Nat) : full.frameTest f = true := by
  have h8 : f % 8 < 8 := Nat.mod_lt _ (by omega)
  simp only [frameTest, full, bit]
  generalize f % 8 = k at h8
  interval_cases k <;> decide

theorem full_counted : full.Counted := by
  refine ⟨rfl, ?_⟩
  have hnone : ∀ f, f < MAX_FRAMES → (full.frameTest f = false ↔ False) := fun f _ => by simp [frameTest_full]
  rw [zeroBits, count_congr hnone, Nat.count_false]
  rfl

end Pmm

/-! ## Regions one after the other -/

section
variable {σ : Type} (mem : Buf) (visit : σ → MmapEntry → σ)

/-- Listing the entries first and then going through the list comes to the same. -/
theorem mmapTagEntries_eq (entrySize mmapEnd : Nat) : ∀ (fuel entry : Nat) (s : σ) (l : List MmapEntry),
    mmapTagEntries mem visit entrySize mmapEnd fuel entry (l.foldl visit s) =
      (mmapTagEntries mem (fun l e => l ++ [e]) entrySize mmapEnd fuel entry l).map (foldl visit s)
  | 0, _, _, _ => rfl
  | fuel + 1, entry, s, l => by
    rw [mmapTagEntries, mmapTagEntries]
    split
    · rw [← mmapTagEntries_eq entrySize mmapEnd fuel _ s, foldl_append]
      rfl
    · rfl

theorem multiboot2Tags_eq (stop : Nat) : ∀ (fuel cursor : Nat) (s : σ) (l : List MmapEntry),
    multiboot2Tags mem visit stop fuel cursor (l.foldl visit s) =
      (multiboot2Tags mem (fun l e => l ++ [e]) stop fuel cursor l).map (foldl visit s)
  | 0, _, _, _ => rfl
  | fuel + 1, cursor, s, l => by
    rw [multiboot2Tags, multiboot2Tags]
    split
    · split
      · rfl
      · dsimp only
        split
        · rw [mmapTagEntries_eq]
          cases mmapTagEntries mem (fun l e => l ++ [e]) (get32 mem (cursor + 8)) (u32 (cursor + get32 mem (cursor + 4))) (fuel + 1)
              (u32 (cursor + 16)) l with
          | none => rfl
          | some l' => exact multiboot2Tags_eq stop fuel _ s l'
        · exact multiboot2Tags_eq stop fuel _ s l
    · rfl

theorem multiboot1Entries_eq (stop : Nat) : ∀ (fuel cursor : Nat) (s : σ) (l : List MmapEntry),
    multiboot1Entries mem visit stop fuel cursor (l.foldl visit s) =
      (multiboot1Entries mem (fun l e => l ++ [e]) stop fuel cursor l).map (foldl visit s)
  | 0, _, _, _ => rfl
  | fuel + 1, cursor, s, l => by
    rw [multiboot1Entries, multiboot1Entries]
    split
    · rw [← multiboot1Entries_eq stop fuel _ s, foldl_append]
      rfl
    · rfl

/-- `pmm_init` goes through the memory map. -/
theorem bootRegions_eq (fuel magic mbiAddr : Nat) (s : σ) :
    bootRegions mem visit fuel magic mbiAddr s = (memoryMap mem fuel magic mbiAddr).map (foldl visit s) := by
  unfold memoryMap bootRegions
  split
  · exact multiboot2Tags_eq mem visit _ fuel _ s []
  split
  · dsimp only
    split
    · exact multiboot1Entries_eq mem visit _ fuel _ s []
    · split <;> rfl
  · rfl

end

/-! ## Handing out frames -/

/-- The page of a frame meets `[lo, hi)`. -/
def Meets (f lo hi : Nat) : Prop := lo < f * 4096 + 4096 ∧ f * 4096 < hi

instance (f lo hi : Nat) : Decidable (Meets f lo hi) := inferInstanceAs (Decidable (_ ∧ _))

/-- The frame is in the first 1 MiB, in the kernel or in the bitmap. -/
def KernelImage.Reserved (k : KernelImage) (f : Nat) : Prop :=
  Meets f 0 0x100000 ∨ Meets f kernelStart k.kernelEnd ∨ Meets f k.frameBitmap (k.frameBitmap + 4096)

instance (k : KernelImage) (f : Nat) : Decidable (k.Reserved f) := inferInstanceAs (Decidable (_ ∨ _ ∨ _))

theorem frameTest_markEntry {p : Pmm} (e : MmapEntry) :
    (p.markEntry e).frameTest g = (p.frameTest g && !decide (e.type = 1 ∧ e.Frees g)) := by
  unfold Pmm.markEntry
  split
  · rename_i h
    rw [Pmm.frameTest_markRegionFree]
    simp [h]
  · rename_i h
    simp [h]

theorem frameTest_regions : ∀ (map : List MmapEntry) (p : Pmm),
    (map.foldl Pmm.markEntry p).frameTest g = (p.frameTest g && !decide (∃ e ∈ map, e.type = 1 ∧ e.Frees g))
  | [], p => by simp
  | e :: map, p => by
    rw [foldl_cons, frameTest_regions map, frameTest_markEntry, Bool.and_assoc, ← Bool.not_or, ← Bool.decide_or]
    simp only [mem_cons, exists_eq_or_imp]

section
variable {k : KernelImage} {mem : Buf} {fuel magic mbiAddr : Nat} {p : Pmm}

/-- **The bits after `pmm_init`**: a frame is free when a usable region's range has it and it is not reserved. -/
theorem frameTest_pmmInit (h : pmmInit k mem fuel magic mbiAddr = some p) :
    ∃ map, memoryMap mem fuel magic mbiAddr = some map ∧ ∀ f, f < MAX_FRAMES →
      (p.frameTest f = false ↔ (∃ e ∈ map, e.type = 1 ∧ e.Frees f) ∧ ¬ k.Reserved f) := by
  unfold pmmInit at h
  rw [bootRegions_eq] at h
  cases hm : memoryMap mem fuel magic mbiAddr with
  | none => rw [hm] at h; cases h
  | some map =>
    rw [hm] at h
    simp only [Option.map_some, Option.some.injEq] at h
    refine ⟨map, rfl, fun f hf => ?_⟩
    obtain ⟨hb1, hb2⟩ := k.bitmap_inside
    have hend := k.kernelEnd_le
    rw [← h, Pmm.frameTest_reserveRegion (by omega) hf, Pmm.frameTest_reserveRegion (by omega) hf,
      Pmm.frameTest_reserveRegion (by omega) hf, frameTest_regions, Pmm.frameTest_full]
    have hkend : kernelStart + (k.kernelEnd - kernelStart) = k.kernelEnd := by omega
    rw [hkend]
    simp only [Bool.true_and, Bool.or_eq_false_iff, Bool.not_eq_false', decide_eq_true_eq, decide_eq_false_iff_not,
      KernelImage.Reserved, Meets, Nat.zero_add, not_or, and_assoc]

end

end PureUnix.Kernel
