import PureUnix.Kernel.Pmm

/-!
# Who owns a frame

Calls of `pmm_alloc_frame` and `pmm_free_frame` after `pmm_init`, with the frames that are out at the moment. The
invariant is that frames that are out and reserved frames have their bits set; as a caller only gives back what is
out, the reserved ones stay set, and 0, the frame of low memory, can stand for failure (`frames_handed_out_once`).

Which frames may be handed out at all is decided by `pmm_init`: `usable_iff` says when all of them are usable memory
outside the heap.
-/
namespace PureUnix.Kernel

open Lib List Nat

/-! ## Allocation and release -/

/-- The memory manager and the addresses it has handed out and not got back. -/
structure FramesOut where
  pmm : Pmm
  out : List Nat

inductive PmmCall where
  | alloc
  | free (frame : Nat)

namespace FramesOut

def step (s : FramesOut) : PmmCall → Nat × FramesOut
  | .alloc => (s.pmm.allocFrame.1, ⟨s.pmm.allocFrame.2, if s.pmm.allocFrame.1 = 0 then s.out else s.pmm.allocFrame.1 :: s.out⟩)
  | .free frame => (0, ⟨s.pmm.freeFrame frame, s.out.erase frame⟩)

/-- Only frames that are out are given back. -/
def Allowed (s : FramesOut) : PmmCall → Prop
  | .alloc => True
  | .free frame => frame ∈ s.out

/-- What is out and what is reserved is marked, and these do not overlap. -/
structure Inv (k : KernelImage) (s : FramesOut) : Prop where
  counted : s.pmm.Counted
  nodup : s.out.Nodup
  marked : ∀ a ∈ s.out, ∃ f, f < MAX_FRAMES ∧ a = f * 4096 ∧ s.pmm.frameTest f = true ∧ ¬ k.Reserved f
  reserved : ∀ f, f < MAX_FRAMES → k.Reserved f → s.pmm.frameTest f = true

/-- **What a caller can rely on**: the counter is right, 0 means that no frame is free, and any other answer is the address
of a frame that is not out and not reserved. -/
structure HandsOutOnce (k : KernelImage) (s : FramesOut) : Prop where
  counter : s.pmm.freeFrames = s.pmm.zeroBits
  fails_iff : s.pmm.allocFrame.1 = 0 ↔ ∀ f, f < MAX_FRAMES → s.pmm.frameTest f = true
  aligned : s.pmm.allocFrame.1 % 4096 = 0 ∧ s.pmm.allocFrame.1 < MAX_MEMORY_BYTES
  fresh : s.pmm.allocFrame.1 ≠ 0 → s.pmm.allocFrame.1 ∉ s.out
  outside : s.pmm.allocFrame.1 ≠ 0 → ∀ x, s.pmm.allocFrame.1 ≤ x → x < s.pmm.allocFrame.1 + 4096 →
    0x100000 ≤ x ∧ ¬ (kernelStart ≤ x ∧ x < k.kernelEnd) ∧ ¬ (k.frameBitmap ≤ x ∧ x < k.frameBitmap + 4096)

section
variable {k : KernelImage} {s : FramesOut}

/-- **`pmm_alloc_frame`** takes the first clear frame, or fails when there is none. -/
theorem allocFrame_cases (h : s.pmm.Counted) :
    (∃ f, f < MAX_FRAMES ∧ s.pmm.frameTest f = false ∧ s.pmm.allocFrame = (f * 4096, s.pmm.frameSet f)) ∨
      ((∀ f, f < MAX_FRAMES → s.pmm.frameTest f = true) ∧ s.pmm.allocFrame = (0, s.pmm)) := by
  unfold Pmm.allocFrame
  rw [h.total]
  cases hs : scanFree s.pmm.frameTest 0 MAX_FRAMES MAX_FRAMES 0 with
  | some f =>
    obtain ⟨-, -, hlt, hclear⟩ := scanFree_some hs
    refine .inl ⟨f, hlt, hclear, ?_⟩
    simp only [MAX_FRAMES] at hlt
    simp only [FRAME_SIZE]
    rw [u32_of_lt (by omega)]
  | none =>
    refine .inr ⟨fun f hf => ?_, rfl⟩
    exact scanFree_none hs f (zero_le _) (by omega) hf

theorem reserved_zero : k.Reserved 0 := .inl ⟨by decide, by decide⟩

theorem step_inv (inv : Inv k s) {call : PmmCall} (hcall : s.Allowed call) : Inv k (s.step call).2 := by
  cases call with
  | alloc =>
    simp only [step]
    rcases allocFrame_cases inv.counted with ⟨f, hf, hclear, he⟩ | ⟨-, he⟩
    · rw [he]
      have hres : ¬ k.Reserved f := fun hr => by
        rw [inv.reserved f hf hr] at hclear
        cases hclear
      have hnew : f * 4096 ∉ s.out := by
        intro hmem
        obtain ⟨g, -, hg, hset, -⟩ := inv.marked _ hmem
        obtain rfl : g = f := by omega
        rw [hset] at hclear
        cases hclear
      have h0 : f * 4096 ≠ 0 := by
        intro h0
        obtain rfl : f = 0 := by omega
        exact hres reserved_zero
      simp only [if_neg h0]
      refine ⟨Pmm.frameSet_counted f inv.counted, nodup_cons.2 ⟨hnew, inv.nodup⟩, ?_, ?_⟩
      · intro a ha
        rcases mem_cons.1 ha with rfl | ha
        · exact ⟨f, hf, rfl, by rw [Pmm.frameTest_frameSet]; simp [hf], hres⟩
        · obtain ⟨g, hg, hga, hset, hr⟩ := inv.marked a ha
          exact ⟨g, hg, hga, by rw [Pmm.frameTest_frameSet, hset]; rfl, hr⟩
      · intro g hg hr
        rw [Pmm.frameTest_frameSet, inv.reserved g hg hr]
        rfl
    · rw [he]
      simpa only [if_true] using inv
  | free frame =>
    simp only [step]
    obtain ⟨f, hf, rfl, hset, hres⟩ := inv.marked frame hcall
    have hdiv : f * 4096 / FRAME_SIZE = f := Nat.mul_div_cancel f (by decide)
    unfold Pmm.freeFrame
    rw [hdiv]
    have hother : ∀ g, g ≠ f → (s.pmm.frameClear f).frameTest g = s.pmm.frameTest g := by
      intro g hne
      rw [Pmm.frameTest_frameClear]
      simp [hne]
    refine ⟨Pmm.frameClear_counted f inv.counted, inv.nodup.erase _, ?_, ?_⟩
    · intro a ha
      obtain ⟨hne, ha⟩ := inv.nodup.mem_erase_iff.1 ha
      obtain ⟨g, hg, rfl, hgset, hr⟩ := inv.marked a ha
      refine ⟨g, hg, rfl, ?_, hr⟩
      rw [hother g (by rintro rfl; exact hne rfl)]
      exact hgset
    · intro g hg hr
      rw [hother g (by rintro rfl; exact hres hr)]
      exact inv.reserved g hg hr

theorem Inv.handsOutOnce (inv : Inv k s) : HandsOutOnce k s := by
  rcases allocFrame_cases inv.counted with ⟨f, hf, hclear, he⟩ | ⟨hall, he⟩
  · have hres : ¬ k.Reserved f := fun hr => by
      rw [inv.reserved f hf hr] at hclear
      cases hclear
    have h0 : f ≠ 0 := by
      rintro rfl
      exact hres reserved_zero
    refine ⟨inv.counted.free, ?_, ?_, ?_, ?_⟩
    · rw [he]
      refine ⟨fun hz => absurd hz (by simp only; omega), fun hall => ?_⟩
      rw [hall f hf] at hclear
      cases hclear
    · rw [he]
      simp only [MAX_FRAMES, MAX_MEMORY_BYTES] at hf ⊢
      omega
    · rw [he]
      intro _ hmem
      obtain ⟨g, -, hg, hset, -⟩ := inv.marked _ hmem
      obtain rfl : g = f := by simp only at hg; omega
      rw [hset] at hclear
      cases hclear
    · rw [he]
      intro _ x hx1 hx2
      simp only [KernelImage.Reserved, Meets, not_or, not_and, not_lt] at hres hx1 hx2
      refine ⟨?_, ?_, ?_⟩
      · omega
      · omega
      · omega
  · have hz : s.pmm.allocFrame.1 = 0 := by rw [he]
    refine ⟨inv.counted.free, ⟨fun _ => hall, fun _ => hz⟩, ?_, fun h => absurd hz h, fun h => absurd hz h⟩
    rw [hz]
    decide

end
end FramesOut

theorem pmmInit_counted {k : KernelImage} {mem : Buf} {fuel magic mbiAddr : Nat} {p : Pmm}
    (h : pmmInit k mem fuel magic mbiAddr = some p) : p.Counted := by
  unfold pmmInit at h
  rw [bootRegions_eq] at h
  cases hm : memoryMap mem fuel magic mbiAddr with
  | none => rw [hm] at h; cases h
  | some map =>
    rw [hm] at h
    simp only [Option.map_some, Option.some.injEq] at h
    have hset : ∀ (p : Pmm) f, p.Counted → (p.frameSet f).Counted := fun _ f => Pmm.frameSet_counted f
    have hclear : ∀ (p : Pmm) f, p.Counted → (p.frameClear f).Counted := fun _ f => Pmm.frameClear_counted f
    have hmap : ∀ (map : List MmapEntry) (p : Pmm), p.Counted → (map.foldl Pmm.markEntry p).Counted := by
      intro map
      induction map with
      | nil => exact fun _ h => h
      | cons e map ih =>
        intro p hp
        apply ih
        unfold Pmm.markEntry
        split
        · exact Pmm.markRegionFree_keeps hclear hp _ _
        · exact hp
    rw [← h]
    apply Pmm.reserveRegion_keeps hset
    apply Pmm.reserveRegion_keeps hset
    apply Pmm.reserveRegion_keeps hset
    exact hmap map _ Pmm.full_counted

/-- **Frames are handed out at most once.** After `pmm_init` with any memory map, and any calls that give back only frames
that are out. -/
theorem frames_handed_out_once (k : KernelImage) (mem : Buf) (fuel magic mbiAddr : Nat) (p : Pmm)
    (hinit : pmmInit k mem fuel magic mbiAddr = some p) (calls : List PmmCall)
    (hcalls : Along FramesOut.step FramesOut.Allowed ⟨p, []⟩ calls) :
    FramesOut.HandsOutOnce k (runs FramesOut.step ⟨p, []⟩ calls).2 := by
  have h0 : FramesOut.Inv k ⟨p, []⟩ := by
    refine ⟨pmmInit_counted hinit, nodup_nil, nofun, fun f hf hr => ?_⟩
    obtain ⟨map, -, hbits⟩ := frameTest_pmmInit hinit
    by_contra hc
    exact ((hbits f hf).1 (by simpa using hc)).2 hr
  have hstep : ∀ (s : FramesOut) (call : PmmCall), FramesOut.Inv k s → s.Allowed call → FramesOut.Inv k (s.step call).2 :=
    fun _ _ inv hcall => FramesOut.step_inv inv hcall
  exact (runs_invariant hstep h0 hcalls).handsOutOnce

def smallImage : KernelImage := ⟨0x200000, 0x180000, by decide, by decide⟩

/-- Without a boot loader's map, after two frames are taken. -/
theorem frames_handed_out_once_small : ∃ p, pmmInit smallImage zeros 0 0 0 = some p ∧
    FramesOut.HandsOutOnce smallImage (runs FramesOut.step ⟨p, []⟩ [.alloc, .alloc]).2 :=
  ⟨_, rfl, frames_handed_out_once smallImage zeros 0 0 0 _ rfl [.alloc, .alloc] ⟨trivial, trivial, trivial⟩⟩

/-! ## Usable memory -/

/-- The page of a frame lies inside the region. -/
def MmapEntry.Covers (e : MmapEntry) (f : Nat) : Prop := e.base ≤ f * 4096 ∧ f * 4096 + 4096 ≤ e.base + e.length

/-- **Only usable memory is free**: every free frame lies in a region of type 1 and outside the heap. -/
def OnlyUsable (k : KernelImage) (map : List MmapEntry) (p : Pmm) : Prop :=
  ∀ f, f < MAX_FRAMES → p.frameTest f = false →
    (∃ e ∈ map, e.type = 1 ∧ e.Covers f) ∧ ¬ Meets f (heapStart k.kernelEnd) (heapStart k.kernelEnd + HEAP_SIZE)

structure MapSafe (k : KernelImage) (map : List MmapEntry) : Prop where
  /-- The range cleared for a usable region does not meet the heap. -/
  heap : ∀ e ∈ map, e.type = 1 → min e.stop (heapStart k.kernelEnd + HEAP_SIZE) ≤ max e.first (heapStart k.kernelEnd)
  /-- The base of a region from the last page below 4 GiB on is not what `mark_region_free` computes with; what is cleared
  for it has to be reserved or to belong to another region. -/
  high : ∀ e ∈ map, e.type = 1 → 0xFFFFF000 < e.base → ∀ f, e.Frees f →
    k.Reserved f ∨ ∃ e' ∈ map, e'.type = 1 ∧ e'.base ≤ 0xFFFFF000 ∧ e'.Covers f

section
variable {k : KernelImage} {e : MmapEntry} {f : Nat}

theorem MmapEntry.stop_mod (e : MmapEntry) : e.stop % 4096 = 0 := by
  have := alignDown_mod (u32 ((e.base + e.length) % 18446744073709551616))
  unfold MmapEntry.stop MAX_MEMORY_BYTES
  omega

theorem MmapEntry.Frees.lt (h : e.Frees f) : f < MAX_FRAMES := by
  have hstop : e.stop ≤ MAX_MEMORY_BYTES := min_le_left _ _
  obtain ⟨-, h2⟩ := h
  simp only [MAX_MEMORY_BYTES, MAX_FRAMES] at *
  omega

/-- Below the last page, a region covers what is cleared for it. -/
theorem MmapEntry.Frees.covers (h : e.Frees f) (hb : e.base ≤ 0xFFFFF000) : e.Covers f := by
  obtain ⟨h1, h2⟩ := h
  have hu : u32 e.base = e.base := u32_of_lt (by omega)
  have hup := (alignUp_spec hb).1
  rw [MmapEntry.first, hu] at h1
  have hend : e.stop ≤ e.base + e.length := by
    have hdown := alignDown_le (u32 ((e.base + e.length) % 18446744073709551616))
    have hmod : u32 ((e.base + e.length) % 18446744073709551616) ≤ e.base + e.length :=
      le_trans (mod_le _ _) (mod_le _ _)
    unfold MmapEntry.stop
    omega
  exact ⟨by omega, by omega⟩

/-- From there on it covers no frame at all. -/
theorem MmapEntry.Covers.low (h : e.Covers f) (hf : f < MAX_FRAMES) : e.base ≤ 0xFFFFF000 := by
  have := h.1
  simp only [MAX_FRAMES] at hf
  omega

theorem heapStart_spec (k : KernelImage) : k.kernelEnd ≤ heapStart k.kernelEnd ∧ heapStart k.kernelEnd % 4096 = 0 :=
  ⟨(alignUp_spec k.kernelEnd_le).1, alignUp_mod _⟩

theorem not_reserved_of_heap (h : heapStart k.kernelEnd ≤ f * 4096) : ¬ k.Reserved f := by
  obtain ⟨h1, -⟩ := heapStart_spec k
  obtain ⟨h2, h3⟩ := k.bitmap_inside
  have hks : kernelStart = 0x100000 := rfl
  simp only [KernelImage.Reserved, Meets]
  omega

end

/-- **When `pmm_init` leaves only usable memory free.** -/
theorem usable_iff (k : KernelImage) (mem : Buf) (fuel magic mbiAddr : Nat) (p : Pmm) (map : List MmapEntry)
    (hinit : pmmInit k mem fuel magic mbiAddr = some p) (hmap : memoryMap mem fuel magic mbiAddr = some map) :
    OnlyUsable k map p ↔ MapSafe k map := by
  obtain ⟨map', hmap', hbits⟩ := frameTest_pmmInit hinit
  obtain rfl : map = map' := by rw [hmap] at hmap'; exact Option.some.inj hmap'
  obtain ⟨hk, hk4⟩ := heapStart_spec k
  constructor
  · intro h
    refine ⟨fun e he ht => ?_, fun e he ht _ f hf => ?_⟩
    · -- a common page, if there is one, starts at the larger of the two starts
      by_contra hc
      have hfirst := alignUp_mod (u32 e.base)
      have hstop := e.stop_mod
      have hF : e.Frees (max e.first (heapStart k.kernelEnd) / 4096) := by
        unfold MmapEntry.Frees MmapEntry.first at *
        omega
      have hin : heapStart k.kernelEnd ≤ max e.first (heapStart k.kernelEnd) / 4096 * 4096 := by
        omega
      have hclear := (hbits _ hF.lt).2 ⟨⟨e, he, ht, hF⟩, not_reserved_of_heap hin⟩
      refine (h _ hF.lt hclear).2 ⟨by omega, ?_⟩
      omega
    · by_cases hr : k.Reserved f
      · exact .inl hr
      · obtain ⟨e', he', ht', hcov⟩ := (h f hf.lt ((hbits f hf.lt).2 ⟨⟨e, he, ht, hf⟩, hr⟩)).1
        exact .inr ⟨e', he', ht', hcov.low hf.lt, hcov⟩
  · intro h f hf hclear
    obtain ⟨⟨e, he, ht, hF⟩, hr⟩ := (hbits f hf).1 hclear
    constructor
    · by_cases hb : e.base ≤ 0xFFFFF000
      · exact ⟨e, he, ht, hF.covers hb⟩
      · rcases h.high e he ht (by omega) f hF with hres | ⟨e', he', ht', -, hcov⟩
        · exact absurd hres hr
        · exact ⟨e', he', ht', hcov⟩
    · rintro ⟨h1, h2⟩
      have hheap := h.heap e he ht
      obtain ⟨hF1, hF2⟩ := hF
      omega

/-- Multiboot2 information with a memory map of one usable region. -/
def bootInfo (base length : Nat) : Buf :=
  let w := fun v => [leByte v 0, leByte v 1, leByte v 2, leByte v 3]
  copy zeros 0x9000 (ofList (w 56 ++ w 0 ++ w 6 ++ w 40 ++ w 24 ++ w 0 ++ w base ++ w 0 ++ w length ++ w 0 ++ w 1 ++ w 0 ++
    w 0 ++ w 8)) 56

theorem memoryMap_16MiB : memoryMap (bootInfo 0x1000000 0x100000) 8 MULTIBOOT2_BOOTLOADER_MAGIC 0x9000 =
    some [⟨0x1000000, 0x100000, 1⟩] := by
  decide +kernel

/-- One usable region behind the heap. -/
theorem usable_iff_behind_heap : ∃ p, pmmInit smallImage (bootInfo 0x1000000 0x100000) 8 MULTIBOOT2_BOOTLOADER_MAGIC 0x9000 = some p ∧
    MapSafe smallImage [⟨0x1000000, 0x100000, 1⟩] ∧ OnlyUsable smallImage [⟨0x1000000, 0x100000, 1⟩] p := by
  have hsafe : MapSafe smallImage [⟨0x1000000, 0x100000, 1⟩] := by
    refine ⟨fun e he _ => ?_, fun e he _ hb => ?_⟩
    · rw [mem_singleton.1 he]
      decide
    · rw [mem_singleton.1 he] at hb
      exact absurd hb (by decide)
  have hsome : ∃ p, pmmInit smallImage (bootInfo 0x1000000 0x100000) 8 MULTIBOOT2_BOOTLOADER_MAGIC 0x9000 = some p := by
    exact ⟨_, rfl⟩
  obtain ⟨p, hp⟩ := hsome
  exact ⟨p, hp, hsafe, (usable_iff _ _ _ _ _ p _ hp memoryMap_16MiB).2 hsafe⟩

theorem memoryMap_128MiB : memoryMap (bootInfo 0x100000 0x7F00000) 8 MULTIBOOT2_BOOTLOADER_MAGIC 0x9000 =
    some [⟨0x100000, 0x7F00000, 1⟩] := by
  decide +kernel

/-- On a machine with 128 MiB the first page of the heap is free for `pmm_alloc_frame`. -/
theorem heap_is_free : ∃ p, pmmInit smallImage (bootInfo 0x100000 0x7F00000) 8 MULTIBOOT2_BOOTLOADER_MAGIC 0x9000 = some p ∧
    ¬ OnlyUsable smallImage [⟨0x100000, 0x7F00000, 1⟩] p := by
  have hsome : ∃ p, pmmInit smallImage (bootInfo 0x100000 0x7F00000) 8 MULTIBOOT2_BOOTLOADER_MAGIC 0x9000 = some p := by
    exact ⟨_, rfl⟩
  obtain ⟨p, hp⟩ := hsome
  refine ⟨p, hp, fun h => ?_⟩
  obtain ⟨map, hmap, hbits⟩ := frameTest_pmmInit hp
  rw [memoryMap_128MiB, Option.some.injEq] at hmap
  have hclear : p.frameTest 512 = false := by
    refine (hbits 512 (by decide)).2 ⟨⟨⟨0x100000, 0x7F00000, 1⟩, ?_, rfl, by decide⟩, by decide⟩
    rw [← hmap]
    exact mem_singleton.2 rfl
  exact (h 512 (by decide) hclear).2 (by decide)

end PureUnix.Kernel
