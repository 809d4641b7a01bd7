import PureUnix.Kernel.HeapRuns

/-!
# Loading a program

`elf_is_valid` and the segment loop of `elf_exec` (src/kernel/elf.c), from where `vfs_read_file` has left the
file in a heap block. The segments go to the addresses the file names, and the heap's own window reaches over
the addresses the loader allows. Headers are read from memory wherever the source reads them: the sizes of a
segment are read again behind its copy, which may have landed on its own header.
-/
namespace PureUnix.Kernel.Elf
open Lib Kernel.Heap Option
open Libc

variable {image i : Nat}

/-! ## The file's headers -/

def ePhoff (m : Buf) (image : Nat) : Nat := get32 m (image + 28)
def ePhentsize (m : Buf) (image : Nat) : Nat := get16 m (image + 42)
def ePhnum (m : Buf) (image : Nat) : Nat := get16 m (image + 44)

/-- `elf32_phdr_t`, as far as the loader reads it. -/
structure Phdr where
  pType : Nat
  pOffset : Nat
  pVaddr : Nat
  pFilesz : Nat
  pMemsz : Nat

def phdrAt (m : Buf) (image i : Nat) : Nat := u32 (image + ePhoff m image + i * ePhentsize m image)

def readPhdr (m : Buf) (ph : Nat) : Phdr :=
  ⟨get32 m ph, get32 m (ph + 4), get32 m (ph + 8), get32 m (ph + 16), get32 m (ph + 20)⟩

def phdr (m : Buf) (image i : Nat) : Phdr := readPhdr m (phdrAt m image i)

def elfIsValid (m : Buf) (image size : Nat) : Bool :=
  if size < 52 then false
  else m image == 0x7F && m (image + 1) == 0x45 && m (image + 2) == 0x4C && m (image + 3) == 0x46 &&
    m (image + 4) == 1 && get16 m (image + 16) == 2 && get16 m (image + 18) == 3

/-! ## The loader -/

/-- The check of one `PT_LOAD` header; its sums are computed in 32 bits. -/
def Phdr.invalid (p : Phdr) (size : Nat) : Bool :=
  decide (size < u32 (p.pOffset + p.pFilesz)) || decide (p.pVaddr < 0x400000) || decide (0x700000 < u32 (p.pVaddr + p.pMemsz))

/-- `memcpy((void *)ph->p_vaddr, image + ph->p_offset, ph->p_filesz)`. -/
def copySegment (m : Buf) (image : Nat) (p : Phdr) : Buf := memcpy m p.pVaddr (u32 (image + p.pOffset)) p.pFilesz

/-- What a segment takes in memory beyond the file is cleared. -/
def clearRest (m : Buf) (p : Phdr) : Buf :=
  if p.pFilesz < p.pMemsz then memset m (u32 (p.pVaddr + p.pFilesz)) 0 (p.pMemsz - p.pFilesz) else m

def loadSegment (m : Buf) (image ph : Nat) : Buf :=
  let m := copySegment m image (readPhdr m ph)
  -- the header as it is now
  clearRest m (readPhdr m ph)

/-- The loop over the program headers from `i` on: whether all were accepted, and the memory. `i + left` is always 65536,
which no 16-bit `e_phnum` reaches. -/
def loadSegments (image size : Nat) : Nat → Nat → Buf → Bool × Buf
  | 0, _, m => (true, m)
  | left + 1, i, m =>
    if i < ePhnum m image then
      let p := phdr m image i
      if p.pType ≠ 1 then loadSegments image size left (i + 1) m
      else if p.invalid size then (false, m)
      else loadSegments image size left (i + 1) (loadSegment m image (phdrAt m image i))
    else (true, m)

/-- `elf_exec` between reading the file and jumping to it. -/
def elfLoad (image size : Nat) (m : Buf) : Bool × Buf :=
  if elfIsValid m image size then loadSegments image size 65536 0 m else (false, m)

/-! ## Where the bytes go -/

theorem readPhdr_congr {m m' : Buf} {ph : Nat} (h : Same ph (ph + 24) m' m) : readPhdr m' ph = readPhdr m ph := by
  have h32 : ∀ k, k + 4 ≤ 24 → get32 m' (ph + k) = get32 m (ph + k) :=
    fun k hk => get32_congr (h.mono (by omega) (by omega))
  rw [readPhdr, readPhdr, h32 4 (by omega), h32 8 (by omega), h32 16 (by omega), h32 20 (by omega)]
  exact congrArg (Phdr.mk · _ _ _ _) (h32 0 (by omega))

section Bytes
variable {m : Buf} {ph : Nat} {P : Nat → Prop}

/-- Addresses that a segment does not name keep their bytes; the header is among them, so that it is read as before. -/
structure Spares (P : Nat → Prop) (p : Phdr) (ph : Nat) : Prop where
  header : ∀ k < 24, P (ph + k)
  elsewhere : ∀ j < max p.pFilesz p.pMemsz, ¬ P (u32 (p.pVaddr + j))

theorem Spares.copySegment (h : Spares P (readPhdr m ph) ph) (ha : P i) : copySegment m image (readPhdr m ph) i = m i := by
  refine Libc.copyUp_out (get32_lt _ _) fun j hj he => ?_
  subst he
  exact h.elsewhere j (by omega) ha

theorem Spares.reread (h : Spares P (readPhdr m ph) ph) :
    readPhdr (Elf.copySegment m image (readPhdr m ph)) ph = readPhdr m ph := by
  refine readPhdr_congr fun a h1 h2 => h.copySegment ?_
  have := h.header (a - ph) (by omega)
  rwa [Nat.add_sub_cancel' h1] at this

theorem Spares.loadSegment (h : Spares P (readPhdr m ph) ph) (ha : P i) : loadSegment m image ph i = m i := by
  rw [Elf.loadSegment, h.reread, clearRest]
  split
  · refine (Libc.fill_out (u32_lt _) fun j hj he => ?_).trans (h.copySegment ha)
    have hsum : i = u32 ((readPhdr m ph).pVaddr + ((readPhdr m ph).pFilesz + j)) := by
      rw [he, u32, u32]
      omega
    subst hsum
    exact h.elsewhere _ (by omega) ha
  · exact h.copySegment ha

end Bytes

/-! ## What must not change -/

/-- The bytes of the heap that hold something: the headers, and the payloads of the blocks in use. -/
def Held (bs : List Block) (i : Nat) : Prop := ∃ b ∈ bs, b.addr ≤ i ∧ i < b.addr + 20 + if b.free then 0 else b.size

/-- The program headers lie in the file, and no `PT_LOAD` one of them names an address at which the heap holds something. -/
structure SegmentsClear (bs : List Block) (m : Buf) (image size : Nat) : Prop where
  table : ∀ i < ePhnum m image, ePhoff m image + i * ePhentsize m image + 32 ≤ size
  clear : ∀ i < ePhnum m image, (phdr m image i).pType = 1 →
    ∀ j < max (phdr m image i).pFilesz (phdr m image i).pMemsz, ¬ Held bs (u32 ((phdr m image i).pVaddr + j))

instance (bs : List Block) (i : Nat) : Decidable (Held bs i) :=
  inferInstanceAs (Decidable (∃ b ∈ bs, b.addr ≤ i ∧ i < b.addr + 20 + if b.free then 0 else b.size))

theorem segmentsClear_iff {bs : List Block} {m : Buf} {size : Nat} : SegmentsClear bs m image size ↔
    (∀ i < ePhnum m image, ePhoff m image + i * ePhentsize m image + 32 ≤ size) ∧
      ∀ i < ePhnum m image, (phdr m image i).pType = 1 →
        ∀ j < max (phdr m image i).pFilesz (phdr m image i).pMemsz, ¬ Held bs (u32 ((phdr m image i).pVaddr + j)) :=
  ⟨fun h => ⟨h.table, h.clear⟩, fun h => ⟨h.1, h.2⟩⟩

instance (bs : List Block) (m : Buf) (image size : Nat) : Decidable (SegmentsClear bs m image size) :=
  decidable_of_iff' _ segmentsClear_iff

section Load
variable {bs : List Block} {m m' : Buf} {image size : Nat}

theorem phdrAt_eq (h : image + u32 (ePhoff m image + i * ePhentsize m image) < 4294967296) :
    phdrAt m image i = image + u32 (ePhoff m image + i * ePhentsize m image) := by
  rw [phdrAt]
  simp only [u32] at h ⊢
  omega

theorem ehdr_congr (h : Same image (image + size) m' m) (hsize : 52 ≤ size) :
    ePhnum m' image = ePhnum m image ∧ ePhoff m' image = ePhoff m image ∧ ePhentsize m' image = ePhentsize m image := by
  have h16 : ∀ k, k + 2 ≤ size → get16 m' (image + k) = get16 m (image + k) :=
    fun k hk => get16_congr (h.mono (by omega) (by omega))
  exact ⟨h16 44 (by omega), get32_congr (h.mono (by omega) (by omega)), h16 42 (by omega)⟩

theorem phdr_congr (h : Same image (image + size) m' m) (hsize : 52 ≤ size) (hfits : image + size < 4294967296)
    (hi : u32 (ePhoff m image + i * ePhentsize m image) + 32 ≤ size) : phdr m' image i = phdr m image i := by
  obtain ⟨-, hphoff, hent⟩ := ehdr_congr h hsize
  have hat : phdrAt m' image i = phdrAt m image i := by rw [phdrAt, phdrAt, hphoff, hent]
  rw [phdr, phdr, hat]
  refine readPhdr_congr (h.mono ?_ ?_) <;> rw [phdrAt_eq (by omega)] <;> omega

/-- **The loop writes only where the heap holds nothing.** -/
theorem loadSegments_held (h : SegmentsClear bs m image size) (hsize : 52 ≤ size) (hfits : image + size < 4294967296)
    (hfile : ∀ i, image ≤ i → i < image + size → Held bs i) :
    ∀ (left i : Nat) (m' : Buf), (∀ a, Held bs a → m' a = m a) → ∀ a, Held bs a → (loadSegments image size left i m').2 a = m a
  | 0, _, _, hsame, a, ha => hsame a ha
  | left + 1, i, m', hsame, a, ha => by
    have hwithin : Same image (image + size) m' m := fun x h1 h2 => hsame x (hfile x h1 h2)
    obtain ⟨hnum, hphoff, hent⟩ := ehdr_congr hwithin hsize
    rw [loadSegments]
    split
    · rename_i hi
      rw [hnum] at hi
      have htable := h.table i hi
      have hp := phdr_congr hwithin hsize hfits (i := i) (by rw [u32_of_lt (by omega)]; exact htable)
      simp only [hp]
      split
      · exact loadSegments_held h hsize hfits hfile left (i + 1) m' hsame a ha
      split
      · exact hsame a ha
      rename_i hload _
      refine loadSegments_held h hsize hfits hfile left (i + 1) _ (fun x hx => ?_) a ha
      have hspares : Spares (Held bs) (phdr m' image i) (phdrAt m' image i) := by
        refine ⟨fun k hk => hfile _ ?_ ?_, hp ▸ h.clear i hi (not_not.1 hload)⟩ <;>
          rw [phdrAt, hphoff, hent, u32_of_lt (by omega)] <;> omega
      rw [hspares.loadSegment hx, hsame x hx]
    · exact hsame a ha

end Load

/-- **Loading a program leaves alone what the heap holds**, if its segments go elsewhere: `image` is the block with the file. -/
theorem elfLoad_spares_heap {kernelEnd : Nat} (hlow : 0x100000 ≤ kernelEnd) (hhigh : kernelEnd ≤ 0x400000) (memory : Buf)
    (calls : List HeapCall)
    (hcalls : OptAlong (heapStep (heapStart kernelEnd)) (fun s call => Disciplined s call ∧ Rounds call) (heapBoot kernelEnd memory) calls) :
    ∃ s, optRuns (heapStep (heapStart kernelEnd)) (heapBoot kernelEnd memory) calls = some s ∧
      Clean (heapStart kernelEnd) s (heapBlocks (heapStart kernelEnd) s.memory) ∧
      ∀ image ∈ s.live, ∀ size ≤ blockSize s.memory (blockOf image),
        SegmentsClear (heapBlocks (heapStart kernelEnd) s.memory) s.memory image size →
        ∀ a, Held (heapBlocks (heapStart kernelEnd) s.memory) a → (elfLoad image size s.memory).2 a = s.memory a := by
  have hheap : HEAP_SIZE = 8388608 := rfl
  obtain ⟨s, bs, hrun, hclean⟩ := heapRun_clean hlow (by omega) hcalls
  rw [← hclean.laid.heapBlocks_eq] at hclean
  refine ⟨s, hrun, hclean, ?_⟩
  intro image himage size hsize hclear a ha
  rw [elfLoad]
  split
  · rename_i hvalid
    have h52 : 52 ≤ size := by
      by_contra hsmall
      simp [elfIsValid, Nat.lt_of_not_le hsmall] at hvalid
    obtain ⟨l, k, l', hbs, hused, rfl, hblock⟩ := hclean.block_of himage
    have hk : k ∈ heapBlocks (heapStart kernelEnd) s.memory := by simp [hbs]
    have hbound := hclean.laid.bound hk
    rw [hblock, hclean.laid.size_eq hk] at hsize
    refine loadSegments_held hclear h52 (by omega) (fun i h1 h2 => ⟨k, hk, by omega, ?_⟩) _ _ _ (fun _ _ => rfl) a ha
    rw [hused, if_neg (by decide)]
    omega
  · rfl

/-- A file with one segment: four bytes at `0x400000`. -/
def smallElf : Text :=
  [0x7F, 0x45, 0x4C, 0x46, 1, 0, 0, 0, 0, 0, 0, 0, 0, 0, 0, 0, 2, 0, 3, 0, 1, 0, 0, 0, 0, 0, 0x40, 0,
   52, 0, 0, 0, 0, 0, 0, 0, 0, 0, 0, 0, 52, 0, 32, 0, 1, 0, 0, 0, 0, 0, 0, 0,
   1, 0, 0, 0, 84, 0, 0, 0, 0, 0, 0x40, 0, 0, 0, 0x40, 0, 4, 0, 0, 0, 4, 0, 0, 0, 5, 0, 0, 0, 0, 0, 0, 0,
   0xC3, 0xC3, 0xC3, 0xC3]

/-- With only the file in the heap, its segment lands in the free rest of the window. -/
theorem elfLoad_spares_heap_empty : ∃ s, optRuns (heapStep (heapStart 0x200000)) (heapBoot 0x200000 zeros)
      [.kmalloc 88, .store 0x200014 smallElf] = some s ∧ (elfLoad 0x200014 88 s.memory).1 = true ∧
    ∀ a, Held (heapBlocks (heapStart 0x200000) s.memory) a → (elfLoad 0x200014 88 s.memory).2 a = s.memory a := by
  obtain ⟨s, hrun, -, hspared⟩ := elfLoad_spares_heap (show 0x100000 ≤ 0x200000 by decide) (by decide) zeros
    [.kmalloc 88, .store 0x200014 smallElf] (by decide +kernel)
  have hseen : (optRuns (heapStep (heapStart 0x200000)) (heapBoot 0x200000 zeros) [.kmalloc 88, .store 0x200014 smallElf]).map
      (fun s => decide (0x200014 ∈ s.live ∧ 88 ≤ blockSize s.memory (blockOf 0x200014) ∧
        SegmentsClear (heapBlocks (heapStart 0x200000) s.memory) s.memory 0x200014 88 ∧ (elfLoad 0x200014 88 s.memory).1 = true)) =
      some true := by decide +kernel
  rw [hrun, map_some, some_inj, decide_eq_true_eq] at hseen
  obtain ⟨hlive, hsize, hclear, hok⟩ := hseen
  exact ⟨s, hrun, hok, hspared _ hlive _ hsize hclear⟩

/-- With 3 MiB allocated before it, the same file overwrites what the first holder has at `0x400000`. -/
theorem elfLoad_overwrites : ∃ s,
    OptAlong (heapStep (heapStart 0x200000)) (fun s call => Disciplined s call ∧ Rounds call) (heapBoot 0x200000 zeros)
      [.kmalloc 0x300000, .kmalloc 88, .store 0x500028 smallElf] ∧
    optRuns (heapStep (heapStart 0x200000)) (heapBoot 0x200000 zeros) [.kmalloc 0x300000, .kmalloc 88, .store 0x500028 smallElf] = some s ∧
    0x500028 ∈ s.live ∧ 88 ≤ blockSize s.memory (blockOf 0x500028) ∧ (elfLoad 0x500028 88 s.memory).1 = true ∧
    Held (heapBlocks (heapStart 0x200000) s.memory) 0x400000 ∧ (elfLoad 0x500028 88 s.memory).2 0x400000 ≠ s.memory 0x400000 := by
  have hseen : (optRuns (heapStep (heapStart 0x200000)) (heapBoot 0x200000 zeros)
      [.kmalloc 0x300000, .kmalloc 88, .store 0x500028 smallElf]).map
      (fun s => decide (0x500028 ∈ s.live ∧ 88 ≤ blockSize s.memory (blockOf 0x500028) ∧ (elfLoad 0x500028 88 s.memory).1 = true ∧
        Held (heapBlocks (heapStart 0x200000) s.memory) 0x400000 ∧
        (elfLoad 0x500028 88 s.memory).2 0x400000 ≠ s.memory 0x400000)) = some true := by decide +kernel
  obtain ⟨s, hrun, hs⟩ := map_eq_some_iff.1 hseen
  rw [decide_eq_true_eq] at hs
  exact ⟨s, by decide +kernel, hrun, hs⟩

end PureUnix.Kernel.Elf
