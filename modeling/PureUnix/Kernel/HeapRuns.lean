import PureUnix.Kernel.HeapSpec
import PureUnix.Lib.Machine

/-!
# Every run of the heap

Callers allocate, resize and free, and write into what they hold. `live` is not in the source: it records the pointers
handed out and not yet given back. The heap stays a clean tiling, except that two calls write more than the
block they got: a `krealloc` or `kcalloc` of more than `0xFFFFFFF8` bytes, where `align8` wraps to 0.
-/
namespace PureUnix.Kernel.Heap
open Lib List Option

variable {size ptr kernelEnd : Nat}

structure HeapState where
  memory : Buf
  live : List Nat

inductive HeapCall
  | kmalloc (size : UInt32)
  | kcalloc (count size : UInt32)
  | krealloc (ptr : Nat) (size : UInt32)
  | kfree (ptr : Nat)
  /-- The holder of a block writes into it. -/
  | store (addr : Nat) (bytes : Text)

/-- A pointer is handed out, unless it is `NULL`. -/
def handOut (ptr : Nat) (live : List Nat) : List Nat := if ptr = 0 then live else ptr :: live

def heapStep (start : Nat) (s : HeapState) : HeapCall → Option HeapState
  | .kmalloc size => do
    let (ptr, m) ← kmalloc start size.toNat s.memory
    return ⟨m, handOut ptr s.live⟩
  | .kcalloc count size => do
    let (ptr, m) ← kcalloc start count.toNat size.toNat s.memory
    return ⟨m, handOut ptr s.live⟩
  | .krealloc ptr size => do
    let (next, m) ← krealloc start ptr size.toNat s.memory
    -- the old block is gone when it was freed or moved, and stays when there was no room
    return ⟨m, if next = 0 ∧ size.toNat ≠ 0 then s.live else handOut next (s.live.erase ptr)⟩
  | .kfree ptr => do
    let m ← kfree ptr s.memory
    return ⟨m, s.live.erase ptr⟩
  | .store addr bytes => some ⟨copy s.memory addr (ofList bytes) bytes.length, s.live⟩

/-- Only `NULL` or pointers not yet given back are given back or resized, and stores stay inside a held block. -/
def Disciplined (s : HeapState) : HeapCall → Prop
  | .kmalloc _ => True
  | .kcalloc _ _ => True
  | .krealloc ptr _ => ptr = 0 ∨ ptr ∈ s.live
  | .kfree ptr => ptr = 0 ∨ ptr ∈ s.live
  | .store addr bytes => ∃ ptr ∈ s.live, ptr ≤ addr ∧ addr + bytes.length ≤ ptr + blockSize s.memory (blockOf ptr)

instance (s : HeapState) : (call : HeapCall) → Decidable (Disciplined s call)
  | .kmalloc _ => isTrue trivial
  | .kcalloc _ _ => isTrue trivial
  | .krealloc ptr _ => inferInstanceAs (Decidable (ptr = 0 ∨ ptr ∈ s.live))
  | .kfree ptr => inferInstanceAs (Decidable (ptr = 0 ∨ ptr ∈ s.live))
  | .store addr bytes =>
    inferInstanceAs (Decidable (∃ ptr ∈ s.live, ptr ≤ addr ∧ addr + bytes.length ≤ ptr + blockSize s.memory (blockOf ptr)))

/-- The amounts at which rounding up does not wrap, for the calls that write into what they got. -/
def Rounds : HeapCall → Prop
  | .kcalloc count size => u32 (count.toNat * size.toNat) ≤ 0xFFFFFFF8
  | .krealloc ptr size => ptr = 0 ∨ size.toNat ≤ 0xFFFFFFF8
  | _ => True

instance : (call : HeapCall) → Decidable (Rounds call)
  | .kmalloc _ => isTrue trivial
  | .kcalloc count size => inferInstanceAs (Decidable (u32 (count.toNat * size.toNat) ≤ 0xFFFFFFF8))
  | .krealloc ptr size => inferInstanceAs (Decidable (ptr = 0 ∨ size.toNat ≤ 0xFFFFFFF8))
  | .kfree _ => isTrue trivial
  | .store _ _ => isTrue trivial

/-- **A clean tiling**: the headers in memory are those of blocks that tile the heap, no two free ones are neighbours, and the
blocks in use are the live pointers'. -/
structure Clean (start : Nat) (s : HeapState) (bs : List Block) : Prop where
  laid : Laid s.memory start bs
  apart : Apart bs
  used : (usedPayloads 20 bs).Perm s.live

def NoneFree (start : Nat) (m : Buf) (n : Nat) : Prop := ∀ b ∈ heapBlocks start m, b.free → b.size < n

theorem le_align8 (h : size ≤ 0xFFFFFFF8) : size ≤ align8 size := by
  rw [align8, u32_of_lt (by omega)]
  omega

theorem krealloc_moved {next start : Nat} {m m' : Buf} (h0 : ptr ≠ 0) (hsize : size ≠ 0) (hsmall : ¬ size ≤ blockSize m (blockOf ptr))
    (hrun : kmalloc start size m = some (next, m')) (hnext : next ≠ 0) :
    krealloc start ptr size m = (kfree ptr (Libc.memcpy m' next ptr (blockSize m' (blockOf ptr)))).map (next, ·) := by
  rw [krealloc, if_neg h0, if_neg hsize, if_neg hsmall, hrun]
  simp only [bind_eq_bind, bind_some, if_neg hnext]
  cases kfree ptr (Libc.memcpy m' next ptr (blockSize m' (blockOf ptr))) <;> rfl

namespace Clean
variable {start size ptr : Nat} {s : HeapState} {bs : List Block}

section
variable (h : Clean start s bs)
include h

theorem block_of (hp : ptr ∈ s.live) :
    ∃ l k l', bs = l ++ k :: l' ∧ k.free = false ∧ ptr = k.addr + 20 ∧ blockOf ptr = k.addr := by
  obtain ⟨k, hk, hused, rfl⟩ := mem_usedPayloads.1 (h.used.mem_iff.2 hp)
  obtain ⟨l, l', rfl⟩ := append_of_mem hk
  exact ⟨l, k, l', rfl, hused, rfl, h.laid.blockOf_eq hk⟩

theorem live_ne_zero : 0 ∉ s.live := by
  intro h0
  obtain ⟨l, k, l', -, -, h0, -⟩ := h.block_of h0
  omega

/-- **`kmalloc` in a clean heap**: nothing free is large enough for the rounded amount, or a block is handed out and what
callers hold stays. -/
theorem kmalloc_cases (hsize : size ≠ 0) :
    (Heap.kmalloc start size s.memory = some (0, s.memory) ∧ NoneFree start s.memory (align8 size)) ∨
    (¬ NoneFree start s.memory (align8 size) ∧ ∃ k m' bs', Heap.kmalloc start size s.memory = some (k.addr + 20, m') ∧
      Clean start ⟨m', (k.addr + 20) :: s.live⟩ bs' ∧ (k ∈ bs' ∧ k.free = false ∧ align8 size ≤ k.size) ∧
      (∀ d ∈ bs, d.free = false → d ∈ bs') ∧ ∀ i, InUse bs i → m' i = s.memory i) := by
  have hblocks := h.laid.heapBlocks_eq
  rcases kmalloc_spec h.laid hsize with ⟨hrun, hnone⟩ | ⟨l, k, l', rfl, hfree, hroom, hrun, hlaid, hbytes⟩
  · refine .inl ⟨hrun, fun b hb hfree => hnone b ?_ hfree⟩
    rwa [hblocks] at hb
  obtain ⟨c, rest, hc, haddr, hcused, hcsize⟩ := carve_head 20 16 hroom
  rw [← haddr] at hrun hlaid hbytes
  refine .inr ⟨fun hno => ?_, c, _, _, hrun, ⟨hlaid, carve_apart h.apart hfree, ?_⟩, ⟨by simp [hc], hcused, hcsize⟩, ?_, hbytes⟩
  · have := hno k (by simp [hblocks]) hfree
    omega
  · have hold := h.used
    rw [usedPayloads_append, usedPayloads_free hfree] at hold
    rw [usedPayloads_append, usedPayloads_append, usedPayloads_carve, haddr]
    exact perm_middle.trans (hold.cons _)
  · intro d hd hused
    simp only [mem_append, mem_cons] at hd ⊢
    rcases hd with hd | rfl | hd
    · exact .inl hd
    · rw [hfree] at hused
      exact absurd hused (by decide)
    · exact .inr (.inr hd)

/-- `kmalloc` keeps the tiling and hands out a new block with room for what was asked, as rounded. -/
theorem kmalloc (size : Nat) :
    ∃ ptr m' bs', Heap.kmalloc start size s.memory = some (ptr, m') ∧ Clean start ⟨m', handOut ptr s.live⟩ bs' ∧
      (ptr ≠ 0 → ∃ k ∈ bs', ptr = k.addr + 20 ∧ align8 size ≤ k.size) := by
  by_cases hsize : size = 0
  · exact ⟨0, s.memory, bs, if_pos hsize, h, fun h0 => absurd rfl h0⟩
  rcases h.kmalloc_cases hsize with ⟨hrun, -⟩ | ⟨-, k, m', bs', hrun, hclean, ⟨hk, -, hroom⟩, -⟩
  · exact ⟨0, s.memory, bs, hrun, h, fun h0 => absurd rfl h0⟩
  · exact ⟨_, m', bs', hrun, hclean, fun _ => ⟨k, hk, rfl, hroom⟩⟩

/-- `kfree` keeps the tiling and takes the pointer back. -/
theorem kfree (hp : ptr ∈ s.live) : ∃ m' bs', Heap.kfree ptr s.memory = some m' ∧ Clean start ⟨m', s.live.erase ptr⟩ bs' ∧
    (∀ d ∈ bs, d.free = false → d.addr + 20 ≠ ptr → d ∈ bs') ∧ ∀ i, ¬ InHeader bs i → m' i = s.memory i := by
  obtain ⟨l, k, l', rfl, hused, rfl, -⟩ := h.block_of hp
  obtain ⟨m', bs', hrun, hf⟩ := kfree_spec h.laid h.apart
  refine ⟨m', bs', hrun, ⟨hf.laid, hf.apart, ?_⟩, fun d hd hdused hne => hf.kept d ?_ hdused, hf.bytes⟩
  · have hold : (usedPayloads 20 l ++ (k.addr + 20) :: usedPayloads 20 l').Perm s.live := by
      have := h.used
      simpa [usedPayloads, hused] using this
    rw [hf.used, usedPayloads_append]
    have herase := (perm_middle.symm.trans hold).erase (k.addr + 20)
    rwa [erase_cons_head] at herase
  · rcases mem_append.1 hd with hd | hd
    · exact mem_append_left _ hd
    · exact mem_append_right _ ((mem_cons.1 hd).resolve_left fun he => hne (he ▸ rfl))

theorem live_nodup : s.live.Nodup :=
  h.used.nodup_iff.1 (usedPayloads_nodup h.laid.tiles (by omega))

theorem perm {live : List Nat} (hp : s.live.Perm live) : Clean start ⟨s.memory, live⟩ bs :=
  ⟨h.laid, h.apart, h.used.trans hp⟩

theorem write_inside {k : Block} (hk : k ∈ bs) {src : Buf} {off len : Nat} (h1 : k.addr + 20 ≤ off)
    (h2 : off + len ≤ k.addr + 20 + k.size) : Clean start ⟨copy s.memory off src len, s.live⟩ bs :=
  ⟨h.laid.write_inside hk h1 h2, h.apart, h.used⟩

/-- A block that `krealloc` moves: the old bytes fit into the new one, and then the old one goes. -/
theorem krealloc_moves {k d : Block} {m' : Buf} {bs' : List Block} (hk : k ∈ bs) (hused : k.free = false) (hbig : k.size < size)
    (hwrap : size ≤ 0xFFFFFFF8) (hrun : Heap.kmalloc start size s.memory = some (d.addr + 20, m'))
    (hclean : Clean start ⟨m', (d.addr + 20) :: s.live⟩ bs') (hd : d ∈ bs' ∧ d.free = false ∧ align8 size ≤ d.size)
    (hkept : ∀ c ∈ bs, c.free = false → c ∈ bs') (hsame : ∀ i, InUse bs i → m' i = s.memory i) :
    ∃ m'' bs'', krealloc start (k.addr + 20) size s.memory = some (d.addr + 20, m'') ∧
      Clean start ⟨m'', (d.addr + 20) :: s.live.erase (k.addr + 20)⟩ bs'' ∧ d ∈ bs'' ∧
      ∀ i < k.size, m'' (d.addr + 20 + i) = s.memory (k.addr + 20 + i) := by
  obtain ⟨hdmem, hdused, hdroom⟩ := hd
  have hle := (le_align8 hwrap).trans hdroom
  have hblock := h.laid.blockOf_eq hk
  have hlive : k.addr + 20 ∈ s.live := h.used.mem_iff.1 (mem_usedPayloads.2 ⟨k, hk, hused, rfl⟩)
  have hkmem := hkept k hk hused
  have hne : d.addr + 20 ≠ k.addr + 20 := fun he => (nodup_cons.1 hclean.live_nodup).1 (he ▸ hlive)
  -- the two blocks do not overlap
  have hcopy : Libc.memcpy m' (d.addr + 20) (k.addr + 20) k.size =
      copy m' (d.addr + 20) (fun j => m' (k.addr + 20 + j)) k.size := by
    have hdbound := hclean.laid.bound hdmem
    have hkbound := hclean.laid.bound hkmem
    refine Libc.copyUp_eq (by omega) (by omega) ?_ m'
    rcases hclean.laid.tiles.separate hdmem hkmem with rfl | hsep
    · exact absurd rfl hne
    · omega
  have hcopied : Clean start ⟨copy m' (d.addr + 20) (fun j => m' (k.addr + 20 + j)) k.size, (d.addr + 20) :: s.live⟩ bs' :=
    hclean.write_inside hdmem le_rfl (by omega)
  obtain ⟨m'', bs'', hfree, hdone, hstay, hbytes⟩ := hcopied.kfree (mem_cons_of_mem _ hlive)
  rw [erase_cons_tail (by simpa using hne)] at hdone
  refine ⟨m'', bs'', ?_, hdone, hstay d hdmem hdused hne, fun i hi => ?_⟩
  · rw [krealloc_moved (by omega) (by omega) (by rw [hblock, h.laid.size_eq hk]; omega) hrun (by omega), hblock,
      hclean.laid.size_eq hkmem, hcopy, hfree]
    rfl
  · -- the copied byte is no header's, and the byte it was copied from was in use
    have hnew : InUse bs' (d.addr + 20 + i) := ⟨d, hdmem, hdused, by omega, by omega⟩
    rw [hbytes _ (hnew.not_inHeader hcopied.laid), ← hsame _ ⟨k, hk, hused, by omega, by omega⟩]
    dsimp only
    rw [copy, if_pos (by omega), Nat.add_sub_cancel_left]

end

end Clean

/-! ## One call, and every run -/

section Steps
variable {start : Nat} {s : HeapState} {bs : List Block}

theorem kcalloc_clean (h : Clean start s bs) {count : Nat} (hround : u32 (count * size) ≤ 0xFFFFFFF8) :
    ∃ ptr m' bs', kcalloc start count size s.memory = some (ptr, m') ∧ Clean start ⟨m', handOut ptr s.live⟩ bs' := by
  obtain ⟨ptr, m', bs', hrun, hclean, hroom⟩ := h.kmalloc (u32 (count * size))
  by_cases hptr : ptr = 0
  · exact ⟨ptr, m', bs', by simp [kcalloc, hrun, hptr], hclean⟩
  obtain ⟨k, hk, rfl, hsize⟩ := hroom hptr
  have hle := (le_align8 hround).trans hsize
  refine ⟨k.addr + 20, clear m' (k.addr + 20) (u32 (count * size)), bs', by simp [kcalloc, hrun], ?_⟩
  exact hclean.write_inside hk le_rfl (by omega)

theorem krealloc_clean (h : Clean start s bs) (hptr : ptr = 0 ∨ ptr ∈ s.live) (hround : ptr = 0 ∨ size ≤ 0xFFFFFFF8) :
    ∃ next m' bs', krealloc start ptr size s.memory = some (next, m') ∧
      Clean start ⟨m', if next = 0 ∧ size ≠ 0 then s.live else handOut next (s.live.erase ptr)⟩ bs' := by
  by_cases h0 : ptr = 0
  · subst h0
    obtain ⟨next, m', bs', hrun, hclean, -⟩ := h.kmalloc size
    refine ⟨next, m', bs', by rw [krealloc, if_pos rfl, hrun], ?_⟩
    rw [erase_of_not_mem h.live_ne_zero]
    split
    · rename_i hnext
      rwa [handOut, if_pos hnext.1] at hclean
    · exact hclean
  replace hptr := hptr.resolve_left h0
  replace hround := hround.resolve_left h0
  by_cases hsize : size = 0
  · obtain ⟨m', bs', hrun, hclean, -⟩ := h.kfree hptr
    exact ⟨0, m', bs', by simp [krealloc, h0, hsize, hrun], by simpa [hsize, handOut] using hclean⟩
  obtain ⟨l, k, l', rfl, hused, rfl, hblock⟩ := h.block_of hptr
  have hk : k ∈ l ++ k :: l' := by simp
  have hold : blockSize s.memory (blockOf (k.addr + 20)) = k.size := by rw [hblock, h.laid.size_eq hk]
  by_cases hfits : size ≤ k.size
  · -- the block is large enough as it is
    refine ⟨k.addr + 20, s.memory, l ++ k :: l', by rw [krealloc, if_neg h0, if_neg hsize, if_pos (hold ▸ hfits)], ?_⟩
    exact h.perm (perm_cons_erase hptr)
  rcases h.kmalloc_cases hsize with ⟨hrun, -⟩ | ⟨-, d, m', bs', hrun, hclean, hd, hkept, hsame⟩
  · exact ⟨0, s.memory, _, by simp [krealloc, hsize, hold, hfits, hrun], by rwa [if_pos ⟨rfl, hsize⟩]⟩
  · obtain ⟨m'', bs'', hmoved, hdone, -⟩ := h.krealloc_moves hk hused (by omega) hround hrun hclean hd hkept hsame
    exact ⟨_, m'', bs'', hmoved, hdone⟩

/-- **One call keeps the tiling.** -/
theorem heapStep_clean (h : Clean start s bs) {call : HeapCall} (hdis : Disciplined s call) (hround : Rounds call) :
    ∃ s', heapStep start s call = some s' ∧ ∃ bs', Clean start s' bs' := by
  cases call with
  | kmalloc size =>
    obtain ⟨ptr, m', bs', hrun, hclean, -⟩ := h.kmalloc size.toNat
    exact ⟨_, by simp [heapStep, hrun], bs', hclean⟩
  | kcalloc count size =>
    obtain ⟨ptr, m', bs', hrun, hclean⟩ := kcalloc_clean h hround
    exact ⟨_, by simp [heapStep, hrun], bs', hclean⟩
  | krealloc ptr size =>
    obtain ⟨next, m', bs', hrun, hclean⟩ := krealloc_clean h hdis hround
    exact ⟨_, by simp [heapStep, hrun], bs', hclean⟩
  | kfree ptr =>
    rcases hdis with rfl | hp
    · refine ⟨s, ?_, bs, h⟩
      rw [heapStep, erase_of_not_mem h.live_ne_zero]
      rfl
    · obtain ⟨m', bs', hrun, hclean, -⟩ := h.kfree hp
      exact ⟨_, by simp [heapStep, hrun], bs', hclean⟩
  | store addr bytes =>
    obtain ⟨ptr, hp, h1, h2⟩ := hdis
    obtain ⟨l, k, l', rfl, -, rfl, hblock⟩ := h.block_of hp
    have hk : k ∈ l ++ k :: l' := by simp
    rw [hblock, h.laid.size_eq hk] at h2
    exact ⟨_, rfl, _, h.write_inside hk h1 h2⟩

end Steps

/-! ## From `heap_init` on -/

theorem heapInit_clean {start : Nat} (hpos : 0 < start) (hfits : start + HEAP_SIZE < 4294967296) (memory : Buf) :
    Clean start ⟨heapInit start memory, []⟩ [⟨start, HEAP_SIZE - 20, true⟩] := by
  have hheap : HEAP_SIZE = 8388608 := rfl
  have hheader : header (heapInit start memory) start = ⟨⟨HEAP_MAGIC, HEAP_SIZE - 20, true⟩, 0, 0⟩ := by
    rw [heapInit, header_setPrev (by omega), header_setNext (by omega), header_setFree, header_setSize (by omega),
      header_setMagic (by decide)]
  refine ⟨⟨hpos, hfits, ⟨start, ?_⟩, ?_⟩, isChain_singleton _, by simp [usedPayloads]⟩
  · simp [Seg, hheader, blockData]
  · simp only [Tiles, true_and]
    omega

def heapBoot (kernelEnd : Nat) (memory : Buf) : HeapState := ⟨heapInit (heapStart kernelEnd) memory, []⟩

theorem heapBoot_clean (hkernel : kernelStart ≤ kernelEnd) (hroom : kernelEnd + 4096 + HEAP_SIZE ≤ 2 ^ 32) (memory : Buf) :
    ∃ bs, Clean (heapStart kernelEnd) (heapBoot kernelEnd memory) bs := by
  have hstart := alignUp_spec (v := kernelEnd) (by omega)
  rw [kernelStart] at hkernel
  have hpos : 0 < heapStart kernelEnd := by
    rw [heapStart]
    omega
  have hfits : heapStart kernelEnd + HEAP_SIZE < 4294967296 := by
    rw [heapStart]
    omega
  exact ⟨_, heapInit_clean hpos hfits memory⟩

/-- Every call of such a run returns, and the heap is clean afterwards. -/
theorem heapRun_clean (hkernel : kernelStart ≤ kernelEnd) (hroom : kernelEnd + 4096 + HEAP_SIZE ≤ 2 ^ 32) {memory : Buf}
    {calls : List HeapCall}
    (hcalls : OptAlong (heapStep (heapStart kernelEnd)) (fun s call => Disciplined s call ∧ Rounds call) (heapBoot kernelEnd memory) calls) :
    ∃ s bs, optRuns (heapStep (heapStart kernelEnd)) (heapBoot kernelEnd memory) calls = some s ∧ Clean (heapStart kernelEnd) s bs := by
  have hstep : ∀ (s : HeapState) (call : HeapCall), (∃ bs, Clean (heapStart kernelEnd) s bs) → Disciplined s call ∧ Rounds call →
      ∃ s', heapStep (heapStart kernelEnd) s call = some s' ∧ ∃ bs, Clean (heapStart kernelEnd) s' bs :=
    fun s call ⟨bs, h⟩ hok => heapStep_clean h hok.1 hok.2
  obtain ⟨s, hrun, bs, hclean⟩ := optRuns_invariant hstep (heapBoot_clean hkernel hroom memory) hcalls
  exact ⟨s, bs, hrun, hclean⟩

/-- **The heap stays a clean tiling** in every run whose amounts do not wrap. -/
theorem heap_stays_clean {kernelEnd : Nat} (hkernel : kernelStart ≤ kernelEnd) (hroom : kernelEnd + 4096 + HEAP_SIZE ≤ 2 ^ 32)
    (memory : Buf) (calls : List HeapCall)
    (hcalls : OptAlong (heapStep (heapStart kernelEnd)) (fun s call => Disciplined s call ∧ Rounds call) (heapBoot kernelEnd memory) calls) :
    ∃ s bs, optRuns (heapStep (heapStart kernelEnd)) (heapBoot kernelEnd memory) calls = some s ∧ Clean (heapStart kernelEnd) s bs ∧
      (bs.map fun b => 20 + b.size).sum = HEAP_SIZE ∧
      bs.Pairwise (fun b c => b.addr + 20 + b.size ≤ c.addr) ∧
      (s.live = [] → bs = [⟨heapStart kernelEnd, HEAP_SIZE - 20, true⟩]) := by
  have hheap : HEAP_SIZE = 8388608 := rfl
  obtain ⟨s, bs, hrun, hclean⟩ := heapRun_clean hkernel hroom hcalls
  refine ⟨s, bs, hrun, hclean, ?_, hclean.laid.tiles.ordered, ?_⟩
  · have := hclean.laid.tiles.total
    omega
  · intro hlive
    have hfree : ∀ b ∈ bs, b.free := by
      intro b hb
      by_contra hused
      have hmem : b.addr + 20 ∈ usedPayloads 20 bs := mem_usedPayloads.2 ⟨b, hb, by simpa using hused, rfl⟩
      rw [hclean.used.mem_iff, hlive] at hmem
      exact not_mem_nil hmem
    have hone := hclean.laid.tiles.single hclean.apart hfree (by omega)
    rwa [Nat.add_sub_cancel_left] at hone

/-- A block is moved and everything freed: one block again. -/
theorem heap_stays_clean_moved : ∃ s, optRuns (heapStep (heapStart 0x200000)) (heapBoot 0x200000 zeros)
    [.kmalloc 24, .kcalloc 2 8, .krealloc 0x200014 100, .kfree 0x200040, .kfree 0x200064] = some s ∧
      Clean (heapStart 0x200000) s [⟨0x200000, HEAP_SIZE - 20, true⟩] := by
  obtain ⟨s, bs, hrun, hclean, -, -, hone⟩ := heap_stays_clean (show kernelStart ≤ 0x200000 by decide) (by decide) zeros
    [.kmalloc 24, .kcalloc 2 8, .krealloc 0x200014 100, .kfree 0x200040, .kfree 0x200064] (by decide +kernel)
  have hlive : (optRuns (heapStep (heapStart 0x200000)) (heapBoot 0x200000 zeros)
      [.kmalloc 24, .kcalloc 2 8, .krealloc 0x200014 100, .kfree 0x200040, .kfree 0x200064]).map HeapState.live = some [] := by
    decide +kernel
  rw [hrun, map_some, some_inj] at hlive
  exact ⟨s, hrun, hone hlive ▸ hclean⟩

/-- `krealloc` to `0xFFFFFFFF` bytes takes a block of none, copies the old bytes over the header behind it, and the list
has lost a magic. -/
theorem krealloc_overruns : ∃ s, OptAlong (heapStep (heapStart 0x200000)) Disciplined (heapBoot 0x200000 zeros)
      [.kmalloc 24, .krealloc 0x200014 0xFFFFFFFF] ∧
    optRuns (heapStep (heapStart 0x200000)) (heapBoot 0x200000 zeros) [.kmalloc 24, .krealloc 0x200014 0xFFFFFFFF] = some s ∧
    ¬ ∃ bs, Clean (heapStart 0x200000) s bs := by
  have hseen : (optRuns (heapStep (heapStart 0x200000)) (heapBoot 0x200000 zeros) [.kmalloc 24, .krealloc 0x200014 0xFFFFFFFF]).map
      (fun s => (blockNext s.memory 0x200000, blockNext s.memory 0x20002C, blockMagic s.memory 0x200040)) =
      some (0x20002C, 0x200040, 0) := by decide +kernel
  obtain ⟨s, hrun, hs⟩ := map_eq_some_iff.1 hseen
  simp only [Prod.mk.injEq] at hs
  obtain ⟨h1, h2, h3⟩ := hs
  refine ⟨s, by decide +kernel, hrun, ?_⟩
  rintro ⟨bs, hclean⟩
  -- the links lead over the first two headers to the one overwritten
  obtain ⟨b0, hb0, ha0⟩ := hclean.laid.start_mem
  rw [show heapStart 0x200000 = 0x200000 by decide] at ha0
  obtain ⟨b1, hb1, ha1⟩ := hclean.laid.next_mem hb0 (by rw [ha0, h1]; decide)
  rw [ha0, h1] at ha1
  obtain ⟨b2, hb2, ha2⟩ := hclean.laid.next_mem hb1 (by rw [ha1, h2]; decide)
  rw [ha1, h2] at ha2
  have hmagic := hclean.laid.magic_eq hb2
  rw [ha2, h3] at hmagic
  exact absurd hmagic (by decide)

end PureUnix.Kernel.Heap
