import PureUnix.Kernel.HeapRuns

/-!
# What an allocation is worth

The sizes and contents of what `kmalloc`, `kcalloc` and `krealloc` return. The functions write headers only, so the bytes
callers hold stay. An amount that wraps, when it is rounded up to 8 or multiplied, is answered with a block that is
too small.
-/
namespace PureUnix.Kernel.Heap
open Lib List Nat
open Option

variable {n count ptr : Nat}

/-! ## What a call promises -/

/-- A block at `ptr` with at least `n` bytes, all of them in the heap. -/
structure HasRoom (start : Nat) (m : Buf) (ptr n : Nat) : Prop where
  inside : ptr + n ≤ start + HEAP_SIZE
  room : n ≤ blockSize m (blockOf ptr)

/-- The call returns, what it returns has the size asked for and the contents due, and a request that no free block can
serve is answered with `NULL` and changes nothing. -/
def Served (start : Nat) (s : HeapState) : HeapCall → Prop
  | .kmalloc size => ∃ ptr m', kmalloc start size.toNat s.memory = some (ptr, m') ∧
      (ptr ≠ 0 → HasRoom start m' ptr size.toNat) ∧
      (NoneFree start s.memory size.toNat → ptr = 0 ∧ m' = s.memory)
  | .kcalloc count size => ∃ ptr m', kcalloc start count.toNat size.toNat s.memory = some (ptr, m') ∧
      (ptr ≠ 0 → HasRoom start m' ptr (count.toNat * size.toNat) ∧ ∀ i < count.toNat * size.toNat, m' (ptr + i) = 0) ∧
      (NoneFree start s.memory (count.toNat * size.toNat) → ptr = 0 ∧ m' = s.memory)
  | .krealloc ptr size => ∃ next m', krealloc start ptr size.toNat s.memory = some (next, m') ∧
      (next ≠ 0 → HasRoom start m' next size.toNat ∧ (ptr ≠ 0 →
        ∀ i < min (blockSize s.memory (blockOf ptr)) size.toNat, m' (next + i) = s.memory (ptr + i))) ∧
      (NoneFree start s.memory size.toNat → (ptr ≠ 0 → blockSize s.memory (blockOf ptr) < size.toNat) → next = 0 ∧ m' = s.memory)
  | _ => True

/-- The amounts that do not wrap, and the wrapped ones that no free block can serve. -/
def AmountFits (start : Nat) (s : HeapState) : HeapCall → Prop
  | .kmalloc size => size.toNat ≤ 0xFFFFFFF8 ∨ NoneFree start s.memory 0
  | .kcalloc count size => count.toNat * size.toNat ≤ 0xFFFFFFF8 ∨ u32 (count.toNat * size.toNat) = 0 ∨
      NoneFree start s.memory (align8 (u32 (count.toNat * size.toNat)))
  | .krealloc _ size => size.toNat ≤ 0xFFFFFFF8 ∨ NoneFree start s.memory 0
  | _ => True

/-! ## One call -/

theorem align8_wraps (h : 0xFFFFFFF8 < n) (hlt : n < 4294967296) : align8 n = 0 := by
  rw [align8, u32]
  omega

theorem NoneFree.mono {start : Nat} {m : Buf} {n' : Nat} (h : NoneFree start m n) (hle : n ≤ n') : NoneFree start m n' :=
  fun b hb hfree => (h b hb hfree).trans_le hle

section Calls
variable {start size : Nat} {s : HeapState} {bs : List Block} {k : Block} {m m' : Buf} {call : HeapCall}

theorem Laid.hasRoom (h : Laid m start bs) (hk : k ∈ bs) (hn : n ≤ k.size) : HasRoom start m (k.addr + 20) n := by
  have htiles := h.tiles.bounds hk
  refine ⟨by omega, ?_⟩
  rw [h.blockOf_eq hk, h.size_eq hk]
  exact hn

/-- Nothing in the heap has more than 4 GiB. -/
theorem Laid.not_hasRoom (h : Laid m start bs) (hk : k ∈ bs) (hn : 0xFFFFFFF8 < n) : ¬ HasRoom start m' (k.addr + 20) n := by
  intro hroom
  have hheap : HEAP_SIZE = 8388608 := rfl
  have hinside := hroom.inside
  have htiles := h.tiles.bounds hk
  omega

theorem Clean.kmalloc_served (h : Clean start s bs) (n : UInt32) :
    Served start s (.kmalloc n) ↔ AmountFits start s (.kmalloc n) := by
  have hlt : n.toNat < 4294967296 := n.toNat_lt
  by_cases hzero : n.toNat = 0
  · refine iff_of_true ⟨0, s.memory, if_pos hzero, fun h0 => absurd rfl h0, fun _ => ⟨rfl, rfl⟩⟩ (.inl (by omega))
  rcases h.kmalloc_cases hzero with ⟨hrun, hnone⟩ | ⟨hsome, k, m', bs', hrun, hclean, ⟨hk, -, hroom⟩, -⟩
  · refine iff_of_true ⟨0, s.memory, hrun, fun h0 => absurd rfl h0, fun _ => ⟨rfl, rfl⟩⟩ ?_
    by_cases hwrap : n.toNat ≤ 0xFFFFFFF8
    · exact .inl hwrap
    · exact .inr (align8_wraps (by omega) hlt ▸ hnone)
  by_cases hwrap : n.toNat ≤ 0xFFFFFFF8
  · have hle := le_align8 hwrap
    refine iff_of_true ⟨k.addr + 20, m', hrun, fun _ => hclean.laid.hasRoom hk (hle.trans hroom), fun hno => ?_⟩ (.inl hwrap)
    exact absurd (hno.mono hle) hsome
  refine iff_of_false ?_ ?_
  · rintro ⟨ptr, m'', hrun', hsize, -⟩
    obtain ⟨rfl, rfl⟩ := Prod.mk.inj (some.inj (hrun'.symm.trans hrun))
    exact hclean.laid.not_hasRoom hk (by omega) (hsize (by omega))
  · rintro (hle | hno)
    · exact hwrap hle
    · exact hsome (align8_wraps (by omega) hlt ▸ hno)

theorem kcalloc_null (hrun : kmalloc start (u32 (count * size)) m = some (0, m')) :
    kcalloc start count size m = some (0, m') := by
  simp [kcalloc, hrun]

theorem kcalloc_clears (hrun : kmalloc start (u32 (count * size)) m = some (ptr, m')) (hptr : ptr ≠ 0) :
    kcalloc start count size m = some (ptr, clear m' ptr (u32 (count * size))) := by
  simp [kcalloc, hrun, hptr]

section
variable (h : Clean start s bs)
include h

theorem Clean.kcalloc_served (c n : UInt32) : Served start s (.kcalloc c n) ↔ AmountFits start s (.kcalloc c n) := by
  have hnull : Heap.kmalloc start (u32 (c.toNat * n.toNat)) s.memory = some (0, s.memory) → Served start s (.kcalloc c n) :=
    fun hrun => ⟨0, s.memory, kcalloc_null hrun, fun h0 => absurd rfl h0, fun _ => ⟨rfl, rfl⟩⟩
  by_cases hzero : u32 (c.toNat * n.toNat) = 0
  · exact iff_of_true (hnull (if_pos hzero)) (.inr (.inl hzero))
  rcases h.kmalloc_cases hzero with ⟨hrun, hnone⟩ | ⟨hsome, k, m', bs', hrun, hclean, ⟨hk, -, hroom⟩, -⟩
  · exact iff_of_true (hnull hrun) (.inr (.inr hnone))
  have hcalloc := kcalloc_clears hrun (by omega)
  by_cases hwrap : c.toNat * n.toNat ≤ 0xFFFFFFF8
  · have htotal : u32 (c.toNat * n.toNat) = c.toNat * n.toNat := u32_of_lt (by omega)
    rw [htotal] at hroom hsome hcalloc
    have hle := le_align8 hwrap
    have hcleared : Laid (copy m' (k.addr + 20) zeros (c.toNat * n.toNat)) start bs' :=
      hclean.laid.write_inside hk le_rfl (Nat.add_le_add_left (hle.trans hroom) _)
    refine iff_of_true ⟨_, _, hcalloc, fun _ => ⟨hcleared.hasRoom hk (hle.trans hroom), fun i hi => ?_⟩, fun hno => ?_⟩ (.inl hwrap)
    · rw [clear, copy, if_pos (by omega)]
      rfl
    · exact absurd (hno.mono hle) hsome
  · refine iff_of_false ?_ ?_
    · rintro ⟨ptr, m'', hrun', hsize, -⟩
      obtain ⟨rfl, rfl⟩ := Prod.mk.inj (some.inj (hrun'.symm.trans hcalloc))
      exact hclean.laid.not_hasRoom hk (by omega) (hsize (by omega)).1
    · rintro (hle | h0 | hno)
      · exact hwrap hle
      · exact hzero h0
      · exact hsome hno

theorem Clean.krealloc_served (hptr : ptr = 0 ∨ ptr ∈ s.live) (n : UInt32) :
    Served start s (.krealloc ptr n) ↔ AmountFits start s (.krealloc ptr n) := by
  have hlt : n.toNat < 4294967296 := n.toNat_lt
  by_cases h0 : ptr = 0
  · subst h0
    have hmalloc := h.kmalloc_served n
    simpa only [Served, AmountFits, krealloc, if_true, ne_eq, not_true_eq_false, false_implies, and_true, true_implies]
  obtain ⟨l, k, l', rfl, hused, rfl, hblock⟩ := h.block_of (hptr.resolve_left h0)
  have hk : k ∈ l ++ k :: l' := by simp
  have hle := h.laid.size_le hk
  have hheap : HEAP_SIZE = 8388608 := rfl
  have hold : blockSize s.memory (blockOf (k.addr + 20)) = k.size := by rw [hblock, h.laid.size_eq hk]
  by_cases hzero : n.toNat = 0
  · obtain ⟨m', bs', hrun, -⟩ := h.kfree (hptr.resolve_left h0)
    refine iff_of_true ⟨0, m', by simp [krealloc, hzero, hrun], fun hne => absurd rfl hne, fun _ hbig => ?_⟩ (.inl (by omega))
    omega
  by_cases hfits : n.toNat ≤ k.size
  · refine iff_of_true ⟨k.addr + 20, s.memory, ?_, fun _ => ⟨h.laid.hasRoom hk hfits, fun _ i _ => rfl⟩, fun _ hbig => ?_⟩
      (.inl (by omega))
    · rw [krealloc, if_neg h0, if_neg hzero, if_pos (hold ▸ hfits)]
    · omega
  rcases h.kmalloc_cases hzero with ⟨hrun, hnone⟩ | ⟨hsome, d, m', bs', hrun, hclean, hd, hkept, hsame⟩
  · refine iff_of_true ⟨0, s.memory, by simp [krealloc, hzero, hold, hfits, hrun], fun hne => absurd rfl hne, fun _ _ => ⟨rfl, rfl⟩⟩ ?_
    by_cases hwrap : n.toNat ≤ 0xFFFFFFF8
    · exact .inl hwrap
    · exact .inr (align8_wraps (by omega) hlt ▸ hnone)
  by_cases hwrap : n.toNat ≤ 0xFFFFFFF8
  · obtain ⟨m'', bs'', hmoved, hdone, hdmem, hbytes⟩ := h.krealloc_moves hk hused (by omega) hwrap hrun hclean hd hkept hsame
    have hroom := hdone.laid.hasRoom hdmem ((le_align8 hwrap).trans hd.2.2)
    refine iff_of_true ⟨_, m'', hmoved, fun _ => ⟨hroom, fun _ i hi => hbytes i (by omega)⟩, fun hno _ => ?_⟩ (.inl hwrap)
    exact absurd (hno.mono (le_align8 hwrap)) hsome
  · refine iff_of_false ?_ ?_
    · rintro ⟨next, m'', hrun', hsize, -⟩
      rw [krealloc_moved h0 hzero (hold ▸ hfits) hrun (by omega)] at hrun'
      obtain ⟨m3, -, heq⟩ := Option.map_eq_some_iff.1 hrun'
      obtain ⟨rfl, -⟩ := Prod.mk.inj heq
      exact hclean.laid.not_hasRoom hd.1 (by omega) (hsize (by omega)).1
    · rintro (hle' | hno)
      · exact hwrap hle'
      · exact hsome (align8_wraps (by omega) hlt ▸ hno)

theorem Clean.served_iff (hdis : Disciplined s call) : Served start s call ↔ AmountFits start s call := by
  cases call with
  | kmalloc n => exact h.kmalloc_served n
  | kcalloc c n => exact h.kcalloc_served c n
  | krealloc ptr n => exact h.krealloc_served hdis n
  | kfree ptr => exact Iff.rfl
  | store addr bytes => exact Iff.rfl

/-- A wrapped amount that is answered with `NULL` does no harm. -/
theorem Clean.refused (hdis : Disciplined s call) (hfits : AmountFits start s call)
    (hround : ¬ Rounds call) : heapStep start s call = some s := by
  cases call with
  | kmalloc n => exact absurd trivial hround
  | kcalloc c n =>
    simp only [Rounds] at hround
    have hle : u32 (c.toNat * n.toNat) ≤ c.toNat * n.toNat := mod_le _ _
    have hnone := (hfits.resolve_left (by omega)).resolve_left (by omega)
    have hzero : u32 (c.toNat * n.toNat) ≠ 0 := by omega
    rcases h.kmalloc_cases hzero with ⟨hrun, -⟩ | ⟨hsome, -⟩
    · simp [heapStep, kcalloc_null hrun, handOut]
    · exact absurd hnone hsome
  | krealloc ptr n =>
    simp only [Rounds, not_or] at hround
    obtain ⟨h0, hwrap⟩ := hround
    have hnone : NoneFree start s.memory 0 := hfits.resolve_left hwrap
    obtain ⟨l, k, l', rfl, hused, rfl, hblock⟩ := h.block_of (hdis.resolve_left h0)
    have hk : k ∈ l ++ k :: l' := by simp
    have hle := h.laid.size_le hk
    have hheap : HEAP_SIZE = 8388608 := rfl
    have hsmall : ¬ n.toNat ≤ blockSize s.memory (blockOf (k.addr + 20)) := by
      rw [hblock, h.laid.size_eq hk]
      omega
    have hne : n.toNat ≠ 0 := by omega
    rcases h.kmalloc_cases hne with ⟨hrun, -⟩ | ⟨hsome, -⟩
    · simp [heapStep, krealloc, hne, hsmall, hrun]
    · exact absurd (hnone.mono (zero_le _)) hsome
  | kfree ptr => exact absurd trivial hround
  | store addr bytes => exact absurd trivial hround

end

end Calls

/-! ## Every run -/

/-- **An allocation is as large as asked exactly when its amount does not wrap**, in every state reached from `heap_init`
by calls that return a block as large as asked or write no further than the one they got. -/
theorem allocation_sizes_iff {kernelEnd : Nat} (hkernel : kernelStart ≤ kernelEnd) (hroom : kernelEnd + 4096 + HEAP_SIZE ≤ 2 ^ 32)
    (memory : Buf) (calls : List HeapCall)
    (hcalls : OptAlong (heapStep (heapStart kernelEnd))
      (fun s call => Disciplined s call ∧ (AmountFits (heapStart kernelEnd) s call ∨ Rounds call)) (heapBoot kernelEnd memory) calls) :
    ∃ s, optRuns (heapStep (heapStart kernelEnd)) (heapBoot kernelEnd memory) calls = some s ∧
      ∀ call, Disciplined s call → (Served (heapStart kernelEnd) s call ↔ AmountFits (heapStart kernelEnd) s call) := by
  have hstep : ∀ (s : HeapState) (call : HeapCall), (∃ bs, Clean (heapStart kernelEnd) s bs) →
      Disciplined s call ∧ (AmountFits (heapStart kernelEnd) s call ∨ Rounds call) →
      ∃ s', heapStep (heapStart kernelEnd) s call = some s' ∧ ∃ bs, Clean (heapStart kernelEnd) s' bs := by
    rintro s call ⟨bs, hclean⟩ ⟨hdis, hok⟩
    by_cases hround : Rounds call
    · exact heapStep_clean hclean hdis hround
    · exact ⟨s, hclean.refused hdis (hok.resolve_right hround) hround, bs, hclean⟩
  obtain ⟨s, hrun, bs, hclean⟩ := optRuns_invariant hstep (heapBoot_clean hkernel hroom memory) hcalls
  exact ⟨s, hrun, fun call hdis => hclean.served_iff hdis⟩

/-- A block of 24 bytes grows to 100 beside another one. -/
theorem allocation_sizes_moved : ∃ s, optRuns (heapStep (heapStart 0x200000)) (heapBoot 0x200000 zeros)
    [.kmalloc 24, .kcalloc 2 8, .store 0x200014 [7]] = some s ∧ Served (heapStart 0x200000) s (.krealloc 0x200014 100) := by
  obtain ⟨s, hrun, hserved⟩ := allocation_sizes_iff (show kernelStart ≤ 0x200000 by decide) (by decide) zeros
    [.kmalloc 24, .kcalloc 2 8, .store 0x200014 [7]] (by
      refine OptAlong.imp (fun s call hok => ⟨hok.1, .inr hok.2⟩)
        (show OptAlong (heapStep (heapStart 0x200000)) (fun s call => Disciplined s call ∧ Rounds call) _ _ by decide +kernel))
  have hlive : (optRuns (heapStep (heapStart 0x200000)) (heapBoot 0x200000 zeros)
      [.kmalloc 24, .kcalloc 2 8, .store 0x200014 [7]]).map HeapState.live = some [0x200040, 0x200014] := by
    decide +kernel
  rw [hrun, map_some, some_inj] at hlive
  have hdis : Disciplined s (.krealloc 0x200014 100) := .inr (by simp [hlive])
  exact ⟨s, hrun, (hserved _ hdis).2 (.inl (by decide))⟩

/-- Right after `heap_init`, `kmalloc(0xFFFFFFFF)` returns a block of 0 bytes, and `kcalloc(0x10000, 0x10001)` one of 64 KiB. -/
theorem allocation_too_small : ¬ Served (heapStart 0x200000) (heapBoot 0x200000 zeros) (.kmalloc 0xFFFFFFFF) ∧
    ¬ Served (heapStart 0x200000) (heapBoot 0x200000 zeros) (.kcalloc 0x10000 0x10001) := by
  have hmalloc : (kmalloc (heapStart 0x200000) 0xFFFFFFFF (heapBoot 0x200000 zeros).memory).map
      (fun r => (r.1, blockSize r.2 (blockOf r.1))) = some (0x200014, 0) := by decide +kernel
  have hcalloc : (kcalloc (heapStart 0x200000) 0x10000 0x10001 (heapBoot 0x200000 zeros).memory).map
      (fun r => (r.1, blockSize r.2 (blockOf r.1))) = some (0x200014, 0x10000) := by decide +kernel
  constructor
  · rintro ⟨ptr, m', hrun, hsize, -⟩
    rw [show (0xFFFFFFFF : UInt32).toNat = 0xFFFFFFFF by rfl] at hrun hsize
    simp only [hrun, map_some, some_inj, Prod.mk.injEq] at hmalloc
    have := (hsize (by omega)).room
    omega
  · rintro ⟨ptr, m', hrun, hsize, -⟩
    rw [show (0x10000 : UInt32).toNat = 0x10000 by rfl, show (0x10001 : UInt32).toNat = 0x10001 by rfl] at hrun hsize
    simp only [hrun, map_some, some_inj, Prod.mk.injEq] at hcalloc
    have := (hsize (by omega)).1.room
    omega

end PureUnix.Kernel.Heap
