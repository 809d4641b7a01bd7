import PureUnix.Ext2.Layout

/-!
# The kernel in memory

The linker script puts the kernel at 1 MiB; `__kernel_end` is where it ends. The physical memory manager and the
heap place themselves relative to it. `ALIGN_UP` and `ALIGN_DOWN` (include/pureunix/types.h) are computed in 32 bits.
-/
namespace PureUnix.Kernel

/-- `ALIGN_UP(value, PUREUNIX_PAGE_SIZE)`. -/
def alignUp (value : Nat) : Nat := u32 (value + 4095) / 4096 * 4096

/-- `ALIGN_DOWN(value, PUREUNIX_PAGE_SIZE)`. -/
def alignDown (value : Nat) : Nat := value / 4096 * 4096

theorem alignUp_mod (v : Nat) : alignUp v % 4096 = 0 := by
  unfold alignUp
  omega

theorem alignDown_mod (v : Nat) : alignDown v % 4096 = 0 := by
  unfold alignDown
  omega

theorem alignDown_le (v : Nat) : alignDown v ≤ v := by
  unfold alignDown
  omega

theorem alignUp_spec {v : Nat} (h : v ≤ 0xFFFFF000) : v ≤ alignUp v ∧ alignUp v < v + 4096 := by
  unfold alignUp
  rw [u32_of_lt (by omega)]
  omega

/-- `__kernel_start` (boot/linker.ld). -/
def kernelStart : Nat := 0x100000

/-- Where the linker put the end of the kernel and `frame_bitmap`, which is in its `.bss`. -/
structure KernelImage where
  kernelEnd : Nat
  frameBitmap : Nat
  bitmap_inside : kernelStart ≤ frameBitmap ∧ frameBitmap + 4096 ≤ kernelEnd
  kernelEnd_le : kernelEnd ≤ 0xFFFFF000

/-- `HEAP_SIZE` (kernel/heap.c). -/
def HEAP_SIZE : Nat := 8 * 1024 * 1024

/-- `heap_start`. -/
def heapStart (kernelEnd : Nat) : Nat := alignUp kernelEnd

end PureUnix.Kernel
