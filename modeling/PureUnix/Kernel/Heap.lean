import PureUnix.Kernel.Image
import PureUnix.Libc.String
import PureUnix.Lib.DoubleList
import PureUnix.Lib.Tiling

/-!
# The kernel heap

`src/kernel/heap.c` on the bytes of memory. A block's header (`heap_block_t`; `sizeof` is 20) lies in front of what the caller
gets; the headers are linked both ways from `heap_head`. `size_t` and pointers have 32 bits.
-/
namespace PureUnix.Kernel.Heap
open Lib

def HEAP_MAGIC : Nat := 0xC0FFEE42

/-! ## The fields of a header -/

def blockMagic (m : Buf) (b : Nat) : Nat := get32 m b
def blockSize (m : Buf) (b : Nat) : Nat := get32 m (b + 4)
def blockFree (m : Buf) (b : Nat) : Bool := m (b + 8) != 0
def blockNext (m : Buf) (b : Nat) : Nat := get32 m (b + 12)
def blockPrev (m : Buf) (b : Nat) : Nat := get32 m (b + 16)

def setMagic (m : Buf) (b v : Nat) : Buf := put32 m b v
def setSize (m : Buf) (b v : Nat) : Buf := put32 m (b + 4) v
def setFree (m : Buf) (b : Nat) (v : Bool) : Buf := put8 m (b + 8) (if v then 1 else 0)
def setNext (m : Buf) (b v : Nat) : Buf := put32 m (b + 12) v
def setPrev (m : Buf) (b v : Nat) : Buf := put32 m (b + 16) v

/-! ## The functions of the heap -/

/-- Adding 7 wraps for the seven largest values. -/
def align8 (value : Nat) : Nat := u32 (value + 7) / 8 * 8

/-- `heap_init`; `heap_head` is `heap_start`. -/
def heapInit (start : Nat) (m : Buf) : Buf :=
  let m := setMagic m start HEAP_MAGIC
  let m := setSize m start (HEAP_SIZE - 20)
  let m := setFree m start true
  let m := setNext m start 0
  setPrev m start 0

def splitBlock (m : Buf) (block size : Nat) : Buf :=
  if blockSize m block < u32 (size + 20 + 16) then m
  else
    let next := u32 (block + 20 + size)
    let m := setMagic m next HEAP_MAGIC
    let m := setSize m next (u32 (blockSize m block + 2 ^ 32 - size - 20))
    let m := setFree m next true
    let m := setNext m next (blockNext m block)
    let m := setPrev m next block
    let m := if blockNext m next ≠ 0 then setPrev m (blockNext m next) next else m
    let m := setNext m block next
    setSize m block size

/-- The list of blocks is walked up to its end; no heap holds more blocks than bytes. -/
def heapFuel : Nat := HEAP_SIZE

/-- The result is the pointer returned. -/
def kmalloc (heapHead size : Nat) (m : Buf) : Option (Nat × Buf) :=
  if size = 0 then some (0, m)
  else do
    let size := align8 size
    let found ← seek (blockNext m) (fun b => blockMagic m b == HEAP_MAGIC && blockFree m b && decide (size ≤ blockSize m b))
      (· == 0) heapFuel heapHead
    match found with
    | none => return (0, m)
    | some b => return (u32 (b + 20), setFree (splitBlock m b size) b false)

/-- `memset(dest, 0, count)`. -/
def clear (m : Buf) (dest count : Nat) : Buf := copy m dest zeros count

def kcalloc (heapHead count size : Nat) (m : Buf) : Option (Nat × Buf) := do
  let total := u32 (count * size)
  let (ptr, m) ← kmalloc heapHead total m
  if ptr ≠ 0 then
    return (ptr, clear m ptr total)
  return (ptr, m)

/-- The first half of `coalesce`: take in the block behind. -/
def mergeNext (m : Buf) (block : Nat) : Buf :=
  if blockNext m block ≠ 0 ∧ blockFree m (blockNext m block) then
    let m := setSize m block (u32 (blockSize m block + (20 + blockSize m (blockNext m block))))
    let m := setNext m block (blockNext m (blockNext m block))
    if blockNext m block ≠ 0 then setPrev m (blockNext m block) block else m
  else m

def coalesce : Nat → Buf → Nat → Option Buf
  | 0, _, _ => none
  | fuel + 1, m, block =>
    let m := mergeNext m block
    if blockPrev m block ≠ 0 ∧ blockFree m (blockPrev m block) then coalesce fuel m (blockPrev m block) else some m

/-- `((heap_block_t *)ptr) - 1`. -/
def blockOf (ptr : Nat) : Nat := u32 (ptr + 2 ^ 32 - 20)

def kfree (ptr : Nat) (m : Buf) : Option Buf :=
  if ptr = 0 then some m
  else if blockMagic m (blockOf ptr) ≠ HEAP_MAGIC then some m
  else coalesce heapFuel (setFree m (blockOf ptr) true) (blockOf ptr)

def krealloc (heapHead ptr size : Nat) (m : Buf) : Option (Nat × Buf) :=
  if ptr = 0 then kmalloc heapHead size m
  else if size = 0 then do
    let m ← kfree ptr m
    return (0, m)
  else if size ≤ blockSize m (blockOf ptr) then some (ptr, m)
  else do
    let (next, m) ← kmalloc heapHead size m
    if next = 0 then
      return (0, m)
    let m := Libc.memcpy m next ptr (blockSize m (blockOf ptr))
    let m ← kfree ptr m
    return (next, m)

/-! ## Headers as cells of a list -/

structure HeaderData where
  magic : Nat
  size : Nat
  free : Bool

def header (m : Buf) (b : Nat) : Cell Nat HeaderData :=
  ⟨⟨blockMagic m b, blockSize m b, blockFree m b⟩, blockNext m b, blockPrev m b⟩

def blockData (b : Block) : HeaderData := ⟨HEAP_MAGIC, b.size, b.free⟩

def Far (a b : Nat) : Prop := a + 20 ≤ b ∨ b + 20 ≤ a

theorem header_congr {m m' : Buf} {a : Nat} (h : Same a (a + 20) m' m) : header m' a = header m a := by
  have h32 : ∀ k, k + 4 ≤ 20 → get32 m' (a + k) = get32 m (a + k) :=
    fun k hk => get32_congr (h.mono (by omega) (by omega))
  have hfree : m' (a + 8) = m (a + 8) := h _ (by omega) (by omega)
  simp only [header, blockMagic, blockSize, blockFree, blockNext, blockPrev, h32 4 (by decide), h32 12 (by decide),
    h32 16 (by decide), hfree]
  rw [show get32 m' a = get32 m a from h32 0 (by decide)]

section Fields
variable {m : Buf} {a d v : Nat} {f : Bool}

theorem header_setMagic_far (h : Far d a) : header (setMagic m a v) d = header m d :=
  header_congr (put32_same (by unfold Far at h; omega))

theorem header_setSize_far (h : Far d a) : header (setSize m a v) d = header m d :=
  header_congr (put32_same (by unfold Far at h; omega))

theorem header_setFree_far (h : Far d a) : header (setFree m a f) d = header m d :=
  header_congr (put8_same (by unfold Far at h; omega))

theorem header_setNext_far (h : Far d a) : header (setNext m a v) d = header m d :=
  header_congr (put32_same (by unfold Far at h; omega))

theorem header_setPrev_far (h : Far d a) : header (setPrev m a v) d = header m d :=
  header_congr (put32_same (by unfold Far at h; omega))

theorem header_put32 {k : Nat} (hk : k = 0 ∨ k = 4 ∨ k = 12 ∨ k = 16) (hv : v < 4294967296) :
    header (put32 m (a + k) v) a = ⟨⟨if k = 0 then v else blockMagic m a, if k = 4 then v else blockSize m a, blockFree m a⟩,
      if k = 12 then v else blockNext m a, if k = 16 then v else blockPrev m a⟩ := by
  have hword : ∀ j, j = k ∨ j + 4 ≤ k ∨ k + 4 ≤ j → get32 (put32 m (a + k) v) (a + j) = if k = j then v else get32 m (a + j) := by
    intro j hj
    by_cases hjk : k = j
    · rw [if_pos hjk, hjk, get32_put32, Nat.mod_eq_of_lt hv]
    · rw [if_neg hjk, get32_put32_ne (by omega)]
  have hmagic : get32 (put32 m (a + k) v) a = if k = 0 then v else get32 m a := hword 0 (by omega)
  have hfree : put32 m (a + k) v (a + 8) = m (a + 8) := put32_out (by omega)
  simp only [header, blockMagic, blockSize, blockFree, blockNext, blockPrev, hmagic, hfree, hword 4 (by omega),
    hword 12 (by omega), hword 16 (by omega)]

section
variable (hv : v < 4294967296)
include hv

theorem header_setMagic : header (setMagic m a v) a = { header m a with data := { (header m a).data with magic := v } } :=
  header_put32 (k := 0) (by omega) hv

theorem header_setSize : header (setSize m a v) a = { header m a with data := { (header m a).data with size := v } } :=
  header_put32 (by omega) hv

theorem header_setNext : header (setNext m a v) a = { header m a with next := v } :=
  header_put32 (by omega) hv

theorem header_setPrev : header (setPrev m a v) a = { header m a with prev := v } :=
  header_put32 (by omega) hv

end

theorem header_setFree : header (setFree m a f) a = { header m a with data := { (header m a).data with free := f } } := by
  have hself : (setFree m a f (a + 8) != 0) = f := by
    rw [setFree, put8, if_pos rfl]
    cases f <;> rfl
  have hout : ∀ k, k + 4 ≤ 8 ∨ 9 ≤ k → get32 (setFree m a f) (a + k) = get32 m (a + k) :=
    fun k hk => get32_congr (put8_same (by omega))
  have hmagic : get32 (setFree m a f) a = get32 m a := hout 0 (by omega)
  simp only [header, blockMagic, blockSize, blockFree, blockNext, blockPrev, hself, hmagic, hout 4 (by omega),
    hout 12 (by omega), hout 16 (by omega)]

end Fields

end PureUnix.Kernel.Heap
