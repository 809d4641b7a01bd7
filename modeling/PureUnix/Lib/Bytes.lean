import Mathlib.Tactic.IntervalCases
import PureUnix.Lib.Lists

/-!
# Byte buffers

A buffer is a total function from offsets to bytes; a block or a sector is the first so many
bytes of one, and `trunc` forgets the rest. Little-endian 16- and 32-bit fields (`get16`,
`put16`, `get32`, `put32`), `memcpy` (`copy`), and bit `i` of a bitmap (`bit`, `setBit`,
`clearBit`: bit `i % 8` of byte `i / 8`).

Every writer comes with the two facts its users need: what reads back at the same place, and
that bytes outside the written range are untouched (`Same`).
-/
namespace PureUnix.Lib

open List

abbrev Buf := Nat → UInt8

variable {b a s : Buf} {off v n o p l u lo hi : Nat}

theorem mul_step {i k : Nat} (h : i < k) (n : Nat) : i * n + n ≤ k * n := by
  rw [← Nat.succ_mul]
  exact Nat.mul_le_mul_right n h

theorem mul_far {i k : Nat} (h : i ≠ k) (n : Nat) : i * n + n ≤ k * n ∨ k * n + n ≤ i * n :=
  (Nat.lt_or_gt_of_ne h).imp (mul_step · n) (mul_step · n)

/-- The first `n` bytes, zero behind them. -/
def trunc (n : Nat) (b : Buf) : Buf := fun i => if i < n then b i else 0

/-- `memset(buf, 0, n)`. -/
def zeros : Buf := fun _ => 0

/-- `memcpy(dst + off, src, n)`. -/
def copy (dst : Buf) (off : Nat) (src : Buf) (n : Nat) : Buf :=
  fun i => if off ≤ i ∧ i < off + n then src (i - off) else dst i

def put8 (b : Buf) (off : Nat) (v : UInt8) : Buf := fun i => if i = off then v else b i

def get16 (b : Buf) (off : Nat) : Nat := (b off).toNat + 256 * (b (off + 1)).toNat

def get32 (b : Buf) (off : Nat) : Nat :=
  (b off).toNat + 256 * (b (off + 1)).toNat + 65536 * (b (off + 2)).toNat + 16777216 * (b (off + 3)).toNat

/-- Byte `k` of the little-endian form of `v`. -/
def leByte (v k : Nat) : UInt8 := UInt8.ofNat (v / 256 ^ k)

def put16 (b : Buf) (off v : Nat) : Buf :=
  fun i => if off ≤ i ∧ i < off + 2 then leByte v (i - off) else b i

def put32 (b : Buf) (off v : Nat) : Buf :=
  fun i => if off ≤ i ∧ i < off + 4 then leByte v (i - off) else b i

def ofList (l : Text) : Buf := fun i => l.getD i 0

/-- The `n` bytes from `off` on. -/
def slice (b : Buf) (off n : Nat) : Text := (List.range n).map fun j => b (off + j)

/-- Two buffers hold the same bytes on `[lo, hi)`. -/
def Same (lo hi : Nat) (a b : Buf) : Prop := ∀ i, lo ≤ i → i < hi → a i = b i

/-! ## Fields -/

theorem get16_lt (b : Buf) (off : Nat) : get16 b off < 65536 := by
  have h0 := (b off).toNat_lt
  have h1 := (b (off + 1)).toNat_lt
  simp only [get16]; omega

theorem get32_lt (b : Buf) (off : Nat) : get32 b off < 4294967296 := by
  have h0 := (b off).toNat_lt
  have h1 := (b (off + 1)).toNat_lt
  have h2 := (b (off + 2)).toNat_lt
  have h3 := (b (off + 3)).toNat_lt
  simp only [get32]; omega

theorem leByte_toNat (v k : Nat) : (leByte v k).toNat = v / 256 ^ k % 256 := by
  simp [leByte]

theorem get16_congr (h : Same off (off + 2) a b) : get16 a off = get16 b off := by
  simp only [get16, h off (by omega) (by omega), h (off + 1) (by omega) (by omega)]

theorem get32_congr (h : Same off (off + 4) a b) : get32 a off = get32 b off := by
  simp only [get32, h off (by omega) (by omega), h (off + 1) (by omega) (by omega),
    h (off + 2) (by omega) (by omega), h (off + 3) (by omega) (by omega)]

theorem get16_put16 (b : Buf) (off v : Nat) : get16 (put16 b off v) off = v % 65536 := by
  simp only [get16, put16, leByte_toNat, show off ≤ off ∧ off < off + 2 by omega,
    show off ≤ off + 1 ∧ off + 1 < off + 2 by omega, and_self, if_true, Nat.sub_self,
    Nat.add_sub_cancel_left]
  omega

theorem get32_put32 (b : Buf) (off v : Nat) : get32 (put32 b off v) off = v % 4294967296 := by
  simp only [get32, put32, leByte_toNat, show off ≤ off ∧ off < off + 4 by omega,
    show off ≤ off + 1 ∧ off + 1 < off + 4 by omega, show off ≤ off + 2 ∧ off + 2 < off + 4 by omega,
    show off ≤ off + 3 ∧ off + 3 < off + 4 by omega, and_self, if_true, Nat.sub_self,
    Nat.add_sub_cancel_left]
  omega

theorem put16_wrap (b : Buf) (off v : Nat) : put16 b off (v + 65536) = put16 b off v := by
  funext i
  unfold put16
  split
  · have hi : i - off = 0 ∨ i - off = 1 := by omega
    refine UInt8.toNat_inj.1 ?_
    rw [leByte_toNat, leByte_toNat]
    rcases hi with h | h <;> rw [h] <;> omega
  · rfl

theorem put32_out {i : Nat} (h : i < off ∨ off + 4 ≤ i) : put32 b off v i = b i := by
  rw [put32, if_neg (by omega)]

theorem put16_same (h : u ≤ off ∨ off + 2 ≤ l) : Same l u (put16 b off v) b := by
  intro i h1 h2
  rw [put16, if_neg (by omega)]

theorem put32_same (h : u ≤ off ∨ off + 4 ≤ l) : Same l u (put32 b off v) b := by
  intro i h1 h2
  rw [put32, if_neg (by omega)]

theorem put8_same {v : UInt8} (h : u ≤ off ∨ off + 1 ≤ l) : Same l u (put8 b off v) b := by
  intro i h1 h2
  rw [put8, if_neg (by omega)]

theorem copy_same (h : u ≤ off ∨ off + n ≤ l) : Same l u (copy b off s n) b := by
  intro i h1 h2
  rw [copy, if_neg (by omega)]

theorem Same.refl (a : Buf) : Same lo hi a a := fun _ _ _ => rfl

theorem Same.symm (h : Same lo hi a b) : Same lo hi b a :=
  fun i h1 h2 => (h i h1 h2).symm

theorem Same.trans {c : Buf} (h : Same lo hi a b) (h' : Same lo hi b c) :
    Same lo hi a c := fun i h1 h2 => (h i h1 h2).trans (h' i h1 h2)

theorem Same.mono {lo' hi' : Nat} (h : Same lo hi a b) (h1 : lo ≤ lo')
    (h2 : hi' ≤ hi) : Same lo' hi' a b := fun i hl hh => h i (by omega) (by omega)

theorem trunc_same (n : Nat) (b : Buf) : Same 0 n (trunc n b) b := by
  intro i _ h
  rw [trunc, if_pos h]

theorem trunc_congr (h : Same 0 n a b) : trunc n a = trunc n b := by
  funext i
  by_cases hi : i < n
  · simp only [trunc, hi, if_true, h i (by omega) hi]
  · simp only [trunc, hi, if_false]

@[simp] theorem trunc_trunc (n : Nat) (b : Buf) : trunc n (trunc n b) = trunc n b :=
  trunc_congr (trunc_same n b)

theorem put16_get16 (b : Buf) (off : Nat) : put16 b off (get16 b off) = b := by
  funext i
  rw [put16]
  split
  · have h0 := (b off).toNat_lt
    have h1 := (b (off + 1)).toNat_lt
    have : i = off ∨ i = off + 1 := by omega
    rcases this with rfl | rfl <;>
      · apply UInt8.toNat_inj.1
        simp only [leByte_toNat, get16, Nat.sub_self, Nat.add_sub_cancel_left]
        omega
  · rfl

theorem put32_get32 (b : Buf) (off : Nat) : put32 b off (get32 b off) = b := by
  funext i
  rw [put32]
  split
  · have h0 := (b off).toNat_lt
    have h1 := (b (off + 1)).toNat_lt
    have h2 := (b (off + 2)).toNat_lt
    have h3 := (b (off + 3)).toNat_lt
    have : i = off ∨ i = off + 1 ∨ i = off + 2 ∨ i = off + 3 := by omega
    rcases this with rfl | rfl | rfl | rfl <;>
      · apply UInt8.toNat_inj.1
        simp only [leByte_toNat, get32, Nat.sub_self, Nat.add_sub_cancel_left]
        omega
  · rfl

theorem leByte_get32 (b : Buf) (off : Nat) {k : Nat} (hk : k < 4) : leByte (get32 b off) k = b (off + k) := by
  have h := congrFun (put32_get32 b off) (off + k)
  rw [put32, if_pos ⟨Nat.le_add_right _ _, Nat.add_lt_add_left hk _⟩, Nat.add_sub_cancel_left] at h
  exact h

theorem put16_put16 (b : Buf) (off v w : Nat) : put16 (put16 b off v) off w = put16 b off w := by
  funext i
  simp only [put16]
  split <;> rfl

theorem put16_comm (b : Buf) (v w : Nat) (h : o + 2 ≤ p ∨ p + 2 ≤ o) : put16 (put16 b o v) p w = put16 (put16 b p w) o v := by
  funext i
  simp only [put16]
  by_cases h1 : p ≤ i ∧ i < p + 2
  · rw [if_pos h1, if_neg (by omega), if_pos h1]
  · rw [if_neg h1, if_neg h1]

theorem copy_copy (b src : Buf) (off k n : Nat) :
    copy (copy b off src k) (off + k) (fun i => src (k + i)) n = copy b off src (k + n) := by
  funext i
  simp only [copy]
  by_cases h1 : off + k ≤ i ∧ i < off + k + n
  · rw [if_pos h1, if_pos (by omega)]
    exact congrArg src (by omega)
  rw [if_neg h1]
  by_cases h2 : off ≤ i ∧ i < off + k
  · rw [if_pos h2, if_pos (by omega)]
  · rw [if_neg h2, if_neg (by omega)]

theorem copy_zero (b src : Buf) (off : Nat) : copy b off src 0 = b := by
  funext i
  rw [copy, if_neg (by omega)]

theorem copy_congr {src src' : Buf} (h : Same 0 n src src') : copy b off src n = copy b off src' n := by
  funext i
  simp only [copy]
  split
  · exact h _ (by omega) (by omega)
  · rfl

/-! ## Reading past a store -/

theorem get32_put32_ne (h : o + 4 ≤ p ∨ p + 4 ≤ o) : get32 (put32 b p v) o = get32 b o := get32_congr (put32_same h)

theorem get32_put16_ne (h : o + 4 ≤ p ∨ p + 2 ≤ o) : get32 (put16 b p v) o = get32 b o := get32_congr (put16_same h)

theorem get32_copy_ne (h : o + 4 ≤ p ∨ p + n ≤ o) : get32 (copy b p s n) o = get32 b o := get32_congr (copy_same h)

theorem get16_put32_ne (h : o + 2 ≤ p ∨ p + 4 ≤ o) : get16 (put32 b p v) o = get16 b o := get16_congr (put32_same h)

theorem get16_put16_ne (h : o + 2 ≤ p ∨ p + 2 ≤ o) : get16 (put16 b p v) o = get16 b o := get16_congr (put16_same h)

theorem get16_copy_ne (h : o + 2 ≤ p ∨ p + n ≤ o) : get16 (copy b p s n) o = get16 b o := get16_congr (copy_same h)

theorem get32_zeros (o : Nat) : get32 zeros o = 0 := rfl

/-- A buffer of consecutive 32-bit words. -/
def words (f : Nat → Nat) : Buf := fun i => leByte (f (i / 4)) (i % 4)

theorem get32_words (f : Nat → Nat) (p : Nat) : get32 (words f) (4 * p) = f p % 4294967296 := by
  simp only [get32, words, leByte_toNat, show 4 * p / 4 = p by omega, show (4 * p + 1) / 4 = p by omega,
    show (4 * p + 2) / 4 = p by omega, show (4 * p + 3) / 4 = p by omega, show 4 * p % 4 = 0 by omega,
    show (4 * p + 1) % 4 = 1 by omega, show (4 * p + 2) % 4 = 2 by omega, show (4 * p + 3) % 4 = 3 by omega]
  omega

/-! ## Byte strings in buffers -/

theorem slice_congr (h : Same off (off + n) a b) : slice a off n = slice b off n :=
  map_congr_left fun j hj => h _ (by omega) (by have := mem_range.1 hj; omega)

theorem length_slice (b : Buf) (off n : Nat) : (slice b off n).length = n := by simp [slice]

theorem slice_copy (b : Buf) (off : Nat) (l : Text) : slice (copy b off (ofList l) l.length) off l.length = l := by
  refine ext_getElem (length_slice _ _ _) fun j h1 h2 => ?_
  simp only [slice, getElem_map, getElem_range, copy, ofList]
  rw [if_pos (by omega), Nat.add_sub_cancel_left, getD_eq_getElem?_getD, getElem?_eq_getElem h2, Option.getD_some]

/-! ## Bits -/

/-- `bitmap[i / 8] & (1u << (i % 8))`. -/
def bit (b : Buf) (i : Nat) : Bool := (b (i / 8) &&& UInt8.ofNat (1 <<< (i % 8))) != 0

/-- `bitmap[i / 8] |= (1u << (i % 8))`. -/
def setBit (b : Buf) (i : Nat) : Buf :=
  put8 b (i / 8) (b (i / 8) ||| UInt8.ofNat (1 <<< (i % 8)))

/-- `bitmap[i / 8] &= (uint8_t)~(1u << (i % 8))`. -/
def clearBit (b : Buf) (i : Nat) : Buf :=
  put8 b (i / 8) (b (i / 8) &&& ~~~ UInt8.ofNat (1 <<< (i % 8)))

theorem mask_getLsbD (k j : Nat) (hk : k < 8) : (UInt8.ofNat (1 <<< k)).toBitVec.getLsbD j = decide (j = k) := by
  have : k = 0 ∨ k = 1 ∨ k = 2 ∨ k = 3 ∨ k = 4 ∨ k = 5 ∨ k = 6 ∨ k = 7 := by omega
  by_cases hj : j < 8
  · rcases this with rfl | rfl | rfl | rfl | rfl | rfl | rfl | rfl <;> interval_cases j <;> decide
  · rw [BitVec.getLsbD_of_ge _ _ (by omega), decide_eq_false (by omega)]

theorem bit_eq (b : Buf) (i : Nat) : bit b i = (b (i / 8)).toBitVec.getLsbD (i % 8) := by
  have hk : i % 8 < 8 := Nat.mod_lt _ (by omega)
  rw [bit, bne, Bool.eq_iff_iff, Bool.not_eq_true', beq_eq_false_iff_ne, Ne, ← UInt8.toBitVec_inj]
  constructor
  · intro h
    by_contra hc
    apply h
    apply BitVec.eq_of_getLsbD_eq
    intro j _
    simp only [UInt8.toBitVec_and, BitVec.getLsbD_and, mask_getLsbD _ _ hk]
    by_cases hj : j = i % 8
    · subst hj; simpa using hc
    · simp [hj]
  · intro h hc
    have := congrArg (fun v => BitVec.getLsbD v (i % 8)) hc
    simp only [UInt8.toBitVec_and, BitVec.getLsbD_and, mask_getLsbD _ _ hk, h] at this
    simp at this

theorem bit_setBit (b : Buf) (i j : Nat) : bit (setBit b i) j = (decide (j = i) || bit b j) := by
  have hk : i % 8 < 8 := Nat.mod_lt _ (by omega)
  simp only [bit_eq, setBit, put8]
  by_cases h : j / 8 = i / 8
  · rw [if_pos h, UInt8.toBitVec_or, BitVec.getLsbD_or, mask_getLsbD _ _ hk, h, Bool.or_comm]
    congr 1
    exact decide_eq_decide.2 ⟨fun h' => by omega, fun h' => by rw [h']⟩
  · rw [if_neg h, decide_eq_false (fun h' => h (by rw [h']))]; simp

theorem bit_clearBit (b : Buf) (i j : Nat) : bit (clearBit b i) j = (!decide (j = i) && bit b j) := by
  have hk : i % 8 < 8 := Nat.mod_lt _ (by omega)
  simp only [bit_eq, clearBit, put8]
  by_cases h : j / 8 = i / 8
  · rw [if_pos h, UInt8.toBitVec_and, BitVec.getLsbD_and, UInt8.toBitVec_not, BitVec.getLsbD_not,
      mask_getLsbD _ _ hk, h, Bool.and_comm]
    have : decide (j % 8 < 8) = true := decide_eq_true (Nat.mod_lt _ (by omega))
    rw [this, Bool.true_and]
    congr 2
    exact decide_eq_decide.2 ⟨fun h' => by omega, fun h' => by rw [h']⟩
  · rw [if_neg h, decide_eq_false (fun h' => h (by rw [h']))]; simp

theorem bit_congr {i : Nat} (h : Same 0 n a b) (hi : i < 8 * n) : bit a i = bit b i := by
  rw [bit, bit, h (i / 8) (by omega) (by omega)]

end PureUnix.Lib
