import PureUnix.Lib.Bytes

/-!
# `memset`, `memcpy` and `memmove` (`libc/string.c`)

Memory is its bytes, and pointers are 32 bits wide. A copy whose ranges overlap reads bytes it has written itself,
unless it runs away from the source: `copyUp_eq` and `copyDown_eq` say when each direction is a copy of what was
there before, and `memmove_copies` that `memmove` takes the right one.
-/
namespace PureUnix.Libc

open Lib Nat

/-- `while (count--) *d++ = *s++`. -/
def copyUp (d s : Nat) : Nat → Buf → Buf
  | 0, m => m
  | count + 1, m => copyUp ((d + 1) % 4294967296) ((s + 1) % 4294967296) count (put8 m d (m s))

/-- `--p`. -/
def pred (p : Nat) : Nat := if p = 0 then 4294967295 else p - 1

/-- `while (count--) *--d = *--s`. -/
def copyDown (d s : Nat) : Nat → Buf → Buf
  | 0, m => m
  | count + 1, m => copyDown (pred d) (pred s) count (put8 m (pred d) (m (pred s)))

def memcpy (m : Buf) (dest src count : Nat) : Buf := copyUp dest src count m

/-- `while (count--) *d++ = (uint8_t)value`. -/
def fill (value : UInt8) (d : Nat) : Nat → Buf → Buf
  | 0, m => m
  | count + 1, m => fill value ((d + 1) % 4294967296) count (put8 m d value)

def memset (m : Buf) (dest : Nat) (value : UInt8) (count : Nat) : Buf := fill value dest count m

def memmove (m : Buf) (dest src count : Nat) : Buf :=
  if dest < src then copyUp dest src count m
  else if src < dest then copyDown ((dest + count) % 4294967296) ((src + count) % 4294967296) count m
  else m

section
variable {d s n a : Nat} {m : Buf} (hd : d < 4294967296) (h : ∀ j < n, a ≠ (d + j) % 4294967296)
include hd h

theorem copyUp_out : copyUp d s n m a = m a := by
  induction n generalizing d s m with
  | zero => rfl
  | succ n ih =>
    have hfirst : a ≠ d := fun he => h 0 (by omega) (by omega)
    rw [copyUp, ih (by omega) fun j hj he => h (j + 1) (by omega) (by omega), put8, if_neg hfirst]

theorem fill_out {value : UInt8} : fill value d n m a = m a := by
  induction n generalizing d m with
  | zero => rfl
  | succ n ih =>
    have hfirst : a ≠ d := fun he => h 0 (by omega) (by omega)
    rw [fill, ih (by omega) fun j hj he => h (j + 1) (by omega) (by omega), put8, if_neg hfirst]

end

section
variable {d s n : Nat} (hd : d + n ≤ 4294967296) (hs : s + n ≤ 4294967296)
include hd hs

/-- Upwards, the bytes still to be read are the old ones if the destination is below the source or behind it. -/
theorem copyUp_eq (h : d ≤ s ∨ s + n ≤ d) (m : Buf) : copyUp d s n m = copy m d (fun i => m (s + i)) n := by
  induction n generalizing d s m with
  | zero => rw [copy_zero, copyUp]
  | succ n ih =>
    rw [copyUp]
    cases n with
    | zero =>
      funext a
      simp only [copyUp, put8, copy]
      grind
    | succ n =>
      rw [mod_eq_of_lt (by omega), mod_eq_of_lt (by omega), ih (by omega) (by omega) (by omega)]
      funext a
      simp only [put8, copy]
      grind

/-- Downwards, if it is above the source. -/
theorem copyDown_eq (h : s ≤ d) (m : Buf) :
    copyDown ((d + n) % 4294967296) ((s + n) % 4294967296) n m = copy m d (fun i => m (s + i)) n := by
  induction n generalizing m with
  | zero => rw [copy_zero, copyDown]
  | succ n ih =>
    have hpred : ∀ p, p + (n + 1) ≤ 4294967296 → pred ((p + (n + 1)) % 4294967296) = p + n := by
      intro p hp
      unfold pred
      split <;> omega
    have ih := ih (by omega) (by omega) (put8 m (d + n) (m (s + n)))
    rw [mod_eq_of_lt (by omega), mod_eq_of_lt (by omega)] at ih
    rw [copyDown, hpred d hd, hpred s hs, ih]
    funext a
    simp only [put8, copy]
    grind

end

/-- The destination is the old source, and nothing else has changed. -/
def Copies (m r : Buf) (dest src count : Nat) : Prop :=
  (∀ i < count, r (dest + i) = m (src + i)) ∧ ∀ a, a < dest ∨ dest + count ≤ a → r a = m a

theorem copies_copy (m : Buf) (dest src count : Nat) : Copies m (copy m dest (fun i => m (src + i)) count) dest src count := by
  constructor
  · intro i hi
    rw [copy, if_pos (by omega), Nat.add_sub_cancel_left]
  · intro a ha
    rw [copy, if_neg (by omega)]

/-- **`memmove` is right for every overlap**, `memcpy` where it does not overwrite what it has still to read. -/
theorem memmove_copies (m : Buf) {dest src count : Nat} (hd : dest + count ≤ 4294967296) (hs : src + count ≤ 4294967296) :
    Copies m (memmove m dest src count) dest src count ∧
    ((dest + count ≤ src ∨ src + count ≤ dest) ∨ dest ≤ src → Copies m (memcpy m dest src count) dest src count) := by
  constructor
  · unfold memmove
    split_ifs with hlt hgt
    · rw [copyUp_eq hd hs (.inl hlt.le)]
      exact copies_copy ..
    · rw [copyDown_eq hd hs hgt.le]
      exact copies_copy ..
    · obtain rfl : dest = src := by omega
      exact ⟨fun _ _ => rfl, fun _ _ => rfl⟩
  · intro h
    rw [memcpy, copyUp_eq hd hs (by omega)]
    exact copies_copy ..

/-- Two ranges that overlap, at the end of memory. -/
theorem memmove_copies_top :
    Copies UInt8.ofNat (memmove UInt8.ofNat 4294967290 4294967288 6) 4294967290 4294967288 6 :=
  (memmove_copies _ (by decide) (by decide)).1

end PureUnix.Libc
