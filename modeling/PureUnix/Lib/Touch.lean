import PureUnix.Lib.Prog
import PureUnix.Lib.Bytes

/-!
# Programs on one buffer, and how far they reach

Code that scans or edits a block in memory issues loads and stores at computed offsets. `Marked` is the buffer together with a
high-water mark: no byte at or behind `mark` was loaded or stored. A program stays inside a buffer of `n` bytes if the mark
does not pass `n`.

`strncmp`, `memcpyFrom` and `memcpyTo` are the byte loops of the C library; a comparison stops at the first difference, so how
far it reaches depends on what it reads.
-/
namespace PureUnix.Lib

open List Nat
open Prog

variable {b : Buf} {n i : Nat}

inductive BufCmd where
  | load8 (i : Nat)
  | load16 (i : Nat)
  | load32 (i : Nat)
  | store8 (i : Nat) (x : UInt8)
  | store16 (i n : Nat)
  | store32 (i n : Nat)

def BufCmd.Resp : BufCmd → Type
  | .load8 _ => UInt8
  | .load16 _ | .load32 _ => Nat
  | .store8 _ _ | .store16 _ _ | .store32 _ _ => Unit

def BufOp : Sig := ⟨BufCmd, BufCmd.Resp⟩

abbrev OnBuf := Prog BufOp

/-- A buffer, and one past the last byte touched. -/
@[ext] structure Marked where
  bytes : Buf
  mark : Nat

/-- The bytes before `n` are touched. -/
def Marked.upTo (m : Marked) (n : Nat) : Marked := { m with mark := max m.mark n }

@[simp] theorem Marked.bytes_upTo (m : Marked) (n : Nat) : (m.upTo n).bytes = m.bytes := rfl

def touch : Handler BufOp Marked
  | .load8 i, m => (m.bytes i, m.upTo (i + 1))
  | .load16 i, m => (get16 m.bytes i, m.upTo (i + 2))
  | .load32 i, m => (get32 m.bytes i, m.upTo (i + 4))
  | .store8 i x, m => ((), ⟨put8 m.bytes i x, max m.mark (i + 1)⟩)
  | .store16 i n, m => ((), ⟨put16 m.bytes i n, max m.mark (i + 2)⟩)
  | .store32 i n, m => ((), ⟨put32 m.bytes i n, max m.mark (i + 4)⟩)

namespace OnBuf

def load8 (i : Nat) : OnBuf UInt8 := Prog.perform (σ := BufOp) (.load8 i)
def load16 (i : Nat) : OnBuf Nat := Prog.perform (σ := BufOp) (.load16 i)
def load32 (i : Nat) : OnBuf Nat := Prog.perform (σ := BufOp) (.load32 i)
def store8 (i : Nat) (x : UInt8) : OnBuf Unit := Prog.perform (σ := BufOp) (.store8 i x)
def store16 (i n : Nat) : OnBuf Unit := Prog.perform (σ := BufOp) (.store16 i n)
def store32 (i n : Nat) : OnBuf Unit := Prog.perform (σ := BufOp) (.store32 i n)

/-- `strncmp(buf + i, s, strlen(s)) == 0`: the bytes are compared until they differ. -/
def strncmp (i : Nat) : Text → OnBuf Bool
  | [] => pure true
  | c :: s => do
    let x ← load8 i
    if x = c then strncmp (i + 1) s else pure false

/-- `memcpy(dest, buf + i, n)`. -/
def memcpyFrom : Nat → Nat → OnBuf Text
  | _, 0 => pure []
  | i, n + 1 => do
    let x ← load8 i
    let xs ← memcpyFrom (i + 1) n
    pure (x :: xs)

/-- `memcpy(buf + i, src, n)`. -/
def memcpyTo (i : Nat) : Text → OnBuf Unit
  | [] => pure ()
  | x :: xs => do
    store8 i x
    memcpyTo (i + 1) xs

variable (m : Marked) (i n : Nat)

@[simp] theorem run_load8 : run touch (load8 i) m = (m.bytes i, m.upTo (i + 1)) := rfl
@[simp] theorem run_load16 : run touch (load16 i) m = (get16 m.bytes i, m.upTo (i + 2)) := rfl
@[simp] theorem run_load32 : run touch (load32 i) m = (get32 m.bytes i, m.upTo (i + 4)) := rfl
@[simp] theorem run_store8 (x : UInt8) : run touch (store8 i x) m = ((), ⟨put8 m.bytes i x, max m.mark (i + 1)⟩) := rfl
@[simp] theorem run_store16 : run touch (store16 i n) m = ((), ⟨put16 m.bytes i n, max m.mark (i + 2)⟩) := rfl
@[simp] theorem run_store32 : run touch (store32 i n) m = ((), ⟨put32 m.bytes i n, max m.mark (i + 4)⟩) := rfl

end OnBuf

theorem slice_succ (b : Buf) (i n : Nat) : slice b i (n + 1) = b i :: slice b (i + 1) n := by
  simp only [slice, range_succ_eq_map, map_cons, map_map, add_zero]
  congr 1
  refine map_congr_left fun j _ => ?_
  simp only [Function.comp_apply]
  congr 1
  omega

/-- Where a comparison of the bytes from `i` on with `s` stays inside the first `n` bytes: `s` ends there, or differs before. -/
def ComparedWithin (b : Buf) (n i : Nat) (s : Text) : Prop :=
  i + s.length ≤ n ∨ slice b i (n - i) ≠ s.take (n - i)

instance (b : Buf) (n i : Nat) (s : Text) : Decidable (ComparedWithin b n i s) := inferInstanceAs (Decidable (_ ∨ _))

theorem ComparedWithin.nil (h : i ≤ n) : ComparedWithin b n i [] := .inl h

/-- A comparison goes on to the next byte only when this one agrees. -/
theorem comparedWithin_cons {c : UInt8} {s : Text} (h : i ≤ n) :
    ComparedWithin b n i (c :: s) ↔ i < n ∧ (b i = c → ComparedWithin b n (i + 1) s) := by
  unfold ComparedWithin
  rw [length_cons]
  rcases lt_or_ge i n with hi | hi
  · obtain ⟨k, rfl⟩ : ∃ k, n = i + 1 + k := ⟨n - (i + 1), by omega⟩
    rw [show i + 1 + k - i = k + 1 by omega, show i + 1 + k - (i + 1) = k by omega, slice_succ, take_succ_cons]
    simp only [ne_eq, cons.injEq, not_and]
    constructor
    · rintro (hlen | hne)
      · exact ⟨hi, fun _ => .inl (by omega)⟩
      · exact ⟨hi, fun hc => .inr (hne hc)⟩
    · rintro ⟨-, hnext⟩
      by_cases hc : b i = c
      · rcases hnext hc with hlen | hne
        · exact .inl (by omega)
        · exact .inr fun _ => hne
      · exact .inr fun h' => absurd h' hc
  · obtain rfl : n = i := by omega
    simp [slice]

namespace OnBuf

/-- One past the last byte a comparison looks at. -/
def compared (b : Buf) : Nat → Text → Nat
  | _, [] => 0
  | i, c :: s => if b i = c then max (i + 1) (compared b (i + 1) s) else i + 1

theorem compared_le : ∀ {s : Text} {i : Nat}, i ≤ n → (compared b i s ≤ n ↔ ComparedWithin b n i s) := by
  intro s
  induction s with
  | nil => exact fun hi => iff_of_true (zero_le n) (ComparedWithin.nil hi)
  | cons c s ih =>
    intro i hi
    rw [comparedWithin_cons hi, compared]
    split
    · next hc =>
      rw [Nat.max_le]
      refine and_congr_right fun hn => ?_
      rw [ih hn]
      exact ⟨fun h _ => h, fun h => h hc⟩
    · next hc => exact ⟨fun h => ⟨h, fun h' => absurd h' hc⟩, fun h => h.1⟩

theorem run_strncmp : ∀ (s : Text) (i : Nat) (m : Marked),
    run touch (strncmp i s) m = (slice m.bytes i s.length == s, m.upTo (compared m.bytes i s)) := by
  intro s
  induction s with
  | nil =>
    simp [strncmp, slice, compared, Marked.upTo]
  | cons c s ih =>
    intro i m
    rw [strncmp, run_bind, run_load8, compared, length_cons, slice_succ, cons_beq_cons]
    split
    · next hc =>
      rw [ih, beq_iff_eq.2 hc]
      simp [Marked.upTo, max_assoc]
    · next hc => rw [run_pure, beq_eq_false_iff_ne.2 hc, Bool.false_and]

theorem run_memcpyFrom : ∀ (n i : Nat) (m : Marked), n ≠ 0 →
    run touch (memcpyFrom i n) m = (slice m.bytes i n, m.upTo (i + n)) := by
  intro n
  induction n with
  | zero => exact fun _ _ h => absurd rfl h
  | succ n ih =>
    intro i m _
    rw [memcpyFrom, run_bind, run_load8, run_bind, slice_succ]
    by_cases hn : n = 0
    · subst hn
      rfl
    · rw [ih (i + 1) _ hn, run_pure]
      simp only [Marked.upTo, Prod.mk.injEq, Marked.mk.injEq, true_and]
      omega

theorem copy_cons (b : Buf) (i : Nat) (x : UInt8) (xs : Text) :
    copy (put8 b i x) (i + 1) (ofList xs) xs.length = copy b i (ofList (x :: xs)) (x :: xs).length := by
  funext j
  simp only [copy, put8, ofList, length_cons]
  rcases lt_trichotomy j i with h | h | h
  · rw [if_neg (by omega), if_neg (by omega), if_neg (by omega)]
  · subst h
    rw [if_neg (by omega), if_pos rfl, if_pos (by omega), Nat.sub_self]
    rfl
  · obtain ⟨k, rfl⟩ : ∃ k, j = i + 1 + k := ⟨j - (i + 1), by omega⟩
    rw [show i + 1 + k - (i + 1) = k by omega, show i + 1 + k - i = k + 1 by omega, getD_cons_succ]
    by_cases hk : k < xs.length
    · rw [if_pos (by omega), if_pos (by omega)]
    · rw [if_neg (by omega), if_neg (by omega), if_neg (by omega)]

theorem run_memcpyTo : ∀ (xs : Text) (i : Nat) (m : Marked), xs ≠ [] →
    run touch (memcpyTo i xs) m = ((), ⟨copy m.bytes i (ofList xs) xs.length, max m.mark (i + xs.length)⟩) := by
  intro xs
  induction xs with
  | nil => exact fun _ _ h => absurd rfl h
  | cons x xs ih =>
    intro i m _
    rw [memcpyTo, run_bind, run_store8, ← copy_cons]
    by_cases hn : xs = []
    · subst hn
      rw [length_nil, copy_zero]
      rfl
    · rw [ih (i + 1) _ hn]
      simp only [length_cons, Prod.mk.injEq, Marked.mk.injEq, true_and]
      omega

end OnBuf
end PureUnix.Lib
