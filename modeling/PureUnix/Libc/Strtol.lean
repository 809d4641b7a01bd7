import PureUnix.Libc.Printf
import Mathlib.Data.Nat.Digits.Lemmas

/-!
# Reading numbers (`strtol` in `libc/stdlib.c`)

`emit_number` prints the shortest numeral of its value, and `strtol` reads it back (`strtol_numberText`). `long` has 32 bits and wraps
around, so a value is a `UInt32` in either direction.
-/
namespace PureUnix.Libc

open List Nat UInt32

def isspace (c : UInt8) : Bool := c = 32 ∨ c = 9 ∨ c = 10 ∨ c = 13 ∨ c = 12 ∨ c = 11

def digitValue (c : UInt8) : Option Nat :=
  if 48 ≤ c ∧ c ≤ 57 then some (c.toNat - 48)
  else if 97 ≤ c ∧ c ≤ 122 then some (c.toNat - 97 + 10)
  else if 65 ≤ c ∧ c ≤ 90 then some (c.toNat - 65 + 10)
  else none

/-- `while (*s)`: the value and what is left of the text. -/
def digitLoop (base : Nat) : UInt32 → Text → UInt32 × Text
  | value, [] => (value, [])
  | value, c :: s =>
    match digitValue c with
    | none => (value, c :: s)
    | some digit => if base ≤ digit then (value, c :: s) else digitLoop base (value * .ofNat base + .ofNat digit) s

/-- `strtol`: its value, and the text `endptr` is set to. -/
def strtol (nptr : Text) (base : Nat) : UInt32 × Text :=
  let (sign, s) : UInt32 × Text :=
    match nptr.dropWhile isspace with
    | 45 :: s => (-1, s)
    | 43 :: s => (1, s)
    | s => (1, s)
  let (base, s) :=
    if (base = 0 ∨ base = 16) ∧ s[0]? = some 48 ∧ (s[1]? = some 120 ∨ s[1]? = some 88) then (16, s.drop 2)
    else (if base = 0 then if s[0]? = some 48 then 8 else 10 else base, s)
  let (value, s) := digitLoop base 0 s
  (value * sign, s)

/-! ### Numerals -/

def digitChar (upper : Bool) (d : Nat) : UInt8 := .ofNat (if d < 10 then 48 + d else (if upper then 55 else 87) + d)

/-- The digits of a numeral of `v`, the most significant first. -/
structure IsNumeral (b v : Nat) (ds : List Nat) : Prop where
  ne : ds ≠ []
  lt : ∀ d ∈ ds, d < b
  value : Nat.ofDigits b ds.reverse = v

/-- No numeral of `v` is shorter, and no other one is as short. -/
structure IsShortest (b v : Nat) (ds : List Nat) : Prop extends IsNumeral b v ds where
  least : ∀ es, IsNumeral b v es → ds.length ≤ es.length
  only : ∀ es, IsNumeral b v es → es.length = ds.length → es = ds

section
variable {b : Nat} (hb : 1 < b)
include hb

theorem tmpDigits_eq (upper : Bool) {n v : Nat} (h : v < b ^ n) : tmpDigits upper b n v = (Nat.digits b v).map (digitChar upper) := by
  induction n generalizing v with
  | zero =>
    obtain rfl : v = 0 := by simpa using h
    rw [digits_zero, tmpDigits, map_nil]
  | succ n ih =>
    rw [tmpDigits]
    split
    · next h0 => rw [h0, digits_zero, map_nil]
    · next h0 =>
      rw [Nat.digits_def' hb (Nat.pos_of_ne_zero h0), map_cons, ih (Nat.div_lt_of_lt_mul (by rwa [← Nat.pow_succ']))]
      rfl

/-- The digits `emit_number` emits. -/
def digitsOf (b v : Nat) : List Nat := if v = 0 then [0] else (Nat.digits b v).reverse

theorem isShortest_digitsOf (v : Nat) : IsShortest b v (digitsOf b v) := by
  have hnum : IsNumeral b v (digitsOf b v) := by
    unfold digitsOf
    split
    · next h0 => exact ⟨by simp, by simpa using hb.pos, by simp [h0]⟩
    · next h0 =>
      refine ⟨reverse_ne_nil_iff.2 (digits_ne_nil_iff_ne_zero.2 h0), fun d hd => digits_lt_base hb (mem_reverse.1 hd), ?_⟩
      rw [reverse_reverse, ofDigits_digits]
  refine ⟨hnum, fun es he => ?_, fun es he hlen => ?_⟩
  · unfold digitsOf
    split
    · exact length_pos_of_ne_nil he.ne
    · rw [length_reverse, digits_length_le_iff hb, ← he.value, ← length_reverse]
      exact ofDigits_lt_base_pow_length hb fun d hd => he.lt d (mem_reverse.1 hd)
  · refine reverse_injective (ofDigits_inj_of_len_eq hb (by simpa using hlen) ?_ ?_ (he.value.trans hnum.value.symm))
    · exact fun d hd => he.lt d (mem_reverse.1 hd)
    · exact fun d hd => hnum.lt d (mem_reverse.1 hd)

end

theorem digitValue_digitChar : ∀ upper, ∀ d < 16, digitValue (digitChar upper d) = some d := by decide

theorem digitChar_ne : ∀ upper, ∀ d < 16, isspace (digitChar upper d) = false ∧ digitChar upper d ∉ [45, 43, 120, 88] := by decide

theorem digitLoop_digits {b : Nat} (hb : b ≤ 16) (upper : Bool) {ds : List Nat} (h : ∀ d ∈ ds, d < b) (a : Nat) :
    digitLoop b (.ofNat a) (ds.map (digitChar upper)) = (.ofNat (ds.foldl (fun a d => a * b + d) a), []) := by
  induction ds generalizing a with
  | nil => rfl
  | cons d ds ih =>
    rw [forall_mem_cons] at h
    rw [map_cons, digitLoop, digitValue_digitChar upper d (h.1.trans_le hb)]
    dsimp only
    rw [if_neg (by omega), ← ofNat_mul, ← ofNat_add, ih h.2, foldl_cons]

/-- The text of a numeral, and one behind `-`. -/
theorem strtol_digits {b : Nat} (hb : 1 < b ∧ b ≤ 16) (upper : Bool) {ds : List Nat} (hne : ds ≠ []) (h : ∀ d ∈ ds, d < b) :
    strtol (ds.map (digitChar upper)) b = (.ofNat (Nat.ofDigits b ds.reverse), []) ∧
    strtol (45 :: ds.map (digitChar upper)) b = (-.ofNat (Nat.ofDigits b ds.reverse), []) := by
  have hloop := digitLoop_digits hb.2 upper h 0
  have hfold : ds.foldl (fun a d => a * b + d) 0 = Nat.ofDigits b ds.reverse := by
    rw [ofDigits_eq_foldr, foldr_reverse]
    simp [add_comm, mul_comm]
  have hzero : (0 : UInt32) = .ofNat 0 := rfl
  have hchar : ∀ c ∈ ds.map (digitChar upper), isspace c = false ∧ c ∉ [45, 43, 120, 88] :=
    forall_mem_map.2 fun d hd => digitChar_ne upper d (by have := h d hd; omega)
  rw [hfold, ← hzero] at hloop
  -- neither a sign nor `0x` stands before the digits
  have hhex : ¬ ((ds.map (digitChar upper))[1]? = some 120 ∨ (ds.map (digitChar upper))[1]? = some 88) := by
    rintro (he | he)
    all_goals exact absurd (hchar _ (mem_of_getElem? he)).2 (by decide)
  have hb0 : b ≠ 0 := by omega
  constructor
  · obtain ⟨c, s, hs⟩ := exists_cons_of_ne_nil (mt map_eq_nil_iff.1 hne)
    rw [hs] at hloop hhex hchar ⊢
    obtain ⟨hspace, hsign⟩ := hchar c mem_cons_self
    simp only [mem_cons, not_or] at hsign
    simp only [strtol, dropWhile_cons_of_neg (Bool.eq_false_iff.1 hspace)]
    split <;> simp_all
  · have hminus : dropWhile isspace (45 :: ds.map (digitChar upper)) = 45 :: ds.map (digitChar upper) := rfl
    simp only [strtol, hminus, hhex, and_false, if_false, hb0, hloop, UInt32.mul_comm _ (-1), ← UInt32.neg_eq_neg_one_mul]

/-- The value `emit_number` prints the digits of. -/
def magnitude (v : UInt32) (sign : Bool) : Nat := if sign ∧ 2147483648 ≤ v.toNat then (-v).toNat else v.toNat

theorem magnitude_lt (v : UInt32) (sign : Bool) {b : Nat} (hb : 1 < b) : magnitude v sign < b ^ 32 := by
  refine lt_of_lt_of_le ?_ (Nat.pow_le_pow_left hb 32)
  unfold magnitude
  split <;> exact toNat_lt _

theorem numberText_eq (v : UInt32) {b : Nat} (hb : 1 < b) (sign upper : Bool) : numberText v b sign upper =
    (if sign ∧ 2147483648 ≤ v.toNat then [45] else []) ++ (digitsOf b (magnitude v sign)).map (digitChar upper) := by
  change _ ++ (if magnitude v sign = 0 then [48] else (tmpDigits upper b 32 (magnitude v sign)).reverse) = _
  rw [tmpDigits_eq hb upper (magnitude_lt v sign hb), ← map_reverse, digitsOf, apply_ite (map (digitChar upper))]
  rfl

/-- **Printing and parsing are inverse**, and what is printed is the shortest numeral, of at most 32 digits. -/
theorem strtol_numberText (v : UInt32) :
    strtol (numberText v 10 true false) 10 = (v, []) ∧ strtol (numberText v 16 false false) 16 = (v, []) ∧
    ∀ b sign upper, 1 < b ∧ b ≤ 16 → ∃ ds, IsShortest b (magnitude v sign) ds ∧ ds.length ≤ 32 ∧
      numberText v b sign upper = (if sign ∧ 2147483648 ≤ v.toNat then [45] else []) ++ ds.map (digitChar upper) := by
  refine ⟨?_, ?_, fun b sign upper hb => ⟨_, isShortest_digitsOf hb.1 _, ?_, numberText_eq v hb.1 sign upper⟩⟩
  · have hs := isShortest_digitsOf (b := 10) (by decide) (magnitude v true)
    obtain ⟨hpos, hneg⟩ := strtol_digits (by decide) false hs.ne hs.lt
    rw [numberText_eq v (by decide)]
    rw [hs.value] at hpos hneg
    by_cases hv : 2147483648 ≤ v.toNat
    · simp only [hv, and_self, if_true]
      refine hneg.trans ?_
      rw [magnitude, if_pos ⟨rfl, hv⟩, UInt32.ofNat_toNat, UInt32.neg_neg]
    · simp only [hv, and_false, if_false, nil_append]
      refine hpos.trans ?_
      simp [magnitude, hv]
  · have hs := isShortest_digitsOf (b := 16) (by decide) (magnitude v false)
    rw [numberText_eq v (by decide)]
    refine (strtol_digits (by decide) false hs.ne hs.lt).1.trans ?_
    rw [hs.value]
    simp [magnitude]
  · unfold digitsOf
    split
    · decide
    · rw [length_reverse, digits_length_le_iff hb.1]
      exact magnitude_lt v sign hb.1

/-- The least integer, which has no positive counterpart. -/
theorem strtol_numberText_min : strtol (numberText 2147483648 10 true false) 10 = (2147483648, []) ∧
    ∃ ds, IsShortest 2 (magnitude 2147483648 true) ds ∧ ds.length ≤ 32 ∧
      numberText 2147483648 2 true false = 45 :: ds.map (digitChar false) :=
  ⟨(strtol_numberText _).1, (strtol_numberText 2147483648).2.2 2 true false (by decide)⟩

end PureUnix.Libc
