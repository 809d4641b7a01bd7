import PureUnix.Lib.Lists

/-!
# Text in fixed buffers

A buffer is the list of its bytes, its length the size of the array. The functions of `string.h` on buffers fail (`none`) where
they would read or write outside of one.

* `IsText n b s`: the buffer `b` of `n` bytes holds the text `s` and a zero byte behind it.
* `IsText.splice`: text written over the end of a text, with a new zero byte. The other edits are cases of it.
-/
namespace PureUnix.Lib.CStr

open List Option

/-! ## Reading and writing -/

def strlen (b : Text) : Option Nat := b.findIdx? (· = 0)

def cstr (b : Text) : Option Text := (strlen b).map b.take

def slice (b : Text) (off n : Nat) : Option Text := if off + n ≤ b.length then some ((b.drop off).take n) else none

def put (b : Text) (i : Nat) (c : UInt8) : Option Text := copyAt b i [c]

/-- `memcpy(dst + off, src + from, n)` between arrays of known size; `none` past the end of one. -/
def blit (dst : Text) (off : Nat) (src : Text) (start n : Nat) : Option Text :=
  (slice src start n).bind (copyAt dst off)

/-- `memmove` inside one buffer. -/
def memmove (b : Text) (dst src n : Nat) : Option Text := blit b dst b src n

def strcat (dst src : Text) : Option Text := do
  let n ← strlen dst
  let m ← strlen src
  blit dst n src 0 (m + 1)

/-- Where `needle` starts in `hay`, for texts. -/
def indexOf (needle hay : Text) : Option Nat :=
  if needle = [] then some 0 else (List.range hay.length).find? fun i => needle.isPrefixOf (hay.drop i)

/-- `strstr`: the offset of the first occurrence. -/
def strstr (hay needle : Text) : Option (Option Nat) := do
  let h ← cstr hay
  let n ← cstr needle
  some (indexOf n h)

/-! ## Buffers that hold a text -/

structure IsText (n : Nat) (b s : Text) : Prop where
  size : b.length = n
  noZero : 0 ∉ s
  split : ∃ junk, b = s ++ 0 :: junk

def Ended (n : Nat) (b : Text) : Prop := ∃ s, IsText n b s

section
variable {n m i e : Nat} {b b' s t u v b₁ : Text} {c : UInt8}

theorem Ended.of_mem (hb : b.length = n) (h0 : 0 ∈ b) : Ended n b := by
  obtain ⟨s, junk, rfl, hs⟩ := eq_append_cons_of_mem h0
  exact ⟨s, hb, hs, junk, rfl⟩

theorem copyAt_some {off : Nat} {src : Text} (h : off + src.length ≤ b.length) :
    copyAt b off src = some (b.take off ++ src ++ b.drop (off + src.length)) := if_pos h

theorem put_some (hi : i < b.length) : put b i c = some (b.set i c) := by
  rw [put, copyAt_some hi, set_eq_take_append_cons_drop, if_pos hi]
  simp

theorem put_zero (hi : i < b.length) : ∃ b', put b i 0 = some b' ∧ Ended b.length b' :=
  ⟨_, put_some hi, Ended.of_mem (length_set ..) (mem_set hi 0)⟩

theorem copyAt_before (h : copyAt b (i + u.length) v = some b₁) : copyAt b₁ i u = copyAt b i (u ++ v) := by
  obtain ⟨hfit, hlen⟩ := copyAt_length h
  rw [copyAt_some hfit] at h
  cases h
  rw [copyAt_some (by rw [hlen]; omega), copyAt_some (by rw [length_append]; omega)]
  have htake : (b.take (i + u.length) ++ v ++ b.drop (i + u.length + v.length)).take i = b.take i := by
    rw [append_assoc, take_append_of_le_length (by rw [length_take]; omega), take_take]
    congr 1
    omega
  have hdrop : (b.take (i + u.length) ++ v ++ b.drop (i + u.length + v.length)).drop (i + u.length) =
      v ++ b.drop (i + u.length + v.length) := by
    rw [append_assoc, drop_append_of_le_length (by rw [length_take]; omega), drop_take_self, nil_append]
  rw [htake, hdrop]
  simp only [append_assoc, length_append, Nat.add_assoc]

theorem copyAt_behind (h : copyAt b i u = some b₁) : copyAt b₁ (i + u.length) v = copyAt b i (u ++ v) := by
  obtain ⟨hfit, hlen⟩ := copyAt_length h
  rw [copyAt_some hfit] at h
  by_cases hv : i + u.length + v.length ≤ b.length
  · rw [copyAt_some (by omega), copyAt_some (by rw [length_append]; omega)]
    cases h
    have hl : (b.take i ++ u).length = i + u.length := by
      rw [length_append, length_take]
      omega
    have htake : (b.take i ++ u ++ b.drop (i + u.length)).take (i + u.length) = b.take i ++ u := by
      rw [← hl, take_left]
    have hdrop : (b.take i ++ u ++ b.drop (i + u.length)).drop (i + u.length + v.length) = b.drop (i + u.length + v.length) := by
      rw [drop_append, drop_of_length_le (by omega), nil_append, drop_drop]
      congr 1
      omega
    rw [htake, hdrop]
    simp only [append_assoc, length_append, Nat.add_assoc]
  · rw [copyAt, if_neg (by omega), copyAt, if_neg (by rw [length_append]; omega)]

namespace IsText

section
variable (h : IsText n b s)
include h

theorem lt : s.length < n := by
  obtain ⟨junk, rfl⟩ := h.split
  have := h.size
  rw [length_append, length_cons] at this
  omega

theorem strlen : CStr.strlen b = some s.length := by
  obtain ⟨junk, rfl⟩ := h.split
  rw [CStr.strlen, findIdx?_append]
  have hnone : s.findIdx? (fun x => decide (x = 0)) = none := by
    rw [findIdx?_eq_none_iff]
    intro x hx
    simpa using fun he : x = 0 => h.noZero (he ▸ hx)
  rw [hnone, findIdx?_cons]
  simp

theorem take (hi : i ≤ s.length) : b.take i = s.take i := by
  obtain ⟨junk, rfl⟩ := h.split
  rw [take_append_of_le_length hi]

theorem cstr : CStr.cstr b = some s := by
  rw [CStr.cstr, h.strlen, map_some, h.take (Nat.le_refl _), take_length]

section
variable (hi : i ≤ s.length)
include hi

theorem slice : CStr.slice b i (s.length - i + 1) = some (s.drop i ++ [0]) := by
  have hlt := h.lt
  rw [CStr.slice, if_pos (by rw [h.size]; omega)]
  obtain ⟨junk, rfl⟩ := h.split
  rw [drop_append_of_le_length hi, take_append, take_of_length_le (by rw [length_drop]; omega), length_drop]
  rw [show s.length - i + 1 - (s.length - i) = 1 by omega]
  rfl

theorem drop : IsText (n - i) (b.drop i) (s.drop i) := by
  refine ⟨by rw [length_drop, h.size], fun h0 => h.noZero (mem_of_mem_drop h0), ?_⟩
  obtain ⟨junk, rfl⟩ := h.split
  exact ⟨junk, drop_append_of_le_length hi⟩

/-- **Text written over the end of a text.** -/
theorem splice (ht : 0 ∉ t) (hfit : i + t.length < n) : ∃ b', copyAt b i (t ++ [0]) = some b' ∧ IsText n b' (s.take i ++ t) := by
  have hc : copyAt b i (t ++ [0]) = some (b.take i ++ (t ++ [0]) ++ b.drop (i + (t ++ [0]).length)) :=
    copyAt_some (by rw [length_append, length_singleton, h.size]; omega)
  refine ⟨_, hc, ?_, ?_, b.drop (i + (t ++ [0]).length), ?_⟩
  · rw [(copyAt_length hc).2, h.size]
  · intro h0
    rcases mem_append.1 h0 with h0 | h0
    · exact h.noZero (mem_of_mem_take h0)
    · exact ht h0
  · rw [h.take hi]
    simp

theorem cut : ∃ b', put b i 0 = some b' ∧ IsText n b' (s.take i) := by
  have hlt := h.lt
  have := h.splice (t := []) hi (by simp) (by simp; omega)
  rwa [append_nil] at this

end

theorem remove (hie : i ≤ e) (he : e ≤ s.length) :
    ∃ b', memmove b i e (s.length - e + 1) = some b' ∧ IsText n b' (s.take i ++ s.drop e) := by
  have hlt := h.lt
  rw [memmove, blit, h.slice he]
  exact h.splice (by omega) (fun h0 => h.noZero (mem_of_mem_drop h0)) (by rw [length_drop]; omega)

theorem insert (hi : i ≤ s.length) (hfit : s.length + 1 < n) (hc : c ≠ 0) :
    ∃ b₁ b', memmove b (i + 1) i (s.length - i + 1) = some b₁ ∧ put b₁ i c = some b' ∧ IsText n b' (s.take i ++ c :: s.drop i) := by
  have ht : 0 ∉ c :: s.drop i := by
    rw [mem_cons, not_or]
    exact ⟨Ne.symm hc, fun h0 => h.noZero (mem_of_mem_drop h0)⟩
  obtain ⟨b', hb', hs⟩ := h.splice hi ht (by rw [length_cons, length_drop]; omega)
  have hmove : memmove b (i + 1) i (s.length - i + 1) = copyAt b (i + 1) (s.drop i ++ [0]) := by
    rw [memmove, blit, h.slice hi]
    rfl
  have hfirst : copyAt b (i + 1) (s.drop i ++ [0]) = some _ :=
    copyAt_some (by rw [length_append, length_drop, length_singleton, h.size]; omega)
  refine ⟨_, b', hmove.trans hfirst, ?_, hs⟩
  rw [put, copyAt_before hfirst]
  exact hb'

theorem set (hi : i < s.length) (hc : c ≠ 0) : ∃ b', put b i c = some b' ∧ IsText n b' (s.set i c) := by
  have hlt := h.lt
  refine ⟨_, put_some (by rw [h.size]; omega), by rw [length_set, h.size], fun h0 => ?_, ?_⟩
  · rcases mem_or_eq_of_mem_set h0 with h0 | h0
    · exact h.noZero h0
    · exact hc h0.symm
  · obtain ⟨junk, rfl⟩ := h.split
    exact ⟨junk, set_append_left _ _ hi⟩

theorem strcat (h' : IsText m b' t) (hfit : s.length + t.length < n) :
    ∃ b₁, CStr.strcat b b' = some b₁ ∧ IsText n b₁ (s ++ t) := by
  have hsl := h'.slice (Nat.zero_le _)
  rw [Nat.sub_zero, drop_zero] at hsl
  have hcat : CStr.strcat b b' = copyAt b s.length (t ++ [0]) := by
    simp only [CStr.strcat, h.strlen, h'.strlen, blit, hsl, bind_eq_bind, bind_some]
  rw [hcat]
  have := h.splice (Nat.le_refl _) h'.noZero hfit
  rwa [take_length] at this

theorem join (h' : IsText m b' t) (hc : c ≠ 0) (hfit : s.length + t.length + 1 < n) :
    ∃ b₁ b₂, put b s.length c = some b₁ ∧ blit b₁ (s.length + 1) b' 0 (t.length + 1) = some b₂ ∧ IsText n b₂ (s ++ c :: t) := by
  have hsl := h'.slice (Nat.zero_le _)
  rw [Nat.sub_zero] at hsl
  have hput : put b s.length c = some _ := copyAt_some (by rw [length_singleton, h.size]; omega)
  have ht : 0 ∉ c :: t := by
    rw [mem_cons, not_or]
    exact ⟨Ne.symm hc, h'.noZero⟩
  obtain ⟨b₂, hb₂, hs⟩ := h.splice (Nat.le_refl _) ht (by rw [length_cons]; omega)
  rw [take_length] at hs
  refine ⟨_, b₂, hput, ?_, hs⟩
  rw [blit, hsl]
  exact (copyAt_behind hput).trans hb₂

end

end IsText

theorem indexOf_le {needle hay : Text} (h : indexOf needle hay = some i) : i ≤ hay.length := by
  unfold indexOf at h
  split at h
  · cases h
    exact Nat.zero_le _
  · have := mem_of_find?_eq_some h
    exact Nat.le_of_lt (mem_range.1 this)

theorem IsText.strstr (h : IsText n b s) (h' : IsText m b' t) : CStr.strstr b b' = some (indexOf t s) := by
  rw [CStr.strstr, h.cstr, h'.cstr]
  rfl

end

/-! ## `strncpy` into zeroed arrays -/

/-- `strncpy(dst, src, n)` into a larger buffer: `src` is cut, or filled up with zero bytes. -/
def strncpy (dst src : Text) (n : Nat) : Text := (src ++ replicate n 0).take n ++ dst.drop n

/-- A zeroed array of `n + 1` bytes into which `strncpy` has put `s`. -/
def field (n : Nat) (s : Text) : Text := s.take n ++ replicate (n - s.length + 1) 0

theorem strncpy_field (n : Nat) (t s : Text) : strncpy (field n t) s n = field n s := by
  have hdrop : (field n t).drop n = [0] := by
    rw [field, drop_append, drop_of_length_le (length_take_le ..), length_take, drop_replicate, nil_append]
    rw [show n - t.length + 1 - (n - min n t.length) = 1 by omega]
    rfl
  rw [strncpy, hdrop, take_append, take_replicate, Nat.min_eq_left (Nat.sub_le ..), append_assoc, ← replicate_succ']
  rfl

theorem isText_field (n : Nat) {s : Text} (h : 0 ∉ s) : IsText (n + 1) (field n s) (s.take n) where
  size := by rw [field, length_append, length_take, length_replicate]; omega
  noZero := fun hm => h (mem_of_mem_take hm)
  split := ⟨_, rfl⟩

theorem cstr_field {n : Nat} {s : Text} (h : 0 ∉ s) (hn : s.length ≤ n) : cstr (field n s) = some s := by
  rw [(isText_field n h).cstr, take_of_length_le hn]

end PureUnix.Lib.CStr
