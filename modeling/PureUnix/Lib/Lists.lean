import Mathlib.Data.List.Basic

/-!
# List edits

* `Inserted x l l'`: the list `l'` is `l` with `x` put in at some place.
* `copyAt`, `overlay`: elements put over a list from an index on, inside its bounds or with what is missing
  filled up.
-/
namespace PureUnix

/-- A string of bytes: a name, a path, a line or what a file holds. -/
abbrev Text := List UInt8

def ascii (s : String) : Text := s.toList.map fun c => UInt8.ofNat c.toNat

end PureUnix

namespace PureUnix.Lib

open List

variable {α : Type} {x y : α} {l l' : List α}

def Inserted (x : α) (l l' : List α) : Prop := ∃ l₁ l₂, l = l₁ ++ l₂ ∧ l' = l₁ ++ x :: l₂

namespace Inserted

theorem append_left (h : Inserted x l l') (a : List α) : Inserted x (a ++ l) (a ++ l') := by
  obtain ⟨l₁, l₂, rfl, rfl⟩ := h
  exact ⟨a ++ l₁, l₂, by simp, by simp⟩

theorem append_right (h : Inserted x l l') (c : List α) : Inserted x (l ++ c) (l' ++ c) := by
  obtain ⟨l₁, l₂, rfl, rfl⟩ := h
  exact ⟨l₁, l₂ ++ c, by simp, by simp⟩

theorem append_new (x : α) (l : List α) : Inserted x l (l ++ [x]) := ⟨l, [], by simp, rfl⟩

section
variable (h : Inserted x l l') {p : α → Bool}
include h

theorem perm : List.Perm l' (x :: l) := by
  obtain ⟨l₁, l₂, rfl, rfl⟩ := h
  exact perm_middle

theorem mem_iff : y ∈ l' ↔ y = x ∨ y ∈ l := by
  rw [h.perm.mem_iff, mem_cons]

theorem find?_eq (hp : p x = false) : l'.find? p = l.find? p := by
  obtain ⟨l₁, l₂, rfl, rfl⟩ := h
  rw [find?_append, find?_append, find?_cons_of_neg (by simp [hp])]

theorem find?_new (hp : p x = true) (hno : l.find? p = none) : l'.find? p = some x := by
  obtain ⟨l₁, l₂, rfl, rfl⟩ := h
  rw [find?_append, Option.or_eq_none_iff] at hno
  rw [find?_append, hno.1, find?_cons_of_pos hp]
  rfl

theorem countP_eq (hp : p x = false) : l'.countP p = l.countP p := by
  rw [h.perm.countP_eq, countP_cons_of_neg (by simp [hp])]

end

end Inserted

variable {f : α → Option α} {xs : List α} {p q : α → Bool}

/-! ## Searches in edited lists -/

theorem find?_eraseP (h : ∀ x, p x = true → q x = false) : ∀ l : List α, (l.eraseP p).find? q = l.find? q
  | [] => rfl
  | x :: l => by
    cases hp : p x with
    | true => rw [eraseP_cons_of_pos hp, find?_cons_of_neg (by simp [h x hp])]
    | false =>
      rw [eraseP_cons_of_neg (by simp [hp]), find?_cons, find?_cons, find?_eraseP h l]

theorem find?_eraseP_self (h : l.countP p ≤ 1) : (l.eraseP p).find? p = none := by
  by_cases hex : ∃ a ∈ l, p a = true
  · obtain ⟨a, ha, hpa⟩ := hex
    obtain ⟨b, l₁, l₂, h1, hb, rfl, he⟩ := exists_of_eraseP ha hpa
    rw [countP_append, countP_cons_of_pos hb] at h
    have h2 : ∀ c ∈ l₂, ¬ p c = true := countP_eq_zero.1 (by omega)
    rw [he, find?_eq_none]
    intro c hc
    rcases mem_append.1 hc with hc | hc
    · exact h1 c hc
    · exact h2 c hc
  · have hno : ∀ a ∈ l, ¬ p a = true := fun a ha hpa => hex ⟨a, ha, hpa⟩
    rw [eraseP_of_forall_not hno, find?_eq_none]
    exact hno

theorem find?_replaceF (h : ∀ x y, f x = some y → q x = false ∧ q y = false) : ∀ l : List α, (l.replaceF f).find? q = l.find? q
  | [] => rfl
  | x :: l => by
    cases hf : f x with
    | some y =>
      obtain ⟨hx, hy⟩ := h x y hf
      rw [replaceF_cons_of_some _ hf, find?_cons_of_neg (by simp [hy]), find?_cons_of_neg (by simp [hx])]
    | none => rw [replaceF_cons_of_none _ hf, find?_cons, find?_cons, find?_replaceF h l]

/-! ## Replacing -/

theorem replaceF_append (h : ∀ x ∈ xs, f x = none) (ys : List α) : (xs ++ ys).replaceF f = xs ++ ys.replaceF f := by
  induction xs with
  | nil => rfl
  | cons x xs ih =>
    rw [cons_append, replaceF_cons_of_none _ (h x (by simp)), ih fun y hy => h y (by simp [hy]), cons_append]

theorem mem_replaceF {y : α} : ∀ {xs : List α}, y ∈ xs.replaceF f → y ∈ xs ∨ ∃ x ∈ xs, f x = some y
  | [], h => .inl h
  | x :: xs, h => by
    cases hf : f x with
    | some z =>
      rw [replaceF_cons_of_some _ hf] at h
      rcases mem_cons.1 h with rfl | h
      · exact .inr ⟨x, by simp, hf⟩
      · exact .inl (by simp [h])
    | none =>
      rw [replaceF_cons_of_none _ hf] at h
      rcases mem_cons.1 h with rfl | h
      · exact .inl (by simp)
      · rcases mem_replaceF h with h | ⟨w, hw, hwy⟩
        · exact .inl (by simp [h])
        · exact .inr ⟨w, by simp [hw], hwy⟩

theorem replaceF_append_left {ys : List α} (h : ∃ x ∈ xs, (f x).isSome) : (xs ++ ys).replaceF f = xs.replaceF f ++ ys := by
  induction xs with
  | nil => obtain ⟨x, hx, -⟩ := h; cases hx
  | cons x xs ih =>
    rw [cons_append]
    cases hf : f x with
    | some y => rw [replaceF_cons_of_some _ hf, replaceF_cons_of_some _ hf, cons_append]
    | none =>
      rw [replaceF_cons_of_none _ hf, replaceF_cons_of_none _ hf, ih, cons_append]
      obtain ⟨z, hz, hs⟩ := h
      rcases mem_cons.1 hz with rfl | hz
      · rw [hf] at hs; cases hs
      · exact ⟨z, hz, hs⟩

/-! ## Elements put over a list -/

/-- `src` put over `dst` from `off` on; `none` if it does not fit. -/
def copyAt (dst : List α) (off : Nat) (src : List α) : Option (List α) :=
  if off + src.length ≤ dst.length then some (dst.take off ++ src ++ dst.drop (off + src.length)) else none

/-- `src` put over `dst` from `off` on; what lies between the end of `dst` and `off` is filled. -/
def overlay (fill : α) (dst : List α) (off : Nat) (src : List α) : List α :=
  dst.take off ++ List.replicate (off - dst.length) fill ++ src ++ dst.drop (off + src.length)

theorem copyAt_eq_overlay (fill : α) (dst : List α) (off : Nat) (src : List α) (h : off + src.length ≤ dst.length) :
    copyAt dst off src = some (overlay fill dst off src) := by
  rw [copyAt, if_pos h, overlay, Nat.sub_eq_zero_of_le (by omega), replicate_zero, append_nil]

theorem copyAt_filled (fill : α) (dst : List α) (off : Nat) (src : List α) (h : dst.length ≤ off + src.length) :
    copyAt (dst ++ replicate (off + src.length - dst.length) fill) off src = some (overlay fill dst off src) := by
  have hlen : (dst ++ replicate (off + src.length - dst.length) fill).length = off + src.length := by
    rw [length_append, length_replicate]; omega
  rw [copyAt, if_pos (by omega), overlay, drop_of_length_le (by omega), drop_of_length_le h, take_append,
    take_replicate, Nat.min_eq_left (by omega)]

theorem length_overlay (fill : α) (dst : List α) (off : Nat) (src : List α) :
    (overlay fill dst off src).length = max dst.length (off + src.length) := by
  simp only [overlay, length_append, length_take, length_replicate, length_drop]
  omega

theorem copyAt_length {dst src d : List α} {off : Nat} (h : copyAt dst off src = some d) :
    off + src.length ≤ dst.length ∧ d.length = dst.length := by
  unfold copyAt at h
  split at h
  · cases h
    simp only [length_append, length_take, length_drop]
    omega
  · cases h

end PureUnix.Lib
