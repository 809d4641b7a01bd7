import Mathlib.Data.List.Basic
import Mathlib.Tactic.Common

/-!
# Appending by rewriting

A store without an append of its own appends in three steps: it reads the old text, puts the new text behind it in a
buffer, and writes the buffer in place of the old text. Lengths are numbers of `w` values; a buffer of length 0 is
never granted. Where the old text cannot be read, the new text alone is written.
-/
namespace PureUnix.Lib

open List Nat

variable {α : Type}

/-- The text that is written: `none` if there is no buffer for it. -/
def rewritten (w : Nat) (readable buffer : Bool) (old new : List α) : Option (List α) :=
  if readable = true then
    if buffer = true ∧ (old.length + new.length) % w ≠ 0 then some ((old ++ new).take ((old.length + new.length) % w))
    else none
  else some new

/-- What an append owes: it returns 0 only with the new text behind the old, and it returns 0 if there is memory and
room for both. -/
structure Appended (rc : Int) (text old new : List α) (memory room : Prop) : Prop where
  kept : rc = 0 → text = old ++ new
  served : memory → room → rc = 0

/-- The appends that owe nothing. `takes n` says that the store finds the room for `n` values as it counts it, `room n`
that there is room for them; `holds` are the texts it can store. -/
def AppendSound (w : Nat) (readable buffer : Bool) (old new : List α) (takes room : Nat → Prop) (holds : List α → Prop) : Prop :=
  if readable = true then
    buffer = true →
      if (old.length + new.length) % w = 0 then ¬ room (old.length + new.length)
      else takes ((old.length + new.length) % w) → old.length + new.length < w ∧ holds (old ++ new)
  else takes new.length → old = [] ∧ holds new

section
variable {w : Nat} {readable buffer : Bool} {old new text t : List α} {rc : Int} {memory : Prop} {takes room : Nat → Prop}
  {holds : List α → Prop} {held : List α → List α}

/-- How a store ends that writes `t`. -/
structure Rewrites (rc : Int) (text t : List α) (takes : Nat → Prop) (held : List α → List α) : Prop where
  zero : rc = 0 ↔ takes t.length
  text : rc = 0 → text = held t

/-- A text that is stored whole, and is not shorter than `all`, of which it is a part. -/
theorem held_eq_iff {all : List α} (hlen : (held t).length ≤ t.length) (hholds : holds t ↔ held t = t)
    (ht : t.length < all.length ∨ t = all) : held t = all ↔ t = all ∧ holds t := by
  rw [hholds]
  constructor
  · intro he
    have hlen' := hlen
    rw [he] at hlen'
    rcases ht with hlt | rfl
    · omega
    · exact ⟨rfl, he⟩
  · rintro ⟨rfl, he⟩
    exact he

theorem length_take_mod : ((old ++ new).take ((old.length + new.length) % w)).length = (old.length + new.length) % w := by
  have := mod_le (old.length + new.length) w
  rw [length_take, length_append]
  omega

theorem take_mod_eq (hw : 0 < w) : (old ++ new).take ((old.length + new.length) % w) = old ++ new ↔ old.length + new.length < w := by
  constructor
  · intro he
    have hlen := congrArg length he
    rw [length_take_mod, length_append] at hlen
    have := mod_lt (old.length + new.length) hw
    omega
  · intro hlt
    rw [mod_eq_of_lt hlt, ← length_append, take_length]

theorem take_mod_part (hw : 0 < w) : ((old ++ new).take ((old.length + new.length) % w)).length < (old ++ new).length ∨
    (old ++ new).take ((old.length + new.length) % w) = old ++ new := by
  by_cases hlt : old.length + new.length < w
  · exact .inr ((take_mod_eq hw).2 hlt)
  · have := mod_lt (old.length + new.length) hw
    rw [length_take_mod, length_append]
    omega

theorem new_part : new.length < (old ++ new).length ∨ new = old ++ new := by
  cases old with
  | nil => exact .inr rfl
  | cons a old =>
    simp only [length_append, length_cons]
    omega

/-- **Appending by rewriting** meets its debt in the cases of `AppendSound`. -/
theorem appended_iff (hw : 0 < w) (hmem : readable = true → buffer = true → memory) (hbuf : memory → buffer = true)
    (hnone : rewritten w readable buffer old new = none → rc ≠ 0)
    (hsome : ∀ t, rewritten w readable buffer old new = some t → Rewrites rc text t takes held)
    (hroom : ∀ m n, m ≤ n → room n → takes m) (hlen : ∀ t, (held t).length ≤ t.length) (hholds : ∀ t, holds t ↔ held t = t) :
    Appended rc text old new memory (room (old.length + new.length)) ↔ AppendSound w readable buffer old new takes room holds := by
  -- a text that is written instead of both serves as both in the cases of `held_eq_iff`
  have hwrite : ∀ t, rewritten w readable buffer old new = some t → t.length ≤ old.length + new.length →
      t.length < (old ++ new).length ∨ t = old ++ new →
      (Appended rc text old new memory (room (old.length + new.length)) ↔ (takes t.length → t = old ++ new ∧ holds t)) := by
    intro t ht hle hpart
    have hr := hsome t ht
    have he := held_eq_iff (hlen t) (hholds t) hpart
    constructor
    · intro ha htakes
      have h0 := hr.zero.2 htakes
      rw [← he, ← hr.text h0]
      exact ha.kept h0
    · intro hs
      refine ⟨fun h0 => ?_, fun _ hro => hr.zero.2 (hroom _ _ hle hro)⟩
      rw [hr.text h0]
      exact he.2 (hs (hr.zero.1 h0))
  unfold AppendSound
  unfold rewritten at hnone hwrite
  by_cases hread : readable = true
  · simp only [hread, if_true] at hnone hwrite ⊢
    by_cases hb : buffer = true
    · have hmem := hmem hread hb
      simp only [hb, true_and, forall_const] at hnone hwrite ⊢
      by_cases h0 : (old.length + new.length) % w = 0
      · simp only [h0, ne_eq, not_true_eq_false, if_false, if_true, forall_const] at hnone ⊢
        constructor
        · intro ha hro
          exact hnone (ha.served hmem hro)
        · intro hro
          exact ⟨fun hz => absurd hz hnone, fun _ hr => absurd hr hro⟩
      · simp only [h0, ne_eq, not_false_eq_true, if_true, if_false] at hwrite ⊢
        rw [hwrite _ rfl (by rw [length_take_mod]; exact mod_le _ _) (take_mod_part hw), take_mod_eq hw, length_take_mod]
        refine imp_congr_right fun _ => and_congr_right fun hlt => ?_
        rw [(take_mod_eq hw).2 hlt]
    · have hrc := hnone (if_neg fun hc => hb hc.1)
      exact ⟨fun _ hc => absurd hc hb, fun _ => ⟨fun hz => absurd hz hrc, fun hm => absurd (hbuf hm) hb⟩⟩
  · simp only [hread] at hwrite ⊢
    rw [hwrite new rfl (le_add_left _ _) new_part]
    refine imp_congr_right fun _ => and_congr_left fun _ => ?_
    rw [self_eq_append_left]

end
end PureUnix.Lib
