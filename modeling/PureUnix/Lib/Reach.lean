import Mathlib.Logic.Relation

/-!
# Reachability when the edges change

`Reach E r x`: the edges `E` lead from the root `r` to `x`. The rules say what becomes of it when the edges between
reached nodes stay (`congr`), when a node without edges of its own is hung on (`add_leaf`), and when one is cut off
(`remove_leaf`).
-/
namespace PureUnix.Lib

variable {α : Type*} {E E' : α → α → Prop} {r a x : α}

abbrev Reach (E : α → α → Prop) (r x : α) : Prop := Relation.ReflTransGen E r x

namespace Reach

theorem mono (h : ∀ y, Reach E r y → ∀ z, E y z → E' y z) (hx : Reach E r x) : Reach E' r x := by
  induction hx with
  | refl => exact .refl
  | tail hy he ih => exact ih.tail (h _ hy _ he)

theorem congr (h : ∀ y, Reach E r y → ∀ z, E' y z ↔ E y z) : Reach E' r x ↔ Reach E r x := by
  refine ⟨fun hx => ?_, mono fun y hy z => (h y hy z).2⟩
  induction hx with
  | refl => exact .refl
  | tail _ he ih => exact ih.tail ((h _ ih _).1 he)

theorem add_leaf (ha : Reach E r a) (h : ∀ y, Reach E r y → ∀ z, E' y z ↔ E y z ∨ y = a ∧ z = x) (hx : ∀ z, ¬ E' x z) {y : α} :
    Reach E' r y ↔ Reach E r y ∨ y = x := by
  have hsub : ∀ z, Reach E r z → Reach E' r z := fun z => mono fun y hy z he => (h y hy z).2 (.inl he)
  constructor
  · intro hy
    induction hy with
    | refl => exact .inl .refl
    | tail _ he ih =>
      rcases ih with ih | rfl
      · rcases (h _ ih _).1 he with he | ⟨-, rfl⟩
        · exact .inl (ih.tail he)
        · exact .inr rfl
      · exact absurd he (hx _)
  · rintro (hy | rfl)
    · exact hsub y hy
    · exact (hsub a ha).tail ((h a ha _).2 (.inr ⟨rfl, rfl⟩))

theorem remove_leaf (hr : r ≠ x) (h : ∀ y, Reach E r y → y ≠ x → ∀ z, E' y z ↔ E y z ∧ z ≠ x) (hx : ∀ z, ¬ E x z) {y : α} :
    Reach E' r y ↔ Reach E r y ∧ y ≠ x := by
  constructor
  · intro hy
    induction hy with
    | refl => exact ⟨.refl, hr⟩
    | tail _ he ih =>
      obtain ⟨he, hne⟩ := (h _ ih.1 ih.2 _).1 he
      exact ⟨ih.1.tail he, hne⟩
  · rintro ⟨hy, hne⟩
    induction hy with
    | refl => exact .refl
    | @tail b c hb he ih =>
      have hbx : b ≠ x := fun hbx => hx c (hbx ▸ he)
      exact (ih hbx).tail ((h b hb hbx c).2 ⟨he, hne⟩)

end Reach
end PureUnix.Lib
