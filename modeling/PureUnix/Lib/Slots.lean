import Mathlib.Logic.Function.Basic

/-!
# Copies in slots

Slots `ι` are empty or carry a label `κ`, and hold a value. They are `Coherent` with a store when no label stands
twice and a labelled slot holds what the store has under its label. A slot may be filled from the store or emptied
at any time; a change of the store under one label has to reach the slot of that label, if there is one.
-/
namespace PureUnix.Lib

export Function (update update_of_ne update_self)

variable {ι κ ν : Type} [DecidableEq ι]

structure Coherent (store : κ → ν) (label : ι → Option κ) (value : ι → ν) : Prop where
  once : ∀ i j k, label i = some k → label j = some k → i = j
  copy : ∀ i k, label i = some k → value i = store k

namespace Coherent
variable {store store' : κ → ν} {label : ι → Option κ} {value : ι → ν} {i : ι} {k : κ}

omit [DecidableEq ι] in
theorem of_empty (h : ∀ i, label i = none) : Coherent store label value := by
  refine ⟨fun i j k hi => ?_, fun i k hi => ?_⟩
  · rw [h i] at hi; cases hi
  · rw [h i] at hi; cases hi

/-- A slot is filled with a value no slot has yet. -/
theorem fill (h : Coherent store label value) (hnew : ∀ j, label j ≠ some k) :
    Coherent store (update label i (some k)) (update value i (store k)) := by
  have hother : ∀ j l, j ≠ i → update label i (some k) j = some l → label j = some l := by
    intro j l hj hl
    rwa [update_of_ne hj] at hl
  refine ⟨fun j j' l hj hj' => ?_, fun j l hj => ?_⟩
  · by_cases e : j = i <;> by_cases e' : j' = i
    · rw [e, e']
    · subst e
      rw [update_self] at hj
      exact absurd (hother j' l e' hj') (hj ▸ hnew j')
    · subst e'
      rw [update_self] at hj'
      exact absurd (hother j l e hj) (hj' ▸ hnew j)
    · exact h.once j j' l (hother j l e hj) (hother j' l e' hj')
  · by_cases e : j = i
    · subst e
      rw [update_self, Option.some.injEq] at hj
      rw [update_self, hj]
    · rw [update_of_ne e]
      exact h.copy j l (hother j l e hj)

/-- The store changes under `k`, and so does the slot of `k`. -/
theorem refresh (h : Coherent store label value) (hi : label i = some k)
    (hst : ∀ j l, label j = some l → l ≠ k → store' l = store l) :
    Coherent store' label (update value i (store' k)) := by
  refine ⟨h.once, fun j l hj => ?_⟩
  by_cases e : j = i
  · subst e
    rw [hi, Option.some.injEq] at hj
    rw [update_self, hj]
  have hl : l ≠ k := by
    rintro rfl
    exact e (h.once j i l hj hi)
  rw [update_of_ne e, h.copy j l hj, hst j l hj hl]

omit [DecidableEq ι] in
/-- The store changes under a label that no slot has. -/
theorem skip (h : Coherent store label value) (hnew : ∀ j, label j ≠ some k)
    (hst : ∀ j l, label j = some l → l ≠ k → store' l = store l) : Coherent store' label value := by
  refine ⟨h.once, fun j l hj => ?_⟩
  rw [h.copy j l hj, hst j l hj]
  rintro rfl
  exact hnew j hj

end Coherent
end PureUnix.Lib
