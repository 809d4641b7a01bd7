import Mathlib.Logic.Basic

/-!
# Programs with checks

A program that may run into a failed check is an `Option`. `Ends m P`: no check of `m` fails, and its result satisfies `P`.
`Yields m P`: its result satisfies `P` unless a check fails.
-/
namespace PureUnix.Lib

variable {α β : Type} {m m' : Option α} {f : α → Option β} {P Q : α → Prop} {R : β → Prop} {a : α} {c : Prop}

def Ends (m : Option α) (P : α → Prop) : Prop := ∃ a, m = some a ∧ P a

namespace Ends

theorem pure (h : P a) : Ends (some a) P := ⟨a, rfl, h⟩

theorem mono (h : Ends m P) (hPQ : ∀ a, P a → Q a) : Ends m Q := by
  obtain ⟨a, rfl, ha⟩ := h
  exact ⟨a, rfl, hPQ a ha⟩

theorem bind (h : Ends m P) (hf : ∀ a, P a → Ends (f a) R) : Ends (m >>= f) R := by
  obtain ⟨a, rfl, ha⟩ := h
  exact hf a ha

theorem seq (h : m = some a) (hf : Ends (f a) R) : Ends (m >>= f) R := by
  rw [h]
  exact hf

theorem ite [Decidable c] (hp : c → Ends m P) (hq : ¬ c → Ends m' P) : Ends (if c then m else m') P := by
  split
  · exact hp ‹_›
  · exact hq ‹_›

theorem mapM {g : α → Option β} : ∀ {l : List α}, (∀ a ∈ l, Ends (g a) R) →
    Ends (l.mapM g) fun l' => l'.length = l.length ∧ ∀ (i : Nat) (a : α) (b : β), l[i]? = some a → l'[i]? = some b → g a = some b ∧ R b
  | [], _ => ⟨[], rfl, rfl, fun i a b ha => by simp at ha⟩
  | x :: l, h => by
    obtain ⟨y, hy, hR⟩ := h x (by simp)
    obtain ⟨l', hl', hlen, hall⟩ := mapM (l := l) fun a ha => h a (by simp [ha])
    refine ⟨y :: l', ?_, by simp [hlen], fun i a b ha hb => ?_⟩
    · rw [List.mapM_cons, hy, hl']
      rfl
    · cases i with
      | zero =>
        simp only [List.getElem?_cons_zero, Option.some.injEq] at ha hb
        subst ha hb
        exact ⟨hy, hR⟩
      | succ i =>
        rw [List.getElem?_cons_succ] at ha hb
        exact hall i a b ha hb

end Ends

def Yields (m : Option α) (P : α → Prop) : Prop := ∀ a, m = some a → P a

namespace Yields

theorem pure (h : P a) : Yields (some a) P := by
  rintro _ ⟨⟩
  exact h

theorem fail : Yields none P := nofun

theorem mono (h : Yields m P) (hPQ : ∀ a, P a → Q a) : Yields m Q := fun a ha => hPQ a (h a ha)

theorem bind (h : Yields m P) (hf : ∀ a, P a → Yields (f a) R) : Yields (m >>= f) R := by
  intro b hb
  obtain ⟨a, ha, hb⟩ := Option.bind_eq_some_iff.1 hb
  exact hf a (h a ha) b hb

theorem seq (hf : ∀ a, Yields (f a) R) : Yields (m >>= f) R := bind (fun _ _ => trivial) fun a _ => hf a

theorem ite [Decidable c] (hp : Yields m P) (hq : Yields m' P) : Yields (if c then m else m') P := by
  split
  · exact hp
  · exact hq

end Yields

end PureUnix.Lib
