import Mathlib.Data.List.Nodup
import Mathlib.Logic.Function.Basic

/-!
# Rings of links

`Walk next a l b`: from `a`, the links lead through the elements of `l` and then to `b`. A `Ring` is a walk that comes back
to its start and meets no element twice. It can be entered anywhere (`Ring.rotate`) and takes a new element behind its
last one (`Ring.extend`). `seek` is the search along the links for an element, up to a given one.
-/
namespace PureUnix.Lib

open List Function

variable {α : Type} {next next' : α → α} {a b c : α} {l m : List α} {x t : α}

def Walk (next : α → α) : α → List α → α → Prop
  | a, [], b => a = b
  | a, x :: l, b => x = a ∧ Walk next (next a) l b

structure Ring (next : α → α) (a : α) (l : List α) : Prop where
  closed : Walk next a l a
  nodup : l.Nodup
  nonempty : l ≠ []

namespace Walk

theorem append_iff : ∀ {l : List α} {a : α}, Walk next a (l ++ m) c ↔ ∃ b, Walk next a l b ∧ Walk next b m c
  | [], a => by simp [Walk]
  | x :: l, a => by
    simp only [cons_append, Walk, append_iff]
    constructor
    · rintro ⟨hx, b, h1, h2⟩
      exact ⟨b, ⟨hx, h1⟩, h2⟩
    · rintro ⟨b, ⟨hx, h1⟩, h2⟩
      exact ⟨hx, b, h1, h2⟩

theorem snoc_iff : Walk next a (l ++ [x]) b ↔ Walk next a l x ∧ next x = b := by
  rw [append_iff]
  constructor
  · rintro ⟨c, h, rfl, hb⟩
    exact ⟨h, hb⟩
  · rintro ⟨h, hb⟩
    exact ⟨x, h, rfl, hb⟩

theorem congr : ∀ {l : List α} {a : α}, Walk next a l b → (∀ x ∈ l, next' x = next x) → Walk next' a l b
  | [], _, h, _ => h
  | x :: l, a, h, he => by
    obtain ⟨rfl, h⟩ := h
    refine ⟨rfl, ?_⟩
    rw [he x mem_cons_self]
    exact h.congr fun y hy => he y (mem_cons_of_mem _ hy)

end Walk

namespace Ring

theorem head (h : Ring next a l) : ∃ rest, l = a :: rest := by
  cases l with
  | nil => exact absurd rfl h.nonempty
  | cons x rest => exact ⟨rest, by rw [h.closed.1]⟩

theorem start_mem (h : Ring next a l) : a ∈ l := by
  obtain ⟨rest, rfl⟩ := h.head
  exact mem_cons_self

/-- **A ring from another of its elements.** -/
theorem rotate {pre post : List α} (h : Ring next a (pre ++ c :: post)) : Ring next c (c :: post ++ pre) := by
  obtain ⟨b, h1, h2⟩ := Walk.append_iff.1 h.closed
  obtain rfl : c = b := h2.1
  refine ⟨.append_iff.2 ⟨a, h2, h1⟩, ?_, by simp⟩
  exact (perm_append_comm.nodup_iff).1 h.nodup

theorem around {rest : List α} (h : Ring next a (a :: rest)) : Walk next (next a) rest a ∧ a ∉ rest :=
  ⟨h.closed.2, (nodup_cons.1 h.nodup).1⟩

theorem congr (h : Ring next a l) (he : ∀ x ∈ l, next' x = next x) : Ring next' a l :=
  ⟨h.closed.congr he, h.nodup, h.nonempty⟩

/-- **A new element behind the last one.** -/
theorem extend [DecidableEq α] (h : Ring next a (l ++ [t])) (hx : x ∉ l ++ [t]) :
    Ring (update (update next t x) x a) a (l ++ [t] ++ [x]) := by
  obtain ⟨hwalk, -⟩ := Walk.snoc_iff.1 h.closed
  have hnd := nodup_append.1 h.nodup
  have htx : t ≠ x := by
    rintro rfl
    exact hx (by simp)
  refine ⟨?_, ?_, by simp⟩
  · rw [Walk.snoc_iff, Walk.snoc_iff]
    refine ⟨⟨hwalk.congr fun y hy => ?_, ?_⟩, update_self _ _ _⟩
    · have hyt : y ≠ t := fun e => hnd.2.2 y hy t (by simp) e
      have hyx : y ≠ x := by
        rintro rfl
        exact hx (by simp [hy])
      rw [update_of_ne hyx, update_of_ne hyt]
    · rw [update_of_ne htx, update_self]
  · refine nodup_append.2 ⟨h.nodup, nodup_singleton _, ?_⟩
    intro y hy z hz e
    rw [mem_singleton.1 hz] at e
    exact hx (e ▸ hy)

end Ring

/-! ## Searching along the links -/

section Search

/-- `while (!stop(c)) { if (p(c)) return c; c = next(c); }`; the outer `none` when the fuel runs out. -/
def seek (next : α → α) (p stop : α → Bool) : Nat → α → Option (Option α)
  | 0, _ => none
  | fuel + 1, c => if stop c then some none else if p c then some (some c) else seek next p stop fuel (next c)

theorem seek_eq {p stop : α → Bool} : ∀ {l : List α} {fuel : Nat} {c : α}, Walk next c l b → stop b → (∀ x ∈ l, ¬ stop x) → l.length < fuel →
    seek next p stop fuel c = some (l.find? p)
  | [], fuel + 1, c, h, hb, _, _ => by
    obtain rfl : c = b := h
    rw [seek, if_pos hb]
    rfl
  | x :: l, fuel + 1, c, h, hb, hs, hf => by
    obtain ⟨rfl, h⟩ := h
    rw [seek, if_neg (hs x mem_cons_self), find?_cons]
    split
    · rename_i hp
      rw [hp]
    rename_i hp
    rw [Bool.not_eq_true] at hp
    rw [hp]
    exact seek_eq h hb (fun y hy => hs y (mem_cons_of_mem _ hy)) (by simpa using hf)

variable [DecidableEq α]

/-- `while (next(t) != stop) t = next(t);`. -/
def seekLast (next : α → α) (stop : α) : Nat → α → Option α
  | 0, _ => none
  | fuel + 1, t => if next t = stop then some t else seekLast next stop fuel (next t)

theorem seekLast_eq {stop : α} : ∀ {l : List α} {fuel : Nat} {c t : α}, Walk next c (l ++ [t]) stop → (∀ x ∈ l, next x ≠ stop) →
    l.length < fuel → seekLast next stop fuel c = some t
  | [], fuel + 1, c, t, h, _, _ => by
    obtain ⟨rfl, h⟩ := h
    have hlast : next t = stop := h
    rw [seekLast, if_pos hlast]
  | x :: l, fuel + 1, c, t, h, hs, hf => by
    obtain ⟨rfl, h⟩ := h
    rw [seekLast, if_neg (hs x mem_cons_self)]
    exact seekLast_eq h (fun y hy => hs y (mem_cons_of_mem _ hy)) (by simpa using hf)

end Search

theorem Ring.next_ne (h : Ring next a (l ++ [t])) (hx : x ∈ l) : next x ≠ a := by
  obtain ⟨pre, post, rfl⟩ := append_of_mem hx
  intro he
  -- the walk goes on behind `x` with an element that is not the first one
  rw [append_assoc, cons_append] at h
  obtain ⟨b, h1, h2⟩ := Walk.append_iff.1 h.closed
  obtain ⟨rfl, h2⟩ := h2
  rw [he] at h2
  have hmem : a ∈ post ++ [t] := by
    cases hp : post ++ [t] with
    | nil => simp at hp
    | cons y rest =>
      rw [hp] at h2
      rw [h2.1]
      exact mem_cons_self
  have hnd := h.nodup
  cases pre with
  | nil =>
    obtain rfl : a = x := h1
    simp only [nil_append, nodup_cons] at hnd
    exact hnd.1 hmem
  | cons y pre =>
    obtain rfl : y = a := h1.1
    simp only [cons_append, nodup_cons, mem_append, mem_cons] at hnd
    exact hnd.1 (.inr (.inr (by simpa using hmem)))

end PureUnix.Lib
