import Mathlib.Data.List.Induction

/-!
# Walks along labels

From every state at most one edge leaves for each label. `walk f s as` follows the labels `as` from `s`.

* `walk_congr`: a walk notices only the edges it crosses.
* `Tree`: among the labels that count, the inner states form a tree below a root; then no two walks reach one inner state
  (`Tree.walk_inj`).
-/
namespace PureUnix.Lib

open List Option

variable {S A : Type} {f f' : S → A → Option S}

def walk (f : S → A → Option S) : S → List A → Option S
  | s, [] => some s
  | s, a :: as => (f s a).bind fun t => walk f t as

theorem walk_append (s : S) (as bs : List A) : walk f s (as ++ bs) = (walk f s as).bind fun t => walk f t bs := by
  induction as generalizing s with
  | nil => rfl
  | cons a as ih =>
    rw [cons_append, walk, walk, bind_assoc]
    exact congrArg _ (funext ih)

theorem walk_snoc (s : S) (as : List A) (a : A) : walk f s (as ++ [a]) = (walk f s as).bind fun t => f t a := by
  rw [walk_append]
  simp only [walk, bind_fun_some]

theorem walk_congr {s : S} {as : List A}
    (h : ∀ pre a post t, as = pre ++ a :: post → walk f s pre = some t → f' t a = f t a) : walk f' s as = walk f s as := by
  induction as generalizing s with
  | nil => rfl
  | cons a as ih =>
    rw [walk, walk, h [] a as s rfl rfl]
    cases hs : f s a with
    | none => rfl
    | some t =>
      refine ih fun pre b post u has hw => h (a :: pre) b post u (by rw [has, cons_append]) ?_
      rw [walk, hs]
      exact hw

/-- Below `root`, along the labels that count, every inner state is entered by one edge. -/
structure Tree (f : S → A → Option S) (counts : A → Prop) (inner : S → Prop) (root : S) : Prop where
  inner_of_edge : ∀ {s a t}, f s a = some t → inner s
  one : ∀ {s s' a a' t}, f s a = some t → f s' a' = some t → counts a → counts a' → inner t → s = s' ∧ a = a'
  root : ∀ {s a}, f s a = some root → ¬ counts a

/-- **One walk to each inner state.** -/
theorem Tree.walk_inj {counts : A → Prop} {inner : S → Prop} {root t : S} (ht : Tree f counts inner root) {as bs : List A}
    (ha : ∀ a ∈ as, counts a) (hb : ∀ b ∈ bs, counts b) (hwa : walk f root as = some t) (hwb : walk f root bs = some t)
    (hin : inner t) : as = bs := by
  induction as using reverseRecOn generalizing bs t with
  | nil =>
    obtain rfl : root = t := Option.some.inj hwa
    cases bs using reverseRecOn with
    | nil => rfl
    | append_singleton bs b =>
      rw [walk_snoc] at hwb
      obtain ⟨s, -, hs⟩ := bind_eq_some_iff.1 hwb
      exact absurd (hb b (by simp)) (ht.root hs)
  | append_singleton as a ih =>
    rw [walk_snoc] at hwa
    obtain ⟨s, hws, hs⟩ := bind_eq_some_iff.1 hwa
    cases bs using reverseRecOn with
    | nil =>
      obtain rfl : root = t := Option.some.inj hwb
      exact absurd (ha a (by simp)) (ht.root hs)
    | append_singleton bs b =>
      rw [walk_snoc] at hwb
      obtain ⟨s', hws', hs'⟩ := bind_eq_some_iff.1 hwb
      obtain ⟨rfl, rfl⟩ := ht.one hs hs' (ha a (by simp)) (hb b (by simp)) hin
      rw [ih (fun c hc => ha c (by simp [hc])) (fun c hc => hb c (by simp [hc])) hws hws' (ht.inner_of_edge hs)]

end PureUnix.Lib
