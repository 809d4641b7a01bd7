import Mathlib.Data.Nat.Count
import Mathlib.Logic.Function.Basic

/-!
# First-fit search over counted groups

Numbers are split in groups; each group keeps a counter of its free numbers. A search skips the
groups whose counter is zero (`findFree`) and takes the first free number of the first group that
has one (`scanFree`). `freeIn` is what a group's counter is meant to be. With exact counters a
search that finds nothing means that nothing is free (`freeIn_eq_zero`), and taking or dropping one
number moves one group's count by one (`freeIn_take`, `freeIn_drop`, `freeIn_other`).
-/
namespace PureUnix.Lib
open Nat Function

export Function (update update_of_ne update_self)

variable {count : Nat → Nat} {scan : Nat → Option Nat} {p q : Nat → Prop} {used : Nat → Bool} {first limit k : Nat}

/-- First number from `first + i` on, `n` numbers to go, that is below `limit` and not used. -/
def scanFree (used : Nat → Bool) (first limit : Nat) : Nat → Nat → Option Nat
  | 0, _ => none
  | n + 1, i =>
    if limit ≤ first + i then none
    else if used (first + i) then scanFree used first limit n (i + 1)
    else some (first + i)

/-- The group loop shared by the two allocators: skip groups whose counter is zero. -/
def findFree (count : Nat → Nat) (scan : Nat → Option Nat) : Nat → Nat → Option (Nat × Nat)
  | 0, _ => none
  | n + 1, g =>
    if count g = 0 then findFree count scan n (g + 1)
    else match scan g with
      | none => findFree count scan n (g + 1)
      | some x => some (g, x)

theorem scanFree_some : ∀ {n i x : Nat}, scanFree used first limit n i = some x →
      first + i ≤ x ∧ x < first + i + n ∧ x < limit ∧ used x = false
  | 0, _, _, hs => by simp [scanFree] at hs
  | n + 1, i, x, hs => by
    simp only [scanFree] at hs
    split at hs
    · cases hs
    split at hs
    · obtain ⟨h1, h2, h3, h4⟩ := scanFree_some hs
      exact ⟨by omega, by omega, h3, h4⟩
    · rename_i hlim hu
      cases hs
      exact ⟨by omega, by omega, by omega, by simpa using hu⟩

theorem scanFree_none : ∀ {n i : Nat}, scanFree used first limit n i = none →
      ∀ x, first + i ≤ x → x < first + i + n → x < limit → used x = true
  | 0, _, _, x, h1, h2, _ => by omega
  | n + 1, i, hs, x, h1, h2, h3 => by
    simp only [scanFree] at hs
    split at hs
    · omega
    split at hs
    · rename_i hu
      rcases eq_or_lt_of_le h1 with e | hlt
      · rw [← e]; exact hu
      · exact scanFree_none hs x (by omega) (by omega) h3
    · cases hs

theorem scanFree_first (hk : used k = false) (hl : k < limit) : ∀ {n i : Nat},
    first + i ≤ k → k < first + i + n → (∀ x, first + i ≤ x → x < k → used x = true) → scanFree used first limit n i = some k
  | 0, _, h1, h2, _ => by omega
  | n + 1, i, h1, h2, hu => by
    rw [scanFree, if_neg (by omega)]
    rcases eq_or_lt_of_le h1 with rfl | hlt
    · rw [if_neg (by rw [hk]; decide)]
    · rw [if_pos (hu _ (le_refl _) hlt)]
      exact scanFree_first hk hl (by omega) (by omega) fun x hx => hu x (by omega)

theorem findFree_some : ∀ {n g k x : Nat},
    findFree count scan n g = some (k, x) → g ≤ k ∧ k < g + n ∧ count k ≠ 0 ∧ scan k = some x
  | 0, _, _, _, hf => by simp [findFree] at hf
  | n + 1, g, k, x, hf => by
    simp only [findFree] at hf
    split at hf
    · obtain ⟨h1, h2, h3⟩ := findFree_some hf
      exact ⟨by omega, by omega, h3⟩
    split at hf
    · obtain ⟨h1, h2, h3⟩ := findFree_some hf
      exact ⟨by omega, by omega, h3⟩
    · rename_i hc _ _ hs
      cases hf
      exact ⟨le_refl _, by omega, hc, hs⟩

theorem findFree_none : ∀ {n g : Nat}, findFree count scan n g = none → ∀ k, g ≤ k → k < g + n → count k ≠ 0 → scan k = none
  | 0, _, _, k, h1, h2, _ => by omega
  | n + 1, g, hf, k, h1, h2, hc => by
    simp only [findFree] at hf
    rcases eq_or_lt_of_le h1 with rfl | hlt
    · rw [if_neg hc] at hf
      split at hf
      · assumption
      · cases hf
    · split at hf
      · exact findFree_none hf k (by omega) (by omega) hc
      · split at hf
        · exact findFree_none hf k (by omega) (by omega) hc
        · cases hf

/-! ## Counting -/

/-- Free numbers below `limit` among the `per` numbers from `first` on. -/
def freeIn (used : Nat → Bool) (first per limit : Nat) : Nat :=
  Nat.count (fun i => first + i < limit ∧ used (first + i) = false) per

theorem count_congr [DecidablePred p] [DecidablePred q] : ∀ {n : Nat}, (∀ j, j < n → (p j ↔ q j)) → Nat.count p n = Nat.count q n
  | 0, _ => by simp
  | n + 1, h => by
    rw [count_succ, count_succ, count_congr fun j hj => h j (by omega)]
    simp only [h n (by omega)]

theorem count_succ_of_one [DecidablePred p] [DecidablePred q] {i : Nat} : ∀ {n : Nat},
    i < n → (∀ j, j < n → j ≠ i → (p j ↔ q j)) → p i → ¬ q i → Nat.count p n = Nat.count q n + 1
  | 0, hi, _, _, _ => by omega
  | n + 1, hi, h, hp, hq => by
    rw [count_succ, count_succ]
    rcases lt_or_ge i n with hlt | hge
    · rw [count_succ_of_one hlt (fun j hj => h j (by omega)) hp hq]
      simp only [h n (by omega) (by omega)]
      omega
    · obtain rfl : i = n := by omega
      rw [count_congr fun j hj => h j (by omega) (by omega), if_pos hp, if_neg hq]

variable {used : Nat → Bool} {first per limit x : Nat}

theorem freeIn_le : freeIn used first per limit ≤ per := count_le _

theorem freeIn_take (h1 : first ≤ x) (h2 : x < first + per) (h3 : x < limit) (hu : used x = false) :
    freeIn used first per limit = freeIn (update used x true) first per limit + 1 := by
  have ex : first + (x - first) = x := by omega
  refine count_succ_of_one (i := x - first) (by omega) (fun j _ hne => ?_) ?_ ?_
  · rw [update_of_ne (by omega)]
  · rw [ex]; exact ⟨h3, hu⟩
  · rw [ex]; simp

theorem freeIn_drop (h1 : first ≤ x) (h2 : x < first + per) (h3 : x < limit) (hu : used x = true) :
    freeIn (update used x false) first per limit = freeIn used first per limit + 1 := by
  have h := @freeIn_take (update used x false) _ _ _ _ h1 h2 h3 (update_self ..)
  rwa [update_idem, ← hu, update_eq_self] at h

theorem freeIn_other (h : x < first ∨ first + per ≤ x) (v : Bool) :
    freeIn (update used x v) first per limit = freeIn used first per limit :=
  count_congr fun j hj => by rw [update_of_ne (by omega)]

theorem freeIn_eq_zero (h : freeIn used first per limit = 0) (h1 : first ≤ x) (h2 : x < first + per)
    (h3 : x < limit) : used x = true := by
  by_contra hu
  rw [freeIn_take h1 h2 h3 (by simpa using hu)] at h
  omega

theorem count_interval (a b : Nat) : ∀ n, Nat.count (fun i => a ≤ i ∧ i < b) n = min b n - a
  | 0 => by simp
  | n + 1 => by
    rw [count_succ, count_interval a b n]
    split <;> omega

theorem freeIn_below (hk : ∀ y, first ≤ y → (used y = true ↔ y < k)) (h1 : first ≤ k) (h2 : k ≤ limit)
    (h3 : limit ≤ first + per) : freeIn used first per limit = limit - k := by
  rw [freeIn, count_congr (q := fun i => k - first ≤ i ∧ i < limit - first), count_interval]
  · omega
  · intro j _
    have := hk (first + j) (by omega)
    rw [← Bool.not_eq_true, this]
    omega

/-- Numbers in use that carry a mark, below `limit` among the `per` numbers from `first` on. -/
def markedIn (used mark : Nat → Bool) (first per limit : Nat) : Nat :=
  Nat.count (fun i => first + i < limit ∧ used (first + i) = true ∧ mark (first + i) = true) per

variable {mark : Nat → Bool}

theorem markedIn_le : markedIn used mark first per limit ≤ per := count_le _

theorem markedIn_take (h1 : first ≤ x) (h2 : x < first + per) (h3 : x < limit) (hu : used x = false)
    (m : Bool) : markedIn (update used x true) (update mark x m) first per limit =
      markedIn used mark first per limit + if m = true then 1 else 0 := by
  have ex : first + (x - first) = x := by omega
  have hother : ∀ j, first + j ≠ x → update used x true (first + j) = used (first + j) ∧
      update mark x m (first + j) = mark (first + j) := fun j hj =>
    ⟨update_of_ne hj _ _, update_of_ne hj _ _⟩
  cases m with
  | false =>
    refine count_congr fun j _ => ?_
    by_cases e : first + j = x
    · rw [e, hu, update_self, update_self]; simp
    · rw [(hother j e).1, (hother j e).2]
  | true =>
    refine count_succ_of_one (i := x - first) (by omega) (fun j _ hne => ?_) ?_ ?_
    · rw [(hother j (by omega)).1, (hother j (by omega)).2]
    · rw [ex, update_self, update_self]; exact ⟨h3, rfl, rfl⟩
    · rw [ex, hu]; simp

theorem markedIn_drop (h1 : first ≤ x) (h2 : x < first + per) (h3 : x < limit) (hu : used x = true) :
    markedIn used mark first per limit =
      markedIn (update used x false) mark first per limit + if mark x = true then 1 else 0 := by
  have h := @markedIn_take (update used x false) _ _ _ _ mark h1 h2 h3 (update_self ..) (mark x)
  rwa [update_idem, update_eq_self x mark, update_eq_iff.2 ⟨hu.symm, fun _ _ => rfl⟩] at h

end PureUnix.Lib
