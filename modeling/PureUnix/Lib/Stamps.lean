import Mathlib.Data.Finset.Card
import Mathlib.Data.Fintype.Card
import Mathlib.Order.Lattice
import Mathlib.Tactic.Common

/-!
# Stamps of use

Slots `ι` carry the number of their last use. `Before stamp i j`: slot `i` is given up before slot `j`, because it has the lower
stamp or, of two equal ones, the lower index. The loop that looks for the lowest stamp (`lowest`) finds the first slot in this
order. `older stamp i` counts the slots given up before `i`: a slot just used has all others before it, and each later use of
another slot takes at most one of them away.
-/
namespace PureUnix.Lib

open List Nat Function

variable {ι : Type} [LinearOrder ι] {stamp : ι → Nat} {i j k v : ι} {n : Nat}

def Before (stamp : ι → Nat) (i j : ι) : Prop := stamp i < stamp j ∨ stamp i = stamp j ∧ i < j

instance (stamp : ι → Nat) (i j : ι) : Decidable (Before stamp i j) := inferInstanceAs (Decidable (_ ∨ _))

namespace Before

theorem trans (h : Before stamp i j) (h' : Before stamp j k) : Before stamp i k := by
  rcases h with h | ⟨h, hlt⟩ <;> rcases h' with h' | ⟨h', hlt'⟩
  · exact .inl (h.trans h')
  · exact .inl (h' ▸ h)
  · exact .inl (h ▸ h')
  · exact .inr ⟨h.trans h', hlt.trans hlt'⟩

theorem irrefl (i : ι) : ¬ Before stamp i i := by
  rintro (h | ⟨-, h⟩)
  · exact lt_irrefl _ h
  · exact lt_irrefl _ h

theorem asymm (h : Before stamp i j) : ¬ Before stamp j i := fun h' => irrefl i (h.trans h')

theorem total (stamp : ι → Nat) (hne : i ≠ j) : Before stamp i j ∨ Before stamp j i := by
  rcases lt_trichotomy (stamp i) (stamp j) with h | h | h
  · exact .inl (.inl h)
  · rcases lt_or_gt_of_ne hne with hlt | hlt
    · exact .inl (.inr ⟨h, hlt⟩)
    · exact .inr (.inr ⟨h.symm, hlt⟩)
  · exact .inr (.inl h)

theorem le (h : Before stamp i j) : stamp i ≤ stamp j := by
  rcases h with h | ⟨h, -⟩ <;> omega

end Before

/-- The loop `if (stamp[i] < stamp[v]) v = i` over the slots `l`. -/
def lowest (stamp : ι → Nat) (v : ι) (l : List ι) : ι := l.foldl (fun v i => if stamp i < stamp v then i else v) v

omit [LinearOrder ι] in
theorem lowest_cons (v j : ι) (l : List ι) : lowest stamp v (j :: l) = lowest stamp (if stamp j < stamp v then j else v) l := rfl

/-- **The loop finds the slot to give up first**, if it goes through the slots in order. -/
theorem lowest_before : ∀ {l : List ι} {v : ι}, (v :: l).Pairwise (· < ·) →
    ∀ i ∈ v :: l, i ≠ lowest stamp v l → Before stamp (lowest stamp v l) i
  | [], v, _, i, hi, hne => absurd (mem_singleton.1 hi) hne
  | j :: l, v, hl, i, hi, hne => by
    obtain ⟨hv, hrest⟩ := pairwise_cons.1 hl
    have hvj := hv j mem_cons_self
    rw [lowest_cons] at hne ⊢
    split at hne <;> rename_i hlt
    · rw [if_pos hlt]
      have ih := lowest_before hrest
      rcases mem_cons.1 hi with rfl | hi
      · have hji : Before stamp j i := .inl hlt
        by_cases he : j = lowest stamp j l
        · rw [← he]
          exact hji
        · exact (ih j mem_cons_self he).trans hji
      · exact ih i hi hne
    · rw [if_neg hlt]
      have ih := lowest_before (pairwise_cons.2 ⟨fun k hk => hv k (mem_cons_of_mem _ hk), (pairwise_cons.1 hrest).2⟩)
      rcases mem_cons.1 hi with rfl | hi
      · exact ih i mem_cons_self hne
      rcases mem_cons.1 hi with rfl | hi
      · have hvi : Before stamp v i := by
          rcases Nat.eq_or_lt_of_le (Nat.le_of_not_lt hlt) with he | hlt'
          · exact .inr ⟨he, hvj⟩
          · exact .inl hlt'
        by_cases he : v = lowest stamp v l
        · rw [← he]
          exact hvi
        · exact (ih v mem_cons_self he).trans hvi
      · exact ih i (mem_cons_of_mem _ hi) hne

variable [Fintype ι]

/-- How many slots are given up before `i`. -/
def older (stamp : ι → Nat) (i : ι) : Nat := (Finset.univ.filter fun j => Before stamp j i).card

theorem older_top (h : ∀ j, j ≠ i → Before stamp j i) : older stamp i + 1 = Fintype.card ι := by
  have hall : Finset.univ.filter (fun j => Before stamp j i) = Finset.univ.erase i := by
    ext j
    simp only [Finset.mem_filter, Finset.mem_univ, true_and, Finset.mem_erase, and_true]
    refine ⟨?_, h j⟩
    rintro hj rfl
    exact Before.irrefl _ hj
  rw [older, hall, Finset.card_erase_add_one (Finset.mem_univ i)]
  rfl

/-- **Another slot is used**: at most that one no longer comes before. -/
theorem older_update (stamp : ι → Nat) (n : Nat) (hv : v ≠ i) : older stamp i ≤ older (update stamp v n) i + 1 := by
  have hsub : (Finset.univ.filter fun j => Before stamp j i).erase v ⊆
      Finset.univ.filter fun j => Before (update stamp v n) j i := by
    intro j hj
    simp only [Finset.mem_erase, Finset.mem_filter, Finset.mem_univ, true_and] at hj ⊢
    unfold Before
    rw [update_of_ne hj.1, update_of_ne hv.symm]
    exact hj.2
  have hcard := Finset.card_le_card hsub
  have hpred := Finset.pred_card_le_card_erase (s := Finset.univ.filter fun j => Before stamp j i) (a := v)
  unfold older
  omega

theorem older_raise (hn : stamp i ≤ n) : older stamp i ≤ older (update stamp i n) i := by
  refine Finset.card_le_card fun j hj => ?_
  simp only [Finset.mem_filter, Finset.mem_univ, true_and] at hj ⊢
  have hne : j ≠ i := by
    rintro rfl
    exact Before.irrefl _ hj
  unfold Before at hj ⊢
  rw [update_of_ne hne, update_self]
  rcases hj with hlt | ⟨he, hlt⟩
  · exact .inl (hlt.trans_le hn)
  · exact (eq_or_lt_of_le (he ▸ hn)).symm.imp id fun he' => ⟨he', hlt⟩

theorem ne_of_older (h : 0 < older stamp i) (hv : ∀ j, j ≠ v → Before stamp v j) : v ≠ i := by
  rintro rfl
  obtain ⟨j, hj⟩ := Finset.card_pos.1 h
  simp only [Finset.mem_filter, Finset.mem_univ, true_and] at hj
  have hne : j ≠ v := by
    rintro rfl
    exact Before.irrefl _ hj
  exact (hv j hne).asymm hj

end PureUnix.Lib
