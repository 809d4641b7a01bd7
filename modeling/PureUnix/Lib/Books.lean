import Mathlib.Data.Set.Insert

/-!
# Exclusive ownership

Owners `ι` refer to resources `ρ`. `Books` says that the books balance: every reference of a live
owner is a usable resource that is marked used, no owner refers to a resource twice, and no two owners
to the same one. Between the moment a resource is taken and the moment an owner refers to it, it is
`pending`; an operation that rebuilds an owner takes it out of the live ones first, so that its
references become pending too (`checkout`), and puts it back at the end (`checkin`).

`Covered` is the other direction: whatever is marked used is pending or referred to.
-/
namespace PureUnix.Lib

variable {ι ρ : Type*}

structure Books (ok used : ρ → Prop) (live : ι → Prop) (refs : ι → List ρ) (pending : Set ρ) : Prop where
  nodup : ∀ j, live j → (refs j).Nodup
  owned : ∀ j, live j → ∀ b ∈ refs j, ok b ∧ used b ∧ b ∉ pending
  sep : ∀ j k, live j → live k → ∀ b, b ∈ refs j → b ∈ refs k → j = k
  held : ∀ b ∈ pending, ok b ∧ used b

def Covered (ok used : ρ → Prop) (live : ι → Prop) (refs : ι → List ρ) (pending : Set ρ) : Prop :=
  ∀ b, ok b → used b → b ∈ pending ∨ ∃ j, live j ∧ b ∈ refs j

variable {ok used used' : ρ → Prop} {live live' : ι → Prop} {refs refs' : ι → List ρ} {P : Set ρ} {b : ρ} {x : ι}

namespace Books

section
variable (h : Books ok used live refs P)
include h

theorem take (hok : ok b) (hfree : ¬ used b) (hu : ∀ c, used' c ↔ c = b ∨ used c) : Books ok used' live refs (insert b P) := by
  refine ⟨h.nodup, fun j hj c hc => ?_, h.sep, ?_⟩
  · obtain ⟨h1, h2, h3⟩ := h.owned j hj c hc
    refine ⟨h1, (hu c).2 (.inr h2), ?_⟩
    rintro (rfl | hp)
    · exact hfree h2
    · exact h3 hp
  · rintro c (rfl | hc)
    · exact ⟨hok, (hu c).2 (.inl rfl)⟩
    · exact ⟨(h.held c hc).1, (hu c).2 (.inr (h.held c hc).2)⟩

theorem drop (hb : b ∈ P) (hu : ∀ c, used' c ↔ c ≠ b ∧ used c) : Books ok used' live refs (P \ {b}) := by
  refine ⟨h.nodup, fun j hj c hc => ?_, h.sep, ?_⟩
  · obtain ⟨h1, h2, h3⟩ := h.owned j hj c hc
    refine ⟨h1, (hu c).2 ⟨?_, h2⟩, fun hp => h3 hp.1⟩
    rintro rfl
    exact h3 hb
  · rintro c ⟨hc, hne⟩
    exact ⟨(h.held c hc).1, (hu c).2 ⟨hne, (h.held c hc).2⟩⟩

theorem congr (hl : ∀ j, live' j → live j ∧ refs' j = refs j) : Books ok used live' refs' P := by
  refine ⟨fun j hj => ?_, fun j hj => ?_, fun j k hj hk b hb hb' => ?_, h.held⟩
  · rw [(hl j hj).2]; exact h.nodup j (hl j hj).1
  · rw [(hl j hj).2]; exact h.owned j (hl j hj).1
  · rw [(hl j hj).2] at hb
    rw [(hl k hk).2] at hb'
    exact h.sep j k (hl j hj).1 (hl k hk).1 b hb hb'

/-- Pending resources may be forgotten; they stay marked used. -/
theorem forget {Q : Set ρ} (hQ : Q ⊆ P) : Books ok used live refs Q :=
  ⟨h.nodup, fun j hj c hc => ⟨(h.owned j hj c hc).1, (h.owned j hj c hc).2.1, fun hp => (h.owned j hj c hc).2.2 (hQ hp)⟩,
    h.sep, fun c hc => h.held c (hQ hc)⟩

/-- An owner is taken out; its references become pending. -/
theorem checkout (hx : live x) (hl : ∀ j, live' j ↔ live j ∧ j ≠ x) : Books ok used live' refs (P ∪ {b | b ∈ refs x}) := by
  refine ⟨fun j hj => h.nodup j ((hl j).1 hj).1, fun j hj c hc => ?_,
    fun j k hj hk => h.sep j k ((hl j).1 hj).1 ((hl k).1 hk).1, ?_⟩
  · obtain ⟨hlj, hne⟩ := (hl j).1 hj
    obtain ⟨h1, h2, h3⟩ := h.owned j hlj c hc
    refine ⟨h1, h2, ?_⟩
    rintro (hp | hp)
    · exact h3 hp
    · exact hne (h.sep j x hlj hx c hc hp)
  · rintro c (hc | hc)
    · exact h.held c hc
    · exact ⟨(h.owned x hx c hc).1, (h.owned x hx c hc).2.1⟩

/-- An owner comes back with references that were pending. -/
theorem checkin (hl : ∀ j, live' j → j ≠ x → live j ∧ refs' j = refs j)
    (hn : (refs' x).Nodup) (hp : ∀ b ∈ refs' x, b ∈ P) : Books ok used live' refs' (P \ {b | b ∈ refs' x}) := by
  refine ⟨fun j hj => ?_, fun j hj c hc => ?_, fun j k hj hk c hc hc' => ?_, fun c hc => h.held c hc.1⟩
  · by_cases hjx : j = x
    · rw [hjx]; exact hn
    · rw [(hl j hj hjx).2]; exact h.nodup j (hl j hj hjx).1
  · by_cases hjx : j = x
    · subst hjx
      exact ⟨(h.held c (hp c hc)).1, (h.held c (hp c hc)).2, fun hq => hq.2 hc⟩
    · rw [(hl j hj hjx).2] at hc
      obtain ⟨h1, h2, h3⟩ := h.owned j (hl j hj hjx).1 c hc
      exact ⟨h1, h2, fun hq => h3 hq.1⟩
  · by_cases hjx : j = x
    · by_cases hkx : k = x
      · rw [hjx, hkx]
      · rw [(hl k hk hkx).2] at hc'
        exact absurd (hp c (hjx ▸ hc)) (h.owned k (hl k hk hkx).1 c hc').2.2
    · rw [(hl j hj hjx).2] at hc
      by_cases hkx : k = x
      · exact absurd (hp c (hkx ▸ hc')) (h.owned j (hl j hj hjx).1 c hc).2.2
      · rw [(hl k hk hkx).2] at hc'
        exact h.sep j k (hl j hj hjx).1 (hl k hk hkx).1 c hc hc'

end

end Books

namespace Covered

section
variable (h : Covered ok used live refs P)
include h

theorem take (hu : ∀ c, used' c ↔ c = b ∨ used c) : Covered ok used' live refs (insert b P) := by
  intro c hc huc
  rcases (hu c).1 huc with rfl | hc'
  · exact .inl (Set.mem_insert _ _)
  · exact (h c hc hc').imp (Set.mem_insert_of_mem b) id

theorem drop (hu : ∀ c, used' c ↔ c ≠ b ∧ used c) : Covered ok used' live refs (P \ {b}) := by
  intro c hc huc
  obtain ⟨hne, hc'⟩ := (hu c).1 huc
  exact (h c hc hc').imp (fun hp => ⟨hp, hne⟩) id

theorem congr (hl : ∀ j, live j → live' j ∧ refs' j = refs j) : Covered ok used live' refs' P := by
  intro c hc huc
  refine (h c hc huc).imp id ?_
  rintro ⟨j, hj, hcj⟩
  exact ⟨j, (hl j hj).1, by rw [(hl j hj).2]; exact hcj⟩

theorem checkout (hl : ∀ j, live' j ↔ live j ∧ j ≠ x) : Covered ok used live' refs (P ∪ {b | b ∈ refs x}) := by
  intro c hc huc
  rcases h c hc huc with hp | ⟨j, hj, hcj⟩
  · exact .inl (.inl hp)
  · by_cases hjx : j = x
    · exact .inl (.inr (hjx ▸ hcj))
    · exact .inr ⟨j, (hl j).2 ⟨hj, hjx⟩, hcj⟩

theorem checkin (hl : ∀ j, live j → live' j ∧ refs' j = refs j) (hx : live' x) :
    Covered ok used live' refs' (P \ {b | b ∈ refs' x}) := by
  intro c hc huc
  by_cases hcx : c ∈ refs' x
  · exact .inr ⟨x, hx, hcx⟩
  · rcases h c hc huc with hp | ⟨j, hj, hcj⟩
    · exact .inl ⟨hp, hcx⟩
    · exact .inr ⟨j, (hl j hj).1, by rw [(hl j hj).2]; exact hcj⟩

end

end Covered
end PureUnix.Lib
