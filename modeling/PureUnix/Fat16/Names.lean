import PureUnix.Fat16.Layout

/-!
# 8.3 names read back

`name_from_83` of what `name_to_83` made: the part before the last dot and the part behind it, in lower case. Nothing
comes back as ".".
-/
namespace PureUnix.Fat16

open Lib List Bool

section
variable {c : UInt8} {s name fatName : Text} {e : Entry}

theorem toupper_ne_space (h : c ≠ space) : toupper c ≠ space := by
  simp only [space, ne_eq, ← UInt8.toNat_inj, toupper_toNat, UInt8.reduceToNat] at h ⊢
  split <;> omega

theorem tolower_toupper (c : UInt8) : tolower (toupper c) = tolower c := by
  simp only [← UInt8.toNat_inj, tolower_toNat, toupper_toNat]
  split_ifs <;> omega

theorem tolower_eq_dot (h : tolower c = dot) : c = dot := by
  simp only [dot, ← UInt8.toNat_inj, tolower_toNat, UInt8.reduceToNat] at h ⊢
  split at h <;> omega

theorem space_notMem_padded (hs : ∀ c ∈ s, goodChar c = true) : ∀ c ∈ s.map toupper, c ≠ space := by
  intro c hc
  obtain ⟨b, hb, rfl⟩ := mem_map.1 hc
  have hg := hs b hb
  unfold goodChar at hg
  simp only [and_eq_true, bne_iff_ne] at hg
  exact toupper_ne_space hg.2

theorem takeWhile_padded (n : Nat) (hs : ∀ c ∈ s, goodChar c = true) : (padded n s).takeWhile (· ≠ space) = s.map toupper := by
  unfold padded
  rw [takeWhile_append_of_pos]
  · cases n - s.length <;> simp [replicate_succ]
  · intro c hc
    simpa using space_notMem_padded hs c hc

theorem any_padded (n : Nat) (hn : s.length ≤ n) (hs : ∀ c ∈ s, goodChar c = true) : (padded n s).any (· ≠ space) = (s ≠ [] : Bool) := by
  unfold padded
  rw [any_append]
  have hrep : (replicate (n - s.length) space).any (fun c => decide (c ≠ space)) = false := by
    rw [any_eq_false]
    intro c hc
    simp [(mem_replicate.1 hc).2]
  rw [hrep, Bool.or_false]
  cases s with
  | nil => rfl
  | cons b s =>
    have hb := space_notMem_padded hs (toupper b) (by simp)
    simp [hb]

/-- What `name_to_83` accepts, and what it makes of it. -/
theorem nameTo83_eq (h : nameTo83 name = some fatName) :
    name ≠ [dot, dot] ∧ (splitDot name).1 ≠ [] ∧ (splitDot name).1.length ≤ 8 ∧ (splitDot name).2.length ≤ 3 ∧
    (∀ c ∈ (splitDot name).1, goodChar c = true) ∧ (∀ c ∈ (splitDot name).2, goodChar c = true) ∧
    fatName = padded 8 (splitDot name).1 ++ padded 3 (splitDot name).2 := by
  unfold nameTo83 at h
  split at h
  · cases h
  rename_i hname
  dsimp only at h
  split at h
  · cases h
  rename_i hlen
  split at h
  · rename_i hall
    push Not at hlen hname
    rw [all_append, and_eq_true, all_eq_true, all_eq_true] at hall
    exact ⟨hname.2.2, ne_nil_of_length_pos (Nat.pos_of_ne_zero hlen.1), hlen.2.1, hlen.2.2, hall.1, hall.2, (Option.some.inj h).symm⟩
  · cases h

/-- **A name read back.** -/
theorem nameFrom83_nameTo83 (h : nameTo83 name = some fatName) (he : e.name = fatName) :
    nameFrom83 e = (splitDot name).1.map tolower ++ if (splitDot name).2 = [] then [] else dot :: (splitDot name).2.map tolower := by
  obtain ⟨-, -, hb, hx, hgb, hgx, rfl⟩ := nameTo83_eq h
  have htake : e.name.take 8 = padded 8 (splitDot name).1 := by
    rw [he, take_append_of_le_length (by rw [padded_length hb]), take_of_length_le (by rw [padded_length hb])]
  have hdrop : e.name.drop 8 = padded 3 (splitDot name).2 := by
    have hlen := padded_length hb
    rw [he, drop_append_of_le_length (by rw [hlen]), drop_of_length_le (by rw [hlen]), nil_append]
  unfold nameFrom83
  rw [htake, hdrop]
  dsimp only
  rw [takeWhile_padded 8 hgb, any_padded 3 hx hgx, takeWhile_padded 3 hgx, map_map, map_map]
  have hmap : ∀ l : Text, l.map (tolower ∘ toupper) = l.map tolower := fun l => map_congr_left fun c _ => tolower_toupper c
  rw [hmap, hmap]
  by_cases hnil : (splitDot name).2 = []
  · simp [hnil]
  · simp [hnil]

theorem map_tolower_dots {n : Nat} (h : s.map tolower = replicate n dot) : s = replicate n dot := by
  rw [eq_replicate_iff] at h ⊢
  rw [length_map] at h
  exact ⟨h.1, fun c hc => tolower_eq_dot (h.2 _ (mem_map_of_mem hc))⟩

theorem splitDot_nil (h : (splitDot name).2 = []) : (splitDot name).1 = name ∨ name = (splitDot name).1 ++ [dot] := by
  unfold splitDot at h ⊢
  split at h
  · rename_i hd
    right
    rw [if_pos hd]
    dsimp only at h ⊢
    rw [h, length_nil, Nat.sub_zero]
    rw [reverse_eq_nil_iff] at h
    have hne : name ≠ [] := ne_nil_of_mem hd
    have hlast : name.getLast hne = dot := by
      by_contra hl
      rw [← head_reverse (by simpa using hne)] at hl
      obtain ⟨b, l, hbl⟩ := exists_cons_of_ne_nil (show name.reverse ≠ [] by simpa using hne)
      simp only [hbl, head_cons] at hl
      rw [hbl, takeWhile_cons, if_pos (by simpa using hl)] at h
      cases h
    conv_lhs => rw [← dropLast_append_getLast hne, hlast]
    rw [dropLast_eq_take]
  · rename_i hd
    left
    rw [if_neg hd]

theorem nameTo83_ne_dot (h : nameTo83 name = some fatName) (he : e.name = fatName) : nameFrom83 e ≠ [dot] := by
  have hread := nameFrom83_nameTo83 h he
  obtain ⟨hdd, hbne, -, -, -, -, -⟩ := nameTo83_eq h
  rw [hread]
  intro h1
  by_cases hnil : (splitDot name).2 = []
  · rw [if_pos hnil, append_nil] at h1
    have hb : (splitDot name).1 = [dot] := map_tolower_dots (n := 1) h1
    rcases splitDot_nil hnil with hs | hs
    · rw [hb] at hs
      rw [← hs] at hb
      exact absurd hb (by decide)
    · rw [hb] at hs
      exact hdd hs
  · rw [if_neg hnil] at h1
    have hlen := congrArg length h1
    have h2 := length_pos_of_ne_nil hbne
    simp only [length_append, length_map, length_cons, length_nil] at hlen
    omega

end
end PureUnix.Fat16
