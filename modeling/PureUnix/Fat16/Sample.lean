import PureUnix.Fat16.Calls

/-!
# A small volume

A geometry with four clusters and two FATs, and a disk with it: two directories and a file in the root directory.
-/
namespace PureUnix.Fat16

open Lib Vol List

variable {v : Vol} {i c x : Nat} {p : Place}

/-! ## Volumes whose directories are empty -/

section
variable {fs : Fs} {v : Vol} {x : Nat} {p : Place}

/-- The directories in the root directory have no files and directories in them. -/
structure Vol.Flat (fs : Fs) (v : Vol) : Prop where
  wild : v.wild = false
  headed : ∀ i p, v.place fs 0 i = some p → (v.slot p).isLive = true → v.Headed fs (v.slot p)
  apart : ∀ i j p q, v.place fs 0 i = some p → v.place fs 0 j = some q → (v.slot p).isLive = true → (v.slot q).isLive = true →
    ∀ c ∈ v.own (v.slot p), c ∈ v.own (v.slot q) → p = q
  ended : v.Ended fs 0
  bare : ∀ i p, v.place fs 0 i = some p → (v.slot p).isSub = true → v.Bare fs (v.slot p).firstCluster ∧ v.Ended fs (v.slot p).firstCluster

namespace Vol.Flat

theorem dir (h : v.Flat fs) (hx : v.Dir fs x) : x = 0 ∨ v.Edge fs 0 x ∧ v.Bare fs x ∧ v.Ended fs x := by
  induction hx with
  | refl => exact .inl rfl
  | tail _ he ih =>
    obtain ⟨i, p, hp, hs, rfl⟩ := he
    rcases ih with rfl | ⟨-, hb, -⟩
    · exact .inr ⟨⟨i, p, hp, hs, rfl⟩, h.bare i p hp hs⟩
    · rw [Entry.isSub_of_isLive (hb i p hp)] at hs
      cases hs

theorem live (h : v.Flat fs) (hp : v.Live fs p) : ∃ i, v.place fs 0 i = some p ∧ (v.slot p).isLive = true := by
  obtain ⟨x, i, hx, hpl, hl⟩ := hp
  rcases h.dir hx with rfl | ⟨-, hb, -⟩
  · exact ⟨i, hpl, hl⟩
  · rw [hb i p hpl] at hl
    cases hl

theorem tree (h : v.Flat fs) : v.Tree fs where
  wild := h.wild
  headed := fun p hp => by
    obtain ⟨i, hpl, hl⟩ := h.live hp
    exact h.headed i p hpl hl
  apart := fun p q hp hq => by
    obtain ⟨i, hpl, hl⟩ := h.live hp
    obtain ⟨j, hpl', hl'⟩ := h.live hq
    exact h.apart i j p q hpl hpl' hl hl'
  ended := fun d hd => by
    rcases h.dir hd with rfl | ⟨-, -, he⟩
    · exact h.ended
    · exact he

end Vol.Flat
end

/-! ## The geometry -/

def smallFs : Fs :=
  { mounted := true, sectorsPerCluster := 1, fatCount := 2, rootEntryCount := 16, sectorsPerFat := 1, firstFatSector := 1,
    rootDirSector := 3, firstDataSector := 4, maxCluster := 6 }

theorem smallFs_ok : smallFs.Ok := ⟨rfl, by decide, by decide, by decide, by decide, by decide, rfl, rfl, by decide⟩

theorem smallFs_root : v.place smallFs 0 i = some p ↔ i < 16 ∧ p = .root i := by
  rw [place_some]
  constructor
  · rintro ⟨hi, ⟨-, rfl⟩ | ⟨hz, -⟩⟩
    · exact ⟨hi, rfl⟩
    · exact absurd rfl hz
  · rintro ⟨hi, rfl⟩
    exact ⟨hi, .inl ⟨rfl, rfl⟩⟩

theorem smallFs_single (hc : v.Chain smallFs c [c]) : v.place smallFs c i = some p ↔ i < 16 ∧ p = .data c i := by
  rw [place_single smallFs_ok hc]
  constructor
  · rintro ⟨-, h⟩
    exact h
  · rintro ⟨hi, h⟩
    exact ⟨by omega, hi, h⟩

/-! ## The disk -/

def dirRecord (b : UInt8) (c : Nat) : Entry := (newEntry (b :: List.replicate 10 space) true).setFirstCluster c

def fileRecord (b : UInt8) : Entry :=
  ((newEntry (b :: List.replicate 10 space) false).setFirstCluster 4).setSize 3

def dirSector (c parent : Nat) : Buf := copy (copy zeros 0 (dotEntry c) 32) 32 (dotdotEntry c parent) 32

def fatSector : Buf := put16 (put16 (put16 zeros 4 0xFFFF) 6 0xFFFF) 8 0xFFFF

/-- Directories A and B in clusters 2 and 3, and the file F with the text "abc" in cluster 4. -/
def smallDisk : Disk
  | 1 => fatSector
  | 2 => fatSector
  | 3 => copy (copy (copy zeros 0 (dirRecord 65 2) 32) 32 (dirRecord 66 3) 32) 64 (fileRecord 70) 32
  | 4 => dirSector 2 0
  | 5 => dirSector 3 0
  | 6 => ofList [97, 98, 99]
  | _ => zeros

namespace Small

def vol : Vol := smallDisk.vol smallFs

theorem fat : ∀ c < 6, vol.fat c = if 2 ≤ c ∧ c < 5 then 0xFFFF else 0 := by decide +kernel

theorem chain (hc : 2 ≤ c ∧ c < 5) : vol.Chain smallFs c [c] := by
  have hcl : smallFs.Cluster c := ⟨hc.1, Nat.lt_trans hc.2 (by decide)⟩
  refine .last hcl ?_
  rw [fat c (by omega), if_pos hc]
  decide

theorem root_slots : ∀ i < 16, (vol.slot (.root i)).isEnd = decide (3 ≤ i) ∧ (vol.slot (.root i)).isSub = decide (i < 2) ∧
    (vol.slot (.root i)).isLive = decide (i < 3) ∧ (vol.slot (.root i)).isDot = false ∧
    (i < 3 → (vol.slot (.root i)).firstCluster = i + 2) := by decide +kernel

theorem dir_slots : ∀ c < 4, 2 ≤ c → ∀ i < 16, (vol.slot (.data c i)).isEnd = decide (2 ≤ i) ∧
    (vol.slot (.data c i)).isLive = false := by decide +kernel

theorem own (hi : i < 3) : vol.own (vol.slot (.root i)) = [i + 2] := by
  refine own_of_chain smallFs_ok ?_
  rw [(root_slots i (by omega)).2.2.2.2 hi]
  exact chain (by omega)

theorem live_root (hi : i < 16) : (vol.slot (.root i)).isLive = true ↔ i < 3 := by
  rw [(root_slots i hi).2.2.1, decide_eq_true_iff]

theorem bare (hc : c = 2 ∨ c = 3) : vol.Bare smallFs c ∧ vol.Ended smallFs c := by
  have hch : vol.Chain smallFs c [c] := chain (by omega)
  constructor
  · intro i p hp
    obtain ⟨hi, rfl⟩ := (smallFs_single hch).1 hp
    exact (dir_slots c (by omega) (by omega) i hi).2
  · intro i j p q hij hp hq he
    obtain ⟨hi, rfl⟩ := (smallFs_single hch).1 hp
    obtain ⟨hj, rfl⟩ := (smallFs_single hch).1 hq
    rw [(dir_slots c (by omega) (by omega) i hi).1, decide_eq_true_iff] at he
    rw [(dir_slots c (by omega) (by omega) j hj).1, decide_eq_true_iff]
    omega

theorem sub_root (hi : i < 16) (hs : (vol.slot (.root i)).isSub = true) :
    (vol.slot (.root i)).firstCluster = 2 ∨ (vol.slot (.root i)).firstCluster = 3 := by
  obtain ⟨-, hsub, -, -, hf⟩ := root_slots i hi
  rw [hsub, decide_eq_true_iff] at hs
  omega

theorem flat : vol.Flat smallFs where
  wild := rfl
  headed := fun i p hp hl => by
    obtain ⟨hi, rfl⟩ := smallFs_root.1 hp
    have h3 := (live_root hi).1 hl
    right
    rw [(root_slots i hi).2.2.2.2 h3]
    exact ⟨_, chain (by omega)⟩
  apart := fun i j p q hp hq hl hl' c hc hc' => by
    obtain ⟨hi, rfl⟩ := smallFs_root.1 hp
    obtain ⟨hj, rfl⟩ := smallFs_root.1 hq
    rw [own ((live_root hi).1 hl), mem_singleton] at hc
    rw [own ((live_root hj).1 hl'), mem_singleton] at hc'
    have hij : i = j := by omega
    rw [hij]
  ended := fun i j p q hij hp hq he => by
    obtain ⟨hi, rfl⟩ := smallFs_root.1 hp
    obtain ⟨hj, rfl⟩ := smallFs_root.1 hq
    rw [(root_slots i hi).1, decide_eq_true_iff] at he
    rw [(root_slots j hj).1, decide_eq_true_iff]
    omega
  bare := fun i p hp hs => by
    obtain ⟨hi, rfl⟩ := smallFs_root.1 hp
    exact bare (sub_root hi hs)

theorem consistent : vol.Consistent smallFs where
  toTree := flat.tree
  covered := fun c hc hu => by
    have hlt : c < 6 := hc.2
    rw [fat c hlt] at hu
    have h25 : 2 ≤ c ∧ c < 5 := by
      by_contra hn
      exact hu (if_neg hn)
    have hi : c - 2 < 16 := by omega
    refine ⟨.root (c - 2), ⟨0, c - 2, .refl, smallFs_root.2 ⟨hi, rfl⟩, (live_root hi).2 (by omega)⟩, ?_⟩
    rw [own (by omega), mem_singleton]
    omega

theorem mirrored : smallDisk.Mirrored smallFs := by
  show ∀ j < 2, ∀ c < 6, smallDisk.cell smallFs j c = smallDisk.cell smallFs 0 c
  decide +kernel

theorem dir (hx : vol.Dir smallFs x) : x = 0 ∨ x = 2 ∨ x = 3 := by
  rcases flat.dir hx with h | ⟨⟨i, p, hp, hs, rfl⟩, -⟩
  · exact .inl h
  · obtain ⟨hi, rfl⟩ := smallFs_root.1 hp
    exact .inr (sub_root hi hs)

theorem edge {d : Nat} (hd : vol.Dir smallFs d) (he : vol.Edge smallFs d x) : d = 0 ∧ (x = 2 ∨ x = 3) := by
  obtain ⟨i, p, hp, hs, rfl⟩ := he
  rcases dir hd with rfl | hd
  · obtain ⟨hi, rfl⟩ := smallFs_root.1 hp
    exact ⟨rfl, sub_root hi hs⟩
  · rw [Entry.isSub_of_isLive ((bare hd).1 i p hp)] at hs
    cases hs

end Small
end PureUnix.Fat16
