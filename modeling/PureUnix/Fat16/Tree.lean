import PureUnix.Lib.Links
import PureUnix.Lib.Reach
import PureUnix.Fat16.Driver

/-!
# Consistent volumes

The directories of a volume are those reached from the root directory through directory records, "." and ".."
aside. The records of files and directories in them own clusters: the chain that starts at their first cluster.
A volume is `Consistent` when these chains end properly, no two of them meet, and every cluster that is not free
is in one. Behind a record that ends its directory there are only such records.

`Tree` is all of this but the last: a cluster in use may also be one that an operation is about to hang on.
Clusters nobody owns may change in any way (`Tree.frame`).
-/
namespace PureUnix.Fat16

open Lib List Nat Function Entry

/-! ## Slots -/

/-- 32 bytes of a sector after 32 bytes of it were written. -/
theorem window_copy {s : Buf} {o o' : Nat} (e : Entry) (ho : o' + 32 ≤ 512) (hd : o' = o ∨ o' + 32 ≤ o ∨ o + 32 ≤ o') :
    (trunc 32 fun k => trunc 512 (copy s o e 32) (o' + k)) = if o' = o then trunc 32 e else trunc 32 fun k => s (o' + k) := by
  split
  · rename_i heq
    refine trunc_congr fun k _ hk => ?_
    rw [trunc, if_pos (by omega), copy, if_pos (by omega), heq, Nat.add_sub_cancel_left]
  · refine trunc_congr fun k _ hk => ?_
    rw [trunc, if_pos (by omega), copy, if_neg (by omega)]

namespace Vol

section
variable (v : Vol) (p q : Place) (e e' : Entry)

@[simp] theorem fat_setSlot : (v.setSlot p e).fat = v.fat := by cases p <;> rfl

@[simp] theorem wild_setSlot : (v.setSlot p e).wild = v.wild := by cases p <;> rfl

theorem slot_setSlot : (v.setSlot p e).slot q = if q = p then trunc 32 e else v.slot q := by
  cases p with
  | root i =>
    cases q with
    | data c k => rw [if_neg (by simp)]; rfl
    | root j =>
      simp only [slot, sectorOf, setSlot, Place.root.injEq, Place.off]
      by_cases hs : j / 16 = i / 16
      · rw [hs, update_self, window_copy e (by omega) (by omega)]
        simp only [show j % 16 * 32 = i % 16 * 32 ↔ j = i by omega]
      · rw [update_of_ne hs, if_neg (by rintro rfl; exact hs rfl)]
  | data c k =>
    cases q with
    | root j => rw [if_neg (by simp)]; rfl
    | data c' k' =>
      simp only [slot, sectorOf, setSlot, setSector, Place.data.injEq, Place.off]
      by_cases hc : c' = c
      · subst hc
        rw [update_self]
        by_cases hs : k' / 16 = k / 16
        · rw [hs, update_self, window_copy e (by omega) (by omega)]
          simp only [show k' * 32 % 512 = k * 32 % 512 ↔ k' = k by omega, true_and]
        · rw [update_of_ne hs, if_neg (by rintro ⟨-, rfl⟩; exact hs rfl)]
      · rw [update_of_ne hc, if_neg fun h => hc h.1]

theorem slot_setSlot_self : (v.setSlot p e).slot p = trunc 32 e := by rw [slot_setSlot, if_pos rfl]

variable {q p} in
theorem slot_setSlot_of_ne (h : q ≠ p) : (v.setSlot p e).slot q = v.slot q := by rw [slot_setSlot, if_neg h]

end

/-! ## Directories -/

section
variable (fs : Fs) (v : Vol)

/-- From `c` the FAT leads through the clusters `cs` to an end mark. -/
def Chain (c : Nat) (cs : List Nat) : Prop := Lib.Chain fs.Cluster (FAT_EOC ≤ ·) v.fat c cs

def clusters (c : Nat) : List Nat := follow (FAT_EOC ≤ ·) v.fat FUEL c

/-- Where record `i` of directory `d` is; the root directory is 0. -/
def place (d i : Nat) : Option Place :=
  if dirMax fs d ≤ i then none
  else if d = 0 then some (.root i)
  else (v.clusters d)[i / fs.entriesPerCluster]?.map fun c => .data c (i % fs.entriesPerCluster)

/-- Directory `d` has a record of directory `x`. -/
def Edge (d x : Nat) : Prop :=
  ∃ i p, v.place fs d i = some p ∧ (v.slot p).isSub = true ∧ (v.slot p).firstCluster = x

def Dir (d : Nat) : Prop := Reach (v.Edge fs) 0 d

/-- The records of files and directories. -/
def Live (p : Place) : Prop := ∃ d i, v.Dir fs d ∧ v.place fs d i = some p ∧ (v.slot p).isLive = true

/-- A record has no clusters, unless it is a directory, or it starts a chain. -/
def Headed (e : Entry) : Prop := (e.firstCluster = 0 ∧ e.isDirectory = false) ∨ ∃ cs, v.Chain fs e.firstCluster cs

def own (e : Entry) : List Nat := if e.firstCluster = 0 then [] else v.clusters e.firstCluster

def Owned (c : Nat) : Prop := ∃ p, v.Live fs p ∧ c ∈ v.own (v.slot p)

/-- Behind a record that ends the directory, all records do, as the format asks. -/
def Ended (d : Nat) : Prop :=
  ∀ i j p q, i ≤ j → v.place fs d i = some p → v.place fs d j = some q → (v.slot p).isEnd = true → (v.slot q).isEnd = true

def Bare (d : Nat) : Prop := ∀ i p, v.place fs d i = some p → (v.slot p).isLive = false

structure Tree : Prop where
  wild : v.wild = false
  headed : ∀ p, v.Live fs p → v.Headed fs (v.slot p)
  apart : ∀ p q, v.Live fs p → v.Live fs q → ∀ c ∈ v.own (v.slot p), c ∈ v.own (v.slot q) → p = q
  ended : ∀ d, v.Dir fs d → v.Ended fs d

structure Consistent : Prop extends v.Tree fs where
  covered : ∀ c, fs.Cluster c → v.fat c ≠ 0 → v.Owned fs c

end
end Vol

section
variable {fs : Fs} {v v' : Vol} {d c i j : Nat} {cs : List Nat} {p q : Place} {e : Entry}

theorem Fs.Ok.epc_pos (h : fs.Ok) : 0 < fs.entriesPerCluster := by
  have := h.spc
  rw [Fs.epc_eq]
  omega

namespace Vol

/-! ## Chains -/

theorem Chain.cluster (h : v.Chain fs c cs) : fs.Cluster c := h.ok_of_mem h.start_mem

theorem Chain.ne_zero (h : v.Chain fs c cs) : c ≠ 0 := fun h0 => absurd (h0 ▸ h.cluster.1) (by decide)

theorem Chain.length_le (h : fs.Ok) (hc : v.Chain fs c cs) : cs.length ≤ FUEL := by
  have hsub : cs ⊆ range fs.maxCluster := fun x hx => mem_range.2 (hc.ok_of_mem hx).2
  have hlen := (subperm_of_subset hc.nodup hsub).length_le
  rw [length_range] at hlen
  exact le_trans hlen (le_trans h.max_le (by decide))

theorem Chain.clusters_eq (h : fs.Ok) (hc : v.Chain fs c cs) : v.clusters c = cs := hc.follow_eq (hc.length_le h)

theorem Chain.used (hc : v.Chain fs c cs) {x : Nat} (hx : x ∈ cs) : v.fat x ≠ 0 := by
  induction hc with
  | last _ hl =>
    rw [mem_singleton.1 hx]
    intro h0
    rw [h0] at hl
    exact absurd hl (by decide)
  | link _ _ ht ih =>
    rcases mem_cons.1 hx with rfl | hx
    · exact Chain.ne_zero (show v.Chain fs _ _ from ht)
    · exact ih hx

theorem Chain.congr (hc : v.Chain fs c cs) (h : ∀ x ∈ cs, v'.fat x = v.fat x) : v'.Chain fs c cs := Lib.Chain.congr hc h

/-! ## Records of a directory -/

theorem place_some : v.place fs d i = some p ↔ i < dirMax fs d ∧ (d = 0 ∧ p = .root i ∨
      d ≠ 0 ∧ ∃ c, (v.clusters d)[i / fs.entriesPerCluster]? = some c ∧ p = .data c (i % fs.entriesPerCluster)) := by
  unfold place
  by_cases h1 : dirMax fs d ≤ i
  · simp [h1]
  · by_cases h2 : d = 0
    · simp [h2, eq_comm]
    · simp [h1, h2, eq_comm, Nat.lt_of_not_le h1]

/-- Records depend on the FAT only through the directory's chain. -/
theorem place_congr (h : d = 0 ∨ v'.clusters d = v.clusters d) : v'.place fs d i = v.place fs d i := by
  unfold place
  rcases h with h | h
  · simp only [h, if_true]
  · rw [h]

@[simp] theorem place_setSlot : (v.setSlot p e).place fs d i = v.place fs d i :=
  place_congr (.inr (by simp only [clusters, fat_setSlot]))

theorem place_none_mono (h : v.place fs d i = none) (hij : i ≤ j) : v.place fs d j = none := by
  rw [Option.eq_none_iff_forall_ne_some] at h ⊢
  intro p hp
  obtain ⟨hj, ⟨hd, -⟩ | ⟨hd, c, hc, -⟩⟩ := place_some.1 hp
  · exact h _ (place_some.2 ⟨by omega, .inl ⟨hd, rfl⟩⟩)
  · obtain ⟨hlt, -⟩ := List.getElem?_eq_some_iff.1 hc
    have hlt' := Nat.lt_of_le_of_lt (Nat.div_le_div_right hij) hlt
    exact h _ (place_some.2 ⟨by omega, .inr ⟨hd, _, getElem?_eq_getElem hlt', rfl⟩⟩)

theorem own_of_chain (h : fs.Ok) (hc : v.Chain fs e.firstCluster cs) : v.own e = cs := by
  unfold own
  rw [if_neg hc.ne_zero, hc.clusters_eq h]

theorem Headed.chain (h : fs.Ok) (hh : v.Headed fs e) (h0 : e.firstCluster ≠ 0) : v.Chain fs e.firstCluster (v.own e) := by
  rcases hh with ⟨hz, -⟩ | ⟨cs, hc⟩
  · exact absurd hz h0
  · rw [own_of_chain h hc]
    exact hc

theorem Headed.first_ne (hh : v.Headed fs e) (hs : e.isSub = true) : e.firstCluster ≠ 0 := by
  rcases hh with ⟨-, hnd⟩ | ⟨cs, hcs⟩
  · rw [isDirectory_of_isSub hs] at hnd
    cases hnd
  · exact hcs.ne_zero

theorem Headed.used (h : fs.Ok) (hh : v.Headed fs e) (hc : c ∈ v.own e) : fs.Cluster c ∧ v.fat c ≠ 0 := by
  by_cases h0 : e.firstCluster = 0
  · unfold own at hc
    rw [if_pos h0] at hc
    cases hc
  · have hch := hh.chain h h0
    exact ⟨hch.ok_of_mem hc, hch.used hc⟩

theorem own_congr (he : e.firstCluster = 0 ∨ v'.clusters e.firstCluster = v.clusters e.firstCluster) : v'.own e = v.own e := by
  unfold own
  rcases he with he | he
  · rw [if_pos he, if_pos he]
  · rw [he]

theorem own_eq_of_first {e e' : Entry} (h : e.firstCluster = e'.firstCluster) : v.own e = v.own e' := by
  unfold own
  rw [h]

theorem Headed.of_entry {e e' : Entry} (hh : v.Headed fs e) (hf : e'.firstCluster = e.firstCluster) (ha : e'.isDirectory = e.isDirectory) :
    v.Headed fs e' := by
  unfold Headed
  rw [hf, ha]
  exact hh

theorem Dir.record (hd : v.Dir fs d) (h0 : d ≠ 0) : ∃ p, v.Live fs p ∧ (v.slot p).isSub = true ∧ (v.slot p).firstCluster = d := by
  rcases Relation.ReflTransGen.cases_tail hd with hz | ⟨d', hd', i, p, hp, hs, hf⟩
  · exact absurd hz h0
  · exact ⟨p, ⟨d', i, hd', hp, isLive_of_isSub hs⟩, hs, hf⟩

theorem Dir.owned (hd : v.Dir fs d) (h0 : d ≠ 0) (hc : c ∈ v.clusters d) : v.Owned fs c := by
  obtain ⟨p, hl, -, rfl⟩ := hd.record h0
  refine ⟨p, hl, ?_⟩
  rw [own, if_neg h0]
  exact hc

namespace Tree

theorem dir_chain (h : fs.Ok) (t : v.Tree fs) (hd : v.Dir fs d) (h0 : d ≠ 0) : v.Chain fs d (v.clusters d) := by
  obtain ⟨p, hl, -, rfl⟩ := hd.record h0
  have hch := (t.headed p hl).chain h h0
  rw [own, if_neg h0] at hch
  exact hch

theorem index_inj (h : fs.Ok) (t : v.Tree fs) (hd : v.Dir fs d) (h1 : v.place fs d i = some p) (h2 : v.place fs d j = some p) :
    i = j := by
  obtain ⟨-, ⟨-, e1⟩ | ⟨h0, c, hc, e1⟩⟩ := place_some.1 h1
  · obtain ⟨-, ⟨-, e2⟩ | ⟨-, c', -, e2⟩⟩ := place_some.1 h2
    · exact Place.root.inj (e1.symm.trans e2)
    · rw [e1] at e2; cases e2
  · obtain ⟨-, ⟨h0', -⟩ | ⟨-, c', hc', e2⟩⟩ := place_some.1 h2
    · exact absurd h0' h0
    · obtain ⟨rfl, hmod⟩ := Place.data.inj (e1.symm.trans e2)
      obtain ⟨hi, hgi⟩ := List.getElem?_eq_some_iff.1 hc
      obtain ⟨hj, hgj⟩ := List.getElem?_eq_some_iff.1 hc'
      have hdiv := ((t.dir_chain h hd h0).nodup.getElem_inj_iff).1 (hgi.trans hgj.symm)
      rw [← div_add_mod i fs.entriesPerCluster, ← div_add_mod j fs.entriesPerCluster, hdiv, hmod]

theorem dir_unique {d' : Nat} (t : v.Tree fs) (hd : v.Dir fs d) (hd' : v.Dir fs d') (h1 : v.place fs d i = some p)
    (h2 : v.place fs d' j = some p) : d = d' := by
  obtain ⟨-, ⟨h0, e1⟩ | ⟨h0, c, hc, e1⟩⟩ := place_some.1 h1
  · obtain ⟨-, ⟨h0', -⟩ | ⟨-, c', -, e2⟩⟩ := place_some.1 h2
    · rw [h0, h0']
    · rw [e1] at e2; cases e2
  · obtain ⟨-, ⟨-, e2⟩ | ⟨h0', c', hc', e2⟩⟩ := place_some.1 h2
    · rw [e1] at e2; cases e2
    · obtain ⟨rfl, -⟩ := Place.data.inj (e1.symm.trans e2)
      obtain ⟨r, hr, -, rfl⟩ := hd.record h0
      obtain ⟨r', hr', -, rfl⟩ := hd'.record h0'
      have hmem : c ∈ v.own (v.slot r) := by
        rw [own, if_neg h0]
        exact mem_of_getElem? hc
      have hmem' : c ∈ v.own (v.slot r') := by
        rw [own, if_neg h0']
        exact mem_of_getElem? hc'
      rw [t.apart r r' hr hr' c hmem hmem']

end Tree

/-! ## Clusters nobody owns -/

/-- The volumes differ at most in the clusters `S`. -/
structure SameBut (fs : Fs) (S : List Nat) (v v' : Vol) : Prop where
  fat : ∀ c, fs.Cluster c → c ∉ S → v'.fat c = v.fat c
  data : ∀ c, fs.Cluster c → c ∉ S → v'.data c = v.data c
  root : v'.root = v.root
  wild : v'.wild = v.wild

/-- The volumes have the same directories, with the same records and the same chains behind them. -/
structure SameTree (fs : Fs) (v v' : Vol) : Prop where
  dir : ∀ d, v'.Dir fs d ↔ v.Dir fs d
  place : ∀ d, v.Dir fs d → ∀ i, v'.place fs d i = v.place fs d i
  slot : ∀ d i p, v.Dir fs d → v.place fs d i = some p → v'.slot p = v.slot p
  live : ∀ p, v'.Live fs p ↔ v.Live fs p
  own : ∀ p, v.Live fs p → v'.own (v'.slot p) = v.own (v.slot p)

theorem SameTree.refl : SameTree fs v v :=
  ⟨fun _ => Iff.rfl, fun _ _ _ => rfl, fun _ _ _ _ _ => rfl, fun _ => Iff.rfl, fun _ _ => rfl⟩

theorem SameTree.owned (h : SameTree fs v v') : v'.Owned fs c ↔ v.Owned fs c := by
  constructor
  · rintro ⟨p, hp, hc⟩
    have hp' := (h.live p).1 hp
    exact ⟨p, hp', by rw [← h.own p hp']; exact hc⟩
  · rintro ⟨p, hp, hc⟩
    exact ⟨p, (h.live p).2 hp, by rw [h.own p hp]; exact hc⟩

namespace Tree

/-- Records that were there stay, and those that are new end their directory. -/
theorem same_records (t : v.Tree fs) (v' : Vol)
    (hold : ∀ d, v.Dir fs d → ∀ i p, v.place fs d i = some p → v'.place fs d i = some p ∧ v'.slot p = v.slot p)
    (hnew : ∀ d, v.Dir fs d → ∀ i p, v.place fs d i = none → v'.place fs d i = some p → (v'.slot p).isEnd = true) :
    (∀ d, v'.Dir fs d ↔ v.Dir fs d) ∧ (∀ p, v'.Live fs p ↔ v.Live fs p) ∧ ∀ d, v.Dir fs d → v'.Ended fs d := by
  -- a live record of the new volume was there
  have hback : ∀ d, v.Dir fs d → ∀ i p, v'.place fs d i = some p → (v'.slot p).isLive = true →
      v.place fs d i = some p ∧ v'.slot p = v.slot p := by
    intro d hd i p hp hl
    cases hq : v.place fs d i with
    | none =>
      have hend := hnew d hd i p hq hp
      rw [isEnd_of_isLive hl] at hend
      cases hend
    | some q =>
      obtain ⟨hq', hs⟩ := hold d hd i q hq
      obtain rfl := Option.some.inj (hq'.symm.trans hp)
      exact ⟨rfl, hs⟩
  have hedge : ∀ d, v.Dir fs d → ∀ x, v'.Edge fs d x ↔ v.Edge fs d x := by
    intro d hd x
    constructor
    · rintro ⟨i, p, hp, hs, hf⟩
      obtain ⟨hp', he⟩ := hback d hd i p hp (isLive_of_isSub hs)
      exact ⟨i, p, hp', by rw [← he]; exact hs, by rw [← he]; exact hf⟩
    · rintro ⟨i, p, hp, hs, hf⟩
      obtain ⟨hp', he⟩ := hold d hd i p hp
      exact ⟨i, p, hp', by rw [he]; exact hs, by rw [he]; exact hf⟩
  have hdir : ∀ d, v'.Dir fs d ↔ v.Dir fs d := fun d => Reach.congr hedge
  refine ⟨hdir, fun p => ?_, fun d hd i j p q hij hp hq hend => ?_⟩
  · constructor
    · rintro ⟨d, i, hd, hp, hl⟩
      obtain ⟨hp', he⟩ := hback d ((hdir d).1 hd) i p hp hl
      exact ⟨d, i, (hdir d).1 hd, hp', by rw [← he]; exact hl⟩
    · rintro ⟨d, i, hd, hp, hl⟩
      obtain ⟨hp', he⟩ := hold d hd i p hp
      exact ⟨d, i, (hdir d).2 hd, hp', by rw [he]; exact hl⟩
  · cases hq' : v.place fs d j with
    | none => exact hnew d hd j q hq' hq
    | some r =>
      obtain ⟨hr, hrs⟩ := hold d hd j r hq'
      obtain rfl := Option.some.inj (hr.symm.trans hq)
      cases hp' : v.place fs d i with
      | none => exact absurd (place_none_mono hp' hij) (by rw [hq']; simp)
      | some s =>
        obtain ⟨hs, hss⟩ := hold d hd i s hp'
        obtain rfl := Option.some.inj (hs.symm.trans hp)
        rw [hrs]
        exact t.ended d hd i j s r hij hp' hq' (by rw [← hss]; exact hend)

/-- **Clusters nobody owns may change in any way.** -/
theorem frame {S : List Nat} (h : fs.Ok) (t : v.Tree fs) (hs : SameBut fs S v v') (hS : ∀ c ∈ S, ¬ v.Owned fs c) :
    v'.Tree fs ∧ SameTree fs v v' := by
  have hkept : ∀ c, v.Owned fs c → fs.Cluster c → v'.fat c = v.fat c ∧ v'.data c = v.data c := fun c hc hcl =>
    ⟨hs.fat c hcl fun hmem => hS c hmem hc, hs.data c hcl fun hmem => hS c hmem hc⟩
  have hchain : ∀ p, v.Live fs p → (v.slot p).firstCluster ≠ 0 → v'.Chain fs (v.slot p).firstCluster (v.own (v.slot p)) := by
    intro p hp h0
    have hc := (t.headed p hp).chain h h0
    exact hc.congr fun x hx => (hkept x ⟨p, hp, hx⟩ (hc.ok_of_mem hx)).1
  have hown : ∀ p, v.Live fs p → v'.own (v.slot p) = v.own (v.slot p) := by
    intro p hp
    by_cases h0 : (v.slot p).firstCluster = 0
    · exact own_congr (.inl h0)
    · exact own_of_chain h (hchain p hp h0)
  have hplace : ∀ d, v.Dir fs d → ∀ i, v'.place fs d i = v.place fs d i := by
    intro d hd i
    refine place_congr ?_
    by_cases h0 : d = 0
    · exact .inl h0
    obtain ⟨p, hp, -, rfl⟩ := hd.record h0
    have := hown p hp
    rw [own, if_neg h0, own, if_neg h0] at this
    exact .inr this
  have hslot : ∀ d i p, v.Dir fs d → v.place fs d i = some p → v'.slot p = v.slot p := by
    intro d i p hd hp
    obtain ⟨-, ⟨-, rfl⟩ | ⟨h0, c, hc, rfl⟩⟩ := place_some.1 hp
    · simp only [slot, sectorOf, hs.root]
    · have hmem := mem_of_getElem? hc
      simp only [slot, sectorOf, (hkept c (hd.owned h0 hmem) ((t.dir_chain h hd h0).ok_of_mem hmem)).2]
  obtain ⟨hdir, hlive, hended⟩ := t.same_records v' (fun d hd i p hp => ⟨by rw [hplace d hd]; exact hp, hslot d i p hd hp⟩)
    fun d hd i p hn hp => by rw [hplace d hd, hn] at hp; cases hp
  have hls : ∀ p, v.Live fs p → v'.slot p = v.slot p := by
    rintro p ⟨d, i, hd, hp, -⟩
    exact hslot d i p hd hp
  refine ⟨⟨by rw [hs.wild]; exact t.wild, fun p hp => ?_, fun p q hp hq c hc hc' => ?_, fun d hd => hended d ((hdir d).1 hd)⟩,
    hdir, hplace, hslot, hlive, fun p hp => by rw [hls p hp]; exact hown p hp⟩
  · have hp' := (hlive p).1 hp
    rw [hls p hp']
    by_cases h0 : (v.slot p).firstCluster = 0
    · rcases t.headed p hp' with hz | ⟨cs, hcs⟩
      · exact .inl hz
      · exact absurd h0 hcs.ne_zero
    · exact .inr ⟨_, hchain p hp' h0⟩
  · have hp' := (hlive p).1 hp
    have hq' := (hlive q).1 hq
    rw [hls p hp', hown p hp'] at hc
    rw [hls q hq', hown q hq'] at hc'
    exact t.apart p q hp' hq' c hc hc'

end Tree
end Vol
end
end PureUnix.Fat16
