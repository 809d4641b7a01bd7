import PureUnix.Fat16.Tree

/-!
# Edits of a tree

What the driver does to the records and chains of a tree: a directory gets one more cluster (`Tree.extend`), a record
is written (`Tree.setSlot`), a record moves within its directory (`Tree.move`).
-/
namespace PureUnix.Fat16

open Lib List
open Entry

section
variable {fs : Fs} {v v' : Vol} {d c i j : Nat} {cs : List Nat} {p q : Place} {e : Entry}

namespace Vol

/-! ## One more cluster for a directory -/

/-- Cluster `n` hangs behind cluster `l`, with records that end a directory. -/
structure Hung (fs : Fs) (l n : Nat) (v v' : Vol) : Prop where
  fat : ∀ c, fs.Cluster c → c ≠ l → c ≠ n → v'.fat c = v.fat c
  link : v'.fat l = n
  last : FAT_EOC ≤ v'.fat n
  data : ∀ c, c ≠ n → v'.data c = v.data c
  zero : ∀ k, k < fs.entriesPerCluster → (v'.slot (.data n k)).isEnd = true
  root : v'.root = v.root
  wild : v'.wild = v.wild

/-- The directory may have got one more cluster; nothing else changed. -/
structure Extends (fs : Fs) (d : Nat) (v v' : Vol) : Prop where
  tree : v'.Tree fs
  dir : ∀ x, v'.Dir fs x ↔ v.Dir fs x
  live : ∀ p, v'.Live fs p ↔ v.Live fs p
  place : ∀ x, v.Dir fs x → ∀ i p, v.place fs x i = some p → v'.place fs x i = some p ∧ v'.slot p = v.slot p
  fresh : ∀ x, v.Dir fs x → ∀ i p, v.place fs x i = none → v'.place fs x i = some p → x = d ∧ (v'.slot p).isEnd = true
  covered : ∀ c, fs.Cluster c → v'.fat c ≠ 0 → ¬ v'.Owned fs c → v.fat c ≠ 0 ∧ ¬ v.Owned fs c

theorem Tree.extend {l n : Nat} (h : fs.Ok) (t : v.Tree fs) (hd : v.Dir fs d) (h0 : d ≠ 0)
    (hl : (v.clusters d).getLast? = some l) (hn : fs.Cluster n) (hfree : ¬ v.Owned fs n) (hg : Hung fs l n v v') :
    Extends fs d v v' ∧ v'.clusters d = v.clusters d ++ [n] := by
  have hcd := t.dir_chain h hd h0
  have hlast : (v.clusters d).getLast hcd.ne_nil = l := by
    rw [getLast?_eq_some_getLast hcd.ne_nil] at hl
    exact Option.some.inj hl
  have hlmem : l ∈ v.clusters d := hlast ▸ getLast_mem _
  obtain ⟨r, hr, -, hrf⟩ := hd.record h0
  have hrown : v.own (v.slot r) = v.clusters d := by rw [own, hrf, if_neg h0]
  -- a record that is not the directory's own keeps its chain
  have hkeep : ∀ p, v.Live fs p → p ≠ r → ∀ x ∈ v.own (v.slot p), v'.fat x = v.fat x := by
    intro p hp hpr x hx
    refine hg.fat x ((t.headed p hp).used h hx).1 ?_ ?_
    · rintro rfl
      exact hpr (t.apart p r hp hr x hx (by rw [hrown]; exact hlmem))
    · rintro rfl
      exact hfree ⟨p, hp, hx⟩
  have hchain : v'.Chain fs d (v.clusters d ++ [n]) := by
    refine Lib.Chain.append hcd (fun x hx hne => ?_) ?_ ?_ (.last hn hg.last)
    · refine hg.fat x (hcd.ok_of_mem hx) (hlast ▸ hne) ?_
      rintro rfl
      exact hfree (hd.owned h0 hx)
    · rw [hlast]; exact hg.link
    · have := hn.2
      have := h.max_le
      simp only [FAT_EOC]
      omega
  have hclusters : v'.clusters d = v.clusters d ++ [n] := hchain.clusters_eq h
  have hheads : ∀ p, v.Live fs p → v'.Headed fs (v.slot p) ∧
      v'.own (v.slot p) = if p = r then v.clusters d ++ [n] else v.own (v.slot p) := by
    intro p hp
    by_cases hpr : p = r
    · subst hpr
      rw [if_pos rfl]
      refine ⟨.inr ⟨_, hrf ▸ hchain⟩, ?_⟩
      rw [own, hrf, if_neg h0, hclusters]
    · rw [if_neg hpr]
      by_cases hz : (v.slot p).firstCluster = 0
      · refine ⟨?_, own_congr (.inl hz)⟩
        rcases t.headed p hp with hh | ⟨cs, hcs⟩
        · exact .inl hh
        · exact absurd hz hcs.ne_zero
      · have hc := (t.headed p hp).chain h hz
        have hc' : v'.Chain fs _ _ := hc.congr (hkeep p hp hpr)
        exact ⟨.inr ⟨_, hc'⟩, own_of_chain h hc'⟩
  have hothers : ∀ x, v.Dir fs x → x ≠ d → x = 0 ∨ v'.clusters x = v.clusters x := by
    intro x hx hxd
    by_cases hx0 : x = 0
    · exact .inl hx0
    obtain ⟨p, hp, -, rfl⟩ := hx.record hx0
    have hpr : p ≠ r := fun he => hxd (by rw [he, hrf])
    have := (hheads p hp).2
    rw [if_neg hpr, own, if_neg hx0, own, if_neg hx0] at this
    exact .inr this
  have hslot : ∀ x, v.Dir fs x → ∀ i p, v.place fs x i = some p → v'.slot p = v.slot p := by
    intro x hx i p hp
    obtain ⟨-, ⟨-, rfl⟩ | ⟨hx0, c, hc, rfl⟩⟩ := place_some.1 hp
    · simp only [slot, sectorOf, hg.root]
    · have hcn : c ≠ n := by
        rintro rfl
        exact hfree (hx.owned hx0 (mem_of_getElem? hc))
      simp only [slot, sectorOf, hg.data c hcn]
  have hplace : ∀ x, v.Dir fs x → ∀ i p, v.place fs x i = some p → v'.place fs x i = some p ∧ v'.slot p = v.slot p := by
    intro x hx i p hp
    refine ⟨?_, hslot x hx i p hp⟩
    by_cases hxd : x = d
    · subst hxd
      obtain ⟨hi, ⟨hz, -⟩ | ⟨-, c, hc, rfl⟩⟩ := place_some.1 hp
      · exact absurd hz h0
      · refine place_some.2 ⟨hi, .inr ⟨h0, c, ?_, rfl⟩⟩
        rw [hclusters, List.getElem?_append_left (List.getElem?_eq_some_iff.1 hc).1]
        exact hc
    · rw [place_congr (hothers x hx hxd)]
      exact hp
  have hfresh : ∀ x, v.Dir fs x → ∀ i p, v.place fs x i = none → v'.place fs x i = some p → x = d ∧ (v'.slot p).isEnd = true := by
    intro x hx i p hnone hp
    by_cases hxd : x = d
    · subst hxd
      refine ⟨rfl, ?_⟩
      obtain ⟨hi, ⟨hz, -⟩ | ⟨-, c, hc, rfl⟩⟩ := place_some.1 hp
      · exact absurd hz h0
      · rw [hclusters] at hc
        rcases Nat.lt_or_ge (i / fs.entriesPerCluster) (v.clusters x).length with hlt | hge
        · exact absurd (place_some.2 ⟨hi, .inr ⟨h0, _, getElem?_eq_getElem hlt, rfl⟩⟩) (by rw [hnone]; simp)
        · rw [getElem?_append_right hge] at hc
          obtain ⟨hlt, hg'⟩ := List.getElem?_eq_some_iff.1 hc
          rw [getElem_singleton] at hg'
          rw [← hg']
          exact hg.zero _ (Nat.mod_lt _ h.epc_pos)
    · rw [place_congr (hothers x hx hxd), hnone] at hp
      cases hp
  obtain ⟨hdir, hlive, hended⟩ := t.same_records v' hplace fun x hx i p hnone hp => (hfresh x hx i p hnone hp).2
  have hls : ∀ p, v.Live fs p → v'.slot p = v.slot p := by
    rintro p ⟨x, i, hx, hp, -⟩
    exact hslot x hx i p hp
  have hmem : ∀ p, v.Live fs p → ∀ c, c ∈ v'.own (v'.slot p) ↔ c ∈ v.own (v.slot p) ∨ p = r ∧ c = n := by
    intro p hp c
    rw [hls p hp, (hheads p hp).2]
    split
    · rename_i he
      rw [he, hrown, mem_append, mem_singleton]
      simp
    · rename_i he
      simp [he]
  refine ⟨⟨⟨by rw [hg.wild]; exact t.wild, fun p hp => ?_, fun p q hp hq c hc hc' => ?_, fun x hx => hended x ((hdir x).1 hx)⟩,
    hdir, hlive, hplace, hfresh, fun c hc hf ho => ?_⟩, hclusters⟩
  · have hp' := (hlive p).1 hp
    rw [hls p hp']
    exact (hheads p hp').1
  · have hp' := (hlive p).1 hp
    have hq' := (hlive q).1 hq
    rcases (hmem p hp' c).1 hc with hc | ⟨rfl, rfl⟩
    · rcases (hmem q hq' c).1 hc' with hc' | ⟨rfl, rfl⟩
      · exact t.apart p q hp' hq' c hc hc'
      · exact absurd ⟨p, hp', hc⟩ hfree
    · rcases (hmem q hq' c).1 hc' with hc' | ⟨rfl, -⟩
      · exact absurd ⟨q, hq', hc'⟩ hfree
      · rfl
  · have hold : ¬ v.Owned fs c := by
      rintro ⟨p, hp, hm⟩
      exact ho ⟨p, (hlive p).2 hp, (hmem p hp c).2 (.inl hm)⟩
    have hnew : c ≠ n := fun hcn => ho ⟨r, (hlive r).2 hr, (hmem r hr c).2 (.inr ⟨rfl, hcn⟩)⟩
    refine ⟨?_, hold⟩
    rwa [← hg.fat c hc (fun hcl => hold (hcl ▸ hd.owned h0 hlmem)) hnew]

/-! ## A record is written -/

theorem Live.isLive (hp : v.Live fs p) : (v.slot p).isLive = true := hp.choose_spec.choose_spec.2.2

@[simp] theorem clusters_setSlot : (v.setSlot p e).clusters c = v.clusters c := by
  simp only [clusters, fat_setSlot]

@[simp] theorem own_setSlot {e' : Entry} : (v.setSlot p e).own e' = v.own e' := by
  simp only [own, clusters_setSlot]

theorem chain_setSlot : (v.setSlot p e).Chain fs c cs ↔ v.Chain fs c cs := by
  simp only [Chain, fat_setSlot]

theorem headed_setSlot {e' : Entry} : (v.setSlot p e).Headed fs e' ↔ v.Headed fs e' := by
  simp only [Headed, chain_setSlot]

/-- A record that may be written at place `i` of directory `d`. -/
structure Fits (fs : Fs) (v : Vol) (d i : Nat) (p : Place) (e : Entry) : Prop where
  dir : v.Dir fs d
  place : v.place fs d i = some p
  /-- No end of the directory before it. -/
  before : ∀ j q, j < i → v.place fs d j = some q → (v.slot q).isEnd = false
  isEnd : e.isEnd = false
  headed : e.isLive = true → v.Headed fs e
  apart : e.isLive = true → ∀ q, v.Live fs q → q ≠ p → ∀ c ∈ v.own e, c ∉ v.own (v.slot q)
  /-- A directory that loses its record is empty. -/
  bare : (v.slot p).isSub = true → e.isSub = false ∧ v.Bare fs (v.slot p).firstCluster
  /-- A directory that gets a record is new and empty. -/
  fresh : e.isSub = true → v.Bare fs e.firstCluster ∧ v.Ended fs e.firstCluster

theorem edge_setSlot (t : v.Tree fs) (hf : Fits fs v d i p e) {x y : Nat} (hx : v.Dir fs x) : (v.setSlot p e).Edge fs x y ↔
      (∃ j q, v.place fs x j = some q ∧ q ≠ p ∧ (v.slot q).isSub = true ∧ (v.slot q).firstCluster = y) ∨
        x = d ∧ e.isSub = true ∧ e.firstCluster = y := by
  have hes : isSub (trunc 32 e) = e.isSub := isSub_congr name_trunc attr_trunc
  constructor
  · rintro ⟨j, q, hq, hs, hy⟩
    rw [place_setSlot] at hq
    by_cases hqp : q = p
    · subst hqp
      rw [slot_setSlot_self] at hs hy
      exact .inr ⟨t.dir_unique hx hf.dir hq hf.place, hes ▸ hs, by rw [← hy, firstCluster_trunc]⟩
    · rw [slot_setSlot_of_ne _ _ hqp] at hs hy
      exact .inl ⟨j, q, hq, hqp, hs, hy⟩
  · rintro (⟨j, q, hq, hqp, hs, hy⟩ | ⟨rfl, hs, hy⟩)
    · refine ⟨j, q, by rw [place_setSlot]; exact hq, ?_, ?_⟩ <;> rw [slot_setSlot_of_ne _ _ hqp] <;> assumption
    · refine ⟨i, p, by rw [place_setSlot]; exact hf.place, ?_, ?_⟩
      · rw [slot_setSlot_self, hes]; exact hs
      · rw [slot_setSlot_self, firstCluster_trunc]; exact hy

theorem Tree.sub_unique (h : fs.Ok) (t : v.Tree fs) (hp : v.Live fs p) (hq : v.Live fs q) (hs : (v.slot p).isSub = true)
    (he : (v.slot q).firstCluster = (v.slot p).firstCluster) : q = p := by
  have hmem := ((t.headed p hp).chain h ((t.headed p hp).first_ne hs)).start_mem
  exact t.apart q p hq hp _ (by rw [own_eq_of_first he]; exact hmem) hmem

theorem Fits.notIn (hf : Fits fs v d i p e) (hs : e.isSub = true) (j : Nat) : v.place fs e.firstCluster j ≠ some p := by
  intro hj
  have hl := isLive_of_isSub hs
  have h0 := (hf.headed hl).first_ne hs
  obtain ⟨-, ⟨hz, -⟩ | ⟨-, c, hc, rfl⟩⟩ := place_some.1 hj
  · exact absurd hz h0
  · obtain ⟨-, ⟨-, he⟩ | ⟨hd0, c', hc', he⟩⟩ := place_some.1 hf.place
    · cases he
    · obtain ⟨rfl, -⟩ := Place.data.inj he
      obtain ⟨r, hr, hrs, rfl⟩ := hf.dir.record hd0
      have hne : r ≠ .data c (j % fs.entriesPerCluster) := by
        rintro rfl
        exact absurd (hf.bare hrs).1 (by rw [hs]; decide)
      refine hf.apart hl r hr hne c ?_ ?_
      · rw [own, if_neg h0]; exact mem_of_getElem? hc
      · rw [own, if_neg hd0]; exact mem_of_getElem? hc'

theorem Tree.dir_setSlot (h : fs.Ok) (t : v.Tree fs) (hf : Fits fs v d i p e) :
    (∀ y, (v.setSlot p e).Dir fs y → v.Dir fs y ∨ v.Bare fs y ∧ v.Ended fs y ∧ ∀ j, v.place fs y j ≠ some p) ∧
    (∀ y, v.Dir fs y → (v.setSlot p e).Dir fs y ∨ v.Bare fs y) ∧ (v.setSlot p e).Dir fs d := by
  cases hold : (v.slot p).isSub with
  | true =>
    -- a leaf is cut off
    obtain ⟨hes, hbare⟩ := hf.bare hold
    have hp : v.Live fs p := ⟨d, i, hf.dir, hf.place, isLive_of_isSub hold⟩
    have hne : ∀ j q y, v.Dir fs y → v.place fs y j = some q → (v.slot q).isLive = true → y ≠ (v.slot p).firstCluster := by
      rintro j q y - hq hl rfl
      rw [hbare j q hq] at hl
      cases hl
    have hdir : ∀ y, (v.setSlot p e).Dir fs y ↔ v.Dir fs y ∧ y ≠ (v.slot p).firstCluster := by
      refine fun y => Reach.remove_leaf ((t.headed p hp).first_ne hold).symm (fun y hy _ z => ?_) fun z => ?_
      · rw [edge_setSlot t hf hy]
        constructor
        · rintro (⟨j, q, hq, hqp, hs, rfl⟩ | ⟨-, hs, -⟩)
          · refine ⟨⟨j, q, hq, hs, rfl⟩, fun he => hqp ?_⟩
            exact t.sub_unique h hp ⟨y, j, hy, hq, isLive_of_isSub hs⟩ hold he
          · rw [hes] at hs
            cases hs
        · rintro ⟨⟨j, q, hq, hs, rfl⟩, hz⟩
          refine .inl ⟨j, q, hq, ?_, hs, rfl⟩
          rintro rfl
          exact hz rfl
      · rintro ⟨j, q, hq, hs, -⟩
        rw [isSub_of_isLive (hbare j q hq)] at hs
        cases hs
    refine ⟨fun y hy => .inl ((hdir y).1 hy).1, fun y hy => ?_, (hdir d).2 ⟨hf.dir, hne i p d hf.dir hf.place (isLive_of_isSub hold)⟩⟩
    by_cases hy' : y = (v.slot p).firstCluster
    · exact .inr (hy' ▸ hbare)
    · exact .inl ((hdir y).2 ⟨hy, hy'⟩)
  | false =>
    have hedge : ∀ y, v.Dir fs y → ∀ z, (v.setSlot p e).Edge fs y z ↔ v.Edge fs y z ∨ y = d ∧ e.isSub = true ∧ e.firstCluster = z := by
      intro y hy z
      rw [edge_setSlot t hf hy]
      refine or_congr ⟨?_, ?_⟩ Iff.rfl
      · rintro ⟨j, q, hq, -, hs, hz⟩
        exact ⟨j, q, hq, hs, hz⟩
      · rintro ⟨j, q, hq, hs, hz⟩
        refine ⟨j, q, hq, ?_, hs, hz⟩
        rintro rfl
        rw [hold] at hs
        cases hs
    cases hes : e.isSub with
    | true =>
      -- a leaf is hung on
      obtain ⟨hbare, hended⟩ := hf.fresh hes
      have hnot := hf.notIn hes
      have hdir : ∀ y, (v.setSlot p e).Dir fs y ↔ v.Dir fs y ∨ y = e.firstCluster := by
        refine fun y => Reach.add_leaf hf.dir (fun y hy z => ?_) fun z => ?_
        · rw [hedge y hy z]
          simp [hes, eq_comm]
        · rintro ⟨j, q, hq, hs, -⟩
          rw [place_setSlot] at hq
          have hqp : q ≠ p := fun he => hnot j (he ▸ hq)
          rw [slot_setSlot_of_ne _ _ hqp, isSub_of_isLive (hbare j q hq)] at hs
          cases hs
      refine ⟨fun y hy => ?_, fun y hy => .inl ((hdir y).2 (.inl hy)), (hdir d).2 (.inl hf.dir)⟩
      rcases (hdir y).1 hy with hy | rfl
      · exact .inl hy
      · exact .inr ⟨hbare, hended, hnot⟩
    | false =>
      have hdir : ∀ y, (v.setSlot p e).Dir fs y ↔ v.Dir fs y := by
        refine fun y => Reach.congr fun y hy z => ?_
        rw [hedge y hy z]
        simp [hes]
      exact ⟨fun y hy => .inl ((hdir y).1 hy), fun y hy => .inl ((hdir y).2 hy), (hdir d).2 hf.dir⟩

/-- **A record is written.** -/
theorem Tree.setSlot (h : fs.Ok) (t : v.Tree fs) (hf : Fits fs v d i p e) : (v.setSlot p e).Tree fs ∧
    ∀ q, (v.setSlot p e).Live fs q ↔ q ≠ p ∧ v.Live fs q ∨ q = p ∧ e.isLive = true := by
  obtain ⟨hback, hforth, hd⟩ := t.dir_setSlot h hf
  have hel : Entry.isLive (trunc 32 e) = e.isLive := isLive_congr name_trunc attr_trunc
  have hlive : ∀ q, (v.setSlot p e).Live fs q ↔ q ≠ p ∧ v.Live fs q ∨ q = p ∧ e.isLive = true := by
    intro q
    constructor
    · rintro ⟨y, j, hy, hq, hl⟩
      rw [place_setSlot] at hq
      by_cases hqp : q = p
      · subst hqp
        rw [slot_setSlot_self, hel] at hl
        exact .inr ⟨rfl, hl⟩
      rw [slot_setSlot_of_ne _ _ hqp] at hl
      rcases hback y hy with hy | ⟨hbare, -⟩
      · exact .inl ⟨hqp, y, j, hy, hq, hl⟩
      · rw [hbare j q hq] at hl
        cases hl
    · rintro (⟨hqp, y, j, hy, hq, hl⟩ | ⟨rfl, hl⟩)
      · rcases hforth y hy with hy | hbare
        · exact ⟨y, j, hy, by rw [place_setSlot]; exact hq, by rw [slot_setSlot_of_ne _ _ hqp]; exact hl⟩
        · rw [hbare j q hq] at hl
          cases hl
      · exact ⟨d, i, hd, by rw [place_setSlot]; exact hf.place, by rw [slot_setSlot_self, hel]; exact hl⟩
  refine ⟨⟨by rw [wild_setSlot]; exact t.wild, fun q hq => ?_, fun q r hq hr c hc hc' => ?_, fun y hy a b q r hab hq hr hend => ?_⟩, hlive⟩
  · rw [headed_setSlot]
    rcases (hlive q).1 hq with ⟨hqp, hq⟩ | ⟨rfl, hl⟩
    · rw [slot_setSlot_of_ne _ _ hqp]
      exact t.headed q hq
    · rw [slot_setSlot_self]
      exact (hf.headed hl).of_entry firstCluster_trunc (isDirectory_congr attr_trunc)
  · rw [own_setSlot] at hc hc'
    have htr : v.own (trunc 32 e) = v.own e := own_eq_of_first firstCluster_trunc
    rcases (hlive q).1 hq with ⟨hqp, hq'⟩ | ⟨hqp, hl⟩
    · rw [slot_setSlot_of_ne _ _ hqp] at hc
      rcases (hlive r).1 hr with ⟨hrp, hr'⟩ | ⟨hrp, hl⟩
      · rw [slot_setSlot_of_ne _ _ hrp] at hc'
        exact t.apart q r hq' hr' c hc hc'
      · rw [hrp, slot_setSlot_self, htr] at hc'
        exact absurd hc (hf.apart hl q hq' hqp c hc')
    · rw [hqp, slot_setSlot_self, htr] at hc
      rcases (hlive r).1 hr with ⟨hrp, hr'⟩ | ⟨hrp, -⟩
      · rw [slot_setSlot_of_ne _ _ hrp] at hc'
        exact absurd hc' (hf.apart hl r hr' hrp c hc)
      · rw [hqp, hrp]
  · rw [place_setSlot] at hq hr
    have hend_e : isEnd (trunc 32 e) = false := by
      rw [isEnd_congr name_trunc]
      exact hf.isEnd
    rcases hback y hy with hy' | ⟨-, hended, hnot⟩
    · by_cases hqp : q = p
      · rw [hqp, slot_setSlot_self, hend_e] at hend
        cases hend
      · rw [slot_setSlot_of_ne _ _ hqp] at hend
        by_cases hrp : r = p
        · -- an end before the record that is written
          rw [hrp] at hr
          obtain rfl := t.dir_unique hy' hf.dir hr hf.place
          obtain rfl := t.index_inj h hy' hr hf.place
          have hne : a ≠ b := by
            rintro rfl
            exact hqp (Option.some.inj (hq.symm.trans hr))
          rw [hf.before a q (by omega) hq] at hend
          cases hend
        · rw [slot_setSlot_of_ne _ _ hrp]
          exact t.ended y hy' a b q r hab hq hr hend
    · have hqp : q ≠ p := fun he => hnot a (he ▸ hq)
      have hrp : r ≠ p := fun he => hnot b (he ▸ hr)
      rw [slot_setSlot_of_ne _ _ hqp] at hend
      rw [slot_setSlot_of_ne _ _ hrp]
      exact hended a b q r hab hq hr hend

theorem Tree.owned_setSlot (h : fs.Ok) (t : v.Tree fs) (hf : Fits fs v d i p e) :
    (v.setSlot p e).Owned fs c ↔ (∃ q, q ≠ p ∧ v.Live fs q ∧ c ∈ v.own (v.slot q)) ∨ e.isLive = true ∧ c ∈ v.own e := by
  obtain ⟨-, hlive⟩ := t.setSlot h hf
  have htr : v.own (trunc 32 e) = v.own e := own_eq_of_first firstCluster_trunc
  constructor
  · rintro ⟨q, hq, hc⟩
    rw [own_setSlot] at hc
    rcases (hlive q).1 hq with ⟨hqp, hq⟩ | ⟨rfl, hl⟩
    · rw [slot_setSlot_of_ne _ _ hqp] at hc
      exact .inl ⟨q, hqp, hq, hc⟩
    · rw [slot_setSlot_self, htr] at hc
      exact .inr ⟨hl, hc⟩
  · rintro (⟨q, hqp, hq, hc⟩ | ⟨hl, hc⟩)
    · exact ⟨q, (hlive q).2 (.inl ⟨hqp, hq⟩), by rw [own_setSlot, slot_setSlot_of_ne _ _ hqp]; exact hc⟩
    · exact ⟨p, (hlive p).2 (.inr ⟨rfl, hl⟩), by rw [own_setSlot, slot_setSlot_self, htr]; exact hc⟩

/-! ## A record moves within its directory -/

/-- Record `i` of directory `d`, at `p`, goes to the free place `j`, at `q`, as `e`; `gone` is what stays behind. -/
structure Moves (fs : Fs) (v : Vol) (d i j : Nat) (p q : Place) (e gone : Entry) : Prop where
  dir : v.Dir fs d
  src : v.place fs d i = some p
  dst : v.place fs d j = some q
  live : (v.slot p).isLive = true
  free : (v.slot q).isLive = false
  before : ∀ k r, k < j → v.place fs d k = some r → (v.slot r).isEnd = false
  isLive : e.isLive = true
  first : e.firstCluster = (v.slot p).firstCluster
  isDirectory : e.isDirectory = (v.slot p).isDirectory
  gone_live : gone.isLive = false
  gone_end : gone.isEnd = false

/-- Where the record at `r` comes from. -/
def source (p q r : Place) : Place := if r = q then p else r

section
variable {e gone : Entry} {p q r : Place}

section
variable (hm : Moves fs v d i j p q e gone)
include hm

theorem Moves.ne : p ≠ q := by
  rintro rfl
  have := hm.live
  rw [hm.free] at this
  cases this

/-- A live record after the move has its cluster and kind from its source. -/
theorem Moves.slot (hl : (((v.setSlot q e).setSlot p gone).slot r).isLive = true) :
    r ≠ p ∧ (((v.setSlot q e).setSlot p gone).slot r).firstCluster = (v.slot (source p q r)).firstCluster ∧
    (((v.setSlot q e).setSlot p gone).slot r).isDirectory = (v.slot (source p q r)).isDirectory ∧
    (v.slot (source p q r)).isLive = true := by
  have hrp : r ≠ p := by
    rintro rfl
    rw [slot_setSlot_self, isLive_congr name_trunc attr_trunc, hm.gone_live] at hl
    cases hl
  rw [slot_setSlot_of_ne _ _ hrp] at hl ⊢
  refine ⟨hrp, ?_⟩
  unfold source
  by_cases hrq : r = q
  · rw [if_pos hrq, hrq, slot_setSlot_self, firstCluster_trunc, isDirectory_congr attr_trunc]
    exact ⟨hm.first, hm.isDirectory, hm.live⟩
  · rw [slot_setSlot_of_ne _ _ hrq] at hl ⊢
    rw [if_neg hrq]
    exact ⟨rfl, rfl, hl⟩

theorem Moves.slot_dst : ((v.setSlot q e).setSlot p gone).slot q = trunc 32 e := by
  rw [slot_setSlot_of_ne _ _ hm.ne.symm, slot_setSlot_self]

theorem Moves.slot_other (hl : (v.slot r).isLive = true) (hrp : r ≠ p) : ((v.setSlot q e).setSlot p gone).slot r = v.slot r := by
  have hrq : r ≠ q := by
    rintro rfl
    rw [hm.free] at hl
    cases hl
  rw [slot_setSlot_of_ne _ _ hrp, slot_setSlot_of_ne _ _ hrq]

theorem Moves.sub : e.isSub = (v.slot p).isSub := by
  unfold isSub
  rw [hm.isLive, hm.live, hm.isDirectory]

theorem Moves.edge_iff (t : v.Tree fs) {y z : Nat} (hy : v.Dir fs y) :
    ((v.setSlot q e).setSlot p gone).Edge fs y z ↔ v.Edge fs y z := by
  have hes : isSub (trunc 32 e) = (v.slot p).isSub := by
    rw [isSub_congr name_trunc attr_trunc, hm.sub]
  constructor
  · rintro ⟨k, r, hr, hs, hz⟩
    rw [place_setSlot, place_setSlot] at hr
    obtain ⟨hrp, hf, hdir, hl⟩ := hm.slot (isLive_of_isSub hs)
    rw [hf] at hz
    by_cases hrq : r = q
    · subst hrq
      obtain rfl := t.dir_unique hy hm.dir hr hm.dst
      rw [hm.slot_dst, hes] at hs
      rw [source, if_pos rfl] at hz
      exact ⟨i, p, hm.src, hs, hz⟩
    · rw [source, if_neg hrq] at hz hl
      rw [hm.slot_other hl hrp] at hs
      exact ⟨k, r, hr, hs, hz⟩
  · rintro ⟨k, r, hr, hs, hz⟩
    by_cases hrp : r = p
    · subst hrp
      obtain rfl := t.dir_unique hy hm.dir hr hm.src
      refine ⟨j, q, by rw [place_setSlot, place_setSlot]; exact hm.dst, ?_, ?_⟩
      · rw [hm.slot_dst, hes]; exact hs
      · rw [hm.slot_dst, firstCluster_trunc, hm.first]; exact hz
    · refine ⟨k, r, by rw [place_setSlot, place_setSlot]; exact hr, ?_, ?_⟩ <;>
        rw [hm.slot_other (isLive_of_isSub hs) hrp] <;> assumption

theorem Moves.dir_iff (t : v.Tree fs) (y : Nat) : ((v.setSlot q e).setSlot p gone).Dir fs y ↔ v.Dir fs y :=
  Reach.congr fun _ hy _ => hm.edge_iff t hy

theorem Moves.live_iff (t : v.Tree fs) (r : Place) :
    ((v.setSlot q e).setSlot p gone).Live fs r ↔ r = q ∨ r ≠ p ∧ v.Live fs r := by
  constructor
  · rintro ⟨y, k, hy, hr, hl⟩
    rw [place_setSlot, place_setSlot] at hr
    obtain ⟨hrp, -, -, hl'⟩ := hm.slot hl
    by_cases hrq : r = q
    · exact .inl hrq
    · rw [source, if_neg hrq] at hl'
      exact .inr ⟨hrp, y, k, (hm.dir_iff t y).1 hy, hr, hl'⟩
  · rintro (rfl | ⟨hrp, y, k, hy, hr, hl⟩)
    · refine ⟨d, j, (hm.dir_iff t d).2 hm.dir, by rw [place_setSlot, place_setSlot]; exact hm.dst, ?_⟩
      rw [hm.slot_dst, isLive_congr name_trunc attr_trunc]
      exact hm.isLive
    · exact ⟨y, k, (hm.dir_iff t y).2 hy, by rw [place_setSlot, place_setSlot]; exact hr, by rw [hm.slot_other hl hrp]; exact hl⟩

theorem Moves.source_live (t : v.Tree fs) (hr : ((v.setSlot q e).setSlot p gone).Live fs r) : v.Live fs (source p q r) := by
  unfold source
  rcases (hm.live_iff t r).1 hr with rfl | ⟨-, hl⟩
  · rw [if_pos rfl]
    exact ⟨d, i, hm.dir, hm.src, hm.live⟩
  · have hrq : r ≠ q := by
      rintro rfl
      have := hl.isLive
      rw [hm.free] at this
      cases this
    rw [if_neg hrq]
    exact hl

end

/-- **A record moves.** -/
theorem Tree.move (h : fs.Ok) (t : v.Tree fs) (hm : Moves fs v d i j p q e gone) :
    ((v.setSlot q e).setSlot p gone).Tree fs ∧ ∀ c, ((v.setSlot q e).setSlot p gone).Owned fs c ↔ v.Owned fs c := by
  have hown : ∀ r, ((v.setSlot q e).setSlot p gone).Live fs r →
      ((v.setSlot q e).setSlot p gone).own (((v.setSlot q e).setSlot p gone).slot r) = v.own (v.slot (source p q r)) := by
    intro r hr
    rw [own_setSlot, own_setSlot]
    exact own_eq_of_first (hm.slot hr.isLive).2.1
  refine ⟨⟨by rw [wild_setSlot, wild_setSlot]; exact t.wild, fun r hr => ?_, fun r s hr hs c hc hc' => ?_,
    fun y hy a b r s hab hr hs hend => ?_⟩, fun c => ⟨?_, ?_⟩⟩
  · rw [headed_setSlot, headed_setSlot]
    obtain ⟨-, hf, hdir, -⟩ := hm.slot hr.isLive
    exact (t.headed _ (hm.source_live t hr)).of_entry hf hdir
  · rw [hown r hr] at hc
    rw [hown s hs] at hc'
    have he := t.apart _ _ (hm.source_live t hr) (hm.source_live t hs) c hc hc'
    have hrp := (hm.slot hr.isLive).1
    have hsp := (hm.slot hs.isLive).1
    unfold source at he
    split at he <;> split at he
    · rename_i h1 h2; rw [h1, h2]
    · exact absurd he.symm hsp
    · exact absurd he hrp
    · exact he
  · rw [place_setSlot, place_setSlot] at hr hs
    have hy' := (hm.dir_iff t y).1 hy
    have hnot : ∀ x, isEnd x = false → isEnd (trunc 32 x) = false := fun x hx => by
      rw [isEnd_congr name_trunc]
      exact hx
    have hee := hnot e (isEnd_of_isLive hm.isLive)
    -- the end that comes first is none of the two records
    have hrp : r ≠ p := by
      rintro rfl
      rw [slot_setSlot_self, hnot gone hm.gone_end] at hend
      cases hend
    rw [slot_setSlot_of_ne _ _ hrp] at hend
    have hrq : r ≠ q := by
      rintro rfl
      rw [slot_setSlot_self, hee] at hend
      cases hend
    rw [slot_setSlot_of_ne _ _ hrq] at hend
    have hs' := t.ended y hy' a b r s hab hr hs hend
    have hsp : s ≠ p := by
      rintro rfl
      rw [isEnd_of_isLive hm.live] at hs'
      cases hs'
    have hsq : s ≠ q := by
      rintro rfl
      obtain rfl := t.dir_unique hy' hm.dir hs hm.dst
      obtain rfl := t.index_inj h hy' hs hm.dst
      have hne : a ≠ b := by
        rintro rfl
        exact hrq (Option.some.inj (hr.symm.trans hs))
      rw [hm.before a r (by omega) hr] at hend
      cases hend
    rw [slot_setSlot_of_ne _ _ hsp, slot_setSlot_of_ne _ _ hsq]
    exact hs'
  · rintro ⟨r, hr, hc⟩
    exact ⟨_, hm.source_live t hr, by rw [← hown r hr]; exact hc⟩
  · rintro ⟨r, hr, hc⟩
    by_cases hrp : r = p
    · have hq := (hm.live_iff t q).2 (.inl rfl)
      refine ⟨q, hq, ?_⟩
      rw [hown q hq, source, if_pos rfl, ← hrp]
      exact hc
    · have hr' := (hm.live_iff t r).2 (.inr ⟨hrp, hr⟩)
      refine ⟨r, hr', ?_⟩
      rw [own_setSlot, own_setSlot, hm.slot_other hr.isLive hrp]
      exact hc

end
end Vol
end
end PureUnix.Fat16
