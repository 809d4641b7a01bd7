import PureUnix.Fat16.Contents

/-!
# The calls keep a volume consistent

`fat16_create`, `fat16_write_file`, `fat16_unlink` and `fat16_rename` within one directory, each from a consistent
volume to a consistent volume, whatever the outcome. A path must not have a component that `name_to_83` turns into
the name of ".", ".." or a deleted record.
-/
namespace PureUnix.Fat16

open Lib List Nat
open Vol
open Entry

variable {f : Found} {x k : Nat} {data : Text}

/-- The components the driver takes from a path. -/
def components (path : Text) : List Text := pathTokens path ++ pathTokens (parentText path) ++ [leafText path]

/-- No terminator inside, and no component with a reserved name. -/
def Plain (path : Text) : Prop := 0 ∉ path ∧ ∀ tok ∈ components path, ∀ fatName ∈ nameTo83 tok, reserved fatName = false

instance (path : Text) : Decidable (Plain path) := inferInstanceAs (Decidable (_ ∧ _))

section
variable {fs : Fs} {v v' : Vol} {d c i : Nat} {cs : List Nat} {p q : Place} {e : Entry} {path : Text} {fatName : Text}

/-! ## Lookup -/

theorem Plain.leads (hp : Plain path) {tok : Text} (ht : tok ∈ components path) : v.Leads fs tok := by
  intro fatName hn d i p hd hpl hv hname hdir
  have hl : (v.slot p).isLive = true := by
    unfold isLive
    rw [hv, isDot_of_name hname (hp.2 tok ht fatName hn)]
    rfl
  refine hd.tail ⟨i, p, hpl, ?_, rfl⟩
  unfold isSub
  rw [hl, hdir]
  rfl

structure Found.Live (fs : Fs) (v : Vol) (f : Found) (p : Place) : Prop where
  dir : v.Dir fs f.dirCluster
  place : v.place fs f.dirCluster f.index = some p
  entry : f.entry = v.slot p
  isLive : f.entry.isLive = true

theorem Found.Live.live (hf : f.Live fs v p) : v.Live fs p :=
  ⟨f.dirCluster, f.index, hf.dir, hf.place, hf.entry ▸ hf.isLive⟩

theorem Found.Live.before (hf : f.Live fs v p) (t : v.Tree fs) :
    ∀ j q, j < f.index → v.place fs f.dirCluster j = some q → (v.slot q).isEnd = false := by
  intro j q hj hq
  by_contra hend
  have := t.ended _ hf.dir j f.index q p (le_of_lt hj) hq hf.place (by simpa using hend)
  rw [← hf.entry, isEnd_of_isLive hf.isLive] at this
  cases this

theorem Found.Live.sub_dir (hf : f.Live fs v p) (hd : f.entry.isDirectory = true) :
    (v.slot p).isSub = true ∧ v.Dir fs f.entry.firstCluster := by
  have hs : (v.slot p).isSub = true := by
    unfold isSub
    rw [← hf.entry, hf.isLive, hd]
    rfl
  exact ⟨hs, hf.dir.tail ⟨f.index, p, hf.place, hs, by rw [hf.entry]⟩⟩

theorem run_lookup_plain {text : Text} (h : fs.Ok) (t : v.Tree fs) (hp : Plain path) (hsub : pathTokens text ⊆ components path) :
    ∃ r, run (step fs) (pathLookup fs text) v = (r, v) ∧
      ∀ f, r = some f → text = [slash] ∧ f = rootFound ∨ text ≠ [slash] ∧ ∃ p, f.Live fs v p := by
  obtain ⟨r, hr, hsome⟩ := run_pathLookup h t fun tok ht => hp.leads (hsub ht)
  refine ⟨r, hr, fun f hf => ?_⟩
  rcases hsome f hf with hroot | ⟨hne, hd, ⟨p, hat⟩, tok, ht, hn⟩
  · exact .inl hroot
  · refine .inr ⟨hne, p, hd, hat.place, hat.entry, ?_⟩
    unfold isLive
    rw [hat.visible, isDot_of_name rfl (hp.2 tok (hsub ht) _ hn)]
    rfl

theorem tokens_subset : pathTokens path ⊆ components path := fun _ ht => mem_append_left _ (mem_append_left _ ht)

theorem parent_tokens_subset : pathTokens (parentText path) ⊆ components path := fun _ ht =>
  mem_append_left _ (mem_append_right _ ht)

theorem run_parent_plain (h : fs.Ok) (t : v.Tree fs) (hp : Plain path) : ∃ r, run (step fs) (pathParent fs path) v = (r, v) ∧
      ∀ f, r = some f → f.entry.isDirectory = true → v.Dir fs f.entry.firstCluster := by
  rw [pathParent]
  split
  · exact ⟨none, rfl, nofun⟩
  obtain ⟨r, hr, hsome⟩ := run_lookup_plain h t hp parent_tokens_subset
  refine ⟨r, hr, fun f hf hdir => ?_⟩
  rcases hsome f hf with ⟨-, rfl⟩ | ⟨-, p, hl⟩
  · exact .refl
  · exact (hl.sub_dir hdir).2

structure GoodName (fatName : Text) : Prop where
  length : fatName.length = 11
  head : fatName.head? ≠ some 0
  plain : reserved fatName = false

theorem zero_notMem_leaf (h : 0 ∉ path) : 0 ∉ leafText path := by
  intro hm
  have h1 := mem_of_mem_take hm
  rw [splitSlash, mem_reverse] at h1
  exact h (mem_of_mem_take (mem_reverse.1 ((takeWhile_sublist _).subset h1)))

theorem Plain.goodName (hp : Plain path) (hn : nameTo83 (leafText path) = some fatName) : GoodName fatName := by
  obtain ⟨h1, h2⟩ := nameTo83_spec hn (zero_notMem_leaf hp.1)
  exact ⟨h1, h2, hp.2 _ (mem_append_right _ (mem_singleton_self _)) _ hn⟩

abbrev Keeps {α : Type} (fs : Fs) (prog : Drv α) (v : Vol) : Prop := wp (Vol.step fs) prog (fun _ v' => v'.Consistent fs) v

/-! ## A new record -/

section
variable (hf : v.FreeAt fs d i p)
include hf

theorem Vol.FreeAt.isLive : (v.slot p).isLive = false := isLive_of_isFree hf.free

theorem Vol.FreeAt.ends : ∀ j q, j < i → v.place fs d j = some q → (v.slot q).isEnd = false :=
  fun j q hj hq => isEnd_of_isFree (hf.before j q hj hq)

theorem Vol.FreeAt.ne_live (hq : v.Live fs q) : q ≠ p := by
  rintro rfl
  have := hq.isLive
  rw [hf.isLive] at this
  cases this

/-- A record with a chain of its own may be written into a free slot. -/
theorem Vol.FreeAt.fits (hd : v.Dir fs d) (hl : e.isLive = true) (hh : v.Headed fs e)
    (hown : ∀ c ∈ v.own e, ¬ v.Owned fs c) (hsub : e.isSub = true → v.Bare fs e.firstCluster ∧ v.Ended fs e.firstCluster) :
    Vol.Fits fs v d i p e where
  dir := hd
  place := hf.place
  before := hf.ends
  isEnd := isEnd_of_isLive hl
  headed := fun _ => hh
  apart := fun _ q hq _ c hc hc' => hown c hc ⟨q, hq, hc'⟩
  bare := fun hs => by rw [isSub_of_isLive hf.isLive] at hs; cases hs
  fresh := hsub

end

/-- A volume with a new record is consistent if its chain was all that had no owner. -/
theorem Vol.FreeAt.consistent (h : fs.Ok) (t : v.Tree fs) (hf : v.FreeAt fs d i p) (hfit : Vol.Fits fs v d i p e) (hl : e.isLive = true)
    (hc : ∀ c, fs.Cluster c → v.fat c ≠ 0 → v.Owned fs c ∨ c ∈ v.own e) : (v.setSlot p e).Consistent fs := by
  refine ⟨(t.setSlot h hfit).1, fun c hcl hfat => ?_⟩
  rw [fat_setSlot] at hfat
  rw [t.owned_setSlot h hfit]
  rcases hc c hcl hfat with ⟨q, hq, hm⟩ | hm
  · exact .inl ⟨q, hf.ne_live hq, hq, hm⟩
  · exact .inr ⟨hl, hm⟩

/-! ## `fat16_create` -/

theorem newEntry_name (hn : fatName.length = 11) (directory : Bool) : (newEntry fatName directory).name = fatName := by
  rw [newEntry, name_setAttr, name_setName hn]

theorem newEntry_first (directory : Bool) : (newEntry fatName directory).firstCluster = 0 := by
  rw [newEntry, firstCluster_setAttr, firstCluster_setName]
  rfl

theorem newEntry_live (hn : GoodName fatName) (directory : Bool) : (newEntry fatName directory).isLive = true := by
  refine isLive_of_name (newEntry_name hn.length directory) hn.head hn.plain ?_
  cases directory
  · exact .inr rfl
  · exact .inl rfl

theorem newEntry_isDirectory (directory : Bool) : (newEntry fatName directory).isDirectory = directory := by
  unfold Entry.isDirectory
  rw [newEntry, attr_setAttr]
  cases directory <;> decide

theorem dotEntry_name : (dotEntry c).name = dot :: replicate 10 space := by
  rw [dotEntry, name_setFirstCluster, name_setAttr, name_setName rfl]

theorem dotdotEntry_name : (dotdotEntry c x).name = dot :: dot :: replicate 9 space := by
  have hn := dotEntry_name (c := c)
  have hb : ∀ k, k < 11 → dotEntry c k = (dot :: replicate 10 space).getD k 0 := by
    intro k hk
    rw [← hn, name, slice, getD_eq_getElem?_getD, getElem?_map, getElem?_range hk]
    simp
  rw [dotdotEntry, name_setFirstCluster]
  refine ext_getElem rfl fun j h1 h2 => ?_
  simp only [name, slice, getElem_map, getElem_range, zero_add, put8]
  split
  · rename_i hj
    subst hj
    rfl
  have hj : j < 11 := h2
  rw [hb j hj]
  rcases j with _ | _ | j
  · rfl
  · contradiction
  · simp [getD_eq_getElem?_getD, show j < 9 by omega]

theorem dotEntry_isLive : (dotEntry c).isLive = false := by
  have : (dotEntry c).isDot = true := by
    rw [isDot, nameFrom83, dotEntry_name]
    decide
  unfold isLive
  rw [this, Bool.not_true, Bool.and_false]

theorem dotdotEntry_isLive : (dotdotEntry c x).isLive = false := by
  have : (dotdotEntry c x).isDot = true := by
    rw [isDot, nameFrom83, dotdotEntry_name]
    decide
  unfold isLive
  rw [this, Bool.not_true, Bool.and_false]

namespace Vol

def withDir (fs : Fs) (v : Vol) (c parent : Nat) : Vol :=
  ((v.taken fs c).setSlot (.data c 0) (dotEntry c)).setSlot (.data c 1) (dotdotEntry c parent)

theorem setSlot_sameBut : SameBut fs [c] v (v.setSlot (.data c k) e) where
  fat := fun _ _ _ => by rw [fat_setSlot]
  data := fun x _ hx => Function.update_of_ne (fun he => hx (by simp [he])) _ _
  root := rfl
  wild := rfl

theorem withDir_sameBut : SameBut fs [c] v (v.withDir fs c x) :=
  (taken_sameBut.trans setSlot_sameBut (List.Subset.refl _)).trans setSlot_sameBut (List.Subset.refl _)

theorem withDir_chain (hc : fs.Cluster c) : (v.withDir fs c x).Chain fs c [c] := by
  exact taken_chain hc

theorem one_lt_epc (h : fs.Ok) : 1 < fs.entriesPerCluster := by
  have := h.spc
  rw [Fs.epc_eq]
  omega

theorem place_single (h : fs.Ok) (hc : v.Chain fs c [c]) :
    v.place fs c i = some p ↔ i < 65536 ∧ i < fs.entriesPerCluster ∧ p = .data c i := by
  have h0 := hc.ne_zero
  rw [place_some, dirMax, if_neg h0, hc.clusters_eq h]
  constructor
  · rintro ⟨hi, ⟨hz, -⟩ | ⟨-, x, hx, rfl⟩⟩
    · exact absurd hz h0
    · obtain ⟨hlt, hg⟩ := List.getElem?_eq_some_iff.1 hx
      have hdiv : i / fs.entriesPerCluster = 0 := by simpa using hlt
      have hie : i < fs.entriesPerCluster := (div_eq_zero_iff_lt h.epc_pos).1 hdiv
      rw [getElem_singleton] at hg
      exact ⟨hi, hie, by rw [← hg, mod_eq_of_lt hie]⟩
  · rintro ⟨hi, hie, rfl⟩
    refine ⟨hi, .inr ⟨h0, c, ?_, by rw [mod_eq_of_lt hie]⟩⟩
    rw [div_eq_of_lt hie]
    rfl

theorem withDir_slot (hk : k < fs.entriesPerCluster) : (v.withDir fs c x).slot (.data c k) =
      if k = 1 then trunc 32 (dotdotEntry c x) else if k = 0 then trunc 32 (dotEntry c) else zeros := by
  unfold withDir
  rw [slot_setSlot, slot_setSlot]
  simp only [Place.data.injEq, true_and]
  rw [taken_slot hk]

theorem withDir_bare (h : fs.Ok) (hc : fs.Cluster c) : (v.withDir fs c x).Bare fs c := by
  intro i p hp
  obtain ⟨-, hi, rfl⟩ := (place_single h (withDir_chain hc)).1 hp
  rw [withDir_slot hi]
  split
  · rw [isLive_congr name_trunc attr_trunc, dotdotEntry_isLive]
  · split
    · rw [isLive_congr name_trunc attr_trunc, dotEntry_isLive]
    · rfl

theorem withDir_ended (h : fs.Ok) (hc : fs.Cluster c) : (v.withDir fs c x).Ended fs c := by
  intro i j p q hij hp hq hend
  obtain ⟨-, hi, rfl⟩ := (place_single h (withDir_chain hc)).1 hp
  obtain ⟨-, hj, rfl⟩ := (place_single h (withDir_chain hc)).1 hq
  rw [withDir_slot hi] at hend
  rw [withDir_slot hj]
  split at hend
  · cases hend
  split at hend
  · cases hend
  · rw [if_neg (by omega), if_neg (by omega)]
    rfl

end Vol

variable {f : Found} {first size : Nat}

theorem run_makeDir (h : fs.Ok) : run (step fs) (makeDir fs x) v =
    match v.firstFree fs with
    | none => (0, v)
    | some c => (c, v.withDir fs c x) := by
  rw [makeDir, run_bind, run_allocCluster]
  cases hf : v.firstFree fs with
  | none => rfl
  | some c =>
    obtain ⟨hc, -⟩ := firstFree_some hf
    have h0 : c ≠ 0 := by have := hc.1; omega
    have h1 := one_lt_epc h
    have hch : (v.taken fs c).Chain fs c [c] := taken_chain hc
    have hch' : ((v.taken fs c).setSlot (.data c 0) (dotEntry c)).Chain fs c [c] := chain_setSlot.2 hch
    have hs : (v.taken fs c).Sound fs c := .inr (by rw [hch.clusters_eq h]; exact hch)
    have hs' : ((v.taken fs c).setSlot (.data c 0) (dotEntry c)).Sound fs c := .inr (by rw [hch'.clusters_eq h]; exact hch')
    simp only [if_neg h0]
    rw [run_bind, run_writeDirEntryAt h hs (fun _ => by omega), (place_single h hch).2 ⟨by omega, by omega, rfl⟩]
    rw [run_bind, run_writeDirEntryAt h hs' (fun _ => by omega), (place_single h hch').2 ⟨by omega, by omega, rfl⟩]
    rfl

/-- The new record stands in a slot that was free, in a volume that shows what it did; its chain has no other owner. -/
structure Vol.Created (fs : Fs) (v w : Vol) (d : Nat) (fatName : Text) (directory : Bool) : Prop where
  absent : ∀ j p, v.place fs d j = some p → (v.slot p).isVisible = true → (v.slot p).name ≠ fatName
  made : ∃ v₁ u k p e, Vol.Extends fs d v v₁ ∧ u.Tree fs ∧ Vol.SameTree fs v₁ u ∧ u.FreeAt fs d k p ∧ w = u.setSlot p e ∧ e.isLive = true ∧
    e.name = fatName ∧ e.isDirectory = directory ∧ e.size = 0

theorem newEntry_size (directory : Bool) : (newEntry fatName directory).size = 0 := by
  rfl

/-- What `fat16_create` does, behind the checks of the path. -/
theorem run_createIn (h : fs.Ok) (hv : v.Consistent fs) (hd : v.Dir fs d) (hn : GoodName fatName) (directory : Bool) :
    ∃ rc w, run (step fs) (createIn fs d fatName directory) v = (rc, w) ∧ w.Consistent fs ∧
      (rc = 0 → Vol.Created fs v w d fatName directory) := by
  obtain ⟨r, hr, -, habs⟩ := run_findInDir h hv.toTree hd fatName
  rw [createIn, run_bind, hr]
  cases r with
  | some f => exact ⟨-1, v, rfl, hv, fun h0 => absurd h0 (by decide)⟩
  | none =>
    obtain ⟨r, v₁, hr, hx, hfree⟩ := run_findFreeSlot h hv.toTree hd
    dsimp only
    rw [run_bind, hr]
    have hv₁ := hx.consistent hv
    cases r with
    | none => exact ⟨-1, v₁, rfl, hv₁, fun h0 => absurd h0 (by decide)⟩
    | some k =>
      obtain ⟨p, hf⟩ := hfree k rfl
      have hd₁ := (hx.dir d).2 hd
      have hk := (place_lt hf.place).2
      simp only [run_ite]
      cases directory with
      | true =>
        -- a directory: its cluster first
        rw [if_pos rfl, run_bind, run_makeDir h]
        cases hff : v₁.firstFree fs with
        | none => exact ⟨-1, v₁, rfl, hv₁, fun h0 => absurd h0 (by decide)⟩
        | some c =>
          obtain ⟨hc, hfat⟩ := firstFree_some hff
          have h0 : c ≠ 0 := by have := hc.1; omega
          have hmax := h.max_le
          have hlt := hc.2
          have hno : ¬ v₁.Owned fs c := fun ⟨q, hq, hm⟩ => ((hv₁.headed q hq).used h hm).2 hfat
          obtain ⟨t₂, hsame⟩ := hv₁.toTree.frame h (withDir_sameBut) (by simpa using hno)
          have hch : (v₁.withDir fs c d).Chain fs c [c] := withDir_chain hc
          have hfirst : ((newEntry fatName true).setFirstCluster c).firstCluster = c := firstCluster_setFirstCluster (by omega)
          have hlive : ((newEntry fatName true).setFirstCluster c).isLive = true := by
            rw [isLive_congr name_setFirstCluster attr_setFirstCluster]
            exact newEntry_live hn true
          have hown := own_of_chain h (by rw [hfirst]; exact hch)
          have hf₂ : (v₁.withDir fs c d).FreeAt fs d k p := by
            refine ⟨by rw [hsame.place d hd₁]; exact hf.place, by rw [hsame.slot d k p hd₁ hf.place]; exact hf.free, fun j q hj hq => ?_⟩
            rw [hsame.place d hd₁] at hq
            rw [hsame.slot d j q hd₁ hq]
            exact hf.before j q hj hq
          have hd₂ := (hsame.dir d).2 hd₁
          have hfit := hf₂.fits hd₂ hlive (.inr ⟨[c], by rw [hfirst]; exact hch⟩)
            (fun x hx => by rw [hown, mem_singleton] at hx; rw [hx, hsame.owned]; exact hno)
            (fun _ => by rw [hfirst]; exact ⟨withDir_bare h hc, withDir_ended h hc⟩)
          dsimp only
          rw [if_neg h0, run_writeDirEntryAt h (t₂.sound h hd₂) hk _, hf₂.place]
          refine ⟨0, _, rfl, hf₂.consistent h t₂ hfit hlive fun x hx hxf => ?_, fun _ => ⟨fun j q => habs rfl j q, v₁, _, k, p, _, hx, t₂, hsame,
            hf₂, rfl, hlive, ?_, ?_, ?_⟩⟩
          · rw [hown, hsame.owned]
            by_cases hxc : x = c
            · exact .inr (by simp [hxc])
            · rw [withDir_sameBut.fat x hx (by simpa using hxc)] at hxf
              exact .inl (hv₁.covered x hx hxf)
          · rw [name_setFirstCluster, newEntry_name hn.length]
          · rw [isDirectory_congr attr_setFirstCluster, newEntry_isDirectory]
          · rw [size_setFirstCluster, newEntry_size]
      | false =>
        have hlive := newEntry_live hn false
        have hown : v₁.own (newEntry fatName false) = [] := by rw [own, if_pos (newEntry_first false)]
        have hfit := hf.fits hd₁ hlive (.inl ⟨newEntry_first false, newEntry_isDirectory false⟩)
          (fun x hx => by rw [hown] at hx; cases hx)
          (fun hs => absurd (isDirectory_of_isSub hs) (by rw [newEntry_isDirectory]; decide))
        rw [if_neg (by decide), run_writeDirEntryAt h (hv₁.toTree.sound h hd₁) hk _, hf.place]
        exact ⟨0, _, rfl, hf.consistent h hv₁.toTree hfit hlive fun x hx hxf => .inl (hv₁.covered x hx hxf), fun _ =>
          ⟨fun j q => habs rfl j q, v₁, v₁, k, p, _, hx, hv₁.toTree, Vol.SameTree.refl, hf, rfl, hlive, newEntry_name hn.length false,
            newEntry_isDirectory false, newEntry_size false⟩⟩

theorem createIn_keeps (h : fs.Ok) (hv : v.Consistent fs) (hd : v.Dir fs d) (hn : GoodName fatName) (directory : Bool) :
    Keeps fs (createIn fs d fatName directory) v := by
  obtain ⟨rc, w, hrun, hw, -⟩ := run_createIn h hv hd hn directory
  exact wp_of_run hrun hw

/-- **`fat16_create`.** -/
theorem create_keeps (h : fs.Ok) (hv : v.Consistent fs) (hp : Plain path) (directory : Bool) : Keeps fs (create fs path directory) v := by
  obtain ⟨r, hr, hdir⟩ := run_parent_plain h hv.toTree hp
  refine wp_seq_run hr ?_
  cases r with
  | none => exact hv
  | some parent =>
    cases hn : nameTo83 (leafText path) with
    | none => exact hv
    | some fatName =>
      refine wp_ite (fun _ => hv) fun hd => ?_
      exact createIn_keeps h hv (hdir parent rfl (by simpa using hd)) (hp.goodName hn) directory

/-! ## A record gives up its chain -/

/-- The chain of the record at `p` is freed and the record is written over: what is left. -/
def Vol.settled (v : Vol) (p : Place) (e : Entry) : Vol := (v.setSlot p e).freed (v.own (v.slot p))

theorem Vol.freed_setSlot : (v.freed cs).setSlot p e = (v.setSlot p e).freed cs := by
  cases p <;> rfl

theorem Vol.Fits.sound_freed (h : fs.Ok) (t : v.Tree fs) (hf : Vol.Fits fs v d i p e) (hl : v.Live fs p) :
    (v.freed (v.own (v.slot p))).Sound fs d ∧ (v.freed (v.own (v.slot p))).place fs d i = some p := by
  by_cases h0 : d = 0
  · exact ⟨.inl h0, by rw [place_congr (.inl h0)]; exact hf.place⟩
  obtain ⟨r, hr, hrs, rfl⟩ := hf.dir.record h0
  have hrp : r ≠ p := by
    rintro rfl
    have := hl.isLive
    rw [(hf.bare hrs).2 i r hf.place] at this
    cases this
  have hc := t.dir_chain h hf.dir h0
  have hc' : (v.freed (v.own (v.slot p))).Chain fs (v.slot r).firstCluster (v.clusters (v.slot r).firstCluster) := by
    refine hc.congr fun x hx => if_neg fun hm => hrp (t.apart r p hr hl x ?_ hm)
    rw [own, if_neg h0]
    exact hx
  refine ⟨.inr (by rw [hc'.clusters_eq h]; exact hc'), ?_⟩
  rw [place_congr (.inr (hc'.clusters_eq h))]
  exact hf.place

theorem Vol.Fits.run_settle (h : fs.Ok) (t : v.Tree fs) (hf : Vol.Fits fs v d i p e) (hl : v.Live fs p) :
    run (step fs) (do freeIf (v.slot p).firstCluster; writeDirEntryAt fs d i e) v = (0, v.settled p e) := by
  obtain ⟨hs, hp⟩ := hf.sound_freed h t hl
  rw [run_bind, run_freeIf h (t.headed p hl), run_writeDirEntryAt h hs (place_lt hf.place).2, hp]
  dsimp only
  rw [freed_setSlot, Vol.settled]

theorem Vol.Fits.settled (h : fs.Ok) (t : v.Tree fs) (hf : Vol.Fits fs v d i p e) (hl : v.Live fs p)
    (hdis : e.isLive = true → ∀ c ∈ v.own e, c ∉ v.own (v.slot p)) :
    (v.settled p e).Tree fs ∧
    ∀ c, (v.settled p e).Owned fs c ↔ (v.Owned fs c ∧ c ∉ v.own (v.slot p)) ∨ e.isLive = true ∧ c ∈ v.own e := by
  obtain ⟨t₁, -⟩ := t.setSlot h hf
  have howned : ∀ c, (v.setSlot p e).Owned fs c ↔ (v.Owned fs c ∧ c ∉ v.own (v.slot p)) ∨ e.isLive = true ∧ c ∈ v.own e := by
    intro c
    rw [t.owned_setSlot h hf]
    refine or_congr ⟨?_, ?_⟩ Iff.rfl
    · rintro ⟨q, hqp, hq, hc⟩
      exact ⟨⟨q, hq, hc⟩, fun hm => hqp (t.apart q p hq hl c hc hm)⟩
    · rintro ⟨⟨q, hq, hc⟩, hm⟩
      refine ⟨q, ?_, hq, hc⟩
      rintro rfl
      exact hm hc
  obtain ⟨t₂, hsame⟩ := t₁.frame h (show Vol.SameBut fs (v.own (v.slot p)) _ (v.settled p e) from freed_sameBut) (by
    intro c hc ho
    rcases (howned c).1 ho with ⟨-, hm⟩ | ⟨hel, hm⟩
    · exact hm hc
    · exact hdis hel c hm hc)
  exact ⟨t₂, fun c => hsame.owned.trans (howned c)⟩

theorem Vol.Fits.settled_consistent (h : fs.Ok) (t : v.Tree fs) (hf : Vol.Fits fs v d i p e) (hl : v.Live fs p)
    (hdis : e.isLive = true → ∀ c ∈ v.own e, c ∉ v.own (v.slot p))
    (hc : ∀ c, fs.Cluster c → v.fat c ≠ 0 → v.Owned fs c ∨ e.isLive = true ∧ c ∈ v.own e) : (v.settled p e).Consistent fs := by
  obtain ⟨t', howned⟩ := hf.settled h t hl hdis
  refine ⟨t', fun c hcl hfat => (howned c).2 ?_⟩
  have hm : c ∉ v.own (v.slot p) := by
    intro hm
    exact hfat (if_pos hm)
  have hfat' : v.fat c ≠ 0 := by
    have : (v.settled p e).fat c = v.fat c := by
      simp only [Vol.settled, Vol.freed, if_neg hm, fat_setSlot]
    rw [← this]
    exact hfat
  exact (hc c hcl hfat').imp (fun ho => ⟨ho, hm⟩) id

/-! ## `fat16_unlink` -/

/-- A live record may be erased, if it is not that of a directory with files or directories in it. -/
theorem Found.Live.fits_erase (hf : f.Live fs v p) (t : v.Tree fs)
    (hb : f.entry.isDirectory = true → v.Bare fs f.entry.firstCluster) :
    Vol.Fits fs v f.dirCluster f.index p f.entry.erase where
  dir := hf.dir
  place := hf.place
  before := hf.before t
  isEnd := isEnd_erase
  headed := fun hl => by rw [isLive_of_isFree isFree_erase] at hl; cases hl
  apart := fun hl => by rw [isLive_of_isFree isFree_erase] at hl; cases hl
  bare := fun hs => by
    refine ⟨isSub_of_isLive (isLive_of_isFree isFree_erase), ?_⟩
    rw [← hf.entry] at hs ⊢
    exact hb (isDirectory_of_isSub hs)
  fresh := fun hs => by rw [isSub_of_isLive (isLive_of_isFree isFree_erase)] at hs; cases hs

theorem removeFound_keeps (h : fs.Ok) (hv : v.Consistent fs) (hf : f.Live fs v p)
    (hb : f.entry.isDirectory = true → v.Bare fs f.entry.firstCluster) : Keeps fs (removeFound fs f) v := by
  have hfit := hf.fits_erase hv.toTree hb
  have hrun := hfit.run_settle h hv.toTree hf.live
  rw [← hf.entry] at hrun
  refine wp_of_run hrun ?_
  refine hfit.settled_consistent h hv.toTree hf.live (fun hl => ?_) fun c hc hfat => .inl (hv.covered c hc hfat)
  cases hl

/-- **`fat16_unlink`.** -/
theorem unlink_keeps (h : fs.Ok) (hv : v.Consistent fs) (hp : Plain path) (directory : Bool) : Keeps fs (unlink fs path directory) v := by
  obtain ⟨r, hr, hfound⟩ := run_lookup_plain h hv.toTree hp tokens_subset
  refine wp_seq_run hr ?_
  cases r with
  | none => exact hv
  | some f =>
    refine wp_ite (fun _ => hv) fun hne => ?_
    rcases hfound f rfl with ⟨hroot, -⟩ | ⟨-, p, hf⟩
    · exact absurd hroot hne
    · refine wp_ite (fun _ => hv) fun _ => wp_ite (fun hdir => ?_) fun hdir => ?_
      · obtain ⟨hs, hd⟩ := hf.sub_dir hdir
        obtain ⟨b, hr, hbare⟩ := run_dirIsEmpty h hv.toTree hd (hf.entry ▸ (hv.headed p hf.live).first_ne hs)
        refine wp_seq_run hr ?_
        refine wp_ite (fun hb => ?_) fun _ => hv
        exact removeFound_keeps h hv hf fun _ => hbare hb
      · exact removeFound_keeps h hv hf fun hd => absurd hd hdir

/-! ## `fat16_write_file` -/

/-- The loop of `fat16_read_file` only reads. -/
theorem run_readOwn (h : fs.Ok) (hh : v.Headed fs e) (n : Nat) :
    run (step fs) (readFrom fs n e.firstCluster n) v = ((v.bytes fs (v.own e)).take n, v) := by
  by_cases h0 : e.firstCluster = 0
  · have hnil : readFrom fs n e.firstCluster n = pure [] := by
      cases n with
      | zero => rfl
      | succ n => rw [readFrom, if_neg (by omega)]
    rw [hnil, own, if_pos h0]
    simp [Vol.bytes]
  · exact run_readFrom h n n (hh.chain h h0) (le_refl _)

theorem run_readFile_plain (h : fs.Ok) (t : v.Tree fs) (hp : Plain path) (env : Env) :
    ∃ r, run (step fs) (readFile fs env path) v = (r, v) := by
  obtain ⟨r, hr, hfound⟩ := run_lookup_plain h t hp tokens_subset
  rw [readFile, run_bind, hr]
  cases r with
  | none => exact ⟨none, rfl⟩
  | some f =>
    simp only [run_ite]
    split
    · exact ⟨none, rfl⟩
    rename_i hdir
    split
    · exact ⟨none, rfl⟩
    rcases hfound f rfl with ⟨-, rfl⟩ | ⟨-, p, hf⟩
    · exact absurd (by decide) hdir
    · have hh := t.headed p hf.live
      rw [← hf.entry] at hh
      rw [run_bind, run_readOwn h hh]
      exact ⟨_, rfl⟩

theorem run_finalContents_plain (h : fs.Ok) (t : v.Tree fs) (hp : Plain path) (env : Env) (data : Text) (append : Bool) :
    ∃ r, run (step fs) (finalContents fs env path data append) v = (r, v) := by
  rw [finalContents]
  split
  · obtain ⟨r, hr⟩ := run_readFile_plain h t hp env
    rw [run_bind, hr]
    cases r <;> exact ⟨_, rfl⟩
  · exact ⟨_, rfl⟩

/-- Clusters of a tree that are not free in the FAT have changed only as `Exhausted` says. -/
theorem Vol.Exhausted.consistent (h : fs.Ok) (hv : v.Consistent fs) (hx : Vol.Exhausted fs cs v v') : v'.Consistent fs := by
  obtain ⟨t, hsame⟩ := hv.toTree.frame h hx.same fun c hc ⟨q, hq, hm⟩ => ((hv.headed q hq).used h hm).2 ((hx.free c).1 hc).2
  refine ⟨t, fun c hc hfat => hsame.owned.2 (hv.covered c hc ?_)⟩
  rw [← hx.fat c hc]
  exact hfat

def fileEntry (e : Entry) (first size : Nat) : Entry := ((e.setFirstCluster first).setSize size).setAttr FAT_ATTR_ARCHIVE

theorem fileEntry_first (hf : first < 2 ^ 32) : (fileEntry e first size).firstCluster = first := by
  rw [fileEntry, firstCluster_setAttr, firstCluster_setSize, firstCluster_setFirstCluster hf]

theorem fileEntry_isDirectory : (fileEntry e first size).isDirectory = false := by
  unfold Entry.isDirectory
  rw [fileEntry, attr_setAttr]
  decide

theorem fileEntry_isLive (hl : e.isLive = true) : (fileEntry e first size).isLive = true := by
  have hname : (fileEntry e first size).name = e.name := by
    rw [fileEntry, name_setAttr, name_setSize, name_setFirstCluster]
  have hattr : (fileEntry e first size).attr = FAT_ATTR_ARCHIVE := by
    rw [fileEntry, attr_setAttr]
  unfold isLive isVisible at hl ⊢
  rw [hattr]
  simp only [Bool.and_eq_true, Bool.not_eq_true'] at hl ⊢
  exact ⟨⟨⟨hl.1.1.1, by decide⟩, by decide⟩, hl.2⟩

theorem Found.Live.fits_file (hf : f.Live fs v p) (t : v.Tree fs) (hnd : f.entry.isDirectory = false)
    (hfirst : first < 2 ^ 32) (hh : first = 0 ∨ ∃ cs, v.Chain fs first cs) (hown : ∀ c ∈ v.own (fileEntry f.entry first size), ¬ v.Owned fs c) :
    Vol.Fits fs v f.dirCluster f.index p (fileEntry f.entry first size) where
  dir := hf.dir
  place := hf.place
  before := hf.before t
  isEnd := isEnd_of_isLive (fileEntry_isLive hf.isLive)
  headed := fun _ => by
    unfold Vol.Headed
    rw [fileEntry_first hfirst]
    exact hh.imp (fun h0 => ⟨h0, fileEntry_isDirectory⟩) id
  apart := fun _ q hq _ c hc hc' => hown c hc ⟨q, hq, hc'⟩
  bare := fun hs => by
    rw [← hf.entry] at hs
    rw [isDirectory_of_isSub hs] at hnd
    cases hnd
  fresh := fun hs => absurd (isDirectory_of_isSub hs) (by rw [fileEntry_isDirectory]; decide)

theorem Vol.Written.frame (h : fs.Ok) (t : v.Tree fs) (hw : Vol.Written fs cs first data v v') :
    v'.Tree fs ∧ Vol.SameTree fs v v' ∧ ∀ c ∈ cs, ¬ v'.Owned fs c := by
  have hno : ∀ c ∈ cs, ¬ v.Owned fs c := fun c hc ⟨q, hq, hm⟩ => ((t.headed q hq).used h hm).2 (hw.free c hc).2
  obtain ⟨t', hsame⟩ := t.frame h hw.same hno
  exact ⟨t', hsame, fun c hc ho => hno c hc (hsame.owned.1 ho)⟩

theorem Found.Live.of_same (hf : f.Live fs v p) (hs : Vol.SameTree fs v v') : f.Live fs v' p where
  dir := (hs.dir _).2 hf.dir
  place := by rw [hs.place _ hf.dir]; exact hf.place
  entry := by rw [hs.slot _ _ _ hf.dir hf.place]; exact hf.entry
  isLive := hf.isLive

theorem Vol.Written.first_lt (h : fs.Ok) (hw : Vol.Written fs cs first data v v') :
    first < 2 ^ 32 ∧ (first = 0 ∨ ∃ cs, v'.Chain fs first cs) ∧ ∀ size, v'.own (fileEntry e first size) = cs := by
  have hmax := h.max_le
  rcases hw.chain with ⟨rfl, rfl⟩ | hc
  · refine ⟨by decide, .inl rfl, fun size => ?_⟩
    rw [own, if_pos (fileEntry_first (by decide))]
  · have hlt := hc.cluster.2
    refine ⟨by omega, .inr ⟨cs, hc⟩, fun size => ?_⟩
    exact own_of_chain h (by rw [fileEntry_first (by omega)]; exact hc)

theorem replaceContents_keeps (h : fs.Ok) (hv : v.Consistent fs) (hf : f.Live fs v p) (hnd : f.entry.isDirectory = false)
    (final : Text) : Keeps fs (replaceContents fs f final) v := by
  obtain ⟨r, v₁, hr, hnone, hsome⟩ := run_writeNewChain h v final
  refine wp_seq_run hr ?_
  cases r with
  | none =>
    obtain ⟨ds, -, hx, -⟩ := hnone rfl
    exact hx.consistent h hv
  | some first =>
    obtain ⟨cs, hw⟩ := hsome first rfl
    obtain ⟨t₁, hsame, hno⟩ := hw.frame h hv.toTree
    have hf₁ := hf.of_same hsame
    obtain ⟨hlt, hhead, hown⟩ := hw.first_lt h
    have hfit := hf₁.fits_file t₁ hnd hlt hhead fun c hc => hno c (hown final.length ▸ hc)
    have hrun := hfit.run_settle h t₁ hf₁.live
    rw [← hf₁.entry] at hrun
    refine wp_of_run hrun ?_
    refine hfit.settled_consistent h t₁ hf₁.live (fun _ c hc hm => ?_) fun c hc hfat => ?_
    · rw [hown] at hc
      exact hno c hc ⟨p, hf₁.live, hm⟩
    · rw [hown]
      by_cases hm : c ∈ cs
      · exact .inr ⟨fileEntry_isLive hf.isLive, hm⟩
      · rw [hw.same.fat c hc hm] at hfat
        exact .inl (hsame.owned.2 (hv.covered c hc hfat))

theorem writeFound_keeps (h : fs.Ok) (hv : v.Consistent fs) (hp : Plain path) (hf : f.Live fs v p)
    (env : Env) (data : Text) (append : Bool) : Keeps fs (writeFound fs env path data append f) v := by
  refine wp_ite (fun _ => hv) fun hnd => ?_
  obtain ⟨r, hr⟩ := run_finalContents_plain h hv.toTree hp env data append
  refine wp_seq_run hr ?_
  cases r with
  | none => exact hv
  | some final => exact replaceContents_keeps h hv hf (by simpa using hnd) final

/-- **`fat16_write_file`.** -/
theorem writeFile_keeps (h : fs.Ok) (hv : v.Consistent fs) (hp : Plain path) (env : Env) (data : Text) (append : Bool) :
    Keeps fs (writeFile fs env path data append) v := by
  have hfound : ∀ {v : Vol} {f : Found}, v.Consistent fs → (path = [slash] ∧ f = rootFound ∨ path ≠ [slash] ∧ ∃ p, f.Live fs v p) →
      Keeps fs (writeFound fs env path data append f) v := by
    rintro v f hv (⟨-, rfl⟩ | ⟨-, p, hf⟩)
    · exact hv
    · exact writeFound_keeps h hv hp hf env data append
  obtain ⟨r, hr, hlook⟩ := run_lookup_plain h hv.toTree hp tokens_subset
  refine wp_seq_run hr ?_
  cases r with
  | some f => exact hfound hv (hlook f rfl)
  | none =>
    refine wp_seq (create_keeps h hv hp false) fun rc v₁ hv₁ => wp_ite (fun _ => hv₁) fun _ => ?_
    obtain ⟨r, hr, hlook⟩ := run_lookup_plain h hv₁.toTree hp tokens_subset
    refine wp_seq_run hr ?_
    cases r with
    | none => exact hv₁
    | some f => exact hfound hv₁ (hlook f rfl)

/-! ## `fat16_rename` -/

theorem Found.Live.of_extends (hf : f.Live fs v p) (hx : Vol.Extends fs d v v') : f.Live fs v' p where
  dir := (hx.dir _).2 hf.dir
  place := (hx.place _ hf.dir _ _ hf.place).1
  entry := by rw [(hx.place _ hf.dir _ _ hf.place).2]; exact hf.entry
  isLive := hf.isLive

theorem setName_isLive (hlen : fatName.length = 11) (h0 : fatName.head? ≠ some 0) :
    (e.setName fatName).isLive = (!reserved fatName && (e.attr != FAT_ATTR_LFN && e.attr &&& FAT_ATTR_VOLUME_ID == 0)) := by
  have hname : (e.setName fatName).name = fatName := name_setName hlen
  have hh := head_name (e := e.setName fatName)
  rw [hname] at hh
  have hfree : (e.setName fatName).isFree = (fatName.head? == some 0xE5) := by
    rw [hh] at h0 ⊢
    have hne : (e.setName fatName) 0 ≠ 0 := fun hz => h0 (congrArg some hz)
    unfold Entry.isFree
    rw [beq_eq_false_iff_ne.2 hne]
    rfl
  have hdot := isDot_congr (hname.trans (name_ofList hlen).symm)
  unfold isLive isVisible reserved
  rw [hfree, hdot]
  cases fatName.head? == some 0xE5 <;> cases isDot (ofList fatName) <;> simp

theorem Found.Live.moves (hf : f.Live fs v p) (hq : v.FreeAt fs f.dirCluster k q) (hn : GoodName fatName) :
    Vol.Moves fs v f.dirCluster f.index k p q (f.entry.setName fatName) f.entry.erase where
  dir := hf.dir
  src := hf.place
  dst := hq.place
  live := hf.entry ▸ hf.isLive
  free := hq.isLive
  before := hq.ends
  isLive := by
    have hv := isVisible_of_isLive hf.isLive
    rw [setName_isLive hn.length hn.head, hn.plain]
    unfold isVisible at hv
    simp only [Bool.and_eq_true] at hv
    rw [hv.1.2, hv.2]
    rfl
  first := by rw [firstCluster_setName, hf.entry]
  isDirectory := by rw [isDirectory_congr attr_setName, hf.entry]
  gone_live := isLive_of_isFree isFree_erase
  gone_end := isEnd_erase

/-- What `fat16_rename` writes, once it has a slot. -/
theorem run_renameWrites (h : fs.Ok) (t : v.Tree fs) (hd : v.Dir fs d) (hf : f.Live fs v p)
    (hq : v.place fs d k = some q) (e : Entry) :
    run (step fs) (do
      let rc ← writeDirEntryAt fs d k e
      if rc ≠ 0 then pure (-1) else writeDirEntryAt fs f.dirCluster f.index f.entry.erase) v =
    (0, (v.setSlot q e).setSlot p f.entry.erase) := by
  have hs : (v.setSlot q e).Sound fs f.dirCluster := by
    rcases t.sound h hf.dir with h0 | hc
    · exact .inl h0
    · exact .inr (by rw [clusters_setSlot, chain_setSlot]; exact hc)
  rw [run_bind, run_writeDirEntryAt h (t.sound h hd) (place_lt hq).2, hq]
  dsimp only
  rw [if_neg (by decide), run_writeDirEntryAt h hs (place_lt hf.place).2, place_setSlot, hf.place]

theorem renameIn_keeps (h : fs.Ok) (hv : v.Consistent fs) (hf : f.Live fs v p) (hn : GoodName fatName) :
    Keeps fs (renameIn fs f f.dirCluster fatName) v := by
  obtain ⟨r, hr, -⟩ := run_findInDir h hv.toTree hf.dir fatName
  refine wp_seq_run hr ?_
  cases r with
  | some g => exact hv
  | none =>
    obtain ⟨r, v₁, hr, hx, hfree⟩ := run_findFreeSlot h hv.toTree hf.dir
    refine wp_seq_run hr ?_
    have hv₁ := hx.consistent hv
    cases r with
    | none => exact hv₁
    | some k =>
      obtain ⟨q, hq⟩ := hfree k rfl
      have hf₁ := hf.of_extends hx
      refine wp_of_run (run_renameWrites h hv₁.toTree hf₁.dir hf₁ hq.place _) ?_
      obtain ⟨t₂, howned⟩ := hv₁.toTree.move h (hf₁.moves hq hn)
      refine ⟨t₂, fun c hc hfat => (howned c).2 (hv₁.covered c hc ?_)⟩
      rw [fat_setSlot, fat_setSlot] at hfat
      exact hfat

/-- `fat16_rename` stays in one directory: what `old` names is a record of the directory that holds `new`. -/
def Within (fs : Fs) (v : Vol) (old new : Text) : Prop :=
  match (Prog.run (Vol.step fs) (pathLookup fs old) v).1, (Prog.run (Vol.step fs) (pathParent fs new) v).1 with
  | some f, some parent => old ≠ [slash] ∧ parent.entry.firstCluster = f.dirCluster
  | _, _ => True

instance (fs : Fs) (v : Vol) (old new : Text) : Decidable (Within fs v old new) := by
  unfold Within
  split <;> infer_instance

/-- **`fat16_rename`** within one directory. -/
theorem rename_keeps {old new : Text} (h : fs.Ok) (hv : v.Consistent fs) (ho : Plain old) (hnw : Plain new) (hw : Within fs v old new) :
    Keeps fs (rename fs old new) v := by
  obtain ⟨r, hr, hlook⟩ := run_lookup_plain h hv.toTree ho tokens_subset
  refine wp_seq_run hr ?_
  cases r with
  | none => exact hv
  | some f =>
    obtain ⟨r', hr', -⟩ := run_parent_plain h hv.toTree hnw
    refine wp_seq_run hr' ?_
    cases r' with
    | none => exact hv
    | some parent =>
      unfold Within at hw
      rw [hr, hr'] at hw
      obtain ⟨hne, hsame⟩ := hw
      dsimp only
      cases hn : nameTo83 (leafText new) with
      | none => exact hv
      | some fatName =>
        rcases hlook f rfl with ⟨hroot, -⟩ | ⟨-, p, hf⟩
        · exact absurd hroot hne
        · rw [hsame]
          exact renameIn_keeps h hv hf (hnw.goodName hn)

end
end PureUnix.Fat16
