import PureUnix.Fat16.Edits

/-!
# What the driver's loops do to a volume

One lemma for each function below the calls: which cluster `alloc_cluster` takes, what `free_chain` frees, where a
record of a directory is, what the searches in a directory find, which slot `find_free_slot` gives.
-/
namespace PureUnix.Fat16

open Lib List Nat Function
open Option
open Vol

variable {s l n : Nat}

section
variable {fs : Fs} {v v' : Vol} {d c i j : Nat} {cs : List Nat} {p q : Place} {e : Entry}

/-! ## Accesses inside the volume -/

theorem run_fatRead (hc : c < fs.maxCluster) : run (step fs) (Drv.fatRead c) v = (v.fat c, v) :=
  if_pos (Fs.lt_cells hc)

theorem run_fatWrite' (hc : c < fs.cells) (value : Nat) : run (step fs) (Drv.fatWrite c value) v = ((), v.setFat c value) :=
  congrArg (Prod.mk ()) (if_pos hc)

theorem run_readSlot (hp : p.Valid fs) : run (step fs) (Drv.readSlot p) v = (v.slot p, v) :=
  if_pos hp

theorem run_writeSlot (hp : p.Valid fs) : run (step fs) (Drv.writeSlot p e) v = ((), v.setSlot p e) :=
  congrArg (Prod.mk ()) (if_pos hp)

theorem run_readSector (hc : fs.Cluster c) (hs : s < fs.sectorsPerCluster) :
    run (step fs) (Drv.readSector c s) v = (v.data c s, v) :=
  if_pos ⟨hc, hs⟩

theorem run_writeSector (hc : fs.Cluster c) (hs : s < fs.sectorsPerCluster) (data : Buf) :
    run (step fs) (Drv.writeSector c s data) v = ((), v.setSector c s data) :=
  congrArg (Prod.mk ()) (if_pos ⟨hc, hs⟩)

/-! ## `alloc_cluster` -/

namespace Vol

def firstFree (fs : Fs) (v : Vol) : Option Nat := scanFree (fun c => v.fat c != 0) 0 fs.maxCluster (fs.maxCluster - 2) 2

def zeroed (fs : Fs) (v : Vol) (c : Nat) : Vol :=
  { v with data := update v.data c fun s => if s < fs.sectorsPerCluster then zeros else v.data c s }

def taken (fs : Fs) (v : Vol) (c : Nat) : Vol := (v.setFat c 0xFFFF).zeroed fs c

theorem firstFree_some (h : v.firstFree fs = some c) : fs.Cluster c ∧ v.fat c = 0 := by
  obtain ⟨h1, -, h3, h4⟩ := scanFree_some h
  exact ⟨⟨by omega, h3⟩, by simpa using h4⟩

theorem firstFree_none (h : v.firstFree fs = none) (hc : fs.Cluster c) : v.fat c ≠ 0 := by
  have hu := scanFree_none h c (by have := hc.1; omega) (by have := hc.2; omega) hc.2
  simpa using hu

end Vol

theorem trunc_zeros (n : Nat) : trunc n zeros = zeros := by
  funext i
  simp [trunc, zeros]

theorem run_zeroFrom (hc : fs.Cluster c) : ∀ (n s : Nat) (v : Vol), s + n = fs.sectorsPerCluster →
    run (step fs) (zeroFrom c n s) v =
      ((), { v with data := update v.data c fun t => if s ≤ t ∧ t < fs.sectorsPerCluster then zeros else v.data c t })
  | 0, s, v, hs => by
    have hid : (fun t => if s ≤ t ∧ t < fs.sectorsPerCluster then zeros else v.data c t) = v.data c := by
      funext t
      rw [if_neg (by omega)]
    rw [hid, update_eq_self]
    rfl
  | n + 1, s, v, hs => by
    rw [zeroFrom, run_bind, run_writeSector hc (by omega), run_zeroFrom hc n (s + 1) _ (by omega)]
    simp only [Vol.setSector, update_idem, update_self, trunc_zeros]
    congr 2
    funext x t
    by_cases hx : x = c
    · subst hx
      simp only [update_self]
      by_cases ht : t = s
      · rw [ht, update_self, if_neg (by omega), if_pos (by omega)]
      rw [update_of_ne ht]
      by_cases hts : s ≤ t ∧ t < fs.sectorsPerCluster
      · rw [if_pos hts, if_pos (by omega)]
      · rw [if_neg hts, if_neg (by omega)]
    · rw [update_of_ne hx, update_of_ne hx]

theorem run_zeroCluster (hc : fs.Cluster c) : run (step fs) (zeroCluster fs c) v = ((), v.zeroed fs c) := by
  unfold zeroCluster
  rw [run_zeroFrom hc _ 0 v (by omega)]
  simp only [zero_le, true_and]
  rfl

theorem run_allocFrom (v : Vol) : ∀ (n c : Nat), 2 ≤ c → n = fs.maxCluster - c → run (step fs) (allocFrom fs n c) v =
      match scanFree (fun x => v.fat x != 0) 0 fs.maxCluster n c with
      | none => (0, v)
      | some x => (x, v.taken fs x)
  | 0, _, _, _ => rfl
  | n + 1, c, h2, hn => by
    have hc : fs.Cluster c := ⟨h2, by omega⟩
    have hlt : ¬ fs.maxCluster ≤ 0 + c := by omega
    rw [allocFrom, run_bind, run_fatRead hc.2, run_ite, scanFree, if_neg hlt, zero_add]
    by_cases h0 : v.fat c = 0
    · rw [if_pos h0, if_neg (by simp [h0]), run_bind, run_fatWrite' (Fs.lt_cells hc.2), run_bind, run_zeroCluster hc]
      rfl
    · rw [if_neg h0, if_pos (by simp [h0])]
      exact run_allocFrom v n (c + 1) (by omega) (by omega)

/-- **`alloc_cluster`** takes the first free cluster. -/
theorem run_allocCluster : run (step fs) (allocCluster fs) v =
    match v.firstFree fs with
    | none => (0, v)
    | some c => (c, v.taken fs c) :=
  run_allocFrom v _ 2 (le_refl _) rfl

namespace Vol

theorem taken_sameBut : SameBut fs [c] v (v.taken fs c) where
  fat := fun x _ hx => update_of_ne (fun he => hx (by simp [he])) _ _
  data := fun x _ hx => update_of_ne (fun he => hx (by simp [he])) _ _
  root := rfl
  wild := rfl

theorem taken_fat : (v.taken fs c).fat c = 0xFFFF := update_self _ _ _

theorem taken_chain (hc : fs.Cluster c) : (v.taken fs c).Chain fs c [c] :=
  .last hc (by rw [taken_fat]; decide)

theorem taken_slot {k : Nat} (hk : k < fs.entriesPerCluster) : (v.taken fs c).slot (.data c k) = zeros := by
  rw [Fs.epc_eq] at hk
  have hs : k / 16 < fs.sectorsPerCluster := by omega
  simp only [slot, sectorOf, taken, zeroed, update_self, if_pos hs]
  exact trunc_zeros 32

end Vol

/-! ## `free_chain` -/

def Vol.freed (v : Vol) (cs : List Nat) : Vol := { v with fat := fun c => if c ∈ cs then 0 else v.fat c }

theorem Vol.freed_sameBut : SameBut fs cs v (v.freed cs) where
  fat := fun _ _ hc => if_neg hc
  data := fun _ _ _ => rfl
  root := rfl
  wild := rfl

theorem Vol.freed_cons : (v.setFat c 0).freed cs = v.freed (c :: cs) := by
  simp only [freed, setFat]
  congr 1
  funext x
  by_cases hx : x = c
  · simp [hx]
  · simp [hx]

/-- **`free_chain`** frees the chain. -/
theorem run_freeChain (h : fs.Ok) : ∀ (n : Nat) {c : Nat} {cs : List Nat} {v : Vol}, v.Chain fs c cs → cs.length ≤ n →
    run (step fs) (freeChain n c) v = ((), v.freed cs)
  | 0, _, _, _, hc, hn => absurd (length_eq_zero_iff.1 (le_zero.1 hn)) hc.ne_nil
  | n + 1, c, cs, v, hc, hn => by
    have hcl := hc.cluster
    have hmax := h.max_le
    have heoc : c < FAT_EOC := by
      have := hcl.2
      simp only [FAT_EOC]
      omega
    rw [freeChain, if_pos ⟨hcl.1, heoc⟩, run_bind, run_fatRead hcl.2, run_bind, run_fatWrite' (Fs.lt_cells hcl.2), run_ite]
    cases hc with
    | last _ hl =>
      rw [if_pos (.inl hl), ← freed_cons]
      simp only [Vol.freed, not_mem_nil, if_false, run_pure]
    | @link _ cs hok hnl ht =>
      have hnz : v.fat c ≠ 0 := Vol.Chain.ne_zero (show v.Chain fs _ _ from ht)
      rw [if_neg (by simp [hnl, hnz]), ← freed_cons]
      refine run_freeChain h n (Vol.Chain.congr ht fun x hx => ?_) (le_of_succ_le_succ hn)
      refine update_of_ne ?_ _ _
      rintro rfl
      exact (nodup_cons.1 (Lib.Chain.link hok hnl ht).nodup).1 hx

theorem run_freeIf (h : fs.Ok) (hh : v.Headed fs e) : run (step fs) (freeIf e.firstCluster) v = ((), v.freed (v.own e)) := by
  rw [freeIf]
  by_cases h0 : e.firstCluster = 0
  · rw [if_neg (by simp [h0]), Vol.own, if_pos h0]
    simp only [Vol.freed, not_mem_nil, if_false, run_pure]
  · rw [if_pos h0]
    have hc := hh.chain h h0
    exact run_freeChain h FUEL hc (hc.length_le h)

/-! ## Records of a directory -/

/-- The clusters of directory `d` are a chain. -/
def Vol.Sound (fs : Fs) (v : Vol) (d : Nat) : Prop := d = 0 ∨ v.Chain fs d (v.clusters d)

theorem Vol.Tree.sound (h : fs.Ok) (t : v.Tree fs) (hd : v.Dir fs d) : v.Sound fs d := by
  by_cases h0 : d = 0
  · exact .inl h0
  · exact .inr (t.dir_chain h hd h0)

theorem Vol.Sound.valid (h : fs.Ok) (hd : v.Sound fs d) (hp : v.place fs d i = some p) : p.Valid fs := by
  obtain ⟨hi, ⟨h0, rfl⟩ | ⟨h0, c, hc, rfl⟩⟩ := place_some.1 hp
  · rw [dirMax, if_pos h0] at hi
    exact hi
  · rcases hd with hd | hd
    · exact absurd hd h0
    · exact ⟨hd.ok_of_mem (mem_of_getElem? hc), mod_lt _ h.epc_pos⟩

theorem run_walk : ∀ (n : Nat) {c : Nat} {cs : List Nat}, v.Chain fs c cs → run (step fs) (walk n c) v = (cs[n]?, v)
  | 0, c, cs, hc => by
    rw [← head?_eq_getElem?, hc.head?]
    rfl
  | n + 1, c, cs, hc => by
    rw [walk, run_bind, run_fatRead hc.cluster.2]
    cases hc with
    | last _ hl => rw [if_pos hl]; rfl
    | link _ hnl ht =>
      rw [if_neg hnl, run_walk n ht]
      rfl

theorem run_placeAt (hd : v.Sound fs d) (hi : d ≠ 0 → i < 65536) : run (step fs) (placeAt fs d i) v = (v.place fs d i, v) := by
  unfold placeAt Vol.place dirMax
  by_cases h0 : d = 0
  · simp only [h0, if_true, run_pure]
  · have hc := hd.resolve_left h0
    rw [if_neg h0, if_neg h0, if_neg h0, if_neg (not_le.2 (hi h0)), run_bind, run_walk _ hc]
    cases (v.clusters d)[i / fs.entriesPerCluster]? <;> rfl

/-- **`read_dir_entry_at`.** -/
theorem run_readDirEntryAt (h : fs.Ok) (hd : v.Sound fs d) (hi : d ≠ 0 → i < 65536) :
    run (step fs) (readDirEntryAt fs d i) v = ((v.place fs d i).map v.slot, v) := by
  rw [readDirEntryAt, run_bind, run_placeAt hd hi]
  cases hp : v.place fs d i with
  | none => rfl
  | some p =>
    rw [run_bind, run_readSlot (hd.valid h hp)]
    rfl

/-- **`write_dir_entry_at`.** -/
theorem run_writeDirEntryAt (h : fs.Ok) (hd : v.Sound fs d) (hi : d ≠ 0 → i < 65536) (e : Entry) :
    run (step fs) (writeDirEntryAt fs d i e) v =
      match v.place fs d i with
      | none => (-1, v)
      | some p => (0, v.setSlot p e) := by
  rw [writeDirEntryAt, run_bind, run_placeAt hd hi]
  cases hp : v.place fs d i with
  | none => rfl
  | some p =>
    rw [run_bind, run_writeSlot (hd.valid h hp)]
    rfl

theorem Vol.place_lt (hp : v.place fs d i = some p) : i < dirMax fs d ∧ (d ≠ 0 → i < 65536) := by
  have hi := (place_some.1 hp).1
  refine ⟨hi, fun h0 => ?_⟩
  rw [dirMax, if_neg h0] at hi
  exact hi

theorem dirMax_lt (hi : i < dirMax fs d) (h0 : d ≠ 0) : i < 65536 := by
  rw [dirMax, if_neg h0] at hi
  exact hi

/-! ## `find_in_dir` and `path_lookup` -/

/-- What was found is a visible record of the directory. -/
structure Found.At (fs : Fs) (v : Vol) (f : Found) (p : Place) : Prop where
  place : v.place fs f.dirCluster f.index = some p
  entry : f.entry = v.slot p
  visible : f.entry.isVisible = true

namespace Vol

/-- Record `i` of directory `d`, if it is visible. -/
def seen (fs : Fs) (v : Vol) (d i : Nat) : Option Entry :=
  (v.place fs d i).bind fun p => if (v.slot p).isVisible = true then some (v.slot p) else none

def hit (fs : Fs) (v : Vol) (d : Nat) (fatName : Text) (i : Nat) : Option Found :=
  (v.seen fs d i).bind fun e => if e.name = fatName then some ⟨e, d, i⟩ else none

theorem seen_some : v.seen fs d i = some e ↔ ∃ p, v.place fs d i = some p ∧ (v.slot p).isVisible = true ∧ v.slot p = e := by
  simp only [seen, bind_eq_some_iff, ite_none_right_eq_some, some_inj]

theorem seen_place (hp : v.place fs d i = some p) : v.seen fs d i = if (v.slot p).isVisible = true then some (v.slot p) else none := by
  rw [seen, hp]
  rfl

theorem Ended.seen_none (he : v.Ended fs d) (hstop : v.place fs d i = none ∨ ∃ p, v.place fs d i = some p ∧ (v.slot p).isEnd = true)
    {j : Nat} (hij : i ≤ j) : v.seen fs d j = none := by
  rcases hstop with hnone | ⟨p, hp, hend⟩
  · rw [seen, place_none_mono hnone hij]
    rfl
  · cases hj : v.place fs d j with
    | none => rw [seen, hj]; rfl
    | some q =>
      have hq := he i j p q hij hp hj hend
      rw [seen_place hj, if_neg]
      intro hv
      rw [Entry.isEnd_of_isFree (Entry.isFree_of_isVisible hv)] at hq
      cases hq

end Vol

/-- A loop over the records of a directory that stops at its end gives `g`, if each turn does and nothing seen means `z`. -/
theorem run_records {α : Type} {loop : Nat → Nat → Drv α} {turn : Nat → Nat → Entry → Drv α} {g : Nat → Nat → α} {z : α} (h : fs.Ok)
    (hd : v.Sound fs d) (he : v.Ended fs d)
    (hloop : ∀ n i, loop (n + 1) i = readDirEntryAt fs d i >>= fun o => match o with
      | none => pure z
      | some e => if e.isEnd = true then pure z else turn n i e)
    (hlast : ∀ i, run (step fs) (loop 0 i) v = (g 0 i, v)) (hnone : ∀ n i, (∀ j, i ≤ j → v.seen fs d j = none) → g n i = z)
    (hturn : ∀ n i p, v.place fs d i = some p → run (step fs) (loop n (i + 1)) v = (g n (i + 1), v) →
      run (step fs) (turn n i (v.slot p)) v = (g (n + 1) i, v)) :
    ∀ n i, i + n = dirMax fs d → run (step fs) (loop n i) v = (g n i, v)
  | 0, i, _ => hlast i
  | n + 1, i, hn => by
    have hi : i < dirMax fs d := by omega
    rw [hloop, run_bind, run_readDirEntryAt h hd (dirMax_lt hi)]
    cases hp : v.place fs d i with
    | none =>
      rw [hnone (n + 1) i fun _ => he.seen_none (.inl hp)]
      rfl
    | some q =>
      simp only [map_some, run_ite]
      by_cases hend : (v.slot q).isEnd = true
      · rw [if_pos hend, hnone (n + 1) i fun _ => he.seen_none (.inr ⟨q, hp, hend⟩)]
        rfl
      · rw [if_neg hend]
        exact hturn n i q hp (run_records h hd he hloop hlast hnone hturn n (i + 1) (by omega))

/-- **`find_in_dir` is the first hit.** -/
theorem run_findInDir_eq (h : fs.Ok) (t : v.Tree fs) (hd : v.Dir fs d) (fatName : Text) :
    run (step fs) (findInDir fs d fatName) v = ((range' 0 (dirMax fs d)).findSome? (v.hit fs d fatName), v) := by
  refine run_records (g := fun n i => (range' i n).findSome? (v.hit fs d fatName)) h (t.sound h hd) (t.ended d hd) (fun _ _ => rfl)
    (fun _ => rfl) (fun n i hi => ?_) (fun n i p hp ih => ?_) _ 0 (zero_add _)
  · refine findSome?_eq_none_iff.2 fun j hj => ?_
    rw [Vol.hit, hi j (mem_range'_1.1 hj).1]
    rfl
  · rw [run_ite, range'_succ, findSome?_cons, Vol.hit, seen_place hp]
    by_cases hm : (v.slot p).isVisible = true ∧ (v.slot p).name = fatName
    · rw [if_pos hm, if_pos hm.1, bind_some, if_pos hm.2]
      rfl
    rw [if_neg hm, ih]
    by_cases hv : (v.slot p).isVisible = true
    · rw [if_pos hv, bind_some, if_neg fun hname => hm ⟨hv, hname⟩]
    · rw [if_neg hv]
      rfl

/-- **`find_in_dir`** finds a visible record of that name, if there is one. -/
theorem run_findInDir (h : fs.Ok) (t : v.Tree fs) (hd : v.Dir fs d) (fatName : Text) :
    ∃ r, run (step fs) (findInDir fs d fatName) v = (r, v) ∧
      (∀ f, r = some f → f.dirCluster = d ∧ f.entry.name = fatName ∧ ∃ p, f.At fs v p) ∧
      (r = none → ∀ j p, v.place fs d j = some p → (v.slot p).isVisible = true → (v.slot p).name ≠ fatName) := by
  refine ⟨_, run_findInDir_eq h t hd fatName, fun f hf => ?_, fun hn j p hp hv hname => ?_⟩
  · obtain ⟨i, -, hi⟩ := exists_of_findSome?_eq_some hf
    simp only [Vol.hit, bind_eq_some_iff, ite_none_right_eq_some, some_inj] at hi
    obtain ⟨e, he, hname, rfl⟩ := hi
    obtain ⟨p, hp, hv, rfl⟩ := seen_some.1 he
    exact ⟨rfl, hname, p, hp, rfl, hv⟩
  · have hj := findSome?_eq_none_iff.1 hn j (mem_range'_1.2 ⟨zero_le j, by have := (place_lt hp).1; omega⟩)
    rw [Vol.hit, seen_place hp, if_pos hv, bind_some, if_pos hname] at hj
    cases hj

/-- From a directory, a record of this name leads to a directory, if it is one of a directory. -/
def Vol.Leads (fs : Fs) (v : Vol) (tok : Text) : Prop :=
  ∀ fatName, nameTo83 tok = some fatName → ∀ d i p, v.Dir fs d → v.place fs d i = some p → (v.slot p).isVisible = true →
    (v.slot p).name = fatName → (v.slot p).isDirectory = true → v.Dir fs (v.slot p).firstCluster

theorem run_lookupFrom (h : fs.Ok) (t : v.Tree fs) : ∀ (toks : List Text) {d : Nat}, v.Dir fs d → (∀ tok ∈ toks, v.Leads fs tok) →
    ∃ r, run (step fs) (lookupFrom fs d toks) v = (r, v) ∧
      ∀ f, r = some f → v.Dir fs f.dirCluster ∧ (∃ p, f.At fs v p) ∧ ∃ tok ∈ toks, nameTo83 tok = some f.entry.name
  | [], d, _, _ => ⟨none, rfl, nofun⟩
  | tok :: toks, d, hd, hl => by
    rw [lookupFrom]
    cases hn : nameTo83 tok with
    | none => exact ⟨none, rfl, nofun⟩
    | some fatName =>
      obtain ⟨r, hr, hsome, -⟩ := run_findInDir h t hd fatName
      dsimp only
      rw [run_bind, hr]
      cases r with
      | none => exact ⟨none, rfl, nofun⟩
      | some f =>
        obtain ⟨hfd, hname, p, hat⟩ := hsome f rfl
        simp only [run_ite]
        by_cases hnil : toks = []
        · rw [if_pos hnil]
          refine ⟨some f, rfl, fun g hg => ?_⟩
          cases hg
          exact ⟨hfd ▸ hd, ⟨p, hat⟩, tok, mem_cons_self, by rw [hname]; exact hn⟩
        · rw [if_neg hnil]
          by_cases hdir : f.entry.isDirectory = true
          · rw [if_pos hdir]
            have hnext : v.Dir fs f.entry.firstCluster := by
              have hpl := hat.place
              rw [hfd] at hpl
              rw [hat.entry] at hdir hname ⊢
              exact hl tok mem_cons_self fatName hn d _ p hd hpl (by rw [← hat.entry]; exact hat.visible) hname hdir
            obtain ⟨r, hr, hsome⟩ := run_lookupFrom h t toks hnext fun tok htok => hl tok (mem_cons_of_mem _ htok)
            refine ⟨r, hr, fun g hg => ?_⟩
            obtain ⟨h1, h2, tok', htok', h3⟩ := hsome g hg
            exact ⟨h1, h2, tok', mem_cons_of_mem _ htok', h3⟩
          · rw [if_neg hdir]
            exact ⟨none, rfl, nofun⟩

/-- **`path_lookup`** gives the root directory for "/", else a record of some directory. -/
theorem run_pathLookup (h : fs.Ok) (t : v.Tree fs) {path : Text} (hl : ∀ tok ∈ Ext2.pathTokens path, v.Leads fs tok) :
    ∃ r, run (step fs) (pathLookup fs path) v = (r, v) ∧ ∀ f, r = some f → path = [slash] ∧ f = rootFound ∨
        path ≠ [slash] ∧ v.Dir fs f.dirCluster ∧ (∃ p, f.At fs v p) ∧ ∃ tok ∈ Ext2.pathTokens path, nameTo83 tok = some f.entry.name := by
  unfold pathLookup
  simp only [run_ite]
  split
  · exact ⟨none, rfl, nofun⟩
  split
  · rename_i hroot
    exact ⟨some rootFound, rfl, fun f hf => .inl ⟨hroot, (some.inj hf).symm⟩⟩
  · rename_i hroot
    obtain ⟨r, hr, hsome⟩ := run_lookupFrom h t (Ext2.pathTokens path) (.refl) hl
    exact ⟨r, hr, fun f hf => .inr ⟨hroot, hsome f hf⟩⟩

/-! ## `dir_is_empty` -/

/-- **`dir_is_empty`** says so only of a directory without files and directories. -/
theorem run_dirIsEmpty (h : fs.Ok) (t : v.Tree fs) (hd : v.Dir fs d) (h0 : d ≠ 0) :
    ∃ b, run (step fs) (dirIsEmpty fs d) v = (b, v) ∧ (b = true → v.Bare fs d) := by
  refine ⟨_, run_records (g := fun n i => (range' i n).all fun j => (v.seen fs d j).all Entry.isDot) h (t.sound h hd) (t.ended d hd)
    (fun _ _ => rfl) (fun _ => rfl) (fun n i hi => ?_) (fun n i p hp ih => ?_) _ 0 (by rw [dirMax, if_neg h0]), fun hall j p hp => ?_⟩
  · refine all_eq_true.2 fun j hj => ?_
    rw [hi j (mem_range'_1.1 hj).1]
    rfl
  · rw [run_ite, range'_succ, all_cons, seen_place hp]
    by_cases hv : (v.slot p).isVisible = true
    · cases hdot : (v.slot p).isDot <;> simp [hv, hdot, ih]
    · simp [hv, ih]
  · have hj := all_eq_true.1 hall j (mem_range'_1.2 ⟨zero_le j, by have := (place_lt hp).2 h0; omega⟩)
    rw [seen_place hp] at hj
    unfold Entry.isLive
    cases hv : (v.slot p).isVisible with
    | false => rfl
    | true =>
      rw [hv, if_pos rfl, all_some] at hj
      rw [hj]
      rfl

/-! ## `find_free_slot` -/

namespace Vol

/-- Cluster `n` is taken and hung behind cluster `l`. -/
def hung (fs : Fs) (v : Vol) (l n : Nat) : Vol := ((v.taken fs n).setFat l n).setFat n 0xFFFF

theorem hung_spec (h : fs.Ok) (hn : fs.Cluster n) (hln : l ≠ n) : Hung fs l n v (v.hung fs l n) where
  fat := fun c _ hl hc => by
    simp only [hung, setFat, taken, zeroed]
    rw [update_of_ne hc, update_of_ne hl, update_of_ne hc]
  link := by
    have := hn.2
    have := h.max_le
    simp only [hung, setFat]
    rw [update_of_ne hln, update_self]
    omega
  last := by
    simp only [hung, setFat, update_self]
    decide
  data := fun c hc => update_of_ne hc _ _
  zero := fun k hk => by
    have : (v.hung fs l n).slot (.data n k) = (v.taken fs n).slot (.data n k) := rfl
    rw [this, taken_slot hk]
    rfl
  root := rfl
  wild := rfl

theorem Extends.refl (t : v.Tree fs) : Extends fs d v v :=
  ⟨t, fun _ => Iff.rfl, fun _ => Iff.rfl, fun _ _ _ _ hp => ⟨hp, rfl⟩, fun _ _ _ _ hn hp => (nomatch hn.symm.trans hp),
    fun _ _ hf ho => ⟨hf, ho⟩⟩

theorem Extends.consistent (hx : Extends fs d v v') (hv : v.Consistent fs) : v'.Consistent fs := by
  refine ⟨hx.tree, fun c hc hf => ?_⟩
  by_contra ho
  obtain ⟨h1, h2⟩ := hx.covered c hc hf ho
  exact h2 (hv.covered c hc h1)

theorem extends_hung (h : fs.Ok) (t : v.Tree fs) (hd : v.Dir fs d) (h0 : d ≠ 0)
    (hl : (v.clusters d).getLast? = some l) (hn : fs.Cluster n) (hfree : v.fat n = 0) :
    Extends fs d v (v.hung fs l n) ∧ (v.hung fs l n).clusters d = v.clusters d ++ [n] := by
  have hnot : ¬ v.Owned fs n := fun ⟨p, hp, hc⟩ => ((t.headed p hp).used h hc).2 hfree
  have hln : l ≠ n := fun he => hnot (he ▸ hd.owned h0 (mem_of_getLast? hl))
  exact t.extend h hd h0 hl hn hnot (hung_spec h hn hln)

end Vol

theorem run_lastFrom : ∀ (n : Nat) {c : Nat} {cs : List Nat}, v.Chain fs c cs → cs.length ≤ n →
    ∃ l, cs.getLast? = some l ∧ run (step fs) (lastFrom n c) v = (l, v)
  | 0, _, _, hc, hn => absurd (length_eq_zero_iff.1 (le_zero.1 hn)) hc.ne_nil
  | n + 1, c, cs, hc, hn => by
    rw [lastFrom, run_bind, run_fatRead hc.cluster.2, run_ite]
    cases hc with
    | last _ hl => exact ⟨c, rfl, by rw [if_neg (not_lt.2 hl)]; rfl⟩
    | link _ hnl ht =>
      obtain ⟨l, hl, hr⟩ := run_lastFrom n ht (Nat.le_of_succ_le_succ hn)
      refine ⟨l, ?_, by rw [if_pos (Nat.lt_of_not_le hnl)]; exact hr⟩
      rw [getLast?_cons, hl]
      rfl

theorem run_extendDir (h : fs.Ok) (hc : v.Chain fs d cs) : ∃ l, cs.getLast? = some l ∧ run (step fs) (extendDir fs d) v =
      match v.firstFree fs with
      | none => (0, v)
      | some n => (n, v.hung fs l n) := by
  obtain ⟨l, hl, hr⟩ := run_lastFrom FUEL hc (hc.length_le h)
  refine ⟨l, hl, ?_⟩
  have hlc := hc.ok_of_mem (mem_of_getLast? hl)
  rw [extendDir, run_bind, hr, run_bind, run_allocCluster]
  cases hf : v.firstFree fs with
  | none => rfl
  | some n =>
    have hn := (firstFree_some hf).1
    have hn0 : n ≠ 0 := by have := hn.1; omega
    simp only [if_neg hn0]
    rw [run_bind, run_fatWrite' (Fs.lt_cells hlc.2), run_bind, run_fatWrite' (Fs.lt_cells hn.2)]
    rfl

/-- Record `k` of the directory is the first free one. -/
structure Vol.FreeAt (fs : Fs) (v : Vol) (d k : Nat) (p : Place) : Prop where
  place : v.place fs d k = some p
  free : (v.slot p).isFree = true
  before : ∀ j q, j < k → v.place fs d j = some q → (v.slot q).isFree = false

theorem run_freeSlotFrom (h : fs.Ok) (t : v.Tree fs) (hd : v.Dir fs d) : ∀ (n i : Nat), i + n = dirMax fs d →
    (∀ j, j < i → ∃ q, v.place fs d j = some q ∧ (v.slot q).isFree = false) →
    ∃ r v', run (step fs) (freeSlotFrom fs d n i) v = (r, v') ∧ Vol.Extends fs d v v' ∧ ∀ k, r = some k → ∃ p, v'.FreeAt fs d k p
  | 0, i, _, _ => ⟨none, v, rfl, Vol.Extends.refl t, nofun⟩
  | n + 1, i, hn, hbefore => by
    have hi : i < dirMax fs d := by omega
    rw [freeSlotFrom, run_bind, run_readDirEntryAt h (t.sound h hd) (dirMax_lt hi)]
    cases hp : v.place fs d i with
    | some q =>
      simp only [map_some, run_ite]
      by_cases hfree : (v.slot q).isFree = true
      · rw [if_pos hfree]
        refine ⟨some i, v, rfl, Vol.Extends.refl t, fun k hk => ?_⟩
        cases hk
        refine ⟨q, hp, hfree, fun j r hj hr => ?_⟩
        obtain ⟨r', hr', hf⟩ := hbefore j hj
        rw [some.inj (hr.symm.trans hr')]
        exact hf
      · rw [if_neg hfree]
        refine run_freeSlotFrom h t hd n (i + 1) (by omega) fun j hj => ?_
        rcases Nat.eq_or_lt_of_le (Nat.le_of_lt_succ hj) with rfl | hlt
        · exact ⟨q, hp, by simpa using hfree⟩
        · exact hbefore j hlt
    | none =>
      simp only [map_none, run_ite]
      by_cases h0 : d = 0
      · rw [if_pos h0]
        exact ⟨none, v, rfl, Vol.Extends.refl t, nofun⟩
      rw [if_neg h0, run_bind]
      have hc := t.dir_chain h hd h0
      obtain ⟨l, hl, hr⟩ := run_extendDir h hc
      rw [hr]
      cases hff : v.firstFree fs with
      | none => exact ⟨none, v, rfl, Vol.Extends.refl t, nofun⟩
      | some m =>
        obtain ⟨hm, hfree⟩ := firstFree_some hff
        have hm0 : m ≠ 0 := by have := hm.1; omega
        obtain ⟨hx, hcl⟩ := extends_hung h t hd h0 hl hm hfree
        simp only [if_neg hm0]
        refine ⟨_, _, rfl, hx, fun k hk => ?_⟩
        cases hk
        -- the directory is full: record `i` is the first of the new cluster
        have hepc := h.epc_pos
        have hlen : (v.clusters d).length ≤ i / fs.entriesPerCluster := by
          by_contra hlt
          have hge := getElem?_eq_getElem (Nat.lt_of_not_le hlt)
          rw [place_some.2 ⟨hi, .inr ⟨h0, _, hge, rfl⟩⟩] at hp
          cases hp
        have hi_eq : i = (v.clusters d).length * fs.entriesPerCluster := by
          refine Nat.le_antisymm (Nat.le_of_not_lt fun hlt => ?_) ((Nat.le_div_iff_mul_le hepc).1 hlen)
          obtain ⟨q, hq, -⟩ := hbefore _ hlt
          obtain ⟨-, ⟨hz, -⟩ | ⟨-, c, hc', -⟩⟩ := place_some.1 hq
          · exact h0 hz
          · rw [Nat.mul_div_cancel _ hepc] at hc'
            exact absurd (List.getElem?_eq_some_iff.1 hc').1 (Nat.lt_irrefl _)
        have hk_eq : (i + fs.entriesPerCluster - 1) / fs.entriesPerCluster * fs.entriesPerCluster = i := by
          rw [hi_eq, Nat.add_sub_assoc hepc, Nat.add_comm, Nat.add_mul_div_right _ _ hepc, Nat.div_eq_of_lt (by omega), Nat.zero_add]
        have hplace : (v.hung fs l m).place fs d i = some (.data m 0) := by
          refine place_some.2 ⟨hi, .inr ⟨h0, m, ?_, ?_⟩⟩
          · rw [hcl, hi_eq, Nat.mul_div_cancel _ hepc]
            simp
          · rw [hi_eq, Nat.mul_mod_left]
        rw [hk_eq]
        refine ⟨.data m 0, hplace, ?_, fun j q hj hq => ?_⟩
        · have hend := (hx.fresh d hd i _ hp hplace).2
          unfold Entry.isFree
          unfold Entry.isEnd at hend
          rw [hend]
          rfl
        · obtain ⟨q', hq', hf⟩ := hbefore j hj
          obtain ⟨hpl, hs⟩ := hx.place d hd j q' hq'
          obtain rfl := some.inj (hpl.symm.trans hq)
          rw [hs]
          exact hf

/-- **`find_free_slot`** gives the first free record, in a new cluster if the directory is full. -/
theorem run_findFreeSlot (h : fs.Ok) (t : v.Tree fs) (hd : v.Dir fs d) :
    ∃ r v', run (step fs) (findFreeSlot fs d) v = (r, v') ∧ Vol.Extends fs d v v' ∧ ∀ k, r = some k → ∃ p, v'.FreeAt fs d k p :=
  run_freeSlotFrom h t hd _ 0 (zero_add _) fun _ hj => absurd hj (not_lt_zero _)

end
end PureUnix.Fat16
