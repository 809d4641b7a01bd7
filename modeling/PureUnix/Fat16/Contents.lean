import PureUnix.Fat16.Walks

/-!
# File contents

The bytes in a chain, and what the loops of `fat16_read_file` and `write_new_chain` do with them. `write_new_chain`
links clusters that were free; when they run out, it frees them again and the FAT is as before.
-/
namespace PureUnix.Fat16

open Lib List Nat Function
open Vol

section
variable {fs : Fs} {v v' v₀ : Vol} {c : Nat} {cs : List Nat}

namespace Vol

def clusterBytes (fs : Fs) (v : Vol) (c : Nat) : Text := (List.range fs.sectorsPerCluster).flatMap fun s => slice (v.data c s) 0 512

def bytes (fs : Fs) (v : Vol) (cs : List Nat) : Text := cs.flatMap (v.clusterBytes fs)

theorem length_flatMap_slices (f : Nat → Buf) : ∀ l : List Nat, (l.flatMap fun s => slice (f s) 0 512).length = 512 * l.length
  | [] => rfl
  | s :: l => by
    rw [flatMap_cons, length_append, length_slice, length_flatMap_slices f l, length_cons]
    omega

theorem clusterBytes_length : (v.clusterBytes fs c).length = fs.clusterSize := by
  unfold clusterBytes Fs.clusterSize
  rw [length_flatMap_slices, length_range]

theorem bytes_length : ∀ cs : List Nat, (v.bytes fs cs).length = cs.length * fs.clusterSize
  | [] => by simp [bytes]
  | c :: cs => by
    have ih : (v.bytes fs cs).length = _ := bytes_length cs
    unfold bytes at ih ⊢
    rw [flatMap_cons, length_append, clusterBytes_length, ih, length_cons, succ_mul, add_comm]

theorem bytes_cons : v.bytes fs (c :: cs) = v.clusterBytes fs c ++ v.bytes fs cs := rfl

theorem bytes_congr (h : ∀ c ∈ cs, v'.data c = v.data c) : v'.bytes fs cs = v.bytes fs cs := by
  refine flatMap_congr fun c hc => ?_
  unfold clusterBytes
  rw [h c hc]

end Vol

variable {n : Nat} {cs ds : List Nat}

theorem slice_take (b : Buf) (off n k : Nat) : (slice b off n).take k = slice b off (min k n) := by
  unfold slice
  rw [← map_take, take_range]

/-! ## Reading -/

theorem run_readSectors (hc : fs.Cluster c) : ∀ (n s left : Nat), s + n = fs.sectorsPerCluster →
    run (step fs) (readSectors c n s left) v = (((range' s n).flatMap fun t => slice (v.data c t) 0 512).take left, v)
  | 0, _, _, _ => by simp [readSectors]
  | n + 1, s, left, hs => by
    rw [readSectors, run_ite]
    by_cases h0 : left = 0
    · rw [if_pos h0, h0]
      rfl
    · rw [if_neg h0, run_bind, run_readSector hc (by omega), run_bind, run_readSectors hc n (s + 1) (left - 512) (by omega)]
      rw [range'_succ, flatMap_cons, take_append, length_slice, slice_take]
      simp only [Prog.run_pure]

theorem Fs.Ok.clusterSize_pos (h : fs.Ok) : 512 ≤ fs.clusterSize := by
  have := h.spc
  unfold Fs.clusterSize
  omega

theorem readFrom_eoc {left : Nat} (hc : FAT_EOC ≤ c) : readFrom fs n c left = pure [] := by
  cases n with
  | zero => rfl
  | succ n => rw [readFrom, if_neg (by omega)]

/-- **The loop of `fat16_read_file`** reads the first bytes of the chain. -/
theorem run_readFrom (h : fs.Ok) : ∀ (n : Nat) {c : Nat} {cs : List Nat} (left : Nat), v.Chain fs c cs → left ≤ n →
    run (step fs) (readFrom fs n c left) v = ((v.bytes fs cs).take left, v)
  | 0, c, cs, left, _, hn => by
    rw [le_zero.1 hn]
    rfl
  | n + 1, c, cs, left, hc, hn => by
    have hcl := hc.cluster
    have hmax := h.max_le
    have hlt := hcl.2
    have heoc : c < FAT_EOC := by
      simp only [FAT_EOC]
      omega
    rw [readFrom]
    by_cases h0 : 0 < left
    · rw [if_pos ⟨hcl.1, heoc, h0⟩, run_bind, run_readSectors hcl _ 0 left (zero_add _), run_bind,
        run_fatRead hcl.2, run_bind, ← range_eq_range']
      have hsize := h.clusterSize_pos
      cases hc with
      | last _ hl =>
        rw [readFrom_eoc hl]
        simp [Vol.bytes, Vol.clusterBytes]
      | link _ _ ht =>
        rw [run_readFrom h n (left - fs.clusterSize) ht (by omega), bytes_cons, take_append, clusterBytes_length]
        rfl
    · rw [if_neg (by omega), show left = 0 by omega]
      rfl

/-! ## Writing into a chain -/

def chunk (data : Text) (t : Nat) : Buf := ofList ((data.drop (512 * t)).take 512)

theorem chunk_zero (data : Text) : chunk data 0 = ofList (data.take 512) := rfl

theorem chunk_drop (data : Text) (t : Nat) : chunk (data.drop 512) t = chunk data (t + 1) := by
  unfold chunk
  rw [drop_drop, mul_succ, add_comm]

theorem trunc_chunk (data : Text) (t : Nat) : trunc 512 (chunk data t) = chunk data t := by
  funext i
  unfold trunc
  split
  · rfl
  · unfold chunk ofList
    rw [getD_eq_getElem?_getD, getElem?_eq_none (by rw [length_take]; omega)]
    rfl

theorem take_chunks : ∀ (n : Nat) (data : Text),
    ((range n).flatMap fun t => slice (chunk data t) 0 512).take data.length = data.take (512 * n)
  | 0, data => by simp
  | n + 1, data => by
    rw [range_succ_eq_map, flatMap_cons, flatMap_map, take_append, length_slice, slice_take]
    have ih := take_chunks n (data.drop 512)
    simp only [chunk_drop, length_drop] at ih
    have hsplit : data.take (512 * (n + 1)) = data.take 512 ++ (data.drop 512).take (512 * n) := by
      rw [mul_succ, add_comm, take_add]
    have hhead : slice (chunk data 0) 0 (min data.length 512) = data.take 512 := by
      rw [chunk_zero]
      refine ext_getElem (by rw [length_slice, length_take, min_comm]) fun j h1 h2 => ?_
      simp only [slice, getElem_map, getElem_range, ofList, zero_add]
      rw [getD_eq_getElem?_getD, getElem?_eq_getElem h2]
      rfl
    rw [hhead, hsplit]
    congr 1

/-- Cluster `c` holds the data from sector `s` on. -/
def Vol.filled (fs : Fs) (v : Vol) (c s : Nat) (data : Text) : Vol :=
  { v with data := update v.data c fun t => if s ≤ t ∧ t < fs.sectorsPerCluster then chunk data (t - s) else v.data c t }

theorem run_fillSectors (hc : fs.Cluster c) : ∀ (n s : Nat) (data : Text) (v : Vol), s + n = fs.sectorsPerCluster →
    run (step fs) (fillSectors c n s data) v = ((), v.filled fs c s data)
  | 0, s, data, v, hs => by
    have hid : (fun t => if s ≤ t ∧ t < fs.sectorsPerCluster then chunk data (t - s) else v.data c t) = v.data c := by
      funext t
      rw [if_neg (by omega)]
    rw [Vol.filled, hid, update_eq_self]
    rfl
  | n + 1, s, data, v, hs => by
    rw [fillSectors, run_bind, run_writeSector hc (by omega), run_fillSectors hc n (s + 1) _ _ (by omega)]
    simp only [Vol.setSector, Vol.filled, update_idem, update_self]
    congr 2
    funext x t
    by_cases hx : x = c
    · subst hx
      simp only [update_self]
      by_cases ht : t = s
      · rw [ht, update_self, if_neg (by omega), if_pos (by omega), Nat.sub_self, ← chunk_zero, trunc_chunk]
      rw [update_of_ne ht]
      by_cases hts : s ≤ t ∧ t < fs.sectorsPerCluster
      · rw [if_pos hts, if_pos (by omega), chunk_drop]
        congr 1
        omega
      · rw [if_neg hts, if_neg (by omega)]
    · rw [update_of_ne hx, update_of_ne hx]

theorem Vol.take_clusterBytes_filled (data : Text) :
    ((v.filled fs c 0 data).clusterBytes fs c).take data.length = data.take fs.clusterSize := by
  have hbytes : (v.filled fs c 0 data).clusterBytes fs c =
      (range fs.sectorsPerCluster).flatMap fun t => slice (chunk data t) 0 512 := by
    refine flatMap_congr fun s hs => ?_
    simp only [filled, update_self, Nat.zero_le, true_and, mem_range.1 hs, if_true, Nat.sub_zero]
  rw [hbytes, take_chunks, Fs.clusterSize]

/-- The volumes differ at most in the contents of the clusters `cs`. -/
structure Vol.SameFat (cs : List Nat) (v v' : Vol) : Prop where
  fat : v'.fat = v.fat
  data : ∀ c, c ∉ cs → v'.data c = v.data c
  root : v'.root = v.root
  wild : v'.wild = v.wild

theorem fillFrom_eoc {data : Text} (hc : FAT_EOC ≤ c) : fillFrom fs n c data = pure () := by
  cases n with
  | zero => rfl
  | succ n => rw [fillFrom, if_neg (by omega)]

/-- **The second loop of `write_new_chain`** puts the data into the chain. -/
theorem run_fillFrom (h : fs.Ok) : ∀ (n : Nat) {c : Nat} {cs : List Nat} {v : Vol} (data : Text), v.Chain fs c cs → data.length ≤ n →
    ∃ v', run (step fs) (fillFrom fs n c data) v = ((), v') ∧ Vol.SameFat cs v v' ∧
      (v'.bytes fs cs).take data.length = data.take (cs.length * fs.clusterSize)
  | 0, c, cs, v, data, _, hn => by
    rw [length_eq_zero_iff.1 (le_zero.1 hn)]
    exact ⟨v, rfl, ⟨rfl, fun _ _ => rfl, rfl, rfl⟩, by simp⟩
  | n + 1, c, cs, v, data, hc, hn => by
    have hcl := hc.cluster
    have hmax := h.max_le
    have hlt := hcl.2
    have heoc : c < FAT_EOC := by
      simp only [FAT_EOC]
      omega
    rw [fillFrom, run_ite]
    by_cases h0 : data = []
    · rw [if_neg (by simp [h0]), h0]
      exact ⟨v, rfl, ⟨rfl, fun _ _ => rfl, rfl, rfl⟩, by simp⟩
    have hpos := length_pos_of_ne_nil h0
    have hsize := h.clusterSize_pos
    rw [if_pos ⟨hcl.1, heoc, h0⟩, run_bind, run_fillSectors hcl _ 0 data v (zero_add _), run_bind, run_fatRead hcl.2]
    have hother : ∀ x, x ≠ c → (v.filled fs c 0 data).data x = v.data x := fun x hx => update_of_ne hx _ _
    cases hc with
    | last _ hl =>
      simp only [Vol.filled] at hother ⊢
      rw [fillFrom_eoc hl]
      refine ⟨v.filled fs c 0 data, rfl, ⟨rfl, fun x hx => hother x (by simpa using hx), rfl, rfl⟩, ?_⟩
      rw [bytes_cons, take_append, take_clusterBytes_filled]
      simp [Vol.bytes]
    | @link _ cs hok hnl ht =>
      have hnot : c ∉ cs := (nodup_cons.1 (Lib.Chain.link hok hnl ht).nodup).1
      obtain ⟨v', hr, hs, hb⟩ := run_fillFrom h n (data.drop fs.clusterSize)
        (show (v.filled fs c 0 data).Chain fs (v.fat c) cs from ht) (by rw [length_drop]; omega)
      refine ⟨v', hr, ⟨hs.fat, fun x hx => ?_, hs.root, hs.wild⟩, ?_⟩
      · rw [mem_cons, not_or] at hx
        rw [hs.data x hx.2, hother x hx.1]
      · have hcb : v'.clusterBytes fs c = (v.filled fs c 0 data).clusterBytes fs c := by
          unfold Vol.clusterBytes
          rw [hs.data c hnot]
        rw [length_drop] at hb
        rw [bytes_cons, take_append, hcb, take_clusterBytes_filled, clusterBytes_length, hb, length_cons,
          succ_mul, add_comm, take_add]

/-! ## `write_new_chain` -/

/-- The clusters `cs`, free in `v₀`, are a chain from `first` to `last`; the rest is as in `v₀`. -/
structure Vol.Links (fs : Fs) (cs : List Nat) (first last : Nat) (v₀ v : Vol) : Prop where
  same : SameBut fs cs v₀ v
  free : ∀ c ∈ cs, fs.Cluster c ∧ v₀.fat c = 0
  chain : cs = [] ∧ first = 0 ∧ last = 0 ∨ v.Chain fs first cs ∧ cs.getLast? = some last

/-- The FAT is as in `v₀`, and `cs` are all its free clusters. -/
structure Vol.Exhausted (fs : Fs) (cs : List Nat) (v₀ v : Vol) : Prop where
  same : SameBut fs cs v₀ v
  fat : ∀ c, fs.Cluster c → v.fat c = v₀.fat c
  free : ∀ c, c ∈ cs ↔ fs.Cluster c ∧ v₀.fat c = 0
  nodup : cs.Nodup

theorem Vol.SameBut.trans {v₁ : Vol} (h : SameBut fs cs v v') (h' : SameBut fs ds v' v₁) (hsub : cs ⊆ ds) :
    SameBut fs ds v v₁ where
  fat := fun c hc hn => (h'.fat c hc hn).trans (h.fat c hc fun hm => hn (hsub hm))
  data := fun c hc hn => (h'.data c hc hn).trans (h.data c hc fun hm => hn (hsub hm))
  root := h'.root.trans h.root
  wild := h'.wild.trans h.wild

theorem Vol.SameBut.mono (h : SameBut fs cs v v') (hsub : cs ⊆ ds) : SameBut fs ds v v' where
  fat := fun c hc hn => h.fat c hc fun hm => hn (hsub hm)
  data := fun c hc hn => h.data c hc fun hm => hn (hsub hm)
  root := h.root
  wild := h.wild

theorem Vol.SameBut.refl : SameBut fs cs v v := ⟨fun _ _ _ => rfl, fun _ _ _ => rfl, rfl, rfl⟩

theorem Vol.setFat_sameBut {value : Nat} : SameBut fs [c] v (v.setFat c value) where
  fat := fun x _ hx => update_of_ne (fun he => hx (by simp [he])) _ _
  data := fun _ _ _ => rfl
  root := rfl
  wild := rfl

theorem Vol.Links.freed {first last : Nat} (hl : Links fs cs first last v₀ v) (hn : v.firstFree fs = none) :
    Exhausted fs cs v₀ (v.freed cs) := by
  have hfree : ∀ c, c ∈ cs ↔ fs.Cluster c ∧ v₀.fat c = 0 := by
    refine fun c => ⟨hl.free c, fun ⟨hc, h0⟩ => ?_⟩
    by_contra hnot
    exact firstFree_none hn hc ((hl.same.fat c hc hnot).trans h0)
  refine ⟨hl.same.trans freed_sameBut (List.Subset.refl _), fun c hc => ?_, hfree, ?_⟩
  · by_cases hm : c ∈ cs
    · simp only [Vol.freed, if_pos hm, ((hfree c).1 hm).2]
    · simp only [Vol.freed, if_neg hm, hl.same.fat c hc hm]
  · rcases hl.chain with ⟨rfl, -⟩ | ⟨hc, -⟩
    · exact nodup_nil
    · exact hc.nodup

theorem Vol.Links.snoc {first last : Nat} (h : fs.Ok) (hl : Links fs cs first last v₀ v) (hn : v.firstFree fs = some n) :
    Links fs (cs ++ [n]) (if first = 0 then n else first) n v₀
      (if last ≠ 0 then (v.taken fs n).setFat last n else v.taken fs n) := by
  obtain ⟨hcl, hfat⟩ := firstFree_some hn
  have hnot : n ∉ cs := by
    intro hm
    rcases hl.chain with ⟨rfl, -⟩ | ⟨hc, -⟩
    · cases hm
    · exact hc.used hm hfat
  have hsub : cs ⊆ cs ++ [n] := subset_append_left _ _
  have htaken := (hl.same.mono hsub).trans (taken_sameBut.mono (subset_append_right _ _)) (List.Subset.refl _)
  have hfree : ∀ c ∈ cs ++ [n], fs.Cluster c ∧ v₀.fat c = 0 := by
    intro c hc
    rcases mem_append.1 hc with hc | hc
    · exact hl.free c hc
    · rw [mem_singleton.1 hc, ← hl.same.fat n hcl hnot]
      exact ⟨hcl, hfat⟩
  rcases hl.chain with ⟨rfl, rfl, rfl⟩ | ⟨hc, hlast⟩
  · exact ⟨htaken, hfree, .inr ⟨taken_chain hcl, rfl⟩⟩
  · have hlmem := mem_of_getLast? hlast
    have hlc := hc.ok_of_mem hlmem
    have hl0 : last ≠ 0 := by have := hlc.1; omega
    have hln : last ≠ n := fun he => hnot (he ▸ hlmem)
    have hcs0 : first ≠ 0 := hc.ne_zero
    have hmax := h.max_le
    have hnlt := hcl.2
    rw [if_neg hcs0, if_pos hl0]
    refine ⟨htaken.trans (setFat_sameBut.mono (by simpa using hsub hlmem)) (List.Subset.refl _), hfree, .inr ⟨?_, by simp⟩⟩
    have hget : cs.getLast hc.ne_nil = last := by
      rw [getLast?_eq_some_getLast hc.ne_nil] at hlast
      exact Option.some.inj hlast
    refine Lib.Chain.append hc (fun x hx hne => ?_) ?_ (show ¬ FAT_EOC ≤ n by simp only [FAT_EOC]; omega) (.last hcl ?_)
    · have hxn : x ≠ n := fun he => hnot (he ▸ hx)
      simp only [setFat, taken, zeroed]
      rw [update_of_ne (hget ▸ hne), update_of_ne hxn]
    · rw [hget]
      simp only [setFat, update_self]
      omega
    · simp only [setFat]
      rw [update_of_ne hln.symm, taken_fat]
      decide

theorem Vol.freed_nil : v.freed [] = v := by
  simp only [freed, not_mem_nil, if_false]

/-- **The first loop of `write_new_chain`** links `n` free clusters, or leaves the FAT as it was. -/
theorem run_linkFrom (h : fs.Ok) : ∀ (n : Nat) {first last : Nat} {cs : List Nat} {v : Vol}, Vol.Links fs cs first last v₀ v →
    (∀ c, ¬ fs.Cluster c → v.fat c = v₀.fat c) →
    ∃ r v', run (step fs) (linkFrom fs n first last) v = (r, v') ∧
      (r = none → ∃ ds, ds.length < cs.length + n ∧ Vol.Exhausted fs ds v₀ v' ∧ v'.fat = v₀.fat) ∧
      ∀ f l, r = some (f, l) → ∃ ds, ds.length = cs.length + n ∧ Vol.Links fs ds f l v₀ v'
  | 0, first, last, cs, v, hl, _ => by
    refine ⟨some (first, last), v, rfl, by simp, fun f l hr => ?_⟩
    cases hr
    exact ⟨cs, rfl, hl⟩
  | n + 1, first, last, cs, v, hl, hout => by
    rw [linkFrom, run_bind, run_allocCluster]
    cases hf : v.firstFree fs with
    | none =>
      have hfreed : run (step fs) (freeIf first) v = ((), v.freed cs) := by
        rw [freeIf, run_ite]
        rcases hl.chain with ⟨rfl, rfl, -⟩ | ⟨hc, -⟩
        · rw [if_neg (by simp), freed_nil]
          rfl
        · rw [if_pos hc.ne_zero]
          exact run_freeChain h FUEL hc (hc.length_le h)
      simp only [if_true]
      rw [run_bind, hfreed]
      have hx := hl.freed hf
      refine ⟨none, _, rfl, fun _ => ⟨cs, by omega, hx, funext fun c => ?_⟩, by simp⟩
      by_cases hc : fs.Cluster c
      · exact hx.fat c hc
      · rw [← hout c hc]
        exact if_neg fun hm => hc (hl.free c hm).1
    | some m =>
      obtain ⟨hcl, -⟩ := firstFree_some hf
      have hm0 : m ≠ 0 := by have := hcl.1; omega
      have hlink : run (step fs) (linkIf last m) (v.taken fs m) =
          ((), if last ≠ 0 then (v.taken fs m).setFat last m else v.taken fs m) := by
        rw [linkIf, run_ite]
        by_cases hl0 : last = 0
        · rw [if_neg (by simp [hl0]), if_neg (by simp [hl0])]
          rfl
        · rcases hl.chain with ⟨-, -, hz⟩ | ⟨hc, hlast⟩
          · exact absurd hz hl0
          · rw [if_pos hl0, if_pos hl0, run_fatWrite' (Fs.lt_cells (hc.ok_of_mem (mem_of_getLast? hlast)).2)]
      simp only [if_neg hm0]
      rw [run_bind, hlink]
      have hout' : ∀ c, ¬ fs.Cluster c → (if last ≠ 0 then (v.taken fs m).setFat last m else v.taken fs m).fat c = v₀.fat c := by
        intro c hc
        rw [← hout c hc]
        have htaken : (v.taken fs m).fat c = v.fat c := update_of_ne (fun he : c = m => hc (he ▸ hcl)) _ _
        split
        · rename_i hl0
          rw [← htaken]
          refine update_of_ne (fun he : c = last => hc ?_) _ _
          rcases hl.chain with ⟨-, -, hz⟩ | ⟨hch, hlast⟩
          · exact absurd hz hl0
          · exact he ▸ hch.ok_of_mem (mem_of_getLast? hlast)
        · exact htaken
      obtain ⟨r, v', hr, hnone, hsome⟩ := run_linkFrom h n (hl.snoc h hf) hout'
      refine ⟨r, v', hr, fun hrn => ?_, fun f l hrs => ?_⟩
      · obtain ⟨ds, hlen, hx⟩ := hnone hrn
        exact ⟨ds, by rw [length_append, length_singleton] at hlen; omega, hx⟩
      · obtain ⟨ds, hlen, hx⟩ := hsome f l hrs
        exact ⟨ds, by rw [length_append, length_singleton] at hlen; omega, hx⟩

/-- The chain of a new file: none without data, else `clustersFor` clusters that were free and now hold the data. -/
structure Vol.Written (fs : Fs) (cs : List Nat) (first : Nat) (data : Text) (v v' : Vol) : Prop where
  same : SameBut fs cs v v'
  free : ∀ c ∈ cs, fs.Cluster c ∧ v.fat c = 0
  chain : cs = [] ∧ first = 0 ∨ v'.Chain fs first cs
  length : cs.length = if data.length = 0 then 0 else clustersFor fs data.length
  bytes : (v'.bytes fs cs).take data.length = data.take (cs.length * fs.clusterSize)

/-- **`write_new_chain`.** -/
theorem run_writeNewChain (h : fs.Ok) (v : Vol) (data : Text) : ∃ r v', run (step fs) (writeNewChain fs data) v = (r, v') ∧
      (r = none → ∃ ds, ds.length < clustersFor fs data.length ∧ Vol.Exhausted fs ds v v' ∧ v'.fat = v.fat) ∧
      ∀ first, r = some first → ∃ cs, Vol.Written fs cs first data v v' := by
  rw [writeNewChain, run_ite]
  by_cases h0 : data.length = 0
  · rw [if_pos h0]
    refine ⟨some 0, v, rfl, by simp, fun first hf => ?_⟩
    cases hf
    exact ⟨[], Vol.SameBut.refl, by simp, .inl ⟨rfl, rfl⟩, by rw [if_pos h0]; rfl, by rw [h0]; simp⟩
  · rw [if_neg h0, run_bind]
    have hstart : Vol.Links fs [] 0 0 v v := ⟨Vol.SameBut.refl, by simp, .inl ⟨rfl, rfl, rfl⟩⟩
    obtain ⟨r, v₁, hr, hnone, hsome⟩ := run_linkFrom h (clustersFor fs data.length) hstart fun _ _ => rfl
    rw [hr]
    cases r with
    | none =>
      refine ⟨none, v₁, rfl, fun _ => ?_, by simp⟩
      obtain ⟨ds, hlen, hx⟩ := hnone rfl
      exact ⟨ds, by simpa using hlen, hx⟩
    | some fl =>
      obtain ⟨first, last⟩ := fl
      obtain ⟨cs, hlen, hl⟩ := hsome first last rfl
      have hlast : last < fs.cells := by
        rcases hl.chain with ⟨-, -, rfl⟩ | ⟨hc, hlast⟩
        · exact lt_of_lt_of_le (by decide) (le_max_left _ _)
        · exact Fs.lt_cells (hc.ok_of_mem (mem_of_getLast? hlast)).2
      rw [run_bind, run_fatWrite' hlast, run_bind]
      have hsame : Vol.SameBut fs cs v (v₁.setFat last 0xFFFF) := by
        refine ⟨fun c hc hn => ?_, hl.same.data, hl.same.root, hl.same.wild⟩
        have hcl : c ≠ last := by
          rintro rfl
          rcases hl.chain with ⟨-, -, rfl⟩ | ⟨-, hlast⟩
          · exact absurd hc.1 (by decide)
          · exact hn (mem_of_getLast? hlast)
        rw [← hl.same.fat c hc hn]
        exact update_of_ne hcl _ _
      have hlength : cs.length = if data.length = 0 then 0 else clustersFor fs data.length := by
        rw [if_neg h0, hlen]
        simp
      rcases hl.chain with ⟨rfl, rfl, rfl⟩ | ⟨hc, hcl⟩
      · -- `needed` wrapped to 0: the mark goes into cell 0
        have hnofill : fillFrom fs data.length 0 data = pure () := by
          cases data with
          | nil => rfl
          | cons b data => rw [length_cons, fillFrom, if_neg (by omega)]
        rw [hnofill]
        refine ⟨some 0, _, rfl, by simp, fun f hf => ?_⟩
        cases hf
        exact ⟨[], hsame, hl.free, .inl ⟨rfl, rfl⟩, hlength, by simp [Vol.bytes]⟩
      · -- the last cluster gets its mark once more
        have hc' : (v₁.setFat last 0xFFFF).Chain fs first cs := by
          have hget : cs.getLast hc.ne_nil = last := by
            rw [getLast?_eq_some_getLast hc.ne_nil] at hcl
            exact Option.some.inj hcl
          refine hc.remark (fun x _ hne => update_of_ne (hget ▸ hne) _ _) ?_
          rw [hget]
          simp only [Vol.setFat, update_self]
          decide
        obtain ⟨v₂, hr₂, hs, hb⟩ := run_fillFrom h data.length data hc' (le_refl _)
        rw [hr₂]
        refine ⟨some first, v₂, rfl, by simp, fun f hf => ?_⟩
        cases hf
        refine ⟨cs, ⟨fun c hcc hn => ?_, fun c hcc hn => ?_, hs.root.trans hsame.root, hs.wild.trans hsame.wild⟩, hl.free, .inr ?_, hlength, hb⟩
        · rw [hs.fat]
          exact hsame.fat c hcc hn
        · rw [hs.data c hn]
          exact hsame.data c hcc hn
        · exact hc'.congr fun x _ => by rw [hs.fat]

end
end PureUnix.Fat16
