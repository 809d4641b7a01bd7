import PureUnix.Lib.Rewrite
import PureUnix.Fat16.Runs

/-!
# Appending to a file

With `VFS_O_APPEND`, `fat16_write_file` reads the file, puts the new bytes behind the old in a buffer, and writes a new
chain. The new chain is made before the old one is freed, so it has the clusters that are free before the call.
-/
namespace PureUnix.Fat16

open Lib List Nat Vol Bool Entry

variable {c d i : Nat} {e : Entry}

section
variable {fs : Fs} {v v' : Vol} {path data : Text} {f : Found} {p : Place} {cs : List Nat} {first : Nat}

/-! ## Clusters for a text -/

def Vol.freeClusters (fs : Fs) (v : Vol) : List Nat := (List.range fs.maxCluster).filter fun c => decide (fs.Cluster c ∧ v.fat c = 0)

theorem Vol.mem_freeClusters : c ∈ v.freeClusters fs ↔ fs.Cluster c ∧ v.fat c = 0 := by
  unfold freeClusters
  simp only [mem_filter, mem_range, decide_eq_true_eq]
  exact ⟨And.right, fun hc => ⟨hc.1.2, hc⟩⟩

theorem Vol.nodup_freeClusters : (v.freeClusters fs).Nodup := nodup_range.filter _

/-- The number of clusters `write_new_chain` asks for. -/
def chainLength (fs : Fs) (size : Nat) : Nat := if size = 0 then 0 else clustersFor fs size

/-- `write_new_chain` gets its clusters. -/
def Vol.Takes (fs : Fs) (v : Vol) (size : Nat) : Prop := chainLength fs size ≤ (v.freeClusters fs).length

def Vol.HasRoom (fs : Fs) (v : Vol) (size : Nat) : Prop := (size + fs.clusterSize - 1) / fs.clusterSize ≤ (v.freeClusters fs).length

instance (fs : Fs) (v : Vol) (size : Nat) : Decidable (v.Takes fs size) := inferInstanceAs (Decidable (_ ≤ _))

instance (fs : Fs) (v : Vol) (size : Nat) : Decidable (v.HasRoom fs size) := inferInstanceAs (Decidable (_ ≤ _))

/-- What can be read back of a text that was written: where the sum in `write_new_chain` wraps, its chain is too short. -/
def chainText (fs : Fs) (t : Text) : Text := t.take (min (chainLength fs t.length * fs.clusterSize) (t.length % 2 ^ 32))

/-- The text can be read back. -/
def ChainHolds (fs : Fs) (t : Text) : Prop := t.length ≤ chainLength fs t.length * fs.clusterSize ∧ t.length < 2 ^ 32

theorem length_chainText (t : Text) : (chainText fs t).length ≤ t.length := by
  unfold chainText
  rw [length_take]
  omega

theorem chainHolds_iff (t : Text) : ChainHolds fs t ↔ chainText fs t = t := by
  have hmod : t.length ≤ t.length % 2 ^ 32 ↔ t.length < 2 ^ 32 := by omega
  unfold ChainHolds chainText
  rw [← hmod, ← Nat.le_min]
  constructor
  · intro hle
    exact take_of_length_le hle
  · intro he
    have hlen := congrArg length he
    rw [length_take] at hlen
    omega

theorem clustersFor_le (size : Nat) : clustersFor fs size ≤ (size + fs.clusterSize - 1) / fs.clusterSize :=
  Nat.div_le_div_right (Nat.mod_le _ _)

theorem clustersFor_zero (h : fs.Ok) : clustersFor fs 0 = 0 := by
  have hpos := h.clusterSize_pos
  have hle : clustersFor fs 0 ≤ _ := clustersFor_le 0
  rw [div_eq_of_lt (by omega)] at hle
  omega

theorem Vol.HasRoom.takes {m n : Nat} (hmn : m ≤ n) (hr : v.HasRoom fs n) : v.Takes fs m := by
  have hle : chainLength fs m ≤ (m + fs.clusterSize - 1) / fs.clusterSize := by
    unfold chainLength
    split
    · exact zero_le _
    · exact clustersFor_le m
  have hmono : (m + fs.clusterSize - 1) / fs.clusterSize ≤ (n + fs.clusterSize - 1) / fs.clusterSize := Nat.div_le_div_right (by omega)
  unfold Takes
  unfold HasRoom at hr
  omega

theorem Vol.Exhausted.length (hx : Vol.Exhausted fs cs v v') : cs.length = (v.freeClusters fs).length := by
  refine List.Perm.length_eq ((perm_ext_iff_of_nodup hx.nodup nodup_freeClusters).2 fun c => ?_)
  rw [hx.free, mem_freeClusters]

theorem Vol.Written.takes (hw : Vol.Written fs cs first data v v') : v.Takes fs data.length := by
  have hnd : cs.Nodup := by
    rcases hw.chain with ⟨rfl, -⟩ | hc
    · exact nodup_nil
    · exact hc.nodup
  have hsub : cs ⊆ v.freeClusters fs := fun c hc => mem_freeClusters.2 (hw.free c hc)
  have hle := (subperm_of_subset hnd hsub).length_le
  rw [hw.length] at hle
  exact hle

/-! ## The new contents of a file -/

/-- The bytes of the file with the record at `p`. -/
def Vol.text (fs : Fs) (v : Vol) (p : Place) : Text := (v.bytes fs (v.own (v.slot p))).take (v.slot p).size

theorem fileEntry_size {size : Nat} : (fileEntry e first size).size = size % 2 ^ 32 := by
  rw [fileEntry, size_setAttr, size_setSize]

/-- A record is written into the root directory or into a cluster of a directory. -/
theorem Vol.data_setSlot (hd : v.Dir fs d) (hp : v.place fs d i = some p) (hc : ¬ v.Owned fs c) :
    (v.setSlot p e).data c = v.data c := by
  cases p with
  | root i => rfl
  | data x k =>
    obtain ⟨-, ⟨-, he⟩ | ⟨h0, y, hy, he⟩⟩ := place_some.1 hp
    · cases he
    · cases he
      have hne : c ≠ x := by
        rintro rfl
        exact hc (hd.owned h0 (mem_of_getElem? hy))
      exact Function.update_of_ne hne _ _

theorem Vol.Written.text (h : fs.Ok) (hw : Vol.Written fs cs first data v v') (hd : v'.Dir fs d)
    (hp : v'.place fs d i = some p) (hno : ∀ c ∈ cs, ¬ v'.Owned fs c) (hold : ∀ c ∈ cs, c ∉ v'.own (v'.slot p)) :
    (v'.settled p (fileEntry e first data.length)).text fs p = chainText fs data := by
  obtain ⟨hlt, -, -⟩ := hw.first_lt (e := e) h
  have hslot : (v'.settled p (fileEntry e first data.length)).slot p = trunc 32 (fileEntry e first data.length) := by
    rw [← slot_setSlot_self v' p]
    cases p <;> rfl
  have hown : (v'.settled p (fileEntry e first data.length)).own (trunc 32 (fileEntry e first data.length)) = cs := by
    rcases hw.chain with ⟨rfl, rfl⟩ | hc
    · rw [Vol.own, if_pos (by rw [firstCluster_trunc, fileEntry_first (by decide)])]
    · refine own_of_chain h ?_
      rw [firstCluster_trunc, fileEntry_first hlt]
      refine hc.congr fun c hm => ?_
      simp only [Vol.settled, Vol.freed, if_neg (hold c hm), fat_setSlot]
  have hbytes : (v'.settled p (fileEntry e first data.length)).bytes fs cs = v'.bytes fs cs :=
    bytes_congr fun c hm => data_setSlot hd hp (hno c hm)
  have hcs : cs.length = chainLength fs data.length := hw.length
  unfold Vol.text chainText
  rw [hslot, hown, hbytes, size_trunc, fileEntry_size, ← hcs]
  have hmod : data.length % 2 ^ 32 = min (data.length % 2 ^ 32) data.length := by omega
  rw [hmod, ← take_take, hw.bytes, take_take, ← hmod, min_comm]

theorem run_replaceContents (h : fs.Ok) (hv : v.Consistent fs) (hf : f.Live fs v p) (hnd : f.entry.isDirectory = false) (final : Text) :
    ∃ rc v', run (Vol.step fs) (replaceContents fs f final) v = (rc, v') ∧ v'.wild = false ∧
      Rewrites rc (v'.text fs p) final (v.Takes fs) (chainText fs) := by
  have hkeep := replaceContents_keeps h hv hf hnd final
  obtain ⟨r, v₁, hr, hnone, hsome⟩ := run_writeNewChain h v final
  unfold Keeps wp at hkeep
  generalize hrun : run (Vol.step fs) (replaceContents fs f final) v = out at hkeep
  obtain ⟨rc, v'⟩ := out
  refine ⟨rc, v', rfl, hkeep.wild, ?_⟩
  rw [replaceContents, run_bind, hr] at hrun
  cases r with
  | none =>
    obtain ⟨ds, hlt, hx, -⟩ := hnone rfl
    obtain ⟨rfl, rfl⟩ := Prod.mk.inj hrun
    have hno : ¬ v.Takes fs final.length := by
      intro ht
      unfold Vol.Takes chainLength at ht
      rw [← hx.length] at ht
      by_cases h0 : final.length = 0
      · rw [h0, clustersFor_zero h] at hlt
        exact absurd hlt (not_lt_zero _)
      · rw [if_neg h0] at ht
        omega
    exact ⟨⟨fun hz => absurd hz (by decide), fun ht => absurd ht hno⟩, fun hz => absurd hz (by decide)⟩
  | some first =>
    obtain ⟨cs, hw⟩ := hsome first rfl
    obtain ⟨t₁, hsame, hno⟩ := hw.frame h hv.toTree
    have hf₁ := hf.of_same hsame
    obtain ⟨hlt, hhead, hown⟩ := hw.first_lt h
    have hfit := hf₁.fits_file t₁ hnd hlt hhead fun c hc => hno c (hown final.length ▸ hc)
    have hsettle := hfit.run_settle h t₁ hf₁.live
    rw [← hf₁.entry] at hsettle
    obtain ⟨rfl, rfl⟩ := Prod.mk.inj (hsettle.symm.trans hrun)
    refine ⟨⟨fun _ => hw.takes, fun _ => rfl⟩, fun _ => ?_⟩
    exact hw.text h hf₁.dir hf₁.place hno fun c hc hm => hno c hc ⟨p, hf₁.live, hm⟩

/-! ## The call -/

/-- `path` leads to the record of a file, and the file's chain has its bytes. -/
structure FileAt (fs : Fs) (v : Vol) (path : Text) (f : Found) (p : Place) : Prop where
  lookup : Prog.run (Vol.step fs) (pathLookup fs path) v = (some f, v)
  live : f.Live fs v p
  file : f.entry.isDirectory = false
  covered : (v.slot p).size ≤ (v.own (v.slot p)).length * fs.clusterSize

/-- `fat16_read_file` gets a buffer; for a file of `2 ^ 32 - 1` bytes it asks for none. -/
def readable (env : Env) (old : Text) : Bool := env.readBuf && decide (old.length + 1 ≠ 2 ^ 32)

theorem Entry.size_lt (e : Entry) : e.size < 2 ^ 32 := get32_lt _ _

theorem FileAt.length_text (hf : FileAt fs v path f p) : (v.text fs p).length = f.entry.size := by
  unfold Vol.text
  rw [length_take, bytes_length, ← hf.live.entry]
  have := hf.covered
  rw [← hf.live.entry] at this
  omega

/-- **`fat16_read_file`** gives the bytes of the file. -/
theorem FileAt.run_readFile (h : fs.Ok) (t : v.Tree fs) (hf : FileAt fs v path f p) (env : Env) :
    run (Vol.step fs) (readFile fs env path) v = (if readable env (v.text fs p) = true then some (v.text fs p) else none, v) := by
  have hlen := hf.length_text
  have hlt := f.entry.size_lt
  have hh := t.headed p hf.live.live
  rw [← hf.live.entry] at hh
  have hcond : (env.readBuf = false ∨ (f.entry.size + 1) % 2 ^ 32 = 0) ↔ ¬ readable env (v.text fs p) = true := by
    unfold readable
    simp only [and_eq_true, decide_eq_true_eq, not_and_or, not_eq_true]
    exact or_congr_right (by omega)
  rw [readFile, run_bind, hf.lookup]
  dsimp only
  rw [if_neg (by rw [hf.file]; decide)]
  by_cases hr : readable env (v.text fs p) = true
  · rw [if_neg (fun hc => hcond.1 hc hr), if_pos hr, run_bind, run_readOwn h hh]
    have htext : (v.bytes fs (v.own f.entry)).take f.entry.size = v.text fs p := by
      rw [Vol.text, hf.live.entry]
    rw [htext, hlen, Nat.sub_self]
    simp only [Prog.run_pure, slice, range_zero, map_nil, append_nil]
  · rw [if_pos (hcond.2 hr), if_neg hr]
    rfl

theorem FileAt.run_finalContents (h : fs.Ok) (t : v.Tree fs) (hf : FileAt fs v path f p) (env : Env) (data : Text) :
    run (Vol.step fs) (finalContents fs env path data true) v =
      (rewritten (2 ^ 32) (readable env (v.text fs p)) env.kmalloc (v.text fs p) data, v) := by
  rw [finalContents, if_pos rfl, run_bind, hf.run_readFile h t]
  by_cases hr : readable env (v.text fs p) = true
  · simp only [hr, if_true]
    rfl
  · simp only [hr]
    rfl

/-- **When an append to a file is sound**: on the volume. -/
theorem FileAt.run_append (h : fs.Ok) (hv : v.Consistent fs) (hf : FileAt fs v path f p) (env : Env) (data : Text) :
    ∃ rc v', run (Vol.step fs) (writeFile fs env path data true) v = (rc, v') ∧ v'.wild = false ∧
      (Appended rc (v'.text fs p) (v.text fs p) data (env.readBuf = true ∧ env.kmalloc = true)
          (v.HasRoom fs ((v.text fs p).length + data.length)) ↔
        AppendSound (2 ^ 32) (readable env (v.text fs p)) env.kmalloc (v.text fs p) data (v.Takes fs) (v.HasRoom fs) (ChainHolds fs)) := by
  have hends : ∃ rc v', run (Vol.step fs) (writeFile fs env path data true) v = (rc, v') ∧ v'.wild = false ∧
      (rewritten (2 ^ 32) (readable env (v.text fs p)) env.kmalloc (v.text fs p) data = none → rc ≠ 0) ∧
      ∀ t, rewritten (2 ^ 32) (readable env (v.text fs p)) env.kmalloc (v.text fs p) data = some t →
        Rewrites rc (v'.text fs p) t (v.Takes fs) (chainText fs) := by
    rw [writeFile, run_bind, hf.lookup]
    dsimp only
    rw [writeFound, if_neg (by rw [hf.file]; decide), run_bind, hf.run_finalContents h hv.toTree]
    cases rewritten (2 ^ 32) (readable env (v.text fs p)) env.kmalloc (v.text fs p) data with
    | none => exact ⟨-1, v, rfl, hv.wild, fun _ => by decide, nofun⟩
    | some final =>
      obtain ⟨rc, v', hrun, hwild, hrw⟩ := run_replaceContents h hv hf.live hf.file final
      refine ⟨rc, v', hrun, hwild, nofun, fun t ht => ?_⟩
      cases ht
      exact hrw
  obtain ⟨rc, v', hrun, hwild, hnone, hsome⟩ := hends
  refine ⟨rc, v', hrun, hwild, appended_iff (by decide) (fun hr hb => ⟨?_, hb⟩) And.right hnone hsome ?_ length_chainText chainHolds_iff⟩
  · exact (and_eq_true_iff.1 hr).1
  · intro m n hmn hr
    exact hr.takes hmn

end
end PureUnix.Fat16
