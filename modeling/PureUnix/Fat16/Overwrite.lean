import PureUnix.Fat16.Create
import PureUnix.Fat16.Append

/-!
# Overwriting a file

`fat16_write_file` builds the new chain in the live FAT while the old one is still there. When the clusters run out, it frees
what it has linked so far: the FAT, the directories and every file are as before, and only clusters nobody owns hold other bytes.
-/
namespace PureUnix.Fat16

open Lib
open Vol

section
variable {fs : Fs} {v v' : Vol} {x i : Nat} {p : Place} {f : Found} {path data final : Text} {env : Env} {append : Bool}

/-! ## Lookups in the same tree -/

namespace Vol.SameTree

theorem hit_eq (hs : SameTree fs v v') (hd : v.Dir fs x) (fatName : Text) : v'.hit fs x fatName = v.hit fs x fatName := by
  funext i
  unfold hit seen
  rw [hs.place x hd]
  cases hp : v.place fs x i with
  | none => rfl
  | some p => simp only [Option.bind_some, hs.slot x i p hd hp]

theorem run_lookupFrom (hs : SameTree fs v v') (h : fs.Ok) (t : v.Tree fs) (t' : v'.Tree fs) (hdots : v.Dots fs) (toks : List Text) :
    ∀ {x}, v.Dir fs x → run (step fs) (lookupFrom fs x toks) v' = ((run (step fs) (lookupFrom fs x toks) v).1, v') := by
  induction toks with
  | nil => exact fun _ => rfl
  | cons tok toks ih =>
    intro x hx
    rw [lookupFrom]
    cases nameTo83 tok with
    | none => rfl
    | some fatName =>
      obtain ⟨r, hr, hsome, -⟩ := run_findInDir h t hx fatName
      have hr' : run (step fs) (findInDir fs x fatName) v' = (r, v') := by
        rw [run_findInDir_eq h t hx] at hr
        rw [run_findInDir_eq h t' ((hs.dir x).2 hx), hs.hit_eq hx, (Prod.mk.inj hr).1]
      simp only [run_bind, hr, hr']
      cases r with
      | none => rfl
      | some f =>
        obtain ⟨rfl, -, p, hat⟩ := hsome f rfl
        simp only [run_ite]
        split
        · rfl
        split
        · rename_i hdir
          refine ih ?_
          have hvis := hat.visible
          rw [hat.entry] at hdir hvis ⊢
          exact hdots.leads hx hat.place hvis hdir
        · rfl

theorem run_lookup (hs : SameTree fs v v') (h : fs.Ok) (t : v.Tree fs) (t' : v'.Tree fs) (hdots : v.Dots fs) (path : Text) :
    run (step fs) (pathLookup fs path) v' = ((run (step fs) (pathLookup fs path) v).1, v') := by
  unfold pathLookup
  split
  · rfl
  · split
    · rfl
    · exact hs.run_lookupFrom h t t' hdots _ .refl

end Vol.SameTree

/-- What is found by a name and is no directory has its chain, be it a record "." or "..". -/
theorem Vol.Dots.headed (hdots : v.Dots fs) (h : fs.Ok) (t : v.Tree fs) (hx : v.Dir fs x) (hp : v.place fs x i = some p)
    (hv : (v.slot p).isVisible = true) (hfile : (v.slot p).isDirectory = false) : v.Headed fs (v.slot p) := by
  have hdir : ∀ {y}, v.Dir fs y → (v.slot p).firstCluster = y → v.Headed fs (v.slot p) := by
    rintro y hy rfl
    by_cases h0 : (v.slot p).firstCluster = 0
    · exact .inl ⟨h0, hfile⟩
    · exact .inr ⟨_, t.dir_chain h hy h0⟩
  cases hdot : (v.slot p).isDot with
  | false =>
    refine t.headed p ⟨x, i, hx, hp, ?_⟩
    rw [Entry.isLive, hv, hdot]
    rfl
  | true =>
    rcases hdots.kinds x i p hx hp hv hdot with ⟨-, hself⟩ | hname
    · exact hdir hx hself
    · have h0 : x ≠ 0 := by
        rintro rfl
        rw [hdots.root i p hp hv] at hdot
        cases hdot
      obtain ⟨y, hy, he⟩ := hx.parent h0
      exact hdir hy (hdots.parent y x i p hy he hp (Entry.isDotDot_iff.2 ⟨hv, hname⟩))

/-! ## The bytes of a file -/

/-- A file with the same record and the same bytes reads the same. -/
theorem run_readFile_same (h : fs.Ok) (hl : run (Vol.step fs) (pathLookup fs path) v = (some f, v))
    (hl' : run (Vol.step fs) (pathLookup fs path) v' = (some f, v')) (hh : v.Headed fs f.entry) (hh' : v'.Headed fs f.entry)
    (hb : v'.bytes fs (v'.own f.entry) = v.bytes fs (v.own f.entry)) (env : Env) :
    run (Vol.step fs) (readFile fs env path) v' = ((run (Vol.step fs) (readFile fs env path) v).1, v') := by
  simp only [readFile, run_bind, hl, hl', run_ite]
  split
  · rfl
  · split
    · rfl
    · simp only [run_readOwn h hh, run_readOwn h hh', hb, Prog.run_pure]

/-- The clusters of a file are none of those that were tried. -/
theorem Vol.Exhausted.run_readFile {cs : List Nat} (hx : Vol.Exhausted fs cs v v') (hfat : v'.fat = v.fat) (h : fs.Ok)
    (hh : v.Headed fs f.entry) (hl : run (Vol.step fs) (pathLookup fs path) v = (some f, v))
    (hl' : run (Vol.step fs) (pathLookup fs path) v' = (some f, v')) (env : Env) :
    run (Vol.step fs) (readFile fs env path) v' = ((run (Vol.step fs) (readFile fs env path) v).1, v') := by
  have hown : v'.own f.entry = v.own f.entry := by simp only [Vol.own, Vol.clusters, hfat]
  have hh' : v'.Headed fs f.entry := by simpa only [Vol.Headed, Vol.Chain, hfat] using hh
  refine run_readFile_same h hl hl' hh hh' ?_ env
  rw [hown]
  refine Vol.bytes_congr fun c hc => ?_
  obtain ⟨hcl, hused⟩ := hh.used h hc
  exact hx.same.data c hcl fun hm => hused ((hx.free c).1 hm).2

/-- The text to be written needs more clusters than there are. -/
theorem run_replaceContents_few (h : fs.Ok) (hfew : ¬ v.Takes fs final.length) :
    ∃ cs w, run (Vol.step fs) (replaceContents fs f final) v = (-1, w) ∧ Vol.Exhausted fs cs v w ∧ w.fat = v.fat := by
  obtain ⟨r, w, hr, hnone, hsome⟩ := run_writeNewChain h v final
  rw [replaceContents, run_bind, hr]
  cases r with
  | none =>
    obtain ⟨cs, -, hx, hfat⟩ := hnone rfl
    exact ⟨cs, w, rfl, hx, hfat⟩
  | some first =>
    obtain ⟨cs, hw⟩ := hsome first rfl
    exact absurd hw.takes hfew

/-! ## The call -/

/-- **An overwrite that runs out of clusters** fails and changes nothing that can be seen: not a cell of any copy of the FAT, no
record of any directory, and not what is read from the file. -/
theorem writeFile_exhausted {disk : Disk} (h : fs.Ok) (hd : disk.Consistent fs) (hdots : (disk.vol fs).Dots fs)
    (hf : (onDisk fs (pathLookup fs path) disk).1 = some f) (hfile : f.entry.isDirectory = false)
    (hfin : (onDisk fs (finalContents fs env path data append) disk).1 = some final) (hfew : ¬ (disk.vol fs).Takes fs final.length) :
    ∃ disk', onDisk fs (writeFile fs env path data append) disk = (-1, disk') ∧
      (∀ j c, j < fs.fatCount → c < fs.cells → disk'.cell fs j c = disk.cell fs j c) ∧
      Vol.SameTree fs (disk.vol fs) (disk'.vol fs) ∧
      ∀ env', (onDisk fs (readFile fs env' path) disk').1 = (onDisk fs (readFile fs env' path) disk).1 := by
  have t := hd.vol.toTree
  have hdec : Decodes fs disk (disk.vol fs) := ⟨hd.mirrored, rfl⟩
  have hans : ∀ {α : Type} {dk : Disk} {prog : Drv α} {r : α}, dk.Mirrored fs → run (Vol.step fs) prog (dk.vol fs) = (r, dk.vol fs) →
      (onDisk fs prog dk).1 = r := fun hm hr => by
    rw [(onDisk_simulates h _ ⟨hm, rfl⟩ (by rw [hr]; rfl)).1, hr]
  -- the lookup and the reads leave the volume as it is
  obtain ⟨r, hlook, hfound⟩ := run_lookup_dots h t hdots path
  rw [hans hd.mirrored hlook] at hf
  subst hf
  have hhead : (disk.vol fs).Headed fs f.entry := by
    rcases (hfound f rfl).1 with ⟨-, rfl⟩ | ⟨-, hx, ⟨p, hat⟩, -⟩
    · exact absurd hfile (by decide)
    · have hvis := hat.visible
      rw [hat.entry] at hvis hfile ⊢
      exact hdots.headed h t hx hat.place hvis hfile
  have hread := run_readFile_same h hlook hlook hhead hhead rfl
  have hfinal : run (Vol.step fs) (finalContents fs env path data append) (disk.vol fs) = (some final, disk.vol fs) := by
    have hkeep : (run (Vol.step fs) (finalContents fs env path data append) (disk.vol fs)).2 = disk.vol fs := by
      rw [finalContents, run_ite]
      split
      · rw [run_bind, hread]
        cases (run (Vol.step fs) (readFile fs env path) (disk.vol fs)).1 <;> rfl
      · rfl
    rw [hans hd.mirrored (Prod.ext rfl hkeep)] at hfin
    exact Prod.ext hfin hkeep
  obtain ⟨cs, w, hrun, hx, hfat⟩ := run_replaceContents_few h hfew
  obtain ⟨t', hsame⟩ := t.frame h hx.same (by
    rintro c hc ⟨q, hq, hm⟩
    exact ((t.headed q hq).used h hm).2 ((hx.free c).1 hc).2)
  have hwrite : run (Vol.step fs) (writeFile fs env path data append) (disk.vol fs) = (-1, w) := by
    rw [writeFile, run_bind, hlook]
    dsimp only
    rw [writeFound, if_neg (by rw [hfile]; decide), run_bind, hfinal]
    exact hrun
  obtain ⟨hrc, hm', hvol⟩ := onDisk_simulates h (writeFile fs env path data append) hdec (by rw [hwrite]; exact t'.wild)
  rw [hwrite] at hrc hvol
  obtain rfl : w = _ := hvol
  refine ⟨_, Prod.ext hrc rfl, fun j c hj hc => ?_, hsame, fun env' => ?_⟩
  · have hcell := congrFun hfat c
    simp only [Disk.vol, if_pos hc] at hcell
    rw [hm' j hj c hc, hd.mirrored j hj c hc, hcell]
  · rw [hans hm' (hx.run_readFile hfat h hhead hlook (by rw [hsame.run_lookup h t t' hdots, hlook]) env'), hans hd.mirrored (hread env')]

end

theorem small_lookup_F : (onDisk smallFs (pathLookup smallFs [slash, 70]) smallDisk).1.isSome = true := by decide +kernel

/-- "/F" cannot grow to three clusters where two are free, and keeps its three bytes. -/
theorem writeFile_exhausted_F : ∃ disk',
    onDisk smallFs (writeFile smallFs ⟨true, true, zeros⟩ [slash, 70] (List.replicate 1100 65) false) smallDisk = (-1, disk') ∧
      (onDisk smallFs (readFile smallFs ⟨true, true, zeros⟩ [slash, 70]) disk').1 = some [97, 98, 99] := by
  have hfinal : (onDisk smallFs (finalContents smallFs ⟨true, true, zeros⟩ [slash, 70] (List.replicate 1100 65) false) smallDisk).1 =
      some (List.replicate 1100 65) := rfl
  obtain ⟨disk', hrc, -, -, hread⟩ := writeFile_exhausted smallFs_ok smallDisk_consistent Small.dots
    (Option.some_get small_lookup_F).symm (by decide +kernel) hfinal (by decide +kernel)
  refine ⟨disk', hrc, ?_⟩
  rw [hread]
  decide +kernel

end PureUnix.Fat16
