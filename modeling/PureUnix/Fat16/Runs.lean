import PureUnix.Lib.Machine
import PureUnix.Fat16.Sample

/-!
# Runs of the driver

The calls that change a volume, one after the other, on a disk. Every disk that a run reaches from a consistent one
is consistent: the copies of the FAT agree, and the volume on it is one in the sense of `Vol.Consistent`.
-/
namespace PureUnix.Fat16

open Lib Entry

inductive Op
  | create (path : Text) (directory : Bool)
  | write (env : Env) (path data : Text) (append : Bool)
  | unlink (path : Text) (directory : Bool)
  | rename (old new : Text)

def Op.prog (fs : Fs) : Op → Drv Int
  | .create path directory => Fat16.create fs path directory
  | .write env path data append => writeFile fs env path data append
  | .unlink path directory => Fat16.unlink fs path directory
  | .rename old new => Fat16.rename fs old new

def step (fs : Fs) (d : Disk) (op : Op) : Int × Disk := onDisk fs (op.prog fs) d

structure Disk.Consistent (fs : Fs) (d : Disk) : Prop where
  mirrored : d.Mirrored fs
  vol : (d.vol fs).Consistent fs

/-- No component with a reserved name; a rename stays in its directory. -/
def Op.Allowed (fs : Fs) (d : Disk) : Op → Prop
  | .create path _ => Plain path
  | .write _ path _ _ => Plain path
  | .unlink path _ => Plain path
  | .rename old new => Plain old ∧ Plain new ∧ Within fs (d.vol fs) old new

section
variable {fs : Fs} {d : Disk} {op : Op}

theorem Op.keeps (h : fs.Ok) (hd : (d.vol fs).Consistent fs) (ha : op.Allowed fs d) : Keeps fs (op.prog fs) (d.vol fs) := by
  cases op with
  | create path directory => exact create_keeps h hd ha directory
  | write env path data append => exact writeFile_keeps h hd ha env data append
  | unlink path directory => exact unlink_keeps h hd ha directory
  | rename old new => exact rename_keeps h hd ha.1 ha.2.1 ha.2.2

theorem Disk.Consistent.onDisk {α : Type} (h : fs.Ok) (hd : d.Consistent fs) {prog : Drv α} (hk : Keeps fs prog (d.vol fs)) :
    (onDisk fs prog d).2.Consistent fs := by
  obtain ⟨-, hm, hv⟩ := onDisk_simulates h prog ⟨hd.mirrored, rfl⟩ hk.wild
  exact ⟨hm, hv ▸ hk⟩

theorem step_consistent (h : fs.Ok) (hd : d.Consistent fs) (ha : op.Allowed fs d) : (step fs d op).2.Consistent fs :=
  hd.onDisk h (Op.keeps h hd.vol ha)

/-- **FAT16 allocation is exact.** Every disk reached from a consistent one is consistent. -/
theorem fat16_stays_consistent (h : fs.Ok) (hd : d.Consistent fs) {ops : List Op} (hops : Along (step fs) (fun d op => op.Allowed fs d) d ops) :
    (runs (step fs) d ops).2.Consistent fs :=
  runs_invariant (fun _ _ hd ha => step_consistent h hd ha) hd hops

end

theorem smallDisk_consistent : smallDisk.Consistent smallFs := ⟨Small.mirrored, Small.consistent⟩

/-- "/A" becomes "/C", a directory "/B/D" is made, "/F" grows to three clusters, of which there are two, and is removed. -/
def sampleOps : List Op :=
  [.rename [slash, 65] [slash, 67], .create [slash, 66, slash, 68] true,
    .write ⟨true, true, zeros⟩ [slash, 70] (List.replicate 1100 65) true, .unlink [slash, 70] false]

theorem sampleOps_consistent : (runs (step smallFs) smallDisk sampleOps).2.Consistent smallFs :=
  fat16_stays_consistent smallFs_ok smallDisk_consistent
    ⟨⟨by decide, by decide, by decide +kernel⟩, show Plain _ by decide, show Plain _ by decide, show Plain _ by decide, trivial⟩

/-! ## Records behind an end mark -/

namespace Vol
section
variable (fs : Fs) (v : Vol)

/-- A record of a file or directory in front of the first end mark of directory `d`. -/
def Front (d : Nat) (p : Place) : Prop :=
  ∃ i, v.place fs d i = some p ∧ (v.slot p).isLive = true ∧
    ∀ j ≤ i, ∀ q, v.place fs d j = some q → (v.slot q).isEnd = false

def FrontEdge (d x : Nat) : Prop :=
  ∃ p, v.Front fs d p ∧ (v.slot p).isSub = true ∧ (v.slot p).firstCluster = x

def FrontLive (p : Place) : Prop := ∃ d, Reach (v.FrontEdge fs) 0 d ∧ v.Front fs d p

/-- Consistency when only the records in front of the end marks count. -/
structure FrontConsistent : Prop where
  headed : ∀ p, v.FrontLive fs p → v.Headed fs (v.slot p)
  apart : ∀ p q, v.FrontLive fs p → v.FrontLive fs q →
    ∀ c ∈ v.own (v.slot p), c ∈ v.own (v.slot q) → p = q
  covered : ∀ c, fs.Cluster c → v.fat c ≠ 0 → ∃ p, v.FrontLive fs p ∧ c ∈ v.own (v.slot p)

end

variable {fs : Fs} {v : Vol} {d : Nat} {p : Place}

theorem Ended.front_iff (h : v.Ended fs d) :
    v.Front fs d p ↔ ∃ i, v.place fs d i = some p ∧ (v.slot p).isLive = true := by
  constructor
  · rintro ⟨i, hp, hl, -⟩
    exact ⟨i, hp, hl⟩
  · rintro ⟨i, hp, hl⟩
    refine ⟨i, hp, hl, fun j hj q hq => ?_⟩
    by_contra hend
    have hpe := h j i q p hj hq hp (by simpa using hend)
    rw [isEnd_of_isLive hl] at hpe
    cases hpe

/-- With `Tree.ended` nothing stands behind an end mark. -/
theorem Tree.frontLive_iff (t : v.Tree fs) : v.FrontLive fs p ↔ v.Live fs p := by
  have hedge : ∀ y, v.Dir fs y → ∀ z, v.FrontEdge fs y z ↔ v.Edge fs y z := by
    intro y hy z
    constructor
    · rintro ⟨q, hq, hs, hz⟩
      obtain ⟨i, hi, -⟩ := (t.ended y hy).front_iff.1 hq
      exact ⟨i, q, hi, hs, hz⟩
    · rintro ⟨i, q, hi, hs, hz⟩
      exact ⟨q, (t.ended y hy).front_iff.2 ⟨i, hi, isLive_of_isSub hs⟩, hs, hz⟩
  constructor
  · rintro ⟨d, hd, hp⟩
    have hd' := (Reach.congr hedge).1 hd
    obtain ⟨i, hi, hl⟩ := (t.ended d hd').front_iff.1 hp
    exact ⟨d, i, hd', hi, hl⟩
  · rintro ⟨d, i, hd, hi, hl⟩
    exact ⟨d, (Reach.congr hedge).2 hd, (t.ended d hd).front_iff.2 ⟨i, hi, hl⟩⟩

theorem Consistent.front (h : v.Consistent fs) : v.FrontConsistent fs where
  headed p hp := h.headed p (h.frontLive_iff.1 hp)
  apart p q hp hq := h.apart p q (h.frontLive_iff.1 hp) (h.frontLive_iff.1 hq)
  covered c hc hu := by
    obtain ⟨p, hp, hown⟩ := h.covered c hc hu
    exact ⟨p, h.frontLive_iff.2 hp, hown⟩

end Vol

/-- The file F with the text "abc" in cluster 4, an end mark, and behind it an old record G of the same cluster. -/
def staleDisk : Disk
  | 1 => put16 zeros 8 0xFFFF
  | 2 => put16 zeros 8 0xFFFF
  | 3 => copy (copy zeros 0 (fileRecord 70) 32) 64 (fileRecord 71) 32
  | 6 => ofList [97, 98, 99]
  | _ => zeros

namespace Stale

theorem mirrored : staleDisk.Mirrored smallFs := by
  show ∀ j < 2, ∀ c < 6, staleDisk.cell smallFs j c = staleDisk.cell smallFs 0 c
  decide +kernel

theorem fat : ∀ c < 6, (staleDisk.vol smallFs).fat c = if c = 4 then 0xFFFF else 0 := by decide +kernel

theorem slots : ((staleDisk.vol smallFs).slot (.root 1)).isEnd = true ∧
    ((staleDisk.vol smallFs).slot (.root 0)).isSub = false ∧
    ((staleDisk.vol smallFs).slot (.root 0)).isLive = true ∧
    ((staleDisk.vol smallFs).slot (.root 0)).firstCluster = 4 := by decide +kernel

/-- "/H" takes the place of the end mark. -/
def after : Vol := (step smallFs staleDisk (.create [slash, 72] false)).2.vol smallFs

theorem after_slots : ∀ i < 3, (after.slot (.root i)).isEnd = false ∧ (after.slot (.root i)).isLive = true ∧
    (i ≠ 1 → (after.slot (.root i)).firstCluster = 4) := by decide +kernel

theorem after_fat : after.fat 4 = 0xFFFF := by decide +kernel

theorem consistent : (staleDisk.vol smallFs).FrontConsistent smallFs := by
  have hchain : (staleDisk.vol smallFs).Chain smallFs 4 [4] := .last (by decide) (by rw [fat 4 (by decide)]; decide)
  have hroot {p : Place} (hp : (staleDisk.vol smallFs).Front smallFs 0 p) : p = .root 0 := by
    obtain ⟨i, hi, -, hfront⟩ := hp
    obtain ⟨-, rfl⟩ := smallFs_root.1 hi
    by_contra hne
    have h1 : 1 ≤ i := Nat.pos_of_ne_zero fun h0 => hne (by rw [h0])
    have hend := hfront 1 h1 _ (smallFs_root.2 ⟨by decide, rfl⟩)
    rw [slots.1] at hend
    cases hend
  -- F is no directory, so the root directory is the only one
  have hlive {p : Place} (hp : (staleDisk.vol smallFs).FrontLive smallFs p) : p = .root 0 := by
    obtain ⟨d, hd, hp⟩ := hp
    cases hd.cases_head with
    | inl h0 => exact hroot (h0 ▸ hp)
    | inr h =>
      obtain ⟨x, ⟨q, hq, hs, -⟩, -⟩ := h
      rw [hroot hq, slots.2.1] at hs
      cases hs
  have hown : (staleDisk.vol smallFs).own ((staleDisk.vol smallFs).slot (.root 0)) = [4] :=
    Vol.own_of_chain smallFs_ok (slots.2.2.2.symm ▸ hchain)
  refine ⟨fun p hp => ?_, fun p q hp hq _ _ _ => (hlive hp).trans (hlive hq).symm, fun c hc hu => ?_⟩
  · rw [hlive hp]
    exact .inr ⟨[4], slots.2.2.2.symm ▸ hchain⟩
  · have hc4 : c = 4 := by
      by_contra hne
      exact hu ((fat c hc.2).trans (if_neg hne))
    refine ⟨.root 0, ⟨0, .refl, 0, smallFs_root.2 ⟨by decide, rfl⟩, slots.2.2.1, fun j hj q hq => ?_⟩, ?_⟩
    · obtain ⟨-, rfl⟩ := smallFs_root.1 hq
      rw [Nat.le_zero.1 hj]
      exact isEnd_of_isLive slots.2.2.1
    · rw [hown, hc4]
      exact List.mem_singleton_self 4

theorem crossed : ¬ after.FrontConsistent smallFs := by
  intro h
  have hfrontLive {i : Nat} (hi : i < 3) : after.FrontLive smallFs (.root i) :=
    ⟨0, .refl, i, smallFs_root.2 ⟨by omega, rfl⟩, (after_slots i hi).2.1, fun j hj q hq => by
      obtain ⟨-, rfl⟩ := smallFs_root.1 hq
      exact (after_slots j (by omega)).1⟩
  have hchain : after.Chain smallFs 4 [4] := .last (by decide) (by rw [after_fat]; decide)
  have hown {i : Nat} (hi : i < 3) (h1 : i ≠ 1) : 4 ∈ after.own (after.slot (.root i)) := by
    have hi4 : after.Chain smallFs (after.slot (.root i)).firstCluster [4] := by
      rw [(after_slots i hi).2.2 h1]
      exact hchain
    rw [Vol.own_of_chain smallFs_ok hi4]
    exact List.mem_singleton_self 4
  exact absurd (h.apart (.root 0) (.root 2) (hfrontLive (by decide)) (hfrontLive (by decide)) 4 (hown (by decide) (by decide))
    (hown (by decide) (by decide))) (by decide)

end Stale

/-- Without `Tree.ended` a new record over the end mark brings G back, and F and G share cluster 4. -/
theorem create_revives_record : smallFs.Ok ∧ staleDisk.Mirrored smallFs ∧ (staleDisk.vol smallFs).wild = false ∧
    (staleDisk.vol smallFs).FrontConsistent smallFs ∧
    Op.Allowed smallFs staleDisk (.create [slash, 72] false) ∧
    ¬ ((step smallFs staleDisk (.create [slash, 72] false)).2.vol smallFs).FrontConsistent smallFs :=
  ⟨smallFs_ok, Stale.mirrored, rfl, Stale.consistent, show Plain _ by decide, Stale.crossed⟩

end PureUnix.Fat16
