import PureUnix.Ext2.Refine
import PureUnix.Ext2.Names

/-!
# Runs of the write calls

`ext2_write_file` on the graph of nodes, and any sequence of the calls that change regular files and
directories, on the disk. `FsInv.wp_op` is the step: a call keeps the invariant. `Consistent.run` is the
run.
-/
namespace PureUnix.Ext2

open Lib Function
open Store

theorem PastReads.exec {L : Layout} {v : Store} (h : L.Ok) (hw : v.wild = false) {Q : Int × Disk → Prop} :
    PastReads L v fun q => ∀ d, L.Mounted d ∧ d.store L = v → Q (d.exec L q) :=
  ⟨fun hr hE _ hd => exec_read h hd hr hw hE⟩

section
variable {aware full : Bool} {L : Layout} {v v' : Store} {env : Env} {path data : Text} {append : Bool}

/-- The graph in which `ext2_write_file` writes: the file is there, or has been created. -/
def Prepared (L : Layout) (g : Graph) (path : Text) (g₁ : Graph) : Prop :=
  (g₁ = g ∧ (pathNode g path).isSome = true) ∨ (pathNode g path = none ∧ Created L g path false g₁)

/-- How `ext2_write_file` ends on the graph. -/
inductive FileWritten (L : Layout) (env : Env) (g : Graph) (path data : Text) (append : Bool) : Int → Graph → Prop
  | wrote {n : Nat} {final : Text} {g₁ g' : Graph} : Prepared L g path g₁ → pathNode g₁ path = some n →
      finalData env (g₁ n).bytes data append = some final → Wrote L.blockSize g₁ n final g' →
      FileWritten L env g path data append 0 g'
  | emptied {n : Nat} {g₁ g' : Graph} {rc : Int} : rc ≠ 0 → Prepared L g path g₁ → pathNode g₁ path = some n →
      Emptied g₁ n g' → FileWritten L env g path data append rc g'
  | failed {g₁ : Graph} {rc : Int} : rc ≠ 0 → (g₁ = g ∨ Wiped L g g₁ ∨ Created L g path false g₁) →
      FileWritten L env g path data append rc g₁

/-- Writing the file that `path` names loses a block. -/
def ContentsLose (L : Layout) (env : Env) (v : Store) (path data : Text) (append : Bool) : Prop :=
  ∃ n final, pathNode (v.node L) path = some n ∧ (v.inode n).isReg = true ∧
    finalData env (v.node L n).bytes data append = some final ∧ WriteLoses L (v.freed L n) 0 final.length

/-- `ext2_write_file` loses a block: in writing the file that is there, or, where there is none, in entering its name or in
writing it with the blocks that its name takes out of the way. -/
def WriteFileLoses (L : Layout) (env : Env) (v : Store) (path data : Text) (append : Bool) : Prop :=
  ContentsLose L env v path data append ∨
  (pathNode (v.node L) path = none ∧ (CreateLoses L v path false ∨
    ∃ parent leaf p c final, splitParentLeaf path = some (parent, leaf) ∧ pathNode (v.node L) parent = some p ∧
      InsertTakes L v p leaf c ∧ finalData env [] data append = some final ∧ WriteLoses L v c final.length))

/-- What a path names that named nothing before is the new file, and it is empty. -/
theorem Created.found {g g' : Graph} {m : Nat} (hc : Created L g path false g') (h0 : pathNode g path = none)
    (hm : pathNode g' path = some m) : (g' m).inode.NoBlocks ∧ (g' m).bytes = [] := by
  obtain ⟨parent, leaf, p, n, i, ft, _, now, -, -, hnone, -, -, hrec, hins, rfl⟩ := hc
  have hdir := hins.isDir
  have hpn : p ≠ n := by
    rintro rfl
    rw [update_self] at hdir
    exact Bool.false_ne_true (hrec.isDir.symm.trans hdir)
  have hnode : g' n = ⟨true, i, [], [], []⟩ := by
    obtain ⟨i', es, vs, rfl, -⟩ := hins.node
    rw [update_of_ne hpn.symm, update_self]
    rfl
  have hold : ∀ {j name m}, (g' j).find name = some m → (g j).find name = some m ∨ m = n := by
    intro j name m hm
    refine (hins.find_new ?_ hm).imp (fun hm => ?_) id
    · rw [update_of_ne hpn]; exact hnone
    · by_cases hj : j = n
      · subst hj
        rw [update_self] at hm
        cases hm
      · rwa [update_of_ne hj] at hm
  obtain rfl := (pathNode_new (fun _ => by rw [hnode]; rfl) hold hm).resolve_left (by rw [h0]; nofun)
  rw [hnode]
  exact ⟨hrec.noBlocks rfl, rfl⟩

theorem FsInv.wp_writeNamed (h : L.Ok) {v₁ : Store} (inv : FsInv aware full L v₁) {n : Nat}
    (hprep : Prepared L (v.node L) path (v₁.node L)) (hn : pathNode (v₁.node L) path = some n)
    (hl : full = true → ¬ ContentsLose L env v₁ path data append) :
    wp (step L) (writeFileIno L.fs env n data append) (fun rc v' => FsInv aware full L v' ∧
      FileWritten L env (v.node L) path data append rc (v'.node L)) v₁ := by
  have hnamed := (inv.run_pathToInode h path).2 n hn
  refine wp_mono (inv.wp_writeFileIno h hnamed env data append fun hf hr final hfin hlose =>
    hl hf ⟨n, final, hn, hr, hfin, hlose⟩) ?_
  rintro rc v' ⟨inv', ⟨rfl, final, hfin, -, hw⟩ | ⟨hrc, ⟨rfl, -⟩ | ⟨he, -⟩⟩⟩
  · exact ⟨inv', .wrote hprep hn hfin hw⟩
  · exact ⟨inv', .failed hrc (hprep.imp And.left fun hc => .inr hc.2)⟩
  · exact ⟨inv', .emptied hrc hprep hn he⟩

/-- **`ext2_write_file`** on any path. -/
theorem FsInv.wp_writeFile (h : L.Ok) (inv : FsInv aware full L v) (env : Env) (path data : Text) (append : Bool)
    (hl : full = true → ¬ WriteFileLoses L env v path data append) :
    wp (step L) (writeFile L.fs env path data append) (fun rc v' => FsInv aware full L v' ∧
      FileWritten L env (v.node L) path data append rc (v'.node L)) v := by
  unfold writeFile
  rw [if_neg h.isMounted]
  refine wp_seq_run (inv.run_pathToInode h path).1 ?_
  cases hpn : pathNode (v.node L) path with
  | some n =>
    exact inv.wp_writeNamed h (.inl ⟨rfl, by rw [hpn]; rfl⟩) hpn fun hf hlose => hl hf (.inl hlose)
  | none =>
    dsimp only
    refine wp_seq (inv.wp_create h env path false fun hf hlose => hl hf (.inr ⟨hpn, .inl hlose⟩)) ?_
    rintro rc v₁ ⟨inv₁, ⟨h0, hc, htook⟩ | ⟨hrc, hc⟩⟩
    · rw [if_neg (not_not.2 h0)]
      refine wp_seq_run (inv₁.run_pathToInode h path).1 ?_
      cases hpn₁ : pathNode (v₁.node L) path with
      | none => exact ⟨inv₁, .failed (show -ENOENT ≠ 0 by decide) (.inr (.inr hc))⟩
      | some n =>
        refine inv₁.wp_writeNamed h (.inr ⟨hpn, hc⟩) hpn₁ fun hf hlose => ?_
        -- the file is the new one, and its contents are what is written now
        obtain ⟨m, final, hm, -, hfin, hlose⟩ := hlose
        obtain ⟨hz, hb⟩ := hc.found hpn hm
        obtain ⟨parent, leaf, p, c, hsp, hp, htakes, ht⟩ := htook rfl
        rw [Store.node_inode] at hz
        rw [hb] at hfin
        rw [Store.freed, hz.blockRefs] at hlose
        exact hl hf (.inr ⟨hpn, .inr ⟨parent, leaf, p, c, final, hsp, hp, htakes, hfin, hlose.before ht⟩⟩)
    · rw [if_pos hrc]
      refine ⟨inv₁, .failed hrc ?_⟩
      rcases hc with rfl | hc
      · exact .inl rfl
      · exact .inr (.inl hc)

end

/-! ## Operations -/

/-- The calls on regular files and directories, each with the clock and heap it meets. -/
inductive Op
  | create (env : Env) (path : Text) (directory : Bool)
  | write (env : Env) (path data : Text) (append : Bool)
  | link (env : Env) (oldPath newPath : Text)
  | unlink (env : Env) (path : Text) (directory : Bool)
  | rename (env : Env) (oldPath newPath : Text)

namespace Op

def prog (fs : Fs) : Op → Drv Int
  | create env path directory => Ext2.create fs env path directory
  | write env path data append => writeFile fs env path data append
  | link env oldPath newPath => Ext2.link fs env oldPath newPath
  | unlink env path directory => Ext2.unlink fs env path directory
  | rename env oldPath newPath => Ext2.rename fs env oldPath newPath

/-- The call takes a block and cannot place the pointer to it. -/
def Loses (L : Layout) (v : Store) : Op → Prop
  | create _ path directory => CreateLoses L v path directory
  | write env path data append => WriteFileLoses L env v path data append
  | link _ oldPath newPath => LinkLoses L v oldPath newPath
  | unlink .. => False
  | rename _ oldPath newPath => RenameLoses L v oldPath newPath

/-- The call does not remove a name of a fast symbolic link, if these are told apart. -/
def Spares (aware : Bool) (L : Layout) (v : Store) : Op → Prop
  | unlink _ path _ => ∀ n, targetNode (v.node L) path = some n → (v.inode n).inline aware = false
  | rename _ _ newPath => ∀ n, targetNode (v.node L) newPath = some n → (v.inode n).inline aware = false
  | _ => True

end Op

/-- A mounted disk whose store keeps the invariant. -/
structure Consistent (aware full : Bool) (L : Layout) (d : Disk) : Prop where
  mounted : L.Mounted d
  inv : FsInv aware full L (d.store L)

def runOps (L : Layout) : List Op → Disk → Disk
  | [], d => d
  | op :: ops, d => runOps L ops (d.exec L (op.prog L.fs)).2

section
variable {aware full : Bool} {L : Layout} {v : Store} {d : Disk}

/-- **The step**: every call keeps the invariant. -/
theorem FsInv.wp_op (h : L.Ok) (inv : FsInv aware full L v) (op : Op) (hi : op.Spares aware L v)
    (hl : full = true → ¬ op.Loses L v) :
    wp (step L) (op.prog L.fs) (fun _ v' => FsInv aware full L v') v := by
  cases op with
  | create env path directory => exact wp_mono (inv.wp_create h env path directory hl) fun _ _ => And.left
  | write env path data append => exact wp_mono (inv.wp_writeFile h env path data append hl) fun _ _ => And.left
  | link env oldPath newPath => exact wp_mono (inv.wp_link h env oldPath newPath hl) fun _ _ => And.left
  | unlink env path directory => exact wp_mono (inv.wp_unlink h env path directory hi) fun _ _ => And.left
  | rename env oldPath newPath => exact wp_mono (inv.wp_rename h env oldPath newPath hi hl) fun _ _ => And.left

theorem Consistent.exec {α : Type} (h : L.Ok) (hd : Consistent aware full L d) {p : Drv α} {Q : α → Store → Prop}
    (hp : wp (step L) p (fun a v' => FsInv aware full L v' ∧ Q a v') (d.store L)) :
    Consistent aware full L (d.exec L p).2 ∧ Q (d.exec L p).1 ((d.exec L p).2.store L) := by
  obtain ⟨h1, h2, h3⟩ := exec_of_run h hd.mounted rfl hp.1.own.wild
  rw [h1, h3]
  exact ⟨⟨h2, by rw [h3]; exact hp.1⟩, hp.2⟩

theorem Consistent.step (h : L.Ok) (hd : Consistent aware full L d) (op : Op) (hi : op.Spares aware L (d.store L))
    (hl : full = true → ¬ op.Loses L (d.store L)) : Consistent aware full L (d.exec L (op.prog L.fs)).2 :=
  (hd.exec h (wp_mono (hd.inv.wp_op h op hi hl) fun _ _ hv => ⟨hv, trivial⟩)).1

/-- Every call of the run has `P` in the state it meets. -/
def Along (L : Layout) (P : Op → Store → Prop) : List Op → Disk → Prop
  | [], _ => True
  | op :: ops, d => P op (d.store L) ∧ Along L P ops (d.exec L (op.prog L.fs)).2

/-- **The run.** -/
theorem Consistent.run (h : L.Ok) (ops : List Op) (hd : Consistent aware full L d)
    (hi : Along L (fun op v => op.Spares aware L v) ops d)
    (hk : full = true → Along L (fun op v => ¬ op.Loses L v) ops d) : Consistent aware full L (runOps L ops d) := by
  induction ops generalizing d with
  | nil => exact hd
  | cons op ops ih => exact ih (hd.step h op hi.1 fun hf => (hk hf).1) hi.2 fun hf => (hk hf).2

end
end PureUnix.Ext2
