import PureUnix.Ext2.RenameAtomic

/-!
# Runs on the graph of nodes

Without its blocks and counters a file system is its nodes and their names. `Op.Acts` says what a call may do to them, and a run on
the disk is a run on the graph. That failed calls change nothing, and that what is written is read back, is then read off the graph.
-/
namespace PureUnix.Ext2
open Lib List Inode Option
open Store

section
variable {aware : Bool} {L : Layout} {v : Store} {d : Disk} {g g' : Graph} {n : Nat} {rc : Int} {path data : Text} {env : Env}

/-! ## The abstract calls -/

/-- What a call that returns `rc` does to the graph. -/
def Op.Acts (L : Layout) (rc : Int) (g g' : Graph) : Op → Prop
  | create _ path directory => (rc = 0 ∧ Created L g path directory g') ∨ (rc ≠ 0 ∧ (g' = g ∨ Wiped L g g'))
  | write env path data append => FileWritten L env g path data append rc g'
  | link _ oldPath newPath => (rc = 0 ∧ Linked g oldPath newPath g') ∨ (rc ≠ 0 ∧ g' = g)
  | unlink _ path directory => (rc = 0 ∧ Unlinked L g path directory g') ∨ (rc ≠ 0 ∧ g' = g)
  | rename _ oldPath newPath => Renamed L g oldPath newPath rc g'

/-- A run on the graph: the calls, and what each returns. -/
inductive GraphRun (L : Layout) : List (Op × Int) → Graph → Graph → Prop
  | nil {g : Graph} : GraphRun L [] g g
  | cons {op : Op} {rc : Int} {calls : List (Op × Int)} {g g₁ g' : Graph} : op.Acts L rc g g₁ → GraphRun L calls g₁ g' →
      GraphRun L ((op, rc) :: calls) g g'

def answers (L : Layout) : List Op → Disk → List (Op × Int)
  | [], _ => []
  | op :: ops, d => (op, (d.exec L (op.prog L.fs)).1) :: answers L ops (d.exec L (op.prog L.fs)).2

theorem FsInv.wp_acts (h : L.Ok) (inv : FsInv aware false L v) (op : Op) (hi : op.Spares aware L v) :
    wp (step L) (op.prog L.fs) (fun rc v' => FsInv aware false L v' ∧ op.Acts L rc (v.node L) (v'.node L)) v := by
  cases op with
  | create env path directory =>
    refine wp_mono (inv.wp_create h env path directory nofun) ?_
    rintro rc v' ⟨inv', ⟨h0, hc, -⟩ | ⟨hrc, rfl | hw⟩⟩
    · exact ⟨inv', .inl ⟨h0, hc⟩⟩
    · exact ⟨inv', .inr ⟨hrc, .inl rfl⟩⟩
    · exact ⟨inv', .inr ⟨hrc, .inr hw⟩⟩
  | write env path data append => exact inv.wp_writeFile h env path data append nofun
  | link env oldPath newPath => exact inv.wp_link h env oldPath newPath nofun
  | unlink env path directory =>
    refine wp_mono (inv.wp_unlink h env path directory hi) ?_
    rintro rc v' ⟨inv', hc | ⟨hrc, rfl⟩⟩
    · exact ⟨inv', .inl hc⟩
    · exact ⟨inv', .inr ⟨hrc, rfl⟩⟩
  | rename env oldPath newPath => exact inv.wp_rename h env oldPath newPath hi nofun

/-- **The disk refines the graph**: every run of the calls from a consistent image does to the nodes what the calls mean. If
the image holds fast symbolic links, the calls must spare their names. -/
theorem runs_on_graph (h : L.Ok) (hd : Consistent aware false L d) (ops : List Op)
    (hi : Along L (fun op v => op.Spares aware L v) ops d) :
    GraphRun L (answers L ops d) ((d.store L).node L) (((runOps L ops d).store L).node L) := by
  induction ops generalizing d with
  | nil => exact .nil
  | cons op ops ih =>
    obtain ⟨hd', hact⟩ := hd.exec h (hd.inv.wp_acts h op hi.1)
    exact .cons hact (ih hd' hi.2)

/-- The file of the sample image is removed, and another is made. -/
def unlinkWrite : List Op := [.unlink sampleEnv [slash, 70] false, .write sampleEnv [slash, 71] [1] false]

theorem runs_on_graph_sample : GraphRun smallLayout (answers smallLayout unlinkWrite (oneFileDisk 1024 8192 64))
    (((oneFileDisk 1024 8192 64).store smallLayout).node smallLayout)
    (((runOps smallLayout unlinkWrite (oneFileDisk 1024 8192 64)).store smallLayout).node smallLayout) :=
  runs_on_graph (oneFile_ok (.inl rfl) (by decide)) (oneFile_consistent (.inl rfl) (by decide)) _ ⟨oneFile_spares, trivial, trivial⟩

/-! ## Failed calls -/

theorem Graph.Formed.vis_nil (hf : g.Formed L) (hn : (g n).used = false ∨ (g n).inode.isDir = false) : (g n).vis = [] := by
  refine eq_nil_iff_forall_not_mem.2 fun e he => ?_
  obtain ⟨-, hu, hd⟩ := hf.dir n e ((hf.vis n).subset he)
  rcases hn with hn | hn
  · rw [hu] at hn; cases hn
  · rw [hd] at hn; cases hn

/-- A node that shows no names is replaced by another. -/
theorem find_update_nil {x : Node} (hn : (g n).vis = []) (hx : x.vis = []) (j : Nat) (name : Text) :
    (update g n x j).find name = (g j).find name := by
  by_cases hj : j = n
  · rw [hj, update_self, Node.find, Node.find, hn, hx]
  · rw [update_of_ne hj]

/-- The calls that make or remove one name. -/
def Op.OneName : Op → Prop
  | write .. | rename .. => False
  | _ => True

/-- **A call that fails changes nothing in use**, and every path leads where it led. -/
theorem failed_call_keeps (h : L.Ok) (hd : Consistent aware false L d) {d' : Disk} {op : Op} (hop : op.OneName)
    (hi : op.Spares aware L (d.store L)) (hrc : rc ≠ 0) (hrun : d.exec L (op.prog L.fs) = (rc, d')) : (∀ path, pathNode ((d'.store L).node L) path = pathNode ((d.store L).node L) path) ∧
      ∀ j, (d.store L).inodeUsed j = true → (d'.store L).node L j = (d.store L).node L j := by
  have hact := (hd.exec h (hd.inv.wp_acts h op hi)).2
  have hform := Store.formed hd.inv
  simp only [hrun, ← node_used (L := L)] at hact ⊢
  generalize (d'.store L).node L = g' at *
  generalize (d.store L).node L = g at *
  have hsame : g' = g ∨ Wiped L g g' := by
    cases op with
    | create => exact (hact.resolve_left fun hc => hrc hc.1).2
    | link => exact .inl (hact.resolve_left fun hc => hrc hc.1).2
    | unlink => exact .inl (hact.resolve_left fun hc => hrc hc.1).2
    | write => exact hop.elim
    | rename => exact hop.elim
  rcases hsame with rfl | ⟨n, -, hfree, rfl⟩
  · exact ⟨fun _ => rfl, fun _ _ => rfl⟩
  -- the record of a free inode has been wiped, and no directory was there
  have hfind := find_update_nil (x := Node.free Inode.empty) (hform.vis_nil (.inl hfree)) rfl
  refine ⟨fun path => Option.ext fun m => ⟨Graph.Finds.path fun j name m => ?_, Graph.Finds.path fun j name m => ?_⟩, fun j hu => ?_⟩
  · rw [hfind]; exact id
  · rw [hfind]; exact id
  · rw [update_of_ne]
    rintro rfl
    rw [hu] at hfree
    cases hfree

/-- A name is removed that is not there. -/
def noSuchName : Int × Disk := (oneFileDisk 1024 8192 64).exec smallLayout ((Op.unlink sampleEnv [slash, 71] false).prog smallLayout.fs)

theorem noSuchName_spares : (Op.unlink sampleEnv [slash, 71] false).Spares true smallLayout ((oneFileDisk 1024 8192 64).store smallLayout) := by
  rw [oneFile_store (.inl rfl) (by decide)]
  intro n hn
  exact absurd ((show _ = none by decide +kernel).symm.trans hn) nofun

theorem failed_call_keeps_sample : noSuchName.1 ≠ 0 ∧ pathNode ((noSuchName.2.store smallLayout).node smallLayout) [slash, 70] =
    pathNode (((oneFileDisk 1024 8192 64).store smallLayout).node smallLayout) [slash, 70] := by
  have h0 : noSuchName.1 = -ENOENT := (oneFile_exec (.inl rfl) (by decide) _ (by decide +kernel)).1.trans (by decide +kernel)
  have hne : noSuchName.1 ≠ 0 := by rw [h0]; decide
  exact ⟨hne, (failed_call_keeps (oneFile_ok (.inl rfl) (by decide)) (oneFile_consistent (.inl rfl) (by decide))
    (show (Op.unlink sampleEnv [slash, 71] false).OneName from trivial) noSuchName_spares hne rfl).1 _⟩

/-! ## Reading back -/

/-- What `ext2_read_file` returns. -/
def Graph.read (g : Graph) (env : Env) (path : Text) : Option Text :=
  (pathNode g path).bind fun n =>
    if (g n).used = true ∧ (g n).inode.isReg = true ∧ env.kcalloc = true ∧ u32 ((g n).bytes.length + 1) ≠ 0 then some (g n).bytes else none

theorem exec_readFile (h : L.Ok) (hd : Consistent aware false L d) (env : Env) (path : Text) :
    (d.exec L (readFile L.fs env path)).1 = Graph.read ((d.store L).node L) env path := by
  have inv := hd.inv
  suffices ∃ v', run (step L) (readFile L.fs env path) (d.store L) = (Graph.read ((d.store L).node L) env path, v') ∧ v'.wild = false by
    obtain ⟨v', hrun, hw⟩ := this
    exact (exec_of_run h hd.mounted hrun hw).1
  have hwild := inv.own.wild
  generalize d.store L = v at *
  obtain ⟨hrun, hnamed⟩ := inv.run_pathToInode h path
  unfold readFile Graph.read
  rw [if_neg h.isMounted, run_bind, hrun]
  cases hp : pathNode (v.node L) path with
  | none => exact ⟨v, rfl, hwild⟩
  | some n =>
    dsimp only [bind_some]
    rw [node_used, node_inode, run_bind]
    by_cases hv : L.ValidIno n
    swap
    · rw [Drv.run_readInode_invalid hv, if_neg fun hc => hv (inv.own.valid n hc.1)]
      exact ⟨v, rfl, hwild⟩
    rw [Drv.run_readInode hv]
    dsimp only
    by_cases hr : (v.inode n).isReg = true
    swap
    · rw [if_pos (by simpa using hr), if_neg fun hc => hr hc.2.1]
      exact ⟨v, rfl, hwild⟩
    have hu := FsInv.used_of_isReg (hnamed n hp) hv hr
    rw [if_neg (by simp [hr]), run_bind, node_reg hu hr, length_bytes]
    by_cases hk : env.kcalloc = true ∧ u32 ((v.inode n).iSize.toNat + 1) ≠ 0
    · rw [run_readFileIno h hv hr (inv.own.mapOk hu (inline_of_not_lnk (isLnk_of_isReg hr))) hk.1 hk.2, if_pos ⟨hu, hr, hk⟩]
      dsimp only
      rw [run_bind, Drv.run_writeInode hv]
      exact ⟨_, rfl, hwild⟩
    · rw [run_readFileIno_none fun _ => .inr (by simpa [imp_iff_not_or] using hk), if_neg fun hc => hk hc.2.2]
      exact ⟨v, rfl, hwild⟩

/-- A file that `ext2_write_file` finds or makes: names still lead where they led, and files are as they were. -/
theorem Prepared.keeps (hf : g.Formed L) (hp : Prepared L g path g') : g.Finds g' ∧
    (∀ j, (g j).used = true → (g j).inode.isReg = true → g' j = g j) ∧ ∀ j, (g' j).inode.isReg = true → (g' j).vis = [] := by
  rcases hp with ⟨rfl, -⟩ | ⟨-, parent, leaf, p, n, i, ft, g₂, -, -, -, hnone, -, hfree, hrec, hins, rfl⟩
  · exact ⟨fun _ _ _ hm => hm, fun _ _ _ => rfl, fun j hj => hf.vis_nil (.inr (isDir_of_isReg hj))⟩
  obtain ⟨i', es, vs, rfl, hmode, -⟩ := hins.node
  have hdir := hins.isDir
  have hpn : p ≠ n := by
    rintro rfl
    rw [update_self] at hdir
    exact Bool.false_ne_true (hrec.isDir.symm.trans hdir)
  rw [update_of_ne hpn] at hdir hmode
  have hfresh := find_update_nil (x := Node.fresh i false n p) (hf.vis_nil (.inl hfree)) rfl
  have hk : Keeps (fun j name => (g j).find name = none) (fun _ => False) _ _ :=
    .inserts hins (by rw [update_of_ne hpn]; exact hf.bytes p hdir) hnone
  refine ⟨fun j name m hm => (hk.find j name (by simp [hm])).trans ((hfresh j name).trans hm), fun j hu hr => ?_, fun j hr => ?_⟩
  · rw [update_of_ne, update_of_ne]
    · rintro rfl
      rw [hu] at hfree
      cases hfree
    · rintro rfl
      rw [isDir_of_isReg hr] at hdir
      cases hdir
  · by_cases hjp : j = p
    · subst hjp
      rw [update_self, Inode.isReg, hmode] at hr
      exact absurd ((isReg_of_isDir hdir).symm.trans hr) Bool.false_ne_true
    rw [update_of_ne hjp] at hr ⊢
    by_cases hjn : j = n
    · subst hjn
      rw [update_self]
      rfl
    · rw [update_of_ne hjn] at hr ⊢
      exact hf.vis_nil (.inr (isDir_of_isReg hr))

theorem readBack_eq {bs : Nat} (h : data.length ≤ iterCap bs * bs) : readBack bs data = data := by
  refine ext_getElem (by simp [readBack]) fun k hk hk' => ?_
  have : k / bs < iterCap bs := Nat.div_lt_of_lt_mul (by rw [Nat.mul_comm]; omega)
  simp [readBack, this, ofList, hk']

/-- **What is written is read back**, but for what lies beyond the blocks the reader visits, and every other file reads as before. -/
theorem read_after_write (h : L.Ok) (hd : Consistent aware false L d) {d' : Disk} {env' : Env} (hk : env'.kcalloc = true)
    (hw : d.exec L (writeFile L.fs env path data false) = (0, d')) :
    (d'.exec L (readFile L.fs env' path)).1 = some (readBack L.blockSize data) ∧
    (data.length ≤ iterCap L.blockSize * L.blockSize → readBack L.blockSize data = data) ∧
    ∀ other old, pathNode ((d.store L).node L) other ≠ pathNode ((d'.store L).node L) path →
      (d.exec L (readFile L.fs env' other)).1 = some old → (d'.exec L (readFile L.fs env' other)).1 = some old := by
  have hend := hd.exec h (hd.inv.wp_writeFile h env path data false nofun)
  rw [hw] at hend
  obtain ⟨hd', hw⟩ := hend
  have hform := Store.formed hd.inv
  simp only [exec_readFile h hd, exec_readFile h hd']
  generalize (d'.store L).node L = g' at hw
  generalize (d.store L).node L = g at *
  cases hw with
  | emptied hc => exact absurd rfl hc
  | failed hc => exact absurd rfl hc
  | @wrote n final g₁ _ hprep hn hfin hw =>
    cases hfin
    obtain ⟨hfinds, hsame, hnil⟩ := hprep.keeps hform
    obtain ⟨i', rfl, hmode, -⟩ := hw.node
    have hpath : ∀ {other m}, pathNode g₁ other = some m →
        pathNode (update g₁ n ⟨true, i', [], [], readBack L.blockSize data⟩) other = some m :=
      Graph.Finds.path fun j name m hm => (find_update_nil (hnil n hw.isReg) rfl j name).trans hm
    rw [hpath hn]
    refine ⟨?_, readBack_eq, fun other old hne hread => ?_⟩
    · have hreg : i'.isReg = true := by
        rw [Inode.isReg, hmode]
        exact hw.isReg
      have hsize : u32 ((readBack L.blockSize data).length + 1) ≠ 0 := by
        have hlen := hw.length
        rw [readBack, length_map, length_range]
        rcases h.blockSize with hb | hb | hb <;> rw [hb, maxBlocks] at hlen <;> unfold u32 <;> omega
      rw [Graph.read, hpath hn, bind_some, update_self, if_pos ⟨rfl, hreg, hk, hsize⟩]
    · obtain ⟨m, hm, hread⟩ := bind_eq_some_iff.1 hread
      have hmn : m ≠ n := by
        rintro rfl
        exact hne hm
      split at hread
      · rename_i hc
        rw [Graph.read, hpath (hfinds.path hm), bind_some, update_of_ne hmn, hsame m hc.1 hc.2.1, if_pos hc]
        exact hread
      · cases hread

/-- A write of three bytes to the file of the sample image. -/
def threeBytes : Int × Disk :=
  (oneFileDisk 1024 8192 64).exec smallLayout (writeFile smallLayout.fs sampleEnv [slash, 70] [1, 2, 3] false)

theorem read_after_write_sample : threeBytes.1 = 0 ∧
    (threeBytes.2.exec smallLayout (readFile smallLayout.fs sampleEnv [slash, 70])).1 = some [1, 2, 3] := by
  have h0 : threeBytes.1 = 0 := (oneFile_exec (.inl rfl) (by decide) _ (by decide +kernel)).1.trans (by decide +kernel)
  have hcons : Consistent true false smallLayout (oneFileDisk 1024 8192 64) := oneFile_consistent (.inl rfl) (by decide)
  exact ⟨h0, (read_after_write (oneFile_ok (.inl rfl) (by decide)) hcons rfl (Prod.ext h0 rfl)).1.trans (by decide)⟩

end
end PureUnix.Ext2
