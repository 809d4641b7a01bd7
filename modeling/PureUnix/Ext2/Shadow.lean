import PureUnix.Ext2.Runs

/-!
# Behind the block bitmap

`ext2_inode_free_all_blocks` takes the text of a fast symbolic link for block numbers. Whatever it frees then, it changes the
bitmap of the blocks and their free counts and nothing else. A `Shadow` of a disk is a store that agrees with it in all the
rest; the directory operations, which do not look at the bitmap, run on the disk as they do on the shadow.
-/
namespace PureUnix.Ext2
open Lib Function Prog
open Store
open Disk (exec exec_bind)

variable {w' : Store} {β : Type} {Q : β × Disk → Prop}

/-- The store with another bitmap and other free counts of blocks. -/
def Store.rebit (v : Store) (used : Nat → Bool) (free : Nat → Nat) : Store := { v with blockUsed := used, freeBlocks := free }

/-- The disk holds `w`, up to the block bitmap. -/
structure Shadow (L : Layout) (d : Disk) (w : Store) : Prop where
  mounted : L.Mounted d
  store : ∃ used free, d.store L = w.rebit used free

/-- Commands that do not look at the block bitmap. -/
def SparesBits : StoreCmd → Prop
  | .allocBlock => False
  | .freeBlock _ => False
  | _ => True

/-- Commands of `ext2_inode_free_all_blocks`. -/
def OnlyFrees : StoreCmd → Prop
  | .readBlock _ => True
  | .freeBlock _ => True
  | _ => False

section
variable {L : Layout} {d : Disk} {v w : Store} {α : Type} {p : Drv α}

theorem Shadow.refl (hd : L.Mounted d) : Shadow L d (d.store L) := ⟨hd, (d.store L).blockUsed, (d.store L).freeBlocks, rfl⟩

theorem Shadow.node (hs : Shadow L d w) : (d.store L).node L = w.node L := by
  obtain ⟨used, free, he⟩ := hs.store
  rw [he]
  rfl

theorem Store.dropBlock_rebit (L : Layout) (v : Store) (b : Nat) : ∃ used free, v.dropBlock L b = v.rebit used free := by
  unfold Store.dropBlock
  split
  · exact ⟨_, _, rfl⟩
  · exact ⟨_, _, rfl⟩

theorem step_rebit (used : Nat → Bool) (free : Nat → Nat) (c : StoreCmd) (v : Store) (hc : SparesBits c) :
    step L c (v.rebit used free) = ((step L c v).1, (step L c v).2.rebit used free) := by
  cases c with
  | readBlock b => simp only [step]; split; exacts [rfl, by split <;> rfl]
  | writeBlock b data => simp only [step]; split; exacts [rfl, by split <;> rfl]
  | allocBlock => exact hc.elim
  | freeBlock b => exact hc.elim
  | allocInode isDir =>
    have hnext : (v.rebit used free).nextInode L = v.nextInode L := rfl
    simp only [step, hnext]
    split <;> rfl
  | freeInode ino isDir =>
    have hused : (v.rebit used free).inodeUsed = v.inodeUsed := rfl
    simp only [step, dropInode, hused]
    split <;> rfl
  | readInode ino => rfl
  | writeInode ino i => simp only [step]; split <;> rfl

/-- **What spares the bitmap runs on the shadow.** -/
theorem Shadow.exec_run {a : α} (h : L.Ok) (hs : Shadow L d w) (hp : p.Issues SparesBits)
    (hrun : Prog.run (step L) p w = (a, w')) (hw : w'.wild = false) : (d.exec L p).1 = a ∧ Shadow L (d.exec L p).2 w' := by
  obtain ⟨used, free, he⟩ := hs.store
  have hcomm := hp.run_comm (step_rebit (L := L) used free) w
  rw [← he, hrun] at hcomm
  obtain ⟨h1, h2, h3⟩ := exec_of_run h hs.mounted hcomm hw
  exact ⟨h1, h2, used, free, h3⟩

theorem Shadow.exec_seq {aware : Bool} {f : α → Drv β} {R : α → Store → Prop} (h : L.Ok)
    (hs : Shadow L d w) (hp : p.Issues SparesBits) (hw : Prog.wp (step L) p (fun a w' => FsInv aware false L w' ∧ R a w') w)
    (hf : ∀ a d' w', Shadow L d' w' → FsInv aware false L w' ∧ R a w' → Q (d'.exec L (f a))) : Q (d.exec L (p >>= f)) := by
  obtain ⟨h1, hs'⟩ := hs.exec_run h hp rfl hw.1.own.wild
  rw [exec_bind, h1]
  exact hf _ _ _ hs' hw

theorem Shadow.exec_frees (h : L.Ok) (hs : Shadow L d w) (hp : p.Issues OnlyFrees) : Shadow L (d.exec L p).2 w := by
  unfold exec
  rw [run_interp]
  refine hp.run_invariant (I := fun d => Shadow L d w) (fun c d hc hs => ?_) hs
  cases c with
  | readBlock b => exact hs
  | freeBlock b =>
    obtain ⟨used, free, he⟩ := hs.store
    obtain ⟨used', free', hdrop⟩ := (d.store L).dropBlock_rebit L b
    obtain ⟨-, h2, h3⟩ := exec_of_run h hs.mounted (Drv.run_freeBlock b) (by rw [hdrop]; rfl)
    rw [hdrop, he] at h3
    have hexec : d.exec L (Drv.freeBlock b) = Prog.run (Dev.step L.fs) (StoreOp.lower L.fs (.freeBlock b)) d := by
      rw [exec, run_interp]
      rfl
    rw [hexec] at h2 h3
    exact ⟨h2, used', free', h3⟩
  | _ => exact hc.elim

/-! ## Who issues what -/

theorem freeDirect_frees : ∀ (ks : List Nat) (i : Inode), (freeDirect ks i).Issues OnlyFrees
  | [], _ => .pure
  | k :: ks, i => by
    exact .ite (.bind (fun _ => freeDirect_frees ks _) (.perform trivial)) (freeDirect_frees ks i)

theorem freePtrs_frees : ∀ (ps : List Nat), (freePtrs ps).Issues OnlyFrees
  | [] => .pure
  | p :: ps => by
    exact .ite (.bind (fun _ => freePtrs_frees ps) (.perform trivial)) (freePtrs_frees ps)

theorem inodeFreeAllBlocks_frees (fs : Fs) (i : Inode) : (inodeFreeAllBlocks fs i).Issues OnlyFrees := by
  refine .bind (fun i' => .ite ?_ .pure) (freeDirect_frees _ i)
  refine .bind (fun r => ?_) (.perform trivial)
  cases r with
  | none => exact .bind (fun _ => .pure) (.perform trivial)
  | some ro =>
    refine .bind (fun _ => ?_) (freePtrs_frees _)
    exact .bind (fun _ => .pure) (.perform trivial)

theorem inodeBlockAt_spares (fs : Fs) (i : Inode) (k : Nat) : (inodeBlockAt fs i k).Issues SparesBits := by
  refine .ite .pure (.ite .pure (.ite .pure ?_))
  refine .bind (fun r => ?_) (.perform trivial)
  cases r with
  | none => exact .pure
  | some ro => exact .pure

theorem scanDir_spares (fs : Fs) (i : Inode) (body : Buf → Option β) : ∀ (m b : Nat), (scanDir fs i body m b).Issues SparesBits
  | 0, _ => .pure
  | m + 1, b => by
    refine .bind (fun blk => .ite (scanDir_spares fs i body m (b + 1)) ?_) (inodeBlockAt_spares fs i b)
    refine .bind (fun r => ?_) (.perform trivial)
    cases r with
    | none => exact .pure
    | some buf =>
      dsimp only
      cases body buf with
      | none => exact scanDir_spares fs i body m (b + 1)
      | some x => exact .pure

theorem commitDir_spares (ino : Nat) (i : Inode) (now : UInt32) (blk : Nat) (buf : Buf) : (commitDir ino i now blk buf).Issues SparesBits :=
  .bind (fun _ => .ite (.perform trivial) .pure) (.perform trivial)

theorem dirRemove_spares (fs : Fs) (ino : Nat) (name : Text) (now : UInt32) : (dirRemove fs ino name now).Issues SparesBits := by
  refine .bind (fun r => ?_) (.perform trivial)
  cases r with
  | none => exact .pure
  | some i =>
    refine .bind (fun s => ?_) (scanDir_spares fs i _ _ 0)
    cases s with
    | ioError => exact .pure
    | missing => exact .pure
    | found blk buf => exact commitDir_spares ino i now blk buf

theorem dirSetParent_spares (fs : Fs) (ino parent : Nat) : (dirSetParent fs ino parent).Issues SparesBits := by
  refine .bind (fun r => ?_) (.perform trivial)
  cases r with
  | none => exact .pure
  | some i =>
    refine .bind (fun s => ?_) (scanDir_spares fs i _ _ 0)
    cases s with
    | ioError => exact .pure
    | missing => exact .pure
    | found blk buf => exact .perform trivial

theorem updateInode_spares (ino : Nat) (f : Inode → Inode) : (updateInode ino f).Issues SparesBits := by
  refine .bind (fun r => ?_) (.perform trivial)
  cases r with
  | none => exact .pure
  | some i => exact .bind (fun _ => .pure) (.perform trivial)

theorem dirIsEmpty_spares (fs : Fs) (ino : Nat) : (dirIsEmpty fs ino).Issues SparesBits := by
  refine .bind (fun r => ?_) (.perform trivial)
  cases r with
  | none => exact .pure
  | some i =>
    refine .bind (fun s => ?_) (scanDir_spares fs i _ _ 0)
    cases s with
    | ioError => exact .pure
    | missing => exact .pure
    | found blk buf => exact .pure

end

/-! ## The operations on a shadow -/

section
variable {aware : Bool} {L : Layout} {d : Disk} {w : Store} {p n : Nat} {leaf : Text} {adjust stamp : Inode → Inode}

/-- **`ext2_dir_insert`** where there is room that lookup sees: no block is taken. -/
theorem Shadow.exec_insert {f : Bool → Drv β} (h : L.Ok) (hs : Shadow L d w) (inv : FsInv aware false L w)
    (hu : w.inodeUsed p = true) (hd : (w.inode p).isDir = true) (hroom : RoomSeen L w p (align4 (8 + leaf.length)))
    (hleaf : 0 < leaf.length ∧ leaf.length < 256) (hn : Named L w n) (ft : UInt8) (now : UInt32)
    (hf : ∀ d' w', Shadow L d' w' → FsInv aware false L w' → Inserts (w.node L) p ⟨leaf, n, ft⟩ (w'.node L) →
      Inserted ⟨leaf, n, ft⟩ (w.node L p).vis (w'.node L p).vis → Q (d'.exec L (f true))) :
    Q (d.exec L (dirInsert L.fs p leaf n ft now >>= f)) := by
  obtain ⟨used, free, he⟩ := hs.store
  have hda := inv.dirAt hu hd
  have hda' : DirAt L (w.rebit used free) p := ⟨hda.valid, hda.isDir, hda.map, hda.wf⟩
  have hroom' := hroom
  rcases run_dirInsert h hda' ft now hleaf hn.range with ⟨hno, -⟩ | ⟨-, v', k, buf, hrun, hedit, hins, hvis⟩
  · exact absurd hno hroom'.room
  have hsees := hvis.resolve_right fun hc => hc.2 (.inr hroom')
  -- the same edit of the shadow
  generalize hw' : (w.setData L ((w.inode p).blockAt L.blockSize w.data k) buf).setInode p ((w.inode p).touch now) = w'
  have hv' : v' = w'.rebit used free := by rw [hedit.eq, ← hw']; rfl
  have hedit' : EditedAt L w p k buf ((w.inode p).touch now) w' := ⟨hedit.lt, hedit.ne, hedit.body, hw'.symm, hedit.tiled⟩
  have hins' : Inserted ⟨leaf, n, ft⟩ (w.ents L p) (w'.ents L p) := by rw [hv'] at hins; exact hins
  have hvis' : Inserted ⟨leaf, n, ft⟩ (w.vis L p) (w'.vis L p) := by rw [hv'] at hsees; exact hsees.1
  obtain ⟨inv', -, hnode⟩ := inv.edited hu hd hedit' fun e hm => by
    rcases hins'.mem_iff.1 hm with rfl | hm
    · exact hn
    · exact (inv.dirs p hu hd).named e hm
  have hgraph : Inserts (w.node L) p ⟨leaf, n, ft⟩ (w'.node L) := by
    refine ⟨by simpa using hu, by simpa using hd, _, _, _, hnode, by rw [node_inode]; rfl, by rw [node_inode]; rfl, ?_, ?_⟩
    · rw [node_dir hu hd]; exact hins'
    · rw [node_dir hu hd]; exact .inl hvis'
  rw [← he] at hrun
  obtain ⟨h1, h2, h3⟩ := exec_of_run h hs.mounted hrun (by rw [hv']; exact inv'.own.wild)
  rw [exec_bind, h1]
  refine hf _ w' ⟨h2, used, free, h3.trans hv'⟩ inv' hgraph ?_
  rw [hnode, update_self, node_dir hu hd]
  exact hvis'

/-- Whatever the record says its blocks are, the inode goes. -/
theorem Shadow.discard (h : L.Ok) (hs : Shadow L d w) (inv : FsInv aware false L w) (i : Inode) (isDir : Bool) :
    ∃ w', Shadow L (d.exec L (inodeFreeAllBlocks L.fs i >>= fun _ => Drv.freeInode n isDir)).2 w' ∧ FsInv aware false L w' ∧
      w'.node L = (if w.inodeUsed n then update (w.node L) n (Node.free Inode.empty) else w.node L) ∧
      w'.data = w.data ∧ ∀ j, j ≠ n → w'.inode j = w.inode j := by
  have hs₁ := hs.exec_frees h (inodeFreeAllBlocks_frees L.fs i)
  obtain ⟨used, free, he⟩ := hs₁.store
  have hdrop : (w.rebit used free).dropInode L n = (w.dropInode L n).rebit used free := by
    unfold dropInode
    split
    · rw [if_pos ‹_›]
    · rw [if_neg ‹_›]; rfl
  have hfacts : FsInv aware false L (w.dropInode L n) ∧
      (w.dropInode L n).node L = (if w.inodeUsed n then update (w.node L) n (Node.free Inode.empty) else w.node L) := by
    by_cases hu : w.inodeUsed n = true
    · rw [if_pos hu]
      exact inv.wipe (inv.own.checkout hu).start hu nofun
    · have hid : w.dropInode L n = w := if_pos (.inr (by simpa using hu))
      rw [if_neg hu, hid]
      exact ⟨inv, rfl⟩
  have hrun := Drv.run_freeInode (L := L) (v := w.rebit used free) n isDir
  rw [← he] at hrun
  obtain ⟨-, h2, h3⟩ := exec_of_run h hs₁.mounted hrun (by rw [he, hdrop]; exact hfacts.1.own.wild)
  rw [he] at h3
  refine ⟨w.dropInode L n, ?_, hfacts.1, hfacts.2, ?_, fun j hj => ?_⟩
  · rw [exec_bind]
    exact ⟨h2, used, free, h3.trans hdrop⟩
  · unfold dropInode
    split <;> rfl
  · unfold dropInode
    split
    · rfl
    · exact update_of_ne hj _ _

/-- What `dropEntry` has done: nothing, or the entry and a name of `n` have gone, and the room of the entry is where it was. -/
def EntryDropped (aware : Bool) (L : Layout) (w : Store) (p n : Nat) (leaf : Text) (directory : Bool) (adjust stamp : Inode → Inode)
    (out : Int × Disk) : Prop :=
  (out.1 ≠ 0 ∧ Shadow L out.2 w) ∨
  (out.1 = 0 ∧ ∃ w', Shadow L out.2 w' ∧ FsInv aware false L w' ∧ Dropped L (w.node L) p n leaf directory adjust stamp (w'.node L) ∧
    ((∃ e ∈ (w.node L p).vis, e.name = leaf) → RoomSeen L w' p (align4 (8 + leaf.length))))

theorem RoomSeen.kept {need : Nat} (hr : RoomSeen L w p need) (hs : (w.inode p).SameShape (w'.inode p)) (hd : w'.data = w.data) :
    RoomSeen L w' p need := (RoomSeen.congr hs.iSize hs.iBlock fun b _ => by rw [hd]).2 hr

/-- **An entry goes, and a name of what it stands for**, be that a file, a directory or a fast symbolic link. -/
theorem Shadow.dropEntry {directory : Bool} (h : L.Ok) (hs : Shadow L d w) (inv : FsInv aware false L w) (hp : DirSlot L w p)
    (hleaf : leaf.length < 64) (hn : Named L w n) (hv : L.ValidIno n) (hd : (w.inode n).isDir = directory) (hpn : p ≠ n) (now : UInt32)
    (ha : ∀ i : Inode, i.SameShape (adjust i)) (hst : ∀ i : Inode, i.SameShape (stamp i)) :
    EntryDropped aware L w p n leaf directory adjust stamp
      (d.exec L (Ext2.dropEntry L.fs now directory p n leaf (w.inode n) adjust stamp)) := by
  have hspare : (mayDrop L.fs directory n).Issues SparesBits := by
    exact .ite (dirIsEmpty_spares L.fs n) .pure
  obtain ⟨ok, hmay, hempty⟩ := inv.run_mayDrop hn hv hd
  refine hs.exec_seq h hspare (R := fun a w' => a = ok ∧ w' = w) (wp_of_run hmay ⟨inv, rfl, rfl⟩) ?_
  rintro a d₁ w₀ hs₁ ⟨-, hr, hw₀⟩
  rw [hw₀] at hs₁
  rw [hr]
  by_cases hok : ok = true
  swap
  · rw [if_neg hok]
    exact .inl ⟨show -ENOTEMPTY ≠ 0 by decide, hs₁⟩
  rw [if_pos hok]
  refine hs₁.exec_seq h (dirRemove_spares L.fs p leaf now) (inv.wp_dirRemove h hp (by omega) now) ?_
  rintro r d₂ w₁ hs₂ ⟨inv₁, ⟨rfl, hrem, hroom⟩ | ⟨rfl, rfl, -⟩⟩
  swap
  · exact .inl ⟨show (- EIO) ≠ 0 by decide, hs₂⟩
  rw [if_pos rfl]
  have hup : w.inodeUsed p = true := by simpa using hrem.used
  have hvp := inv.own.valid p hup
  -- the record of `n` is the one that was read
  obtain ⟨hu₁, hs₁, -⟩ := hrem.inode_shape n
  rw [node_used, node_used] at hu₁
  rw [node_inode, node_inode] at hs₁
  cases directory with
  | true =>
    rw [if_pos rfl, exec_bind]
    have hun : w₁.inodeUsed n = true := hu₁.trans (FsInv.used_of_isDir hn hv hd)
    obtain ⟨w₂, hs₃, inv₂, hnode, hdata, hino⟩ := hs₂.discard h inv₁ (w.inode n) true
    rw [if_pos hun] at hnode
    obtain ⟨inv₃, hnode₃⟩ := inv₂.restamp (ha (w₂.inode p))
    obtain ⟨-, hs₄⟩ := hs₃.exec_run h (updateInode_spares p adjust) (run_updateInode hvp adjust) inv₃.own.wild
    rw [exec_bind] at hs₄
    refine .inr ⟨rfl, _, ?_, inv₃, ⟨_, hrem, hempty hok, ?_⟩, fun hex => ?_⟩
    · rw [dropDir, exec_bind, exec_bind]
      exact hs₄
    · rw [dropNode, if_pos rfl, adjustNode, if_pos hvp, hnode₃, ← hnode, node_inode]
    · have h2 := (hroom hex).kept (by rw [hino p hpn]; exact .refl _) hdata
      have hself : (w₂.setInode p (adjust (w₂.inode p))).inode p = adjust (w₂.inode p) := update_self ..
      exact h2.kept (by rw [hself]; exact ha _) rfl
  | false =>
    rw [if_neg (by decide), exec_bind]
    have hdrop : ∀ w', Shadow L (d₂.exec L (dropFile L.fs n (w.inode n) stamp)).2 w' → FsInv aware false L w' →
        w'.node L = update (w₁.node L) n ((w₁.node L n).dropName (w.inode n) stamp) → w'.data = w₁.data → w'.inode p = w₁.inode p →
        EntryDropped aware L w p n leaf false adjust stamp
          ((d₂.exec L (dropFile L.fs n (w.inode n) stamp)).2.exec L (pure 0)) := by
      intro w' hs' inv' hnode hdata hino
      refine .inr ⟨rfl, w', hs', inv', ⟨_, hrem, by simp, ?_⟩, fun hex => ?_⟩
      · rw [node_inode]
        exact hnode
      · exact (hroom hex).kept (by rw [hino]; exact .refl _) hdata
    have hsd := hs₁.trans (.decLinks (w.inode n))
    by_cases h0 : (w.inode n).decLinks.iLinksCount = 0
    · obtain ⟨w₂, hs₃, inv₂, hnode, hdata, hino⟩ := hs₂.discard h inv₁ (w.inode n).decLinks false
      refine hdrop w₂ (by rw [dropFile, if_pos h0]; exact hs₃) inv₂ ?_ hdata (hino p hpn)
      rw [hnode, Node.dropName, node_used]
      split
      · rfl
      · rw [update_eq_self]
    · obtain ⟨inv₂, hnode⟩ := inv₁.restamp (hsd.trans (hst _))
      have hspare : (Drv.writeInode n (stamp (w.inode n).decLinks)).Issues SparesBits := .perform trivial
      obtain ⟨-, hs₃⟩ := hs₂.exec_run h hspare (Drv.run_writeInode hv) inv₂.own.wild
      refine hdrop _ ?_ inv₂ ?_ rfl (update_of_ne hpn _ _)
      · rw [dropFile, if_neg h0, exec_bind]
        exact hs₃
      · rw [hnode, Node.dropName, if_neg h0]

end
end PureUnix.Ext2
