import PureUnix.Ext2.Steps

/-!
# The life of an inode

How a new inode comes into the table, how its counts and times are rewritten in place, and how it goes
when its last name has gone. As in `Steps.lean`, each of these keeps `FsInv` and changes one node.
-/
namespace PureUnix.Ext2
open Lib List Nat Function Prog Set
open Store

/-! ## Rewriting a record in place -/

/-- Same type, size and pointers; link count, times and the rest may differ. -/
structure Inode.SameShape (i i' : Inode) : Prop where
  iMode : i'.iMode = i.iMode
  iSize : i'.iSize = i.iSize
  iBlocks : i'.iBlocks = i.iBlocks
  iBlock : i'.iBlock = i.iBlock

namespace Inode.SameShape
variable {i i' i'' : Inode}

theorem refl (i : Inode) : i.SameShape i := ⟨rfl, rfl, rfl, rfl⟩

section
variable (h : i.SameShape i')
include h

theorem trans (h' : i'.SameShape i'') : i.SameShape i'' :=
  ⟨h'.iMode.trans h.iMode, h'.iSize.trans h.iSize, h'.iBlocks.trans h.iBlocks, h'.iBlock.trans h.iBlock⟩

theorem isDir : i'.isDir = i.isDir := by unfold Inode.isDir; rw [h.iMode]

theorem isReg : i'.isReg = i.isReg := by unfold Inode.isReg; rw [h.iMode]

theorem isLnk : i'.isLnk = i.isLnk := by unfold Inode.isLnk; rw [h.iMode]

theorem inline (aware : Bool) : i'.inline aware = i.inline aware := by
  unfold Inode.inline
  rw [h.isLnk, h.iBlocks]

theorem dead (hd : i.Dead) : i'.Dead := hd.of_same h.iMode h.iBlock

end

theorem decLinks (i : Inode) : i.SameShape i.decLinks := by
  unfold Inode.decLinks
  split <;> exact ⟨rfl, rfl, rfl, rfl⟩

theorem incLinks (i : Inode) : i.SameShape i.incLinks := ⟨rfl, rfl, rfl, rfl⟩

theorem touch (i : Inode) (now : UInt32) : i.SameShape (i.touch now) := ⟨rfl, rfl, rfl, rfl⟩

end Inode.SameShape

section
variable {aware full : Bool} {L : Layout} {v v' : Store} {p n : Nat} {i i' : Inode}

/-- The meaning of a node under another record of the same shape. -/
def Node.withInode (m : Node) (i : Inode) : Node := { m with inode := i }

theorem Store.node_setInode (hs : (v.inode n).SameShape i') : (v.setInode n i').node L n = (v.node L n).withInode i' := by
  have hino : (v.setInode n i').inode n = i' := update_self ..
  have hb : ∀ k, i'.blockAt L.blockSize v.data k = (v.inode n).blockAt L.blockSize v.data k :=
    Inode.blockAt_of_iBlock hs.iBlock
  by_cases hu : v.inodeUsed n = true
  · have hu' : (v.setInode n i').inodeUsed n = true := hu
    by_cases hd : (v.inode n).isDir = true
    · rw [node_dir hu hd, node_dir hu' (by rw [hino, hs.isDir]; exact hd)]
      unfold ents vis Inode.dirEntries Inode.visibleEntries
      rw [hino, hs.iSize]
      have hk : ∀ m, i'.entriesUpTo L.blockSize v.data m = (v.inode n).entriesUpTo L.blockSize v.data m := fun m =>
        Inode.entriesUpTo_congr fun k _ => ⟨hb k, fun _ => rfl⟩
      exact Node.mk.injEq .. |>.mpr ⟨rfl, rfl, hk _, hk _, rfl⟩
    · by_cases hr : (v.inode n).isReg = true
      · rw [node_reg hu hr, node_reg hu' (by rw [hino, hs.isReg]; exact hr), hino]
        unfold Node.withInode Inode.bytes
        rw [hs.iSize]
        congr 1
        refine map_congr_left fun p _ => ?_
        change i'.byteAt L.blockSize v.data p = _
        unfold Inode.byteAt
        rw [hb]
      · simp only [node, hu, hu', if_true, hino, hs.isDir, hs.isReg, hd, hr]
        rfl
  · have hu0 : v.inodeUsed n = false := by simpa using hu
    rw [node_free hu0, node_free (show (v.setInode n i').inodeUsed n = false from hu0), hino]
    rfl

/-- Inodes may have gone; those still in use have records of the same shape, and no block has been written. -/
structure Store.Thins (v v' : Store) : Prop where
  data : v'.data = v.data
  used : ∀ j, v'.inodeUsed j = true → v.inodeUsed j = true
  shape : ∀ j, v'.inodeUsed j = true → (v.inode j).SameShape (v'.inode j)

namespace Store.Thins

theorem refl (v : Store) : v.Thins v := ⟨rfl, fun _ => id, fun _ _ => .refl _⟩

theorem trans {w : Store} (h : v.Thins v') (h' : v'.Thins w) : v.Thins w :=
  ⟨h'.data.trans h.data, fun j hj => h.used j (h'.used j hj), fun j hj => (h.shape j (h'.used j hj)).trans (h'.shape j hj)⟩

theorem setInode (hs : (v.inode n).SameShape i') : v.Thins (v.setInode n i') := by
  refine ⟨rfl, fun _ => id, fun j _ => ?_⟩
  by_cases hj : j = n
  · subst hj
    rw [show (v.setInode j i').inode j = i' from update_self ..]
    exact hs
  · rw [show (v.setInode n i').inode j = v.inode j from update_of_ne hj ..]
    exact .refl _

theorem dropBlocks (L : Layout) (l : List Nat) : v.Thins (v.dropBlocks L l) := by
  induction l generalizing v with
  | nil => exact .refl v
  | cons b l ih =>
    refine Thins.trans ?_ ih
    unfold Store.dropBlock
    split <;> exact ⟨rfl, fun _ => id, fun _ _ => .refl _⟩

theorem dropInode (L : Layout) (v : Store) (n : Nat) : v.Thins (v.dropInode L n) := by
  unfold Store.dropInode
  split
  · exact .refl v
  have hne : ∀ j, update v.inodeUsed n false j = true → j ≠ n := by
    rintro j hj rfl
    simp at hj
  refine ⟨rfl, fun j hj => ?_, fun j hj => ?_⟩
  · exact (update_of_ne (hne j hj) ..).symm.trans hj
  · dsimp only
    rw [update_of_ne (hne j hj)]
    exact .refl _

theorem roomSeen {need : Nat} (h : v.Thins v') (hu : v'.inodeUsed p = true) (hr : RoomSeen L v p need) : RoomSeen L v' p need :=
  (RoomSeen.congr (h.shape p hu).iSize (h.shape p hu).iBlock fun b _ => by rw [h.data]).2 hr

end Store.Thins

/-- What dropping one name does to a node that is no directory: the inode goes, or its count does. -/
def Node.dropName (m : Node) (i : Inode) (stamp : Inode → Inode) : Node :=
  if i.decLinks.iLinksCount = 0 then (if m.used then Node.free Inode.empty else m) else m.withInode (stamp i.decLinks)

/-- A record rewritten in place, if the number is in range. -/
def adjustNode (L : Layout) (g : Nat → Node) (p : Nat) (f : Inode → Inode) : Nat → Node :=
  if L.ValidIno p then update g p ((g p).withInode (f (g p).inode)) else g

theorem run_updateInode (hv : L.ValidIno p) (f : Inode → Inode) :
    Prog.run (step L) (updateInode p f) v = ((), v.setInode p (f (v.inode p))) := by
  rw [updateInode, run_bind, Drv.run_readInode hv]
  rw [run_bind, Drv.run_writeInode hv, run_pure]

namespace FsInv

/-- **`ext2_write_inode`** with new counts or times. -/
theorem restamp (inv : FsInv aware full L v) (hs : (v.inode n).SameShape i') : FsInv aware full L (v.setInode n i') ∧
      (v.setInode n i').node L = update (v.node L) n ((v.node L n).withInode i') := by
  have hino : (v.setInode n i').inode n = i' := update_self ..
  have hne : ∀ j, some n ≠ some j → (v.setInode n i').inode j = v.inode j := fun j hj =>
    update_of_ne (by rintro rfl; exact hj rfl) _ _
  have f : Frame aware L (some n) v (v.setInode n i') := ⟨fun _ _ => rfl, hne, fun _ _ _ _ _ => rfl⟩
  have hrefs : ∀ j, (v.setInode n i').refs aware L j = v.refs aware L j := by
    intro j
    by_cases hj : j = n
    · subst hj
      unfold refs
      rw [hino]
      exact Inode.refs_of_same hs.iMode hs.iBlocks hs.iBlock
    · unfold refs
      rw [hne j fun he => hj (Option.some.inj he).symm]
      rfl
  have o : Own aware full L none (v.setInode n i') ∅ := by
    refine ⟨inv.own.wild, inv.own.valid, inv.own.metaUsed, inv.own.books.congr fun j hj => ⟨hj, hrefs j⟩, fun hf =>
      (inv.own.all hf).congr fun j hj => ⟨hj, hrefs j⟩⟩
  refine ⟨inv.rebuild o f (fun hn => ⟨hn.range, fun hv => (hn.slot hv).imp id fun hd => ?_⟩) fun hu hd => ?_, ?_⟩
  · rw [hino]; exact hs.dead hd
  · rw [hino, hs.isDir] at hd
    have hu' : v.inodeUsed n = true := hu
    have hnode := node_setInode (L := L) hs
    rw [node_dir hu (by rw [hino, hs.isDir]; exact hd), node_dir hu' hd, Node.withInode, Node.mk.injEq] at hnode
    obtain ⟨hwf, htail, hnamed⟩ := inv.dirs n hu' hd
    refine ⟨⟨?_, ?_⟩, fun hf k hk => ?_, fun e he => ?_⟩
    · rw [hino, hs.iSize]; exact hwf.size
    · rw [hino, hs.iSize]
      intro k hk h0
      have hat : i'.blockAt L.blockSize v.data k = (v.inode n).blockAt L.blockSize v.data k :=
        Inode.blockAt_of_iBlock hs.iBlock k
      change i'.blockAt L.blockSize v.data k ≠ 0 at h0
      change Tiled _ (v.data (i'.blockAt L.blockSize v.data k))
      rw [hat] at h0 ⊢
      exact hwf.tiled k hk h0
    · rw [hino] at hk ⊢
      rw [hs.iSize] at hk
      exact (Inode.blockAt_of_iBlock hs.iBlock k).trans (htail hf k hk)
    · rw [hnode.2.2.1] at he
      exact f.named (fun hn => ⟨hn.range, fun _ => .inl hu⟩) (hnamed e he)
  · rw [f.node_eq, node_setInode hs]

theorem wp_updateInode (inv : FsInv aware full L v) {f : Inode → Inode} (hf : ∀ i : Inode, i.SameShape (f i)) :
    Prog.wp (step L) (updateInode p f) (fun _ v' => FsInv aware full L v' ∧ v'.node L = adjustNode L (v.node L) p f ∧
      v.Thins v') v := by
  unfold adjustNode
  by_cases hv : L.ValidIno p
  · obtain ⟨h1, h2⟩ := inv.restamp (hf (v.inode p))
    exact wp_of_run (run_updateInode hv f) ⟨h1, by rw [if_pos hv, node_inode]; exact h2, .setInode (hf _)⟩
  · refine wp_of_run (a := ()) ?_ ⟨inv, by rw [if_neg hv], .refl v⟩
    rw [updateInode, run_bind, Drv.run_readInode_invalid hv]
    rfl

/-! ## The end of an inode -/

theorem discarded (h : L.Ok) (inv : FsInv aware full L v) (hu : v.inodeUsed n = true) (hl : (v.inode n).inline aware = false) :
    FsInv aware full L ((v.dropBlocks L ((v.inode n).blockRefs L.blockSize v.data)).dropInode L n) ∧
    ((v.dropBlocks L ((v.inode n).blockRefs L.blockSize v.data)).dropInode L n).node L =
      update (v.node L) n (Node.free Inode.empty) := by
  have href : v.refs aware L n = (v.inode n).blockRefs L.blockSize v.data := Inode.refs_of_not_inline hl
  have w := (inv.own.checkout hu).start.dropBlocks h (inv.own.mapOk hu hl).nodup fun b hb => .inr (by rw [href]; exact hb)
  refine inv.wipe w ?_ fun _ => eq_empty_of_forall_notMem fun c hc => ?_
  · rw [dropBlocks_used]; exact hu
  · refine hc.2 ?_
    rw [← href]
    exact hc.1.resolve_left (notMem_empty c)

theorem indirect_data (inv : FsInv aware full L v) (hn : Named L v n) (hv : L.ValidIno n)
    (hl : (v.inode n).inline aware = false) (h0 : (v.inode n).blkNo 12 ≠ 0) : L.Data ((v.inode n).blkNo 12) := by
  rcases hn.slot hv with hu | hd
  · exact (inv.own.mapOk hu hl).indirect h0
  · exact absurd (hd.2.2 12 (by decide)) h0

/-- `ext2_inode_free_all_blocks`, then `ext2_free_inode`, on a record read earlier. A wiped slot stays as
it is. -/
theorem wp_discard (h : L.Ok) (inv : FsInv aware full L v) (hn : Named L v n) (hv : L.ValidIno n)
    (hs : (v.inode n).SameShape i) (hl : i.inline aware = false) (isDir : Bool) :
    Prog.wp (step L) (inodeFreeAllBlocks L.fs i >>= fun _ => Drv.freeInode n isDir) (fun _ v' =>
      FsInv aware full L v' ∧
      v'.node L = (if v.inodeUsed n then update (v.node L) n (Node.free Inode.empty) else v.node L) ∧ v.Thins v') v := by
  have hl' : (v.inode n).inline aware = false := by rw [← hs.inline]; exact hl
  have hrun := run_inodeFreeAllBlocks (v := v) fun h0 => by
    rw [Inode.blkNo_of_iBlock hs.iBlock] at h0 ⊢
    exact inv.indirect_data hn hv hl' h0
  rw [Inode.blockRefs_of_iBlock hs.iBlock] at hrun
  refine wp_seq_run hrun ?_
  refine wp_of_run (Drv.run_freeInode n isDir) ?_
  by_cases hu : v.inodeUsed n = true
  · rw [if_pos hu]
    obtain ⟨h1, h2⟩ := inv.discarded h hu hl'
    exact ⟨h1, h2, (Store.Thins.dropBlocks L _).trans (.dropInode L _ n)⟩
  have hd := (hn.slot hv).resolve_left hu
  have hid : ((v.dropBlocks L ((v.inode n).blockRefs L.blockSize v.data)).dropInode L n) = v := by
    rw [hd.2.2.blockRefs]
    change v.dropInode L n = v
    exact if_pos (.inr (by simpa using hu))
  rw [hid, if_neg hu]
  exact ⟨inv, rfl, .refl v⟩

/-- **One name less** (`ext2_unlink` and `ext2_rename` on what is no directory). -/
theorem wp_dropFile (h : L.Ok) (inv : FsInv aware full L v) (hn : Named L v n) (hv : L.ValidIno n)
    (hs : (v.inode n).SameShape i) (hl : i.inline aware = false) {stamp : Inode → Inode}
    (hst : ∀ i : Inode, i.SameShape (stamp i)) :
    Prog.wp (step L) (dropFile L.fs n i stamp) (fun _ v' => FsInv aware full L v' ∧
      v'.node L = update (v.node L) n ((v.node L n).dropName i stamp) ∧ v.Thins v') v := by
  have hsd := hs.trans (.decLinks i)
  unfold dropFile Node.dropName
  refine wp_ite (fun h0 => ?_) fun h0 => ?_
  · simp only [if_pos h0, node_used]
    refine wp_mono (inv.wp_discard h hn hv hsd (by rw [(Inode.SameShape.decLinks i).inline]; exact hl) false) ?_
    rintro - v' ⟨hinv, hnode, hthin⟩
    refine ⟨hinv, hnode.trans ?_, hthin⟩
    split
    · rfl
    · rw [update_eq_self]
  · simp only [if_neg h0]
    refine wp_seq_run (Drv.run_writeInode hv) ?_
    obtain ⟨h1, h2⟩ := inv.restamp (hsd.trans (hst _))
    exact ⟨h1, h2, .setInode (hsd.trans (hst _))⟩

/-- **A directory goes** and its parent's record is adjusted; the parent may be the directory itself. -/
theorem wp_dropDir (h : L.Ok) (inv : FsInv aware full L v) (hu : v.inodeUsed n = true) (hd : (v.inode n).isDir = true)
    (hs : (v.inode n).SameShape i) {adjust : Inode → Inode} (ha : ∀ i : Inode, i.SameShape (adjust i)) :
    Prog.wp (step L) (dropDir L.fs n p i adjust) (fun _ v' => FsInv aware full L v' ∧
      v'.node L = adjustNode L (update (v.node L) n (Node.free Inode.empty)) p adjust ∧ v.Thins v') v := by
  have hv := inv.own.valid n hu
  have hl : i.inline aware = false := by
    rw [hs.inline]
    exact Inode.inline_of_not_lnk (Inode.isLnk_of_isDir hd)
  refine wp_seq_assoc (inv.wp_discard h (h.named_of_used hv hu) hv hs hl true) ?_
  rintro - v₁ ⟨hinv, hnode, hthin⟩
  rw [if_pos hu] at hnode
  refine wp_mono (hinv.wp_updateInode ha) ?_
  rintro - v₂ ⟨hinv₂, hnode₂, hthin₂⟩
  refine ⟨hinv₂, ?_, hthin.trans hthin₂⟩
  rw [hnode₂, ← hnode]

end FsInv

/-! ## A new inode -/

/-- **A new file**: an empty record goes into a free slot. -/
theorem FsInv.freshFile (inv : FsInv aware full L v) {g : Nat} (hn : v.nextInode L = some (g, n)) (hz : i.NoBlocks)
    (hs : i.iSize = 0) (hr : i.isReg = true) :
    FsInv aware full L ((v.takeInode g n).setInode n i) ∧
      ((v.takeInode g n).setInode n i).node L = update (v.node L) n ⟨true, i, [], [], []⟩ ∧
      Frame aware L (some n) v ((v.takeInode g n).setInode n i) := by
  have w := (inv.own.takeInode hn).setInode i
  have hu : ((v.takeInode g n).setInode n i).inodeUsed n = true := update_self ..
  have hino : ((v.takeInode g n).setInode n i).inode n = i := update_self ..
  refine ⟨inv.putBack w hu ?_ ⟨?_, fun c hc => ?_⟩ (fun _ c hc => absurd hc (notMem_empty c)) fun hd => ?_, ?_, w.frame⟩
  · rw [hino]; exact Inode.inline_of_not_lnk (Inode.isLnk_of_isReg hr)
  · rw [hino, hz.blockRefs]; exact nodup_nil
  · rw [hino, hz.blockRefs] at hc; cases hc
  · rw [hino, Inode.isDir_of_isReg hr] at hd; cases hd
  · rw [w.frame.node_eq, node_reg hu (by rw [hino]; exact hr), hino, Inode.bytes, hs]
    rfl

theorem newDirBlock_chain {bs : Nat} (hbs : bs = 1024 ∨ bs = 2048 ∨ bs = 4096) (hn : n ≠ 0 ∧ n < 4294967296)
    (hp : p ≠ 0 ∧ p < 4294967296) :
    direntFormat.Chain (newDirBlock bs n p)
      [⟨12, some ⟨dotName, n, EXT2_FT_DIR⟩⟩, ⟨bs - 12, some ⟨dotdotName, p, EXT2_FT_DIR⟩⟩] 0 bs := by
  have hfirst : recAt (putEntry (put16 zeros 4 12) 0 n dotName EXT2_FT_DIR) 0 = ⟨12, some ⟨dotName, n, EXT2_FT_DIR⟩⟩ := by
    rw [recAt_putEntry hn (by decide)]
    rfl
  have hout : Same 0 12 (putEntry (put16 zeros 4 12) 0 n dotName EXT2_FT_DIR) (newDirBlock bs n p) :=
    (Same.trans (putEntry_same (.inl (le_refl _))) (put16_same (.inl (by decide)))).symm
  have hok : (Rec.mk 12 (some ⟨dotName, n, EXT2_FT_DIR⟩)).Ok := by
    refine ⟨show 12 % 4 = 0 by decide, show 8 ≤ 12 by decide, ?_⟩
    rintro d ⟨⟩
    change align4 (8 + 1) ≤ 12
    decide
  refine ⟨?_, hok, ?_, ⟨?_, ?_, ?_⟩, ?_⟩
  · refine (recAt_congr (by rw [hfirst]; exact hok) ?_).trans hfirst
    rw [hfirst]; exact hout
  · refine (recAt_putEntry hp (by decide)).trans ?_
    change Rec.mk (get16 (put16 _ 16 (bs - 12)) 16) _ = _
    rw [get16_put16, mod_eq_of_lt (by omega)]
  · change (bs - 12) % 4 = 0; omega
  · change 8 ≤ bs - 12; omega
  · rintro d ⟨⟩
    change align4 (8 + 2) ≤ bs - 12
    unfold align4; omega
  · change 0 + 12 + (bs - 12) = bs; omega

/-- **A new directory**: a record with one block, which holds "." and "..". -/
theorem FsInv.freshDir (h : L.Ok) (inv : FsInv aware full L v) {g g' b : Nat} (hn : v.nextInode L = some (g, n))
    (hb : (v.takeInode g n).nextBlock L = some (g', b)) (hp : Named L v p) (hd : i.isDir = true)
    (hsize : i.iSize.toNat = L.blockSize) (hblk : ∀ k, k < 13 → i.blkNo k = if k = 0 then b else 0) :
    FsInv aware full L ((((v.takeInode g n).takeBlock L g' b).setData L b (newDirBlock L.blockSize n p)).setInode n i) ∧
      ((((v.takeInode g n).takeBlock L g' b).setData L b (newDirBlock L.blockSize n p)).setInode n i).node L =
        update (v.node L) n ⟨true, i, [⟨dotName, n, EXT2_FT_DIR⟩, ⟨dotdotName, p, EXT2_FT_DIR⟩],
          [⟨dotName, n, EXT2_FT_DIR⟩, ⟨dotdotName, p, EXT2_FT_DIR⟩], []⟩ ∧
      Frame aware L (some n) v
        ((((v.takeInode g n).takeBlock L g' b).setData L b (newDirBlock L.blockSize n p)).setInode n i) ∧
      ∀ need, need + 24 ≤ L.blockSize →
        ¬ NoRoom L ((((v.takeInode g n).takeBlock L g' b).setData L b (newDirBlock L.blockSize n p)).setInode n i) n need := by
  have w₁ := inv.own.takeInode hn
  obtain ⟨hbd, -, -, -⟩ := w₁.own.next h hb
  have w := ((w₁.take h hb).write (mem_insert b ∅) (newDirBlock L.blockSize n p)).setInode i
  obtain ⟨hv, -⟩ := v.nextInode_fresh hn
  have hb0 := h.data_ne_zero hbd
  generalize hv' : (((v.takeInode g n).takeBlock L g' b).setData L b (newDirBlock L.blockSize n p)).setInode n i = v' at w ⊢
  have hu : v'.inodeUsed n = true := by rw [← hv']; exact update_self ..
  have hino : v'.inode n = i := by rw [← hv']; exact update_self ..
  have hdata : v'.data b = trunc L.blockSize (newDirBlock L.blockSize n p) := by
    rw [← hv']; exact update_self ..
  have hnn : Named L v' n := h.named_of_used hv hu
  obtain ⟨ht, hent⟩ := chain_trunc (newDirBlock_chain h.blockSize hnn.range hp.range)
  have hat : ∀ k, i.blockAt L.blockSize v'.data k = if k = 0 then b else 0 := by
    intro k
    by_cases hk : k < 12
    · rw [Inode.blockAt_direct hk, hblk k (by omega)]
    · rw [Inode.blockAt_no_indirect (by rw [hblk 12 (by decide)]; rfl) (by omega), if_neg (by omega)]
  have hrefs : ∀ c, c ∈ i.blockRefs L.blockSize v'.data ↔ c = b := by
    intro c
    rw [Inode.mem_blockRefs, hblk 12 (by decide)]
    constructor
    · rintro ⟨h0, ⟨k, hk⟩ | hc⟩
      · rw [hat] at hk
        split at hk
        · exact hk.symm
        · exact absurd hk.symm h0
      · exact absurd hc h0
    · rintro rfl
      exact ⟨hb0, .inl ⟨0, by rw [hat, if_pos rfl]⟩⟩
  have hnb : i.iSize.toNat / L.blockSize = 1 := by rw [hsize, Nat.div_self h.bs_pos]
  have hup : ∀ m, 0 < m → i.entriesUpTo L.blockSize v'.data m = [⟨dotName, n, EXT2_FT_DIR⟩, ⟨dotdotName, p, EXT2_FT_DIR⟩] := by
    intro m hm
    induction m, hm using le_induction with
    | base =>
      rw [Inode.entriesUpTo_succ, hat, if_pos rfl, blockEntries, if_neg hb0, hdata, hent]
      rfl
    | succ m hm ih => rw [Inode.entriesUpTo_succ, ih, hat, if_neg (by omega), blockEntries, if_pos rfl, append_nil]
  have hents : v'.ents L n = [⟨dotName, n, EXT2_FT_DIR⟩, ⟨dotdotName, p, EXT2_FT_DIR⟩] := by
    rw [ents, hino, Inode.dirEntries, hnb]
    exact hup 1 (by decide)
  have hvis : v'.vis L n = [⟨dotName, n, EXT2_FT_DIR⟩, ⟨dotdotName, p, EXT2_FT_DIR⟩] := by
    rw [vis, hino, Inode.visibleEntries, hnb]
    refine hup _ ?_
    unfold iterCap
    omega
  have hroom : ∀ need, need + 24 ≤ L.blockSize → ¬ NoRoom L v' n need := by
    -- behind the name ".."
    intro need hneed hno
    have hchain := newDirBlock_chain h.blockSize hnn.range hp.range
    have hrecs := (Tiled.of_chain (hchain.congr (trunc_same L.blockSize _).symm)).2
    refine hno 0 (by rw [hino, hnb]; decide) (by rw [hino, hat, if_pos rfl]; exact hb0)
      ⟨L.blockSize - 12, some ⟨dotdotName, p, EXT2_FT_DIR⟩⟩ ?_ ?_
    · rw [hino, hat, if_pos rfl, hdata, hrecs]
      simp
    · change need + align4 (8 + 2) ≤ L.blockSize - 12
      rw [show align4 (8 + 2) = 12 from rfl]
      omega
  refine ⟨inv.putBack w hu ?_ ?_ (fun _ c hc => ?_) fun _ => ⟨⟨?_, ?_⟩, fun _ k hk => ?_, fun e he => ?_⟩, ?_, w.frame, hroom⟩
  · rw [hino]; exact Inode.inline_of_not_lnk (Inode.isLnk_of_isDir hd)
  · rw [hino]
    refine ⟨Inode.nodup_blockRefs.2 ⟨fun k k' h0 he => ?_, fun k h0 => ?_⟩, fun c hc => ?_⟩
    · rw [hat] at h0 he
      rw [hat] at he
      by_cases hk : k = 0
      · by_cases hk' : k' = 0
        · rw [hk, hk']
        · rw [if_pos hk, if_neg hk'] at he
          exact absurd he hb0
      · rw [if_neg hk] at h0
        exact absurd rfl h0
    · rw [hblk 12 (by decide)]
      exact h0
    · rw [(hrefs c).1 hc]
      exact mem_insert _ _
  · rw [hino, hrefs]
    exact hc.resolve_right (notMem_empty c)
  · rw [hino, hsize, mod_self]
  · rw [hino, hnb]
    intro k hk _
    rw [hat, if_pos (by omega), hdata]
    exact ht
  · rw [hino] at hk ⊢
    rw [hat, if_neg (by omega)]
  · rw [hents] at he
    rcases mem_cons.1 he with rfl | he
    · exact hnn
    · rw [mem_singleton.1 he]
      exact w.frame.named (fun _ => hnn) hp
  · rw [w.frame.node_eq, node_dir hu (by rw [hino]; exact hd), hino, hents, hvis]

end
end PureUnix.Ext2
