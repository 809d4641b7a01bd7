import PureUnix.Ext2.Ownership
import PureUnix.Ext2.DirSpec

/-!
# A consistent file system

`Store.node` is what an inode means: whether it is in use, its record, the entries of a directory (all of
them, and those lookup reaches) and the bytes of a regular file. `FsInv` is the invariant of the driver
between two calls: the books balance, directories are tiled by records, and every entry names an inode that
is in use or a slot that `ext2_free_inode` has wiped (`Named`).

An entry can outlive its inode: removing "." or ".." through a path that spells them frees a directory
that its parent still names. Such a slot reads as neither file nor directory and refers to no block, so
the functions below leave it alone.
-/
namespace PureUnix.Ext2
open Lib Inode Store Function

/-! ## Nodes -/

namespace Inode

variable {i : Inode}

/-- Byte `p` as `ext2_read_file_ino` finds it: a hole, or a block behind the reach of
`ext2_iter_blocks`, reads as zeros. -/
def byteAt (bs : Nat) (data : Nat → Buf) (i : Inode) (p : Nat) : UInt8 :=
  if p / bs < iterCap bs ∧ i.blockAt bs data (p / bs) ≠ 0 then data (i.blockAt bs data (p / bs)) (p % bs) else 0

def bytes (bs : Nat) (data : Nat → Buf) (i : Inode) : Text := (List.range i.iSize.toNat).map (i.byteAt bs data)

theorem bytes_congr {bs : Nat} {data data' : Nat → Buf} (h : ∀ b ∈ i.blockRefs bs data, data' b = data b) :
    i.bytes bs data' = i.bytes bs data := by
  refine List.map_congr_left fun p _ => ?_
  unfold byteAt
  rw [blockAt_congr (fun h0 => h _ (indirect_mem_refs h0))]
  split
  · rename_i hc
    rw [h _ (blockAt_mem_refs hc.2)]
  · rfl

theorem length_bytes (bs : Nat) (data : Nat → Buf) (i : Inode) : (i.bytes bs data).length = i.iSize.toNat := by simp [bytes]

def NoBlocks (i : Inode) : Prop := ∀ k, k < 13 → i.blkNo k = 0

theorem NoBlocks.blockAt (hi : i.NoBlocks) (bs : Nat) (data : Nat → Buf) (k : Nat) : i.blockAt bs data k = 0 := by
  by_cases hk : k < 12
  · rw [blockAt_direct hk]; exact hi k (by omega)
  · exact blockAt_no_indirect (hi 12 (by decide)) (by omega)

theorem NoBlocks.blockRefs (hi : i.NoBlocks) (bs : Nat) (data : Nat → Buf) : i.blockRefs bs data = [] := by
  rw [List.eq_nil_iff_forall_not_mem]
  intro b hb
  obtain ⟨h0, ⟨k, hk⟩ | hk⟩ := mem_blockRefs.1 hb
  · exact h0 (hk ▸ hi.blockAt bs data k)
  · exact h0 (hk.trans (hi 12 (by decide)))

/-- A slot that reads as neither file nor directory and holds no pointer. -/
def Dead (i : Inode) : Prop := i.isReg = false ∧ i.isDir = false ∧ i.NoBlocks

theorem dead_empty : Inode.empty.Dead := by
  refine ⟨by decide, by decide, fun k hk => ?_⟩
  interval_cases k <;> decide

theorem Dead.of_same {i' : Inode} (h : i.Dead) (hm : i'.iMode = i.iMode) (hb : i'.iBlock = i.iBlock) : i'.Dead := by
  unfold Dead isReg isDir at h ⊢
  rw [hm]
  exact ⟨h.1, h.2.1, fun k hk => (blkNo_of_iBlock hb k).trans (h.2.2 k hk)⟩

theorem isLnk_of_isDir (h : i.isDir = true) : i.isLnk = false := by
  unfold isLnk
  rw [eq_of_beq h]; decide

theorem isReg_of_isDir (h : i.isDir = true) : i.isReg = false := by
  unfold isReg
  rw [eq_of_beq h]; decide

theorem isLnk_of_isReg (h : i.isReg = true) : i.isLnk = false := by
  unfold isLnk
  rw [eq_of_beq h]; decide

theorem isDir_of_isReg (h : i.isReg = true) : i.isDir = false := by
  unfold isDir
  rw [eq_of_beq h]; decide

end Inode

/-- What an inode means. -/
structure Node where
  used : Bool
  inode : Inode
  ents : List Dent
  vis : List Dent
  bytes : Text

abbrev Graph := Nat → Node

def Node.free (i : Inode) : Node := ⟨false, i, [], [], []⟩

def Store.node (L : Layout) (v : Store) (j : Nat) : Node :=
  if v.inodeUsed j then
    { used := true
      inode := v.inode j
      ents := if (v.inode j).isDir then v.ents L j else []
      vis := if (v.inode j).isDir then v.vis L j else []
      bytes := if (v.inode j).isReg then (v.inode j).bytes L.blockSize v.data else [] }
  else Node.free (v.inode j)

section
variable {aware : Bool} {L : Layout} {x : Option Nat} {v v' : Store} {j : Nat}

@[simp] theorem Store.node_used : (v.node L j).used = v.inodeUsed j := by
  unfold Store.node
  by_cases h : v.inodeUsed j = true
  · rw [if_pos h, h]
  · rw [if_neg h]; simpa [Node.free] using h

@[simp] theorem Store.node_inode : (v.node L j).inode = v.inode j := by
  unfold Store.node
  split <;> rfl

theorem Store.node_dir (hu : v.inodeUsed j = true) (hd : (v.inode j).isDir = true) :
    v.node L j = ⟨true, v.inode j, v.ents L j, v.vis L j, []⟩ := by
  simp [Store.node, hu, hd, isReg_of_isDir hd]

theorem Store.node_reg (hu : v.inodeUsed j = true) (hr : (v.inode j).isReg = true) :
    v.node L j = ⟨true, v.inode j, [], [], (v.inode j).bytes L.blockSize v.data⟩ := by
  simp [Store.node, hu, hr, isDir_of_isReg hr]

theorem Store.node_free (hu : v.inodeUsed j = false) : v.node L j = Node.free (v.inode j) := by
  simp [Store.node, hu]

theorem Store.node_congr (hu : v'.inodeUsed j = v.inodeUsed j) (hi : v'.inode j = v.inode j)
    (hd : v.inodeUsed j = true → ∀ b ∈ v.refs aware L j, v'.data b = v.data b) : v'.node L j = v.node L j := by
  by_cases hj : v.inodeUsed j = true
  · have hfile : (v.inode j).isLnk = false →
        ∀ k, (v.inode j).blockAt L.blockSize v'.data k = (v.inode j).blockAt L.blockSize v.data k ∧
          ((v.inode j).blockAt L.blockSize v.data k ≠ 0 →
            v'.data ((v.inode j).blockAt L.blockSize v.data k) = v.data ((v.inode j).blockAt L.blockSize v.data k)) := by
      intro hl k
      have href : v.refs aware L j = (v.inode j).blockRefs L.blockSize v.data :=
        refs_of_not_inline (inline_of_not_lnk hl)
      have hd' := hd hj
      rw [href] at hd'
      exact ⟨blockAt_congr (fun h0 => hd' _ (indirect_mem_refs h0)) k,
        fun h0 => hd' _ (blockAt_mem_refs h0)⟩
    have hents : (v.inode j).isDir = true → v'.ents L j = v.ents L j ∧ v'.vis L j = v.vis L j := by
      intro hdir
      have hf := hfile (isLnk_of_isDir hdir)
      unfold Store.ents Store.vis Inode.dirEntries Inode.visibleEntries
      rw [hi]
      exact ⟨entriesUpTo_congr fun k _ => hf k, entriesUpTo_congr fun k _ => hf k⟩
    have hbytes : (v.inode j).isReg = true →
        (v.inode j).bytes L.blockSize v'.data = (v.inode j).bytes L.blockSize v.data := by
      intro hreg
      have hd' := hd hj
      rw [Store.refs, refs_of_not_inline (inline_of_not_lnk (isLnk_of_isReg hreg))] at hd'
      exact bytes_congr hd'
    unfold Store.node
    rw [if_pos hj, if_pos (hu.trans hj), hi]
    by_cases hdir : (v.inode j).isDir = true
    · simp [hdir, isReg_of_isDir hdir, hents hdir]
    by_cases hreg : (v.inode j).isReg = true
    · simp only [hdir, hreg, hbytes hreg]
      rfl
    · simp [hdir, hreg]
  · have hj' : v.inodeUsed j = false := by simpa using hj
    rw [node_free hj', node_free (hu.trans hj'), hi]

theorem Frame.node (f : Frame aware L x v v') (hj : x ≠ some j) : v'.node L j = v.node L j :=
  node_congr (f.used j hj) (f.inode j hj) (f.data j hj)

theorem Frame.node_eq {n : Nat} (f : Frame aware L (some n) v v') :
    v'.node L = update (v.node L) n (v'.node L n) := by
  funext j
  by_cases hj : j = n
  · rw [hj, update_self]
  · rw [update_of_ne hj]
    exact f.node fun he => hj (Option.some.inj he).symm

theorem Frame.node_eq_none (f : Frame aware L none v v') : v'.node L = v.node L := by
  funext j
  exact f.node nofun

end

/-! ## The invariant -/

/-- A number an entry may hold: 32 bits, not zero, and naming an inode in use or a wiped slot unless it is
out of the table's range. -/
structure Named (L : Layout) (v : Store) (n : Nat) : Prop where
  range : n ≠ 0 ∧ n < 4294967296
  slot : L.ValidIno n → v.inodeUsed n = true ∨ (v.inode n).Dead

/-- A directory of the tree: its blocks are tiled, no pointer is left behind its end (if nothing may be
lost), and its entries name something. -/
structure DirOk (full : Bool) (L : Layout) (v : Store) (j : Nat) : Prop where
  wf : DirWf L.blockSize v.data (v.inode j)
  tail : full = true → ∀ k, (v.inode j).iSize.toNat / L.blockSize ≤ k → (v.inode j).blockAt L.blockSize v.data k = 0
  named : ∀ e ∈ v.ents L j, Named L v e.ino

structure FsInv (aware full : Bool) (L : Layout) (v : Store) : Prop where
  own : Own aware full L none v ∅
  dirs : ∀ j, v.inodeUsed j = true → (v.inode j).isDir = true → DirOk full L v j
  root : Named L v EXT2_ROOT_INODE

section
variable {aware full : Bool} {L : Layout} {v v' : Store} {j n : Nat} {P : Set Nat}

theorem Own.mapOk (o : Own aware full L none v P) (hu : v.inodeUsed j = true) (hi : (v.inode j).inline aware = false) :
    MapOk L v.data (v.inode j) := by
  have href : v.refs aware L j = (v.inode j).blockRefs L.blockSize v.data := refs_of_not_inline hi
  refine ⟨?_, fun b hb => ?_⟩
  · rw [← href]; exact o.books.nodup j ⟨hu, nofun⟩
  · rw [← href] at hb
    exact (o.books.owned j ⟨hu, nofun⟩ b hb).1

theorem Own.refs_used (o : Own aware full L none v P) (hu : v.inodeUsed j = true) (hi : (v.inode j).inline aware = false) :
    ∀ b ∈ (v.inode j).blockRefs L.blockSize v.data, v.blockUsed b = true := fun b hb => by
  have href : v.refs aware L j = (v.inode j).blockRefs L.blockSize v.data := refs_of_not_inline hi
  rw [← href] at hb
  exact (o.books.owned j ⟨hu, nofun⟩ b hb).2.1

namespace FsInv

theorem dirAt (inv : FsInv aware full L v) (hu : v.inodeUsed j = true) (hd : (v.inode j).isDir = true) : DirAt L v j :=
  ⟨inv.own.valid j hu, hd, inv.own.mapOk hu (inline_of_not_lnk (isLnk_of_isDir hd)), (inv.dirs j hu hd).wf⟩

theorem used_of_isDir (hn : Named L v n) (hv : L.ValidIno n) (hd : (v.inode n).isDir = true) : v.inodeUsed n = true := by
  refine (hn.slot hv).resolve_right fun hdead => ?_
  rw [hdead.2.1] at hd; cases hd

theorem used_of_isReg (hn : Named L v n) (hv : L.ValidIno n) (hr : (v.inode n).isReg = true) : v.inodeUsed n = true := by
  refine (hn.slot hv).resolve_right fun hdead => ?_
  rw [hdead.1] at hr; cases hr

end FsInv

theorem Layout.Ok.named_of_used (h : L.Ok) (hv : L.ValidIno n) (hu : v.inodeUsed n = true) : Named L v n := by
  refine ⟨⟨hv.1, ?_⟩, fun _ => .inl hu⟩
  have h1 := h.totalInodes
  have h2 := h.inodes32
  have h3 := hv.2
  omega

theorem Frame.named {x m : Nat} (f : Frame aware L (some x) v v') (hx : Named L v x → Named L v' x) (hm : Named L v m) :
    Named L v' m := by
  by_cases hmx : m = x
  · subst hmx; exact hx hm
  have hne : some x ≠ some m := fun he => hmx (Option.some.inj he).symm
  refine ⟨hm.range, ?_⟩
  rw [f.used m hne, f.inode m hne]
  exact hm.slot

/-- **Rebuilding the invariant** after work on one inode: the books are balanced again, and the inode itself
is a sound directory if it is a directory. -/
theorem FsInv.rebuild {x : Nat} (inv : FsInv aware full L v) (o : Own aware full L none v' ∅)
    (f : Frame aware L (some x) v v') (hx : Named L v x → Named L v' x)
    (hdir : v'.inodeUsed x = true → (v'.inode x).isDir = true → DirOk full L v' x) : FsInv aware full L v' := by
  refine ⟨o, fun j hu hd => ?_, f.named hx inv.root⟩
  by_cases hjx : j = x
  · subst hjx; exact hdir hu hd
  have hne : some x ≠ some j := fun he => hjx (Option.some.inj he).symm
  have hu' : v.inodeUsed j = true := by rw [← f.used j hne]; exact hu
  have hi := f.inode j hne
  rw [hi] at hd
  obtain ⟨hwf, htail, hnamed⟩ := inv.dirs j hu' hd
  have href : v.refs aware L j = (v.inode j).blockRefs L.blockSize v.data :=
    refs_of_not_inline (inline_of_not_lnk (isLnk_of_isDir hd))
  have hdata := f.data j hne hu'
  rw [href] at hdata
  have hb : ∀ k, (v.inode j).blockAt L.blockSize v'.data k = (v.inode j).blockAt L.blockSize v.data k :=
    blockAt_congr fun h0 => hdata _ (indirect_mem_refs h0)
  refine ⟨⟨?_, ?_⟩, fun hf k hk => ?_, fun e he => ?_⟩
  · rw [hi]; exact hwf.size
  · rw [hi]
    intro k hk h0
    rw [hb] at h0 ⊢
    rw [hdata _ (blockAt_mem_refs h0)]
    exact hwf.tiled k hk h0
  · rw [hi] at hk ⊢
    rw [hb]; exact htail hf k hk
  · have hnode := f.node hne
    rw [node_dir hu (by rw [hi]; exact hd), node_dir hu' hd, Node.mk.injEq] at hnode
    rw [hnode.2.2.1] at he
    exact f.named hx (hnamed e he)

/-- The same when nothing but free blocks has changed. -/
theorem FsInv.rebuild_none (inv : FsInv aware full L v) (o : Own aware full L none v' ∅) (f : Frame aware L none v v') :
    FsInv aware full L v' := by
  refine inv.rebuild o f.mono (fun hn => absurd rfl hn.range.1) fun hu _ => absurd rfl (o.valid 0 hu).1

end
end PureUnix.Ext2
