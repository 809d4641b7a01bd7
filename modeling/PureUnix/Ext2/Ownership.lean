import PureUnix.Lib.Books
import PureUnix.Ext2.BlockRefs

/-!
# Who owns a block

The owners are the inodes in use, the resources the data blocks. `Own` says that the books of a store
balance while the inode `x` is checked out (`none`: no inode is) and the blocks of `P` are held by the
running function; `Frame` says that nothing of any other inode has changed. Every primitive of the
store has one rule for both, as a step of `Work`.

A fast symbolic link keeps text in `i_block`. With `aware` set such an inode refers to nothing, which
is how the file system is meant; with `aware` off its words count as block numbers, which is how
`ext2_inode_free_all_blocks` reads them. With `full` set the books are complete: a used data block is
referred to or held.
-/
namespace PureUnix.Ext2
open Lib List Inode Set
open Function

variable {g : Nat}

/-- A fast symbolic link (`i_blocks == 0`, write.c:417), if such links are told apart. -/
def Inode.inline (aware : Bool) (i : Inode) : Bool := aware && i.isLnk && decide (i.iBlocks = 0)

def Inode.refs (aware : Bool) (bs : Nat) (data : Nat → Buf) (i : Inode) : List Nat :=
  if i.inline aware then [] else i.blockRefs bs data

section
variable {aware : Bool} {bs : Nat} {data data' : Nat → Buf} {i i' : Inode}

theorem Inode.refs_of_not_inline (h : i.inline aware = false) : i.refs aware bs data = i.blockRefs bs data := by
  rw [Inode.refs, h]; rfl

theorem Inode.inline_of_not_lnk (h : i.isLnk = false) : i.inline aware = false := by
  simp [Inode.inline, h]

theorem Inode.refs_congr (h : ∀ b ∈ i.refs aware bs data, data' b = data b) : i.refs aware bs data' = i.refs aware bs data := by
  unfold Inode.refs at h ⊢
  by_cases hi : i.inline aware = true
  · rw [if_pos hi, if_pos hi]
  · rw [if_neg hi] at h ⊢
    rw [if_neg hi]
    exact blockRefs_congr fun h0 => h _ (indirect_mem_refs h0)

/-- References depend on the type, on `i_block` and on whether `i_blocks` is zero. -/
theorem Inode.refs_of_same (hm : i'.iMode = i.iMode) (hs : i'.iBlocks = i.iBlocks) (hb : i'.iBlock = i.iBlock) :
    i'.refs aware bs data = i.refs aware bs data := by
  unfold Inode.refs Inode.inline Inode.isLnk
  rw [hm, hs, blockRefs_of_iBlock hb]

end

def Store.refs (aware : Bool) (L : Layout) (v : Store) (j : Nat) : List Nat :=
  (v.inode j).refs aware L.blockSize v.data

/-- In use and not checked out. -/
def Store.Live (v : Store) (x : Option Nat) (j : Nat) : Prop := v.inodeUsed j = true ∧ x ≠ some j

structure Own (aware full : Bool) (L : Layout) (x : Option Nat) (v : Store) (P : Set Nat) : Prop where
  wild : v.wild = false
  valid : ∀ j, v.inodeUsed j = true → L.ValidIno j
  metaUsed : v.MetaUsed L
  books : Books L.Data (fun b => v.blockUsed b = true) (v.Live x) (v.refs aware L) P
  all : full = true → Covered L.Data (fun b => v.blockUsed b = true) (v.Live x) (v.refs aware L) P

/-- Inodes other than `x` and the blocks they own are as they were. -/
structure Frame (aware : Bool) (L : Layout) (x : Option Nat) (v₀ v : Store) : Prop where
  used : ∀ j, x ≠ some j → v.inodeUsed j = v₀.inodeUsed j
  inode : ∀ j, x ≠ some j → v.inode j = v₀.inode j
  data : ∀ j, x ≠ some j → v₀.inodeUsed j = true → ∀ b ∈ v₀.refs aware L j, v.data b = v₀.data b

namespace Frame
variable {aware : Bool} {L : Layout} {x : Option Nat} {v₀ v v' : Store}

theorem refl : Frame aware L x v v := ⟨fun _ _ => rfl, fun _ _ => rfl, fun _ _ _ _ _ => rfl⟩

theorem refs (f : Frame aware L x v₀ v) {j : Nat} (hj : x ≠ some j) (hu : v₀.inodeUsed j = true) :
    v.refs aware L j = v₀.refs aware L j := by
  have h := f.data j hj hu
  unfold Store.refs at h ⊢
  rw [f.inode j hj]
  exact refs_congr h

theorem trans (f : Frame aware L x v₀ v) (f' : Frame aware L x v v') : Frame aware L x v₀ v' := by
  refine ⟨fun j hj => (f'.used j hj).trans (f.used j hj), fun j hj => (f'.inode j hj).trans (f.inode j hj),
    fun j hj hu b hb => ?_⟩
  have hb' : b ∈ v.refs aware L j := by rw [f.refs hj hu]; exact hb
  exact (f'.data j hj (by rw [f.used j hj]; exact hu) b hb').trans (f.data j hj hu b hb)

theorem mono (f : Frame aware L none v₀ v) : Frame aware L x v₀ v :=
  ⟨fun j _ => f.used j nofun, fun j _ => f.inode j nofun, fun j _ => f.data j nofun⟩

end Frame

/-- A function at work on the inode `x` since the state `v₀`. -/
structure Work (aware full : Bool) (L : Layout) (v₀ : Store) (x : Option Nat) (v : Store) (P : Set Nat) : Prop where
  own : Own aware full L x v P
  frame : Frame aware L x v₀ v

section
variable {aware full : Bool} {L : Layout} {v₀ v v' : Store} {x : Option Nat} {P Q : Set Nat} {b : Nat}

theorem Own.start (o : Own aware full L x v P) : Work aware full L v x v P := ⟨o, Frame.refl⟩

namespace Own

theorem data_of_mem (o : Own aware full L x v P) (hb : b ∈ P) : L.Data b := (o.books.held b hb).1

theorem used_of_mem (o : Own aware full L x v P) (hb : b ∈ P) : v.blockUsed b = true := (o.books.held b hb).2

theorem not_mem_of_free (o : Own aware full L x v P) (hb : v.blockUsed b = false) : b ∉ P := fun h => by
  rw [o.used_of_mem h] at hb; cases hb

theorem next (h : L.Ok) (o : Own aware full L x v P) (hb : v.nextBlock L = some (g, b)) :
    L.Data b ∧ v.blockUsed b = false ∧ b ∉ P ∧ ∀ j, v.Live x j → b ∉ v.refs aware L j := by
  obtain ⟨h1, h2, -⟩ := v.nextBlock_spec h o.metaUsed hb
  refine ⟨h1, h2, o.not_mem_of_free h2, fun j hj hm => ?_⟩
  rw [(o.books.owned j hj b hm).2.1] at h2
  cases h2

theorem forget (o : Own aware full L x v P) (hQ : Q ⊆ P) : Own aware false L x v Q :=
  ⟨o.wild, o.valid, o.metaUsed, o.books.forget hQ, nofun⟩

end Own

theorem Frame.of_data (hu : v'.inodeUsed = v.inodeUsed) (hi : v'.inode = v.inode)
    (hd : ∀ j, v.Live x j → ∀ c ∈ v.refs aware L j, v'.data c = v.data c) : Frame aware L x v v' :=
  ⟨fun j _ => by rw [hu], fun j _ => by rw [hi], fun j hj hju => hd j ⟨hju, hj⟩⟩

theorem Own.books_congr (o : Own aware full L x v P) (f : Frame aware L x v v') :
    Books L.Data (fun b => v.blockUsed b = true) (v'.Live x) (v'.refs aware L) P ∧
      (full = true → Covered L.Data (fun b => v.blockUsed b = true) (v'.Live x) (v'.refs aware L) P) := by
  refine ⟨o.books.congr fun j hj => ?_, fun hf => (o.all hf).congr fun j hj => ?_⟩
  · have hu : v.inodeUsed j = true := by rw [← f.used j hj.2]; exact hj.1
    exact ⟨⟨hu, hj.2⟩, f.refs hj.2 hu⟩
  · exact ⟨⟨by rw [f.used j hj.2]; exact hj.1, hj.2⟩, f.refs hj.2 hj.1⟩

namespace Work

theorem take (h : L.Ok) (w : Work aware full L v₀ x v P) (hb : v.nextBlock L = some (g, b)) :
    Work aware full L v₀ x (v.takeBlock L g b) (insert b P) := by
  obtain ⟨hd, hfree, -, hown⟩ := w.own.next h hb
  have hused : ∀ c, (v.takeBlock L g b).blockUsed c = true ↔ c = b ∨ v.blockUsed c = true := fun c => Store.blockUsed_takeBlock
  have f : Frame aware L x v (v.takeBlock L g b) := Frame.of_data rfl rfl fun j hj c hc =>
    Store.takeBlock_data hd (by rintro rfl; exact hown j hj hc)
  obtain ⟨hbk, hcov⟩ := w.own.books_congr f
  refine ⟨⟨?_, w.own.valid, w.own.metaUsed.takeBlock g b, ?_, fun hf => (hcov hf).take hused⟩, w.frame.trans f⟩
  · simp [Store.takeBlock, w.own.wild, hd]
  · exact hbk.take hd (by simp [hfree]) hused

theorem drop (h : L.Ok) (w : Work aware full L v₀ x v P) (hb : b ∈ P) : Work aware full L v₀ x (v.dropBlock L b) (P \ {b}) := by
  have hd := w.own.data_of_mem hb
  have hu := w.own.used_of_mem hb
  obtain ⟨e1, e2, e3, e4, -⟩ := v.dropBlock_rest L b
  have hused : ∀ c, (v.dropBlock L b).blockUsed c = true ↔ c ≠ b ∧ v.blockUsed c = true := fun c => by
    have hg := h.groupOf_lt hd.2.1
    rw [Store.dropBlock, if_neg]
    · by_cases hc : c = b <;> simp [hc]
    · rintro (hlt | hle | hf)
      · exact absurd hd.1 (Nat.not_le.2 hlt)
      · exact absurd hg (Nat.not_lt.2 hle)
      · rw [hu] at hf; cases hf
  have f : Frame aware L x v (v.dropBlock L b) := Frame.of_data e3 e2 fun j _ c _ => by rw [e1]
  obtain ⟨hbk, hcov⟩ := w.own.books_congr f
  refine ⟨⟨e4.trans w.own.wild, fun j hj => w.own.valid j (by rw [← e3]; exact hj), fun c hc hm => ?_,
    hbk.drop hb hused, fun hf => (hcov hf).drop hused⟩, w.frame.trans f⟩
  exact (hused c).2 ⟨by rintro rfl; exact hd.2.2 hm, w.own.metaUsed c hc hm⟩

theorem write (w : Work aware full L v₀ x v P) (hb : b ∈ P) (buf : Buf) : Work aware full L v₀ x (v.setData L b buf) P := by
  have f : Frame aware L x v (v.setData L b buf) := Frame.of_data rfl rfl fun j hj c hc => by
    refine update_of_ne ?_ _ _
    rintro rfl
    exact (w.own.books.owned j hj c hc).2.2 hb
  obtain ⟨hbk, hcov⟩ := w.own.books_congr f
  exact ⟨⟨w.own.wild, w.own.valid, w.own.metaUsed, hbk, hcov⟩, w.frame.trans f⟩

/-- `ext2_inode_free_all_blocks` frees held blocks only if the references are held. -/
theorem dropBlocks (h : L.Ok) : ∀ {l : List Nat} {v : Store} {P : Set Nat}, Work aware full L v₀ x v P → l.Nodup →
    (∀ b ∈ l, b ∈ P) → Work aware full L v₀ x (v.dropBlocks L l) (P \ {b | b ∈ l})
  | [], v, P, w, _, _ => by
    have : P \ {b | b ∈ ([] : List Nat)} = P := by ext c; simp
    rw [this]; exact w
  | b :: l, v, P, w, hn, hP => by
    obtain ⟨hb, hn'⟩ := nodup_cons.1 hn
    have hset : P \ {c | c ∈ b :: l} = (P \ {b}) \ {c | c ∈ l} := by
      ext c
      simp only [mem_sdiff, mem_ofPred_eq, mem_cons, not_or, mem_singleton_iff, and_assoc]
    rw [hset]
    refine dropBlocks h (w.drop h (hP b (mem_cons_self ..))) hn' fun c hc => ⟨hP c (mem_cons_of_mem _ hc), ?_⟩
    rintro rfl
    exact hb hc

end Work

/-! ## Taking an inode out and putting it back -/

theorem Store.nextInode_fresh (v : Store) {n : Nat} (hn : v.nextInode L = some (g, n)) :
    L.ValidIno n ∧ v.inodeUsed n = false := by
  obtain ⟨-, hg, -, hs⟩ := findFree_some hn
  obtain ⟨h1, h2, h3, h4⟩ := scanFree_some hs
  exact ⟨⟨by omega, by omega⟩, h4⟩

section
variable {n : Nat}

/-- The record of an inode that is checked out does not matter. -/
theorem Work.setInode (w : Work aware full L v₀ (some n) v P) (i : Inode) : Work aware full L v₀ (some n) (v.setInode n i) P := by
  have f : Frame aware L (some n) v (v.setInode n i) := by
    refine ⟨fun j _ => rfl, fun j hj => ?_, fun j _ _ b _ => rfl⟩
    exact update_of_ne (by rintro rfl; exact hj rfl) _ _
  obtain ⟨hbk, hcov⟩ := w.own.books_congr f
  exact ⟨⟨w.own.wild, w.own.valid, w.own.metaUsed, hbk, hcov⟩, w.frame.trans f⟩

/-- An inode is taken out: the function holds its blocks. -/
theorem Own.checkout (o : Own aware full L none v P) (hu : v.inodeUsed n = true) :
    Own aware full L (some n) v (P ∪ {b | b ∈ v.refs aware L n}) := by
  have hl : ∀ j, v.Live (some n) j ↔ v.Live none j ∧ j ≠ n := fun j =>
    ⟨fun hj => ⟨⟨hj.1, nofun⟩, by rintro rfl; exact hj.2 rfl⟩, fun hj => ⟨hj.1.1, fun he => hj.2 (Option.some.inj he).symm⟩⟩
  exact ⟨o.wild, o.valid, o.metaUsed, o.books.checkout ⟨hu, nofun⟩ hl, fun hf => (o.all hf).checkout hl⟩

/-- It comes back with what it refers to. -/
theorem Own.checkin (o : Own aware full L (some n) v P) (hu : v.inodeUsed n = true) (hn : (v.refs aware L n).Nodup)
    (hP : ∀ b ∈ v.refs aware L n, b ∈ P) : Own aware full L none v (P \ {b | b ∈ v.refs aware L n}) := by
  refine ⟨o.wild, o.valid, o.metaUsed, o.books.checkin (fun j hj hne => ⟨⟨hj.1, fun he => hne (Option.some.inj he).symm⟩, rfl⟩) hn hP,
    fun hf => (o.all hf).checkin (fun j hj => ⟨⟨hj.1, nofun⟩, rfl⟩) ⟨hu, nofun⟩⟩

/-- `ext2_alloc_inode`: the new inode starts checked out. -/
theorem Own.takeInode (o : Own aware full L none v P) (hn : v.nextInode L = some (g, n)) :
    Work aware full L v (some n) (v.takeInode g n) P := by
  obtain ⟨hv, hfree⟩ := v.nextInode_fresh hn
  have hused : ∀ j, j ≠ n → (v.takeInode g n).inodeUsed j = v.inodeUsed j := fun j hj => update_of_ne hj _ _
  have hne : ∀ j, some n ≠ some j → j ≠ n := by rintro j hj rfl; exact hj rfl
  have hl : ∀ j, (v.takeInode g n).Live (some n) j ↔ v.Live none j := by
    intro j
    refine ⟨fun hj => ⟨by rw [← hused j (hne j hj.2)]; exact hj.1, nofun⟩, fun hj => ?_⟩
    have hjn : j ≠ n := by rintro rfl; rw [hj.1] at hfree; cases hfree
    exact ⟨by rw [hused j hjn]; exact hj.1, fun he => hjn (Option.some.inj he).symm⟩
  refine ⟨⟨o.wild, fun j hj => ?_, o.metaUsed, o.books.congr fun j hj => ⟨(hl j).1 hj, rfl⟩,
    fun hf => (o.all hf).congr fun j hj => ⟨(hl j).2 hj, rfl⟩⟩, fun j hj => hused j (hne j hj), fun _ _ => rfl, fun _ _ _ _ _ => rfl⟩
  by_cases hjn : j = n
  · rw [hjn]; exact hv
  · exact o.valid j (by rw [← hused j hjn]; exact hj)

theorem Work.dropInode (w : Work aware full L v₀ (some n) v P) :
    Own aware full L none (v.dropInode L n) P ∧ Frame aware L (some n) v₀ (v.dropInode L n) := by
  have hne : ∀ j, some n ≠ some j → j ≠ n := by rintro j hj rfl; exact hj rfl
  unfold Store.dropInode
  split
  · rename_i hc
    refine ⟨⟨w.own.wild, w.own.valid, w.own.metaUsed, ?_, fun hf => ?_⟩, w.frame⟩
    · refine w.own.books.congr fun j hj => ⟨⟨hj.1, fun he => ?_⟩, rfl⟩
      cases he
      rcases hc with hc | hc
      · exact hc (w.own.valid n hj.1)
      · rw [hj.1] at hc; cases hc
    · exact (w.own.all hf).congr fun j hj => ⟨⟨hj.1, nofun⟩, rfl⟩
  · have f : Frame aware L (some n) v { v with
        inodeUsed := update v.inodeUsed n false
        freeInodes := update v.freeInodes (L.groupOfIno n) ((v.freeInodes (L.groupOfIno n) + 1) % 65536)
        inode := update v.inode n Inode.empty } :=
      ⟨fun j hj => update_of_ne (hne j hj) _ _, fun j hj => update_of_ne (hne j hj) _ _, fun _ _ _ _ _ => rfl⟩
    refine ⟨⟨w.own.wild, fun j hj => ?_, w.own.metaUsed, ?_, fun hf => ?_⟩, w.frame.trans f⟩
    · refine w.own.valid j ?_
      simp only [update_apply] at hj
      split at hj
      · cases hj
      · exact hj
    · refine w.own.books.congr fun j hj => ?_
      have hjn : j ≠ n := by
        rintro rfl
        have := hj.1
        simp only [Function.update_self] at this
        cases this
      have hj' : some n ≠ some j := fun he => hjn (Option.some.inj he).symm
      have hu : v.inodeUsed j = true := by rw [← f.used j hj']; exact hj.1
      exact ⟨⟨hu, hj'⟩, f.refs hj' hu⟩
    · refine (w.own.all hf).congr fun j hj => ⟨⟨?_, nofun⟩, f.refs hj.2 hj.1⟩
      rw [f.used j hj.2]; exact hj.1

end

/-! ## An inode in memory -/

/-- The references of an inode in memory are distinct and held. -/
structure Holds (L : Layout) (v : Store) (P : Set Nat) (i : Inode) : Prop where
  nodup : (i.blockRefs L.blockSize v.data).Nodup
  held : ∀ b ∈ i.blockRefs L.blockSize v.data, b ∈ P

namespace Holds
variable {i i' : Inode} {idx blk : Nat}

theorem congr (hh : Holds L v P i) (hP : P ⊆ Q) (hd : i.blkNo 12 ≠ 0 → v'.data (i.blkNo 12) = v.data (i.blkNo 12)) :
    Holds L v' Q i := by
  have e : i.blockRefs L.blockSize v'.data = i.blockRefs L.blockSize v.data := blockRefs_congr hd
  refine ⟨?_, fun b hb => hP (hh.held b ?_)⟩
  · rw [e]; exact hh.nodup
  · rw [← e]; exact hb

theorem of_iBlock (hh : Holds L v P i) (he : i'.iBlock = i.iBlock) : Holds L v P i' := by
  refine ⟨?_, fun b hb => hh.held b ?_⟩
  · rw [blockRefs_of_iBlock he]; exact hh.nodup
  · rw [← blockRefs_of_iBlock he]; exact hb

theorem indirect (hh : Holds L v P i) (o : Own aware full L x v P) (h0 : i.blkNo 12 ≠ 0) : L.Data (i.blkNo 12) :=
  o.data_of_mem (hh.held _ (indirect_mem_refs h0))

theorem ne_blockAt (hb : blk ∉ i.blockRefs L.blockSize v.data) {k : Nat} (h0 : i.blockAt L.blockSize v.data k ≠ 0) :
    i.blockAt L.blockSize v.data k ≠ blk := by
  rintro rfl
  exact hb (blockAt_mem_refs h0)

end Holds

section
variable {i i' : Inode} {idx blk : Nat}

theorem Own.newTo (h : L.Ok) (o : Own aware full L x v P) (hh : Holds L v P i) (hblk : blk ∈ P)
    (hnew : blk ∉ i.blockRefs L.blockSize v.data) : NewTo L v i blk := by
  refine ⟨o.data_of_mem hblk, hnew, fun g c hc => ?_⟩
  obtain ⟨hd, -, hnot, -⟩ := o.next h hc
  exact ⟨hd, fun he => hnot (he ▸ hblk), fun hm => hnot (hh.held c hm)⟩

/-- **`ext2_inode_add_block`** keeps the books: it holds at most a new indirect block more, and the inode
refers to held blocks only. If the slot was empty, what is held and not referred to has not grown, and the
new block is no longer among it. -/
theorem Work.added (h : L.Ok) (w : Work aware full L v₀ x v P) (hh : Holds L v P i) (hblk : blk ∈ P)
    (hnew : blk ∉ i.blockRefs L.blockSize v.data) (ha : AddedWhere L v i idx blk v' i') :
    ∃ P', Work aware full L v₀ x v' P' ∧ P ⊆ P' ∧ Holds L v' P' i' ∧
      (i.blockAt L.blockSize v.data idx = 0 → ∀ c ∈ P', c ∉ i'.blockRefs L.blockSize v'.data →
        c ∈ P ∧ c ∉ i.blockRefs L.blockSize v.data ∧ c ≠ blk) := by
  have hf := w.own.newTo h hh hblk hnew
  -- the indirect block, old or new, is held
  have key : ∃ P', Work aware full L v₀ x v' P' ∧ P ⊆ P' ∧ (i'.blkNo 12 ≠ 0 → i'.blkNo 12 ∈ P') ∧
      (∀ c ∈ P', c ∈ P ∨ c = i'.blkNo 12) ∧ (i.blkNo 12 ≠ 0 → i'.blkNo 12 = i.blkNo 12) := by
    cases ha with
    | direct h1 =>
      have e : ((i.setBlk idx blk).addSectors L.fs).blkNo 12 = i.blkNo 12 := AddedWhere.blkNo_direct h1
      rw [e]
      exact ⟨P, w, subset_rfl, fun h0 => hh.held _ (indirect_mem_refs h0), fun c hc => .inl hc, fun _ => rfl⟩
    | indirect _ _ h0 =>
      have hm := hh.held _ (indirect_mem_refs h0)
      exact ⟨P, w.write hm _, subset_rfl, fun _ => hm, fun c hc => .inl hc, fun _ => rfl⟩
    | fresh g ind _ _ h0 hn =>
      rw [blkNo_fresh (h.data_lt (w.own.next h hn).1)]
      exact ⟨insert ind P, (w.take h hn).write (mem_insert _ _) _, subset_insert _ _, fun _ => mem_insert _ _,
        fun c hc => hc.symm, fun hne => absurd h0 hne⟩
  obtain ⟨P', w', hsub, hind, hP', hsame⟩ := key
  refine ⟨P', w', hsub, ⟨ha.nodup_refs h hf hh.nodup, fun c hc => ?_⟩, fun hz c hc hcn => ?_⟩
  · rcases (ha.mem_refs h hf).1 hc with rfl | ⟨h0, ⟨k, -, rfl⟩ | rfl⟩
    · exact hsub hblk
    · exact hsub (hh.held _ (blockAt_mem_refs h0))
    · exact hind h0
  · have hne : c ≠ 0 := h.data_ne_zero (w'.own.data_of_mem hc)
    rw [ha.mem_refs h hf, not_or, not_and_or, not_or] at hcn
    obtain ⟨hcb, hcn⟩ := hcn
    obtain ⟨hmap, hci⟩ := hcn.resolve_left (not_not.2 hne)
    refine ⟨(hP' c hc).resolve_right hci, fun hm => ?_, hcb⟩
    rcases mem_blockRefs.1 hm with ⟨-, ⟨k, hk⟩ | hk⟩
    · refine hmap ⟨k, ?_, hk⟩
      rintro rfl
      exact hne (hk.symm.trans hz)
    · exact hci (by rw [hsame (hk ▸ hne)]; exact hk)

end
end

end PureUnix.Ext2
