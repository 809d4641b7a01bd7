import PureUnix.Ext2.Paths
import PureUnix.Ext2.Crowded

/-!
# Symbolic links

`ext2_symlink` stores a target of at most 60 bytes as text in `i_block` and a longer one in data blocks; `ext2_readlink` tells
the two apart by `i_blocks`. A link reads back as its target wherever the path finds it. It does not when the name went into a
directory block that lookup never reads, or when the path is longer than lookup's buffer.
-/
namespace PureUnix.Ext2
open Lib List Nat Inode Store Disk
open Option

variable {j m g : Nat} {target parent leaf : Text} {s : Store} {d : Disk}

/-! ## Text in `i_block` -/

theorem Inode.encode_withText (i : Inode) (target : Text) (hj : j < 60) :
    (i.withText target).encode (40 + j) = ofList target j := by
  have hword : j / 4 < 15 := by omega
  have hsplit : 40 + j = 40 + 4 * (j / 4) + j % 4 := by omega
  have hlt : get32 (ofList target) (4 * (j / 4)) < 4294967296 := get32_lt _ _
  rw [hsplit, encode_block _ ⟨j / 4, hword⟩ _ (mod_lt _ (by decide))]
  change leByte (UInt32.ofNat (get32 (ofList target) (4 * (j / 4)))).toNat (j % 4) = _
  rw [UInt32.toNat_ofNat', mod_eq_of_lt hlt, leByte_get32 _ _ (mod_lt _ (by decide))]
  congr 1
  omega

theorem slice_ofList (hm : m ≤ target.length) : slice (ofList target) 0 m = target.take m := by
  refine ext_getElem (by simp [slice, hm]) fun j hj hj' => ?_
  simp only [slice, length_map, length_range] at hj
  simp [slice, ofList, getElem?_eq_getElem (show j < target.length by omega)]

theorem Inode.text_withText (i : Inode) (ht : target.length ≤ 60) (hm : m ≤ target.length) :
    (i.withText target).text m = target.take m := by
  rw [← slice_ofList hm]
  refine map_congr_left fun j hj => ?_
  have hj := mem_range.1 hj
  exact i.encode_withText target (by omega)

/-! ## A link and its target -/

/-- The inode `n` is a symbolic link to `target`. -/
structure LinkAt (L : Layout) (v : Store) (n : Nat) (target : Text) : Prop where
  used : v.inodeUsed n = true
  isLnk : (v.inode n).isLnk = true
  size : (v.inode n).iSize.toNat = target.length
  text : (v.inode n).iBlocks = 0 → ∀ m, m ≤ target.length → (v.inode n).text m = target.take m
  blocks : (v.inode n).iBlocks ≠ 0 → (v.inode n).bytes L.blockSize v.data = target

section
variable {full : Bool} {L : Layout} {v v' v₁ : Store} {n p : Nat} {target path leaf : Text} {i : Inode}

theorem copied_take {bs : Nat} (hbs : 0 < bs) (data : Nat → Buf) (i : Inode) (hm : m ≤ i.iSize.toNat) :
    foldVisits (copyStep bs data) (i.visits bs data m) ⟨zeros, 0, m⟩ =
      (0, (foldVisits (copyStep bs data) (i.visits bs data m) ⟨zeros, 0, m⟩).2) ∧
    slice (foldVisits (copyStep bs data) (i.visits bs data m) ⟨zeros, 0, m⟩).2.dst 0 m = (i.bytes bs data).take m := by
  -- the iterator does not look at `i_size`
  have hlt : m < 4294967296 := lt_of_le_of_lt hm i.iSize.toNat_lt
  have hsize : ({ i with iSize := UInt32.ofNat m }).iSize.toNat = m := UInt32.toNat_ofNat_of_lt hlt
  have hcopy := copied_bytes hbs data { i with iSize := UInt32.ofNat m }
  rw [hsize] at hcopy
  refine ⟨hcopy.1, hcopy.2.trans ?_⟩
  unfold Inode.bytes
  rw [hsize, ← map_take, take_range, min_eq_left hm]
  rfl

theorem LinkAt.frame {x : Option Nat} (hl : LinkAt L v n target) (f : Frame true L x v v') (hx : x ≠ some n) : LinkAt L v' n target := by
  have hino := f.inode n hx
  refine ⟨(f.used n hx).trans hl.used, ?_, ?_, ?_, ?_⟩
  · rw [hino]; exact hl.isLnk
  · rw [hino]; exact hl.size
  · rw [hino]; exact hl.text
  · rw [hino]
    intro hb
    have hnot : (v.inode n).inline true = false := by simp [Inode.inline, hb]
    have hdata := f.data n hx hl.used
    rw [Store.refs, refs_of_not_inline hnot] at hdata
    rw [bytes_congr hdata]
    exact hl.blocks hb

/-- **`ext2_readlink`** on a path that finds the link. -/
theorem LinkAt.run_readlink (h : L.Ok) (inv : FsInv true full L v) (hl : LinkAt L v n target) (hp : pathNode (v.node L) path = some n)
    (bufsize : Nat) : run (Store.step L) (readlink L.fs path bufsize) v = (.ok (target.take bufsize), v) := by
  have hv := inv.own.valid n hl.used
  have hmin : target.take (min target.length bufsize) = target.take bufsize := by
    rw [min_comm, ← take_take, take_length]
  unfold readlink
  rw [if_neg h.isMounted, run_bind, (inv.run_pathToInode h path).1, hp]
  rw [run_bind, Drv.run_readInode hv]
  dsimp only
  rw [if_neg (by rw [hl.isLnk]; decide), hl.size]
  by_cases hb : (v.inode n).iBlocks = 0
  · rw [if_pos hb, run_pure, hl.text hb _ (min_le_left _ _), hmin]
  rw [if_neg hb, run_bind]
  have hm : MapOk L v.data (v.inode n) := inv.own.mapOk hl.used (by simp [Inode.inline, hb])
  have hle : min target.length bufsize ≤ (v.inode n).iSize.toNat := by rw [hl.size]; exact min_le_left _ _
  have hrun := run_iterBlocks (copyBlock L.fs) h.bs_pos (v.inode n)
    (min target.length bufsize) ⟨zeros, 0, min target.length bufsize⟩ hm.indirect fun b hb c => run_copyBlock (fun hb0 => by
      rw [visits_eq] at hb
      obtain ⟨k, -, rfl⟩ := mem_map.1 hb
      exact hm.blockAt hb0) c
  obtain ⟨h1, h2⟩ := copied_take h.bs_pos v.data (v.inode n) hle
  rw [hrun]
  rw [if_neg (by rw [h1]; exact Int.lt_irrefl 0), run_pure, h2, hl.blocks hb, hmin]

theorem run_readlink_missing (h : L.Ok) (inv : FsInv true full L v) (hp : pathNode (v.node L) path = none) (bufsize : Nat) :
    run (Store.step L) (readlink L.fs path bufsize) v = (.error (-ENOENT), v) := by
  unfold readlink
  rw [if_neg h.isMounted, run_bind, (inv.run_pathToInode h path).1, hp]
  rfl

/-! ## Making a link -/

theorem FsInv.freshLink (inv : FsInv true full L v) (hn : v.nextInode L = some (g, n)) (hi : i.inline true = true) :
    FsInv true full L ((v.takeInode g n).setInode n i) := by
  have w := (inv.own.takeInode hn).setInode i
  have hu : ((v.takeInode g n).setInode n i).inodeUsed n = true := update_self ..
  have hino : ((v.takeInode g n).setInode n i).inode n = i := update_self ..
  have hrefs : ((v.takeInode g n).setInode n i).refs true L n = [] := by rw [Store.refs, hino, Inode.refs, if_pos hi]
  have hlnk : i.isLnk = true := by
    simp only [Inode.inline, Bool.true_and, Bool.and_eq_true] at hi
    exact hi.1
  have o := w.own.checkin hu (by rw [hrefs]; exact nodup_nil) (by simp [hrefs])
  rw [Set.empty_sdiff] at o
  refine inv.rebuild o w.frame (fun hm => ⟨hm.range, fun _ => .inl hu⟩) fun _ hd => ?_
  rw [hino] at hd
  rw [isLnk_of_isDir hd] at hlnk
  cases hlnk

theorem SeesInsert.frame {need : Nat} (hu : v.inodeUsed p = true) (hd : (v.inode p).isDir = true) (f : Frame true L (some n) v v')
    (hne : p ≠ n) : SeesInsert L v' p need ↔ SeesInsert L v p need := by
  have hx : some n ≠ some p := fun he => hne (some.inj he).symm
  have hdata := f.data p hx hu
  rw [Store.refs, refs_of_not_inline (inline_of_not_lnk (isLnk_of_isDir hd))] at hdata
  have hino := f.inode p hx
  unfold SeesInsert
  rw [RoomSeen.congr (by rw [hino]) (by rw [hino]) hdata, hino]

/-- The new link `n` is under `leaf` of `p`, and lookup sees it there or not. -/
structure LinkMade (L : Layout) (v : Store) (p n : Nat) (leaf target : Text) (v' : Store) : Prop where
  inv : FsInv true false L v'
  fresh : v.inodeUsed n = false
  link : LinkAt L v' n target
  isDir : v.inodeUsed p = true ∧ (v.inode p).isDir = true
  others : ∀ j, j ≠ p → j ≠ n → v'.node L j = v.node L j
  vis : (∃ ft, Inserted ⟨leaf, n, ft⟩ (v.node L p).vis (v'.node L p).vis ∧ SeesInsert L v p (align4 (8 + leaf.length))) ∨
    ((v'.node L p).vis = (v.node L p).vis ∧ ¬ SeesInsert L v p (align4 (8 + leaf.length)))

theorem LinkAt.wp_enter {ft : UInt8} (h : L.Ok) (inv₁ : FsInv true false L v₁) (f : Frame true L (some n) v v₁)
    (hfresh : v.inodeUsed n = false) (hl : LinkAt L v₁ n target) (hp : Named L v₁ p) (hleaf : 0 < leaf.length ∧ leaf.length < 64)
    (now : UInt32) :
    wp (Store.step L) (dirInsert L.fs p leaf n ft now)
      (fun r v' => v'.wild = false ∧ (r = true → LinkMade L v p n leaf target v')) v₁ := by
  have hn : Named L v₁ n := h.named_of_used (inv₁.own.valid n hl.used) hl.used
  refine wp_mono (inv₁.wp_dirInsert h hp ⟨hleaf.1, by omega⟩ hn ft now nofun) ?_
  rintro r v' ⟨inv', hr⟩
  refine ⟨inv'.own.wild, fun hrt => ?_⟩
  rcases hr with ⟨-, hins, hplaced⟩ | ⟨hrf, -⟩
  swap
  · rw [hrt] at hrf; cases hrf
  have hd₁ : (v₁.inode p).isDir = true := by simpa using hins.isDir
  have hne : p ≠ n := by
    rintro rfl
    have := hl.isLnk
    rw [isLnk_of_isDir hd₁] at this
    cases this
  have hx : some n ≠ some p := fun he => hne (some.inj he).symm
  have hu : v.inodeUsed p = true := by
    have := hins.used
    rw [node_used, f.used p hx] at this
    exact this
  have hd : (v.inode p).isDir = true := by rw [← f.inode p hx]; exact hd₁
  have hsees : SeesInsert L v₁ p (align4 (8 + leaf.length)) ↔ SeesInsert L v p (align4 (8 + leaf.length)) := SeesInsert.frame hu hd f hne
  have hvis : (v.node L p).vis = v₁.vis L p := by
    rw [← f.node hx, node_dir (by simpa using hins.used) hd₁]
  have hu' : v'.inodeUsed p = true ∧ (v'.inode p).isDir = true := by
    obtain ⟨i', es, vs, hnode, hmode, -⟩ := hins.node
    have hp' := congrFun hnode p
    rw [update_self] at hp'
    have huse := congrArg Node.used hp'
    have hino := congrArg Node.inode hp'
    rw [node_used] at huse
    rw [node_inode] at hino
    refine ⟨huse, ?_⟩
    rw [node_inode] at hmode
    rw [hino, Inode.isDir, hmode]
    exact hd₁
  refine ⟨inv', hfresh, hl.frame hplaced.frame fun he => hne (some.inj he), ⟨hu, hd⟩, fun j hjp hjn => ?_, ?_⟩
  · rw [hplaced.frame.node fun he => hjp (some.inj he).symm, f.node fun he => hjn (some.inj he).symm]
  · rw [hvis, node_dir hu'.1 hu'.2]
    rcases hplaced.vis with ⟨hi, hs⟩ | ⟨hsame, hs⟩
    · exact .inl ⟨ft, hi, hsees.1 hs⟩
    · exact .inr ⟨hsame, fun hc => hs (hsees.2 hc)⟩

/-- The record `ext2_symlink` starts from. -/
def newLinkInode (env : Env) (target : Text) : Inode :=
  { newInode env EXT2_DEFAULT_LINK_MODE 1 with iSize := UInt32.ofNat target.length }

theorem newLinkInode_isLnk (env : Env) (target : Text) : (newLinkInode env target).isLnk = true :=
  show (EXT2_DEFAULT_LINK_MODE &&& EXT2_S_IFMT == EXT2_S_IFLNK) = true by decide

theorem newLinkInode_size (env : Env) (ht : target.length < PUREUNIX_MAX_PATH) : (newLinkInode env target).iSize.toNat = target.length :=
  UInt32.toNat_ofNat_of_lt (lt_trans ht (by decide))

theorem linkAt_inline (v : Store) (g n : Nat) (env : Env) (ht : target.length ≤ 60) :
    LinkAt L ((v.takeInode g n).setInode n ((newLinkInode env target).withText target)) n target := by
  have hino : ((v.takeInode g n).setInode n ((newLinkInode env target).withText target)).inode n =
      (newLinkInode env target).withText target := update_self ..
  refine ⟨update_self .., ?_, ?_, fun _ m hm => ?_, fun hb => ?_⟩
  · rw [hino]
    exact newLinkInode_isLnk env target
  · rw [hino]
    exact newLinkInode_size env (lt_of_le_of_lt ht (by decide))
  · rw [hino]
    exact text_withText _ ht hm
  · rw [hino] at hb
    exact absurd rfl hb

/-- A longer one in a block of its own. -/
theorem Filled.linkAt (h : L.Ok) (hf : Filled true full L v n s target 0 i v₁) (env : Env)
    (hp : (newLinkInode env target).PtrsOnly i) (hu : v₁.inodeUsed n = true) (ht : 0 < target.length ∧ target.length < PUREUNIX_MAX_PATH) :
    LinkAt L (v₁.setInode n i) n target ∧ i.inline true = false := by
  have hlnk : i.isLnk = true := by
    rw [Inode.isLnk, hp.iMode]
    exact newLinkInode_isLnk env target
  have hsize : i.iSize.toNat = target.length := by
    rw [hp]
    exact newLinkInode_size env ht.2
  have hino : (v₁.setInode n i).inode n = i := update_self ..
  cases hf with
  | @done idx _ _ P hfill hle =>
    have hbs : 256 < L.blockSize := by rcases h.blockSize with e | e | e <;> rw [e] <;> decide
    have hmax : PUREUNIX_MAX_PATH = 256 := rfl
    -- the target fits one block
    have hidx : idx = 1 := by
      have hpos : idx ≠ 0 := by
        rintro rfl
        omega
      have hone : ¬ 1 < idx := by
        intro h1
        have := hfill.within 1 h1
        omega
      omega
    have hsec : i.iBlocks ≠ 0 := by
      have hs := hfill.sectors
      rw [hidx] at hs
      rcases h.blockSize with e | e | e <;> rw [h.sectorsPerBlock, e] at hs <;> rw [hs] <;> decide
    refine ⟨⟨hu, by rw [hino]; exact hlnk, by rw [hino]; exact hsize, fun hb => ?_, fun _ => ?_⟩, by simp [Inode.inline, hsec]⟩
    · rw [hino] at hb
      exact absurd hb hsec
    · rw [hino]
      have hall := slice_ofList (le_refl target.length)
      rw [take_length] at hall
      have hbytes : i.bytes L.blockSize v₁.data = _ := hfill.bytes h hle rfl hsize
      refine Eq.trans hbytes (Eq.trans (map_congr_left fun q hq => ?_) hall)
      have hq := mem_range.1 hq
      have hcap : q / L.blockSize < iterCap L.blockSize := by
        rw [div_eq_of_lt (by omega)]
        unfold iterCap
        omega
      rw [if_pos hcap, zero_add]

/-- The inode of a longer target is in the table. -/
theorem Filled.fsInv (inv : FsInv true full L v) (hf : Filled true full L v n s target 0 i v₁)
    (hu : v₁.inodeUsed n = true) (hlnk : i.isLnk = true) (hnot : i.inline true = false) :
    FsInv true full L (v₁.setInode n i) ∧ Frame true L (some n) v (v₁.setInode n i) := by
  cases hf with
  | @done idx _ _ P hfill hle =>
    have w := hfill.work.setInode i
    have hino : (v₁.setInode n i).inode n = i := update_self ..
    refine ⟨inv.putBack w hu (by rw [hino]; exact hnot) ?_ (fun _ c hc => ?_) fun hd => ?_, w.frame⟩
    · rw [hino]
      exact hfill.holds.congr subset_rfl fun _ => rfl
    · rw [hino]
      exact hfill.refd c hc
    · rw [hino] at hd
      rw [isLnk_of_isDir hd] at hlnk
      cases hlnk

/-- If the call returned 0 the link is there. -/
def LinkDone (L : Layout) (v : Store) (p n : Nat) (leaf target : Text) (r : Int × Disk) : Prop :=
  r.1 = 0 → L.Mounted r.2 ∧ LinkMade L v p n leaf target (r.2.store L)

def SymlinkDone (L : Layout) (v : Store) (path target : Text) (r : Int × Disk) : Prop :=
  r.1 = 0 → ∃ parent leaf p n, splitParentLeaf path = some (parent, leaf) ∧ pathNode (v.node L) parent = some p ∧
    (v.node L p).find leaf = none ∧ L.Mounted r.2 ∧ LinkMade L v p n leaf target (r.2.store L)

/-- `ext2_symlink` from the point where the target is stored. -/
theorem symlinkFinish_exec (h : L.Ok) (hd : L.Mounted d) (env : Env)
    (inv : FsInv true false L ((d.store L).setInode n i)) (f : Frame true L (some n) v ((d.store L).setInode n i))
    (hfresh : v.inodeUsed n = false) (hl : LinkAt L ((d.store L).setInode n i) n target) (hp : Named L v p)
    (hleaf : 0 < leaf.length ∧ leaf.length < 64) : LinkDone L v p n leaf target (d.exec L (symlinkFinish L.fs env p n leaf i)) := by
  have hv := inv.own.valid n hl.used
  have hp₁ : Named L ((d.store L).setInode n i) p := f.named (fun hm => ⟨hm.range, fun _ => .inl hl.used⟩) hp
  refine exec_seq h hd
    (R := fun a v' => a = true ∧ v' = (d.store L).setInode n i) (wp_of_run (Drv.run_writeInode hv) ⟨inv.own.wild, rfl, rfl⟩) ?_
  rintro _ d₁ hd₁ ⟨rfl, hstore⟩
  refine exec_seq h hd₁ (by rw [hstore]; exact hl.wp_enter h inv f hfresh hp₁ hleaf (env.time 1)) ?_
  rintro r d₂ hd₂ hmade
  cases r with
  | true => exact fun _ => ⟨hd₂, hmade rfl⟩
  | false =>
    intro hrc
    rw [if_neg (by decide), exec_bind, exec_bind] at hrc
    exact absurd (show -ENOSPC = 0 from hrc) (by decide)

/-- **`ext2_symlink`** on any path. -/
theorem symlink_exec (h : L.Ok) (hd : Consistent true false L d) (env : Env) (target path : Text) :
    SymlinkDone L (d.store L) path target (d.exec L (symlink L.fs env target path)) := by
  have inv := hd.inv
  unfold symlink
  rw [if_neg h.isMounted]
  by_cases h0 : target.length = 0
  · rw [if_pos h0]
    exact fun hrc => absurd (show -EINVAL = 0 from hrc) (by decide)
  rw [if_neg h0]
  by_cases hmax : PUREUNIX_MAX_PATH ≤ target.length
  · rw [if_pos hmax]
    exact fun hrc => absurd (show -ENAMETOOLONG = 0 from hrc) (by decide)
  rw [if_neg hmax]
  refine inv.at_parent (.exec h inv.own.wild) h (fun _ _ hrc => absurd (show -ENOENT = 0 from hrc) (by decide))
    (fun {parent leaf p} hsp hpn hleaf hp d₂ hd₂ => ?_) d ⟨hd.mounted, rfl⟩
  cases hfind : ((d.store L).node L p).find leaf with
  | some e => exact fun hrc => absurd (show -EEXIST = 0 from hrc) (by decide)
  | none =>
    dsimp only
    cases hn : (d.store L).nextInode L with
    | none =>
      refine exec_seq h hd₂.1 (R := fun a _ => a = none)
        (by rw [hd₂.2]; exact wp_of_run (Drv.run_allocInode_none hn) ⟨inv.own.wild, rfl⟩) ?_
      rintro _ d₃ - rfl
      exact fun hrc => absurd (show -ENOSPC = 0 from hrc) (by decide)
    | some gn =>
      obtain ⟨g, n⟩ := gn
      have hfresh := ((d.store L).nextInode_fresh hn).2
      have w := inv.own.takeInode hn
      refine exec_seq h hd₂.1 (R := fun a v' => a = some n ∧ v' = (d.store L).takeInode g n)
        (by rw [hd₂.2]; exact wp_of_run (Drv.run_allocInode_some hn) ⟨w.own.wild, rfl, rfl⟩) ?_
      rintro _ d₃ hd₃ ⟨rfl, hs₃⟩
      dsimp only
      by_cases hshort : target.length ≤ 60
      · rw [if_pos hshort]
        intro hrc
        have hinl : ((newLinkInode env target).withText target).inline true = true := by
          have := newLinkInode_isLnk env target
          simp only [Inode.inline, Bool.true_and, Bool.and_eq_true, decide_eq_true_eq]
          exact ⟨this, rfl⟩
        have inv₁ := inv.freshLink hn hinl
        have f₁ := (w.setInode ((newLinkInode env target).withText target)).frame
        have hl₁ := linkAt_inline (L := L) (d.store L) g n env hshort
        rw [← hs₃] at inv₁ f₁ hl₁
        obtain ⟨hm, hmade⟩ := symlinkFinish_exec h hd₃ env inv₁ f₁ hfresh hl₁ hp hleaf hrc
        exact ⟨parent, leaf, p, n, hsp, hpn, hfind, hm, hmade⟩
      · rw [if_neg hshort]
        have hz : (newLinkInode env target).NoBlocks := newInode_noBlocks env EXT2_DEFAULT_LINK_MODE 1
        refine exec_seq h hd₃ (R := fun r v' => Filled true false L (d.store L) n ((d.store L).takeInode g n) target r.1 r.2 v' ∧
            (newLinkInode env target).PtrsOnly r.2) ?_ ?_
        · rw [hs₃]
          refine wp_mono (wp_writeDataBlocks h w hz rfl (by simp)) fun r v' hr => ⟨?_, hr⟩
          obtain ⟨P, hw, -⟩ := hr.1.holds
          exact hw.own.wild
        rintro ⟨rc, i⟩ d₄ hd₄ ⟨hf, hptrs⟩
        dsimp only
        by_cases hrc0 : rc = 0
        · rw [if_neg (not_not.2 hrc0)]
          intro hrc
          subst hrc0
          have hu : (d₄.store L).inodeUsed n = true := by
            rw [hf.used]
            exact update_self ..
          obtain ⟨hl₁, hnot⟩ := hf.linkAt h env hptrs hu ⟨by omega, by omega⟩
          have hlnk : i.isLnk = true := by
            rw [Inode.isLnk, hptrs.iMode]
            exact newLinkInode_isLnk env target
          obtain ⟨inv₁, f₁⟩ := hf.fsInv inv hu hlnk hnot
          obtain ⟨hm, hmade⟩ := symlinkFinish_exec h hd₄ env inv₁ f₁ hfresh hl₁ hp hleaf hrc
          exact ⟨parent, leaf, p, n, hsp, hpn, hfind, hm, hmade⟩
        · rw [if_pos hrc0]
          intro hrc
          rw [exec_bind, exec_bind] at hrc
          exact absurd hrc hrc0

/-! ## Where the link is found -/

namespace LinkMade
variable {leaf : Text}

section
variable (hm : LinkMade L v p n leaf target v')
include hm

/-- Of all names, only `leaf` of `p` may be found differently. -/
theorem find_same {name : Text} (hne : j ≠ p ∨ name ≠ leaf) : (v'.node L j).find name = (v.node L j).find name := by
  by_cases hj : j = p
  · subst hj
    have hname : leaf ≠ name := fun he => hne.resolve_left (not_not.2 rfl) he.symm
    unfold Node.find
    rcases hm.vis with ⟨ft, hi, -⟩ | ⟨hsame, -⟩
    · rw [hi.find?_eq (by simpa using hname)]
    · rw [hsame]
  · by_cases hjn : j = n
    · subst hjn
      have hdir : (v'.inode j).isDir = false := by
        by_contra hd
        have := hm.link.isLnk
        rw [isLnk_of_isDir (by simpa using hd)] at this
        cases this
      rw [node_free hm.fresh]
      simp [Node.find, Node.free, Store.node, hdir, hm.link.used]
    · rw [hm.others j hj hjn]

theorem find_leaf (hnone : (v.node L p).find leaf = none) :
    (SeesInsert L v p (align4 (8 + leaf.length)) → (v'.node L p).find leaf = some n) ∧
    (¬ SeesInsert L v p (align4 (8 + leaf.length)) → (v'.node L p).find leaf = none) := by
  rcases hm.vis with ⟨ft, hi, hs⟩ | ⟨hsame, hs⟩
  · refine ⟨fun _ => ?_, fun hc => absurd hs hc⟩
    rw [Node.find, Option.map_eq_none_iff] at hnone
    rw [Node.find, hi.find?_new (by simp) hnone]
    rfl
  · refine ⟨fun hc => absurd hc hs, fun _ => ?_⟩
    rw [Node.find, hsame]
    exact hnone

theorem finds (hnone : (v.node L p).find leaf = none) : Graph.Finds (v.node L) (v'.node L) := by
  intro j name m hf
  rw [hm.find_same, hf]
  by_contra hc
  rw [not_or, not_not, not_not] at hc
  rw [hc.1, hc.2, hnone] at hf
  cases hf

end

end LinkMade

/-- The link will be found: the path fits lookup's buffer, and the name goes where lookup reads. -/
def LinkSeen (L : Layout) (v : Store) (path : Text) : Prop :=
  path.length ≤ PUREUNIX_MAX_PATH ∧ ∀ parent leaf p, splitParentLeaf path = some (parent, leaf) →
    pathNode (v.node L) parent = some p → SeesInsert L v p (align4 (8 + leaf.length))

theorem LinkMade.pathNode (hm : LinkMade L v p n leaf target v') (hsp : splitParentLeaf path = some (parent, leaf))
    (hpn : pathNode (v.node L) parent = some p) (hnone : (v.node L p).find leaf = none) (hfree : Ext2.pathNode (v.node L) path = none) :
    (LinkSeen L v path → Ext2.pathNode (v'.node L) path = some n) ∧ (¬ LinkSeen L v path → Ext2.pathNode (v'.node L) path = none) := by
  have hpn' := (hm.finds hnone).path hpn
  have hseen : LinkSeen L v path ↔ path.length ≤ PUREUNIX_MAX_PATH ∧ SeesInsert L v p (align4 (8 + leaf.length)) := by
    unfold LinkSeen
    simp only [hsp, some.injEq, Prod.mk.injEq]
    refine and_congr_right fun _ => ⟨fun hall => hall parent leaf p ⟨rfl, rfl⟩ hpn, ?_⟩
    rintro hs _ _ q ⟨rfl, rfl⟩ hq
    rw [hpn] at hq
    cases hq
    exact hs
  rw [hseen]
  by_cases hlen : path.length ≤ PUREUNIX_MAX_PATH
  · rw [pathNode_split hsp hlen, hpn']
    obtain ⟨h1, h2⟩ := hm.find_leaf hnone
    exact ⟨fun hs => h1 hs.2, fun hs => h2 fun hc => hs ⟨hlen, hc⟩⟩
  -- the buffer cuts the last component: another name is looked up
  refine ⟨fun hs => absurd hs.1 hlen, fun _ => ?_⟩
  rw [pathNode_kept hsp] at hfree ⊢
  rw [hpn, bind_some] at hfree
  rw [hpn', bind_some]
  have hs : slash ∉ keptLeaf path leaf := fun hc => (splitParentLeaf_cases hsp).1 (mem_of_mem_take hc)
  have hcut : keptLeaf path leaf ≠ leaf := by
    intro he
    have hl := congrArg length he
    rw [keptLeaf, length_take] at hl
    have := (splitParentLeaf_length hsp).1
    omega
  by_cases hnil : keptLeaf path leaf = []
  · rw [hnil] at hfree
    cases hfree
  · rw [tokens_of_notMem hs hnil, walkNodes_single] at hfree ⊢
    rw [hm.find_same (.inr (by simpa using hcut))]
    exact hfree

/-- **When a symbolic link reads back as its target.** -/
theorem readlink_verbatim_iff {d : Disk} (h : L.Ok) (hd : Consistent true false L d) (env : Env) (target path : Text)
    (hfree : pathNode ((d.store L).node L) path = none) (hrc : (d.exec L (symlink L.fs env target path)).1 = 0) :
    (∀ bufsize, ((d.exec L (symlink L.fs env target path)).2.exec L (readlink L.fs path bufsize)).1 = .ok (target.take bufsize)) ↔
      LinkSeen L (d.store L) path := by
  obtain ⟨parent, leaf, p, n, hsp, hpn, hnone, hm, hmade⟩ := symlink_exec h hd env target path hrc
  obtain ⟨hyes, hno⟩ := hmade.pathNode hsp hpn hnone hfree
  constructor
  · intro hall
    by_contra hs
    obtain ⟨h1, -⟩ := exec_of_run h hm (run_readlink_missing h hmade.inv (hno hs) 0) hmade.inv.own.wild
    rw [hall 0] at h1
    cases h1
  · intro hs bufsize
    exact (exec_of_run h hm (hmade.link.run_readlink h hmade.inv (hyes hs) bufsize) hmade.inv.own.wild).1

/-- A short target is linked whenever there is an inode for it and room for the name. -/
theorem FsInv.wp_symlink_short (h : L.Ok) (inv : FsInv true false L v) (env : Env)
    (ht : 0 < target.length ∧ target.length ≤ 60) (hsp : splitParentLeaf path = some (parent, leaf))
    (hpn : pathNode (v.node L) parent = some p) (hnone : (v.node L p).find leaf = none) (hn : v.nextInode L = some (g, n))
    (hfits : InsertFits L ((v.takeInode g n).setInode n ((newLinkInode env target).withText target)) p leaf) :
    wp (Store.step L) (symlink L.fs env target path) (fun rc v' => v'.wild = false ∧ rc = 0) v := by
  have hleaf := splitParentLeaf_length hsp
  obtain ⟨hpath, hnamed⟩ := inv.run_pathToInode h parent
  have hp := hnamed p hpn
  have hinl : ((newLinkInode env target).withText target).inline true = true := by
    simp only [Inode.inline, Bool.true_and, Bool.and_eq_true, decide_eq_true_eq]
    exact ⟨newLinkInode_isLnk env target, rfl⟩
  have inv₁ := inv.freshLink hn hinl
  have hl₁ := linkAt_inline (L := L) v g n env ht.2
  have hv := inv₁.own.valid n hl₁.used
  have hp₁ := ((inv.own.takeInode hn).setInode ((newLinkInode env target).withText target)).frame.named
    (fun hm => ⟨hm.range, fun _ => .inl hl₁.used⟩) hp
  unfold symlink
  have hmax : PUREUNIX_MAX_PATH = 256 := rfl
  rw [if_neg h.isMounted, if_neg (by omega), if_neg (by omega), hsp]
  refine wp_seq_run (hpn ▸ hpath) ?_
  refine wp_seq_run (hnone ▸ inv.run_dirLookup h hp (by omega)) ?_
  refine wp_seq_run (Drv.run_allocInode_some hn) ?_
  dsimp only
  rw [if_pos ht.2]
  refine wp_seq_run (Drv.run_writeInode hv) ?_
  refine Prog.wp_seq (inv₁.wp_dirInsert h hp₁ ⟨hleaf.1, by omega⟩ (h.named_of_used hv hl₁.used) _ (env.time 1) (by simp)) ?_
  rintro r v₂ ⟨inv₂, ⟨rfl, -⟩ | ⟨rfl, -, hno, -⟩⟩
  · exact ⟨inv₂.own.wild, rfl⟩
  · exact absurd hfits hno

end

/-! ## In the crowded root directory -/

theorem crowded_symlink (env : Env) (leaf : Text) (hsp : splitParentLeaf (slash :: leaf) = some ([slash], leaf))
    (hnew : crowdedEntries.find? (fun d => d.name = leaf) = none) :
    (crowdedDisk.exec fullDirLayout (symlink fullDirLayout.fs env [116] (slash :: leaf))).1 = 0 := by
  have hfits : InsertFits fullDirLayout ((crowdedStore.takeInode 0 13).setInode 13 ((newLinkInode env [116]).withText [116])) 2 leaf :=
    ⟨rfl, fullDir_dirAt.isDir, .inr (crowded_canGrow ⟨rfl, rfl⟩ rfl)⟩
  have hnone : (crowdedStore.node fullDirLayout 2).find leaf = none := by
    rw [crowded_find, hnew]
    rfl
  have hw := crowded_fsInv.wp_symlink_short fullDirLayout_ok env (show 0 < [116].length ∧ _ by decide)
    hsp rfl hnone crowded_nextInode hfits
  rw [← crowded_rel.2] at hw
  rw [(exec_of_run fullDirLayout_ok crowded_rel.1 rfl hw.1).1]
  exact hw.2

theorem crowded_free (leaf : Text) (hsp : splitParentLeaf (slash :: leaf) = some ([slash], leaf))
    (hnew : crowdedEntries.find? (fun d => d.name = leaf) = none) :
    pathNode ((crowdedDisk.store fullDirLayout).node fullDirLayout) (slash :: leaf) = none := by
  have hlen := (splitParentLeaf_length hsp).2
  rw [pathNode_split hsp (by rw [length_cons]; exact le_trans hlen (by decide)), crowded_rel.2]
  change (crowdedStore.node fullDirLayout 2).find leaf = none
  rw [crowded_find, hnew]
  rfl

/-- A link to "t" under a name of one letter. -/
theorem readlink_verbatim_short_name :
    (crowdedDisk.exec fullDirLayout (symlink fullDirLayout.fs sampleEnv [116] [slash, 98])).1 = 0 ∧
    ∀ bufsize, ((crowdedDisk.exec fullDirLayout (symlink fullDirLayout.fs sampleEnv [116] [slash, 98])).2.exec fullDirLayout
      (readlink fullDirLayout.fs [slash, 98] bufsize)).1 = .ok ([116].take bufsize) := by
  have hrc := crowded_symlink sampleEnv [98] rfl rfl
  refine ⟨hrc, (readlink_verbatim_iff fullDirLayout_ok crowded_consistent sampleEnv [116] [slash, 98]
    (crowded_free [98] rfl rfl) hrc).2 ⟨by decide, ?_⟩⟩
  rw [crowded_rel.2]
  rintro parent leaf p hsp hpn
  cases hsp
  cases hpn
  exact crowded_seen (by decide)

/-- Under a name of 63 letters it cannot be found. -/
theorem readlink_loses_long_name : Consistent true false fullDirLayout crowdedDisk ∧
    pathNode ((crowdedDisk.store fullDirLayout).node fullDirLayout) (slash :: List.replicate 63 98) = none ∧
    (crowdedDisk.exec fullDirLayout (symlink fullDirLayout.fs sampleEnv [116] (slash :: List.replicate 63 98))).1 = 0 ∧
    ((crowdedDisk.exec fullDirLayout (symlink fullDirLayout.fs sampleEnv [116] (slash :: List.replicate 63 98))).2.exec fullDirLayout
      (readlink fullDirLayout.fs (slash :: List.replicate 63 98) 64)).1 = .error (-ENOENT) := by
  have hsp : splitParentLeaf (slash :: replicate 63 98) = some ([slash], replicate 63 98) := by decide
  have hnew : crowdedEntries.find? (fun d => d.name = replicate 63 98) = none := by decide
  have hfree := crowded_free _ hsp hnew
  have hrc := crowded_symlink sampleEnv _ hsp hnew
  refine ⟨crowded_consistent, hfree, hrc, ?_⟩
  obtain ⟨parent, leaf, p, n, hsp', hpn, hnone, hm, hmade⟩ := symlink_exec fullDirLayout_ok crowded_consistent sampleEnv [116] _ hrc
  have hunseen : ¬ LinkSeen fullDirLayout (crowdedDisk.store fullDirLayout) (slash :: replicate 63 98) := by
    rw [crowded_rel.2]
    exact fun hs => crowded_unseen (by decide) (hs.2 [slash] _ 2 hsp rfl)
  have hmissing := (hmade.pathNode hsp' hpn hnone hfree).2 hunseen
  exact (exec_of_run fullDirLayout_ok hm (run_readlink_missing fullDirLayout_ok hmade.inv hmissing 64) hmade.inv.own.wild).1

end PureUnix.Ext2
