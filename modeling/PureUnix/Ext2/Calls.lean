import PureUnix.Ext2.FileSpec

/-!
# The calls of the write path

`ext2_create`, `ext2_unlink`, `ext2_rename`, `ext2_link` and `ext2_write_file` on any path whatever: each
keeps `FsInv`, and its theorem says what has happened to the graph of nodes when it succeeds and when it
fails. With `full` set a call must not run into the one exit that loses a block; the conditions for that
are `InsertLoses` and `WriteLoses`, in the state in which the insertion or the write starts.
-/
namespace PureUnix.Ext2
open Lib Inode Store Function

/-! ## `ext2_create` -/

def newDirInode (fs : Fs) (env : Env) (blk : Nat) : Inode :=
  { (newInode env EXT2_DEFAULT_DIR_MODE 2).setBlk 0 blk with
    iBlocks := UInt32.ofNat fs.sectorsPerBlock
    iSize := UInt32.ofNat fs.blockSize }

/-- The store in which `ext2_create` enters the name: inode `n` of group `g` is taken and written. -/
def Store.withNew (L : Layout) (env : Env) (v : Store) (directory : Bool) (p g n : Nat) : Option Store :=
  if directory then
    match (v.takeInode g n).nextBlock L with
    | none => none
    | some (g', b) => some ((((v.takeInode g n).takeBlock L g' b).setData L b (newDirBlock L.blockSize n p)).setInode n
        (newDirInode L.fs env b))
  else some ((v.takeInode g n).setInode n (newInode env EXT2_DEFAULT_FILE_MODE 1))

def Node.fresh (i : Inode) (directory : Bool) (n p : Nat) : Node :=
  if directory then
    ⟨true, i, [⟨dotName, n, EXT2_FT_DIR⟩, ⟨dotdotName, p, EXT2_FT_DIR⟩], [⟨dotName, n, EXT2_FT_DIR⟩, ⟨dotdotName, p, EXT2_FT_DIR⟩], []⟩
  else ⟨true, i, [], [], []⟩

theorem newInode_noBlocks (env : Env) (mode links : UInt16) : (newInode env mode links).NoBlocks := by
  intro k hk
  interval_cases k <;> rfl

section
variable {aware full : Bool} {L : Layout} {v v' : Store} {env : Env} {p n g : Nat} {leaf : Text} {directory : Bool} {i : Inode}

structure NewRecord (directory : Bool) (i : Inode) : Prop where
  isDir : i.isDir = directory
  isReg : i.isReg = !directory
  links : i.iLinksCount = if directory then 2 else 1
  noBlocks : directory = false → i.NoBlocks

theorem newRecord_file (env : Env) : NewRecord false (newInode env EXT2_DEFAULT_FILE_MODE 1) :=
  ⟨show (EXT2_DEFAULT_FILE_MODE &&& EXT2_S_IFMT == EXT2_S_IFDIR) = false by decide,
    show (EXT2_DEFAULT_FILE_MODE &&& EXT2_S_IFMT == EXT2_S_IFREG) = true by decide, rfl, fun _ => newInode_noBlocks env _ _⟩

theorem newRecord_dir (fs : Fs) (env : Env) (blk : Nat) : NewRecord true (newDirInode fs env blk) :=
  ⟨show (EXT2_DEFAULT_DIR_MODE &&& EXT2_S_IFMT == EXT2_S_IFDIR) = true by decide,
    show (EXT2_DEFAULT_DIR_MODE &&& EXT2_S_IFMT == EXT2_S_IFREG) = false by decide, rfl, nofun⟩

theorem FsInv.withNew (h : L.Ok) (inv : FsInv aware full L v) (hn : v.nextInode L = some (g, n)) (hp : Named L v p)
    (hv : v.withNew L env directory p g n = some v') :
    (FsInv aware full L v' ∧ NewRecord directory (v'.inode n) ∧
      v'.node L = update (v.node L) n (Node.fresh (v'.inode n) directory n p)) ∧
    Frame aware L (some n) v v' ∧ Took L v (if directory then 1 else 0) v' ∧
    (directory = true → ∀ need, need + 24 ≤ L.blockSize → ¬ NoRoom L v' n need) := by
  unfold Store.withNew at hv
  cases directory with
  | false =>
    rw [if_neg (by decide), Option.some.injEq] at hv
    have hino : v'.inode n = newInode env EXT2_DEFAULT_FILE_MODE 1 := by rw [← hv]; exact update_self ..
    obtain ⟨h1, h2, h3⟩ := inv.freshFile hn (newInode_noBlocks env _ _) rfl (newRecord_file env).isReg
    rw [hv] at h1 h2 h3
    rw [hino]
    exact ⟨⟨h1, newRecord_file env, h2⟩, h3, ⟨v, rfl, hv ▸ ⟨rfl, rfl⟩⟩, nofun⟩
  | true =>
    rw [if_pos rfl] at hv
    cases hb : (v.takeInode g n).nextBlock L with
    | none => rw [hb] at hv; cases hv
    | some gb =>
      obtain ⟨g', b⟩ := gb
      rw [hb] at hv
      rw [Option.some.injEq] at hv
      have hino : v'.inode n = newDirInode L.fs env b := by rw [← hv]; exact update_self ..
      have hbd := ((inv.own.takeInode hn).own.next h hb).1
      obtain ⟨h1, h2, h3, h4⟩ := inv.freshDir h hn hb hp (newRecord_dir L.fs env b).isDir
        (UInt32.toNat_ofNat_of_lt (by rcases h.blockSize with e | e | e <;> rw [e] <;> decide)) (fun k hk => by
          change ((newInode env EXT2_DEFAULT_DIR_MODE 2).setBlk 0 b).blkNo k = _
          rw [blkNo_setBlk (by decide) (h.data_lt hbd), newInode_noBlocks env _ _ k hk])
      rw [hv] at h1 h2 h3 h4
      rw [hino]
      refine ⟨⟨h1, newRecord_dir L.fs env b, h2⟩, h3, ?_, fun _ => h4⟩
      exact Took.step ⟨v, rfl, ⟨rfl, rfl⟩⟩ hb (hv ▸ ⟨rfl, rfl⟩)

theorem FsInv.wp_dropNew (h : L.Ok) (inv : FsInv aware full L v) (hu : v.inodeUsed n = true)
    (hr : NewRecord directory (v.inode n)) :
    wp (Store.step L) (dropNew L.fs directory n (v.inode n)) (fun _ v' => FsInv aware full L v' ∧
      v'.node L = update (v.node L) n (Node.free Inode.empty)) v := by
  have hv := inv.own.valid n hu
  have hl : (v.inode n).inline aware = false := by
    refine inline_of_not_lnk ?_
    cases directory with
    | false => exact isLnk_of_isReg hr.isReg
    | true => exact isLnk_of_isDir hr.isDir
  refine wp_ite (fun hd => ?_) fun hd => ?_
  · refine wp_mono (inv.wp_discard h (h.named_of_used hv hu) hv (.refl _) hl true) ?_
    rintro - v' ⟨h1, h2, -⟩
    rw [if_pos hu] at h2
    exact ⟨h1, h2⟩
  · obtain ⟨h1, h2⟩ := inv.discarded h hu hl
    rw [(hr.noBlocks (by simpa using hd)).blockRefs] at h1 h2
    exact Prog.wp_of_run (Drv.run_freeInode n false) ⟨h1, h2⟩

/-- A new node has come into the graph, under a name of its parent; a new directory counts in its parent. -/
def Created (L : Layout) (g : Graph) (path : Text) (directory : Bool) (g' : Graph) : Prop :=
  ∃ parent leaf p n i ft g₂, ∃ now : UInt32, splitParentLeaf path = some (parent, leaf) ∧ pathNode g parent = some p ∧
    (g p).find leaf = none ∧ L.ValidIno n ∧ (g n).used = false ∧ NewRecord directory i ∧
    Inserts (update g n (Node.fresh i directory n p)) p ⟨leaf, n, ft⟩ g₂ ∧
    g' = if directory then adjustNode L g₂ p fun q => q.incLinks.touch now else g₂

/-- A free inode has been taken and wiped again. -/
def Wiped (L : Layout) (g g' : Graph) : Prop :=
  ∃ n, L.ValidIno n ∧ (g n).used = false ∧ g' = update g n (Node.free Inode.empty)

/-- The insertion that `ext2_create` makes loses a block; a new directory has taken one before. -/
def CreateLoses (L : Layout) (v : Store) (path : Text) (directory : Bool) : Prop :=
  ∃ parent leaf p, splitParentLeaf path = some (parent, leaf) ∧ pathNode (v.node L) parent = some p ∧
    (v.node L p).find leaf = none ∧ InsertLoses L v (if directory then 1 else 0) p leaf

/-- From the point where the new inode is in the table. -/
theorem FsInv.wp_createFinish (h : L.Ok) {v₁ : Store} (inv : FsInv aware full L (v₁.setInode n i))
    (hv : L.ValidIno n) (hu : v₁.inodeUsed n = true) (hr : NewRecord directory i)
    (hp : Named L (v₁.setInode n i) p) (hleaf : 0 < leaf.length ∧ leaf.length < 64)
    (hl : full = true → ¬ InsertLoses L (v₁.setInode n i) 0 p leaf) :
    wp (Store.step L) (createFinish L.fs env directory p n leaf i) (fun rc v' => FsInv aware full L v' ∧
      ((rc = 0 ∧ (∃ ft g₂, Inserts ((v₁.setInode n i).node L) p ⟨leaf, n, ft⟩ g₂ ∧
          v'.node L = if directory then adjustNode L g₂ p fun q => q.incLinks.touch (env.time 0) else g₂) ∧
          (directory = false → ∃ c, InsertTakes L (v₁.setInode n i) p leaf c ∧ Took L (v₁.setInode n i) c v')) ∨
       (rc ≠ 0 ∧ v'.node L = update ((v₁.setInode n i).node L) n (Node.free Inode.empty)))) v₁ := by
  refine wp_seq_run (Drv.run_writeInode hv) ?_
  have hu₂ : (v₁.setInode n i).inodeUsed n = true := hu
  refine wp_seq (inv.wp_dirInsert h hp ⟨hleaf.1, by omega⟩ (h.named_of_used hv hu₂) _ (env.time 1) hl) ?_
  rintro r v₃ ⟨inv₃, ⟨rfl, hins, hplaced⟩ | ⟨rfl, hsame, -⟩⟩
  · cases directory with
    | false => exact ⟨inv₃, .inl ⟨rfl, ⟨_, _, hins, rfl⟩, fun _ => hplaced.took⟩⟩
    | true =>
      refine wp_seq (inv₃.wp_updateInode fun i =>
        (Inode.SameShape.incLinks i).trans (Inode.SameShape.touch _ _)) ?_
      rintro - v₄ ⟨inv₄, hnode, -⟩
      exact ⟨inv₄, .inl ⟨rfl, ⟨_, _, hins, hnode⟩, nofun⟩⟩
  · have hino : v₃.inode n = i := by
      rw [← node_inode, hsame, node_inode]
      exact update_self ..
    have hu₃ : v₃.inodeUsed n = true := by rw [← node_used, hsame, node_used]; exact hu₂
    refine wp_seq (R := fun _ v' => FsInv aware full L v' ∧ v'.node L = update (v₃.node L) n (Node.free Inode.empty)) ?_ ?_
    · have := inv₃.wp_dropNew h hu₃ (hino.symm ▸ hr)
      rwa [hino] at this
    · rintro - v₄ ⟨inv₄, hnode⟩
      exact ⟨inv₄, .inr ⟨show -ENOSPC ≠ 0 by decide, hsame ▸ hnode⟩⟩

/-- The blocks that the creation of a file has taken. -/
def CreateTook (L : Layout) (v : Store) (path : Text) (v' : Store) : Prop :=
  ∃ parent leaf p c, splitParentLeaf path = some (parent, leaf) ∧ pathNode (v.node L) parent = some p ∧
    InsertTakes L v p leaf c ∧ Took L v c v'

/-- **`ext2_create`** on any path. -/
theorem FsInv.wp_create (h : L.Ok) (inv : FsInv aware full L v) (env : Env) (path : Text) (directory : Bool)
    (hl : full = true → ¬ CreateLoses L v path directory) :
    wp (Store.step L) (create L.fs env path directory) (fun rc v' => FsInv aware full L v' ∧
      ((rc = 0 ∧ Created L (v.node L) path directory (v'.node L) ∧ (directory = false → CreateTook L v path v')) ∨
       (rc ≠ 0 ∧ (v' = v ∨ Wiped L (v.node L) (v'.node L))))) v := by
  unfold create
  rw [if_neg h.isMounted]
  refine inv.at_parent .wp h ⟨inv, .inr ⟨show -ENOENT ≠ 0 by decide, .inl rfl⟩⟩ fun {parent leaf p} hsp hpn hleaf hp => ?_
  cases hfind : (v.node L p).find leaf with
  | some e => exact ⟨inv, .inr ⟨show -EEXIST ≠ 0 by decide, .inl rfl⟩⟩
  | none =>
    dsimp only
    cases hn : v.nextInode L with
    | none =>
      refine wp_seq_run (Drv.run_allocInode_none hn) ?_
      exact ⟨inv, .inr ⟨show -ENOSPC ≠ 0 by decide, .inl rfl⟩⟩
    | some gn =>
      obtain ⟨g, n⟩ := gn
      obtain ⟨hvn, hfree⟩ := v.nextInode_fresh hn
      refine wp_seq_run (Drv.run_allocInode_some hn) ?_
      dsimp only
      have hufree : (v.node L n).used = false := by rw [node_used]; exact hfree
      -- the common end: the new inode is in the table of `v₁.setInode n i`
      have finish : ∀ (v₁ : Store) (i : Inode), v.withNew L env directory p g n = some (v₁.setInode n i) → v₁.inodeUsed n = true →
          wp (Store.step L) (createFinish L.fs env directory p n leaf i) (fun rc v' => FsInv aware full L v' ∧
            ((rc = 0 ∧ Created L (v.node L) path directory (v'.node L) ∧ (directory = false → CreateTook L v path v')) ∨
             (rc ≠ 0 ∧ (v' = v ∨ Wiped L (v.node L) (v'.node L))))) v₁ := by
        intro v₁ i hw hu₁
        obtain ⟨⟨inv₂, hrec, hnode⟩, hframe, htook, hroom⟩ := inv.withNew h hn hp hw
        have hino : (v₁.setInode n i).inode n = i := update_self ..
        rw [hino] at hrec hnode
        have hp₂ : Named L (v₁.setInode n i) p := by
          by_cases hpn' : p = n
          · subst hpn'; exact h.named_of_used hvn hu₁
          refine ⟨hp.range, fun hv => ?_⟩
          have e := congrFun hnode p
          rw [update_of_ne hpn'] at e
          rw [← node_used, ← node_inode, e, node_used, node_inode]
          exact hp.slot hv
        refine wp_mono (inv₂.wp_createFinish h hvn hu₁ hrec hp₂ hleaf fun hf hlose =>
          hl hf ⟨parent, leaf, p, hsp, hpn, hfind, hlose.before htook hframe ?_⟩) ?_
        · -- the new inode has room if it is a directory, and takes no name if it is a file
          rintro rfl
          obtain ⟨-, hd, hno, -⟩ := hlose
          rw [hino, hrec.isDir] at hd
          refine hroom hd _ ?_ hno
          unfold align4
          rcases h.blockSize with e | e | e <;> omega
        rintro rc v' ⟨inv', ⟨h0, ⟨ft, g₂, hins, hv'⟩, htakes⟩ | ⟨h0, hv'⟩⟩
        · refine ⟨inv', .inl ⟨h0, ⟨parent, leaf, p, n, i, ft, g₂, env.time 0, hsp, hpn, hfind, hvn, hufree, hrec, hnode ▸ hins, hv'⟩, fun hfile => ?_⟩⟩
          obtain ⟨c, htakes, htook'⟩ := htakes hfile
          have hup : (v₁.setInode n i).inodeUsed p = true := by rw [← node_used]; exact hins.used
          have hdp : ((v₁.setInode n i).inode p).isDir = true := by rw [← node_inode]; exact hins.isDir
          refine ⟨parent, leaf, p, c, hsp, hpn, htakes.before hframe ?_ hup hdp, ?_⟩
          · rintro rfl
            rw [hino, hrec.isDir, hfile] at hdp
            cases hdp
          · rw [hfile] at htook
            have := htook.trans htook'
            rwa [if_neg (by decide), Nat.zero_add] at this
        · rw [hnode, update_idem] at hv'
          exact ⟨inv', .inr ⟨h0, .inr ⟨n, hvn, hufree, hv'⟩⟩⟩
      have hu₁ : (v.takeInode g n).inodeUsed n = true := update_self ..
      cases directory with
      | false =>
        rw [if_neg (by decide)]
        exact finish (v.takeInode g n) _ (by rw [Store.withNew, if_neg (by decide)]) hu₁
      | true =>
        rw [if_pos rfl]
        cases hb : (v.takeInode g n).nextBlock L with
        | none =>
          refine wp_seq_run (Drv.run_allocBlock_none hb) ?_
          refine wp_seq_run (Drv.run_freeInode n true) ?_
          obtain ⟨h1, h2⟩ := inv.wipe (inv.own.takeInode hn) hu₁ fun _ => rfl
          exact ⟨h1, .inr ⟨show -ENOSPC ≠ 0 by decide, .inr ⟨n, hvn, hufree, h2⟩⟩⟩
        | some gb =>
          obtain ⟨g', b⟩ := gb
          have hbd := ((inv.own.takeInode hn).own.next h hb).1
          refine wp_seq_run (Drv.run_allocBlock_some hb) ?_
          dsimp only
          refine wp_seq_run (Drv.run_writeBlock (h.data_ne_zero hbd) hbd) ?_
          rw [if_pos rfl]
          exact finish (((v.takeInode g n).takeBlock L g' b).setData L b (newDirBlock L.blockSize n p)) _
            (by rw [Store.withNew, if_pos rfl, hb]; rfl) hu₁

/-! ## `ext2_unlink` -/

def targetNode (g : Graph) (path : Text) : Option Nat :=
  match splitParentLeaf path with
  | none => none
  | some (parent, leaf) => (pathNode g parent).bind fun p => (g p).find leaf

/-- The graph after the node of a removed entry has lost that name. -/
def dropNode (L : Layout) (g : Graph) (p n : Nat) (i : Inode) (directory : Bool) (adjust stamp : Inode → Inode) : Graph :=
  if directory then adjustNode L (update g n (Node.free Inode.empty)) p adjust
  else update g n ((g n).dropName i stamp)

/-- An entry of `p` that stands for `n` has gone, and with it a name of `n`. -/
def Dropped (L : Layout) (g : Graph) (p n : Nat) (leaf : Text) (directory : Bool) (adjust stamp : Inode → Inode)
    (g' : Graph) : Prop :=
  ∃ g₁, Removes g p leaf g₁ ∧ (directory = true → (g n).used = true ∧ ∀ e ∈ (g n).ents, e.name = dotName ∨ e.name = dotdotName) ∧
    g' = dropNode L g₁ p n (g n).inode directory adjust stamp

theorem Removes.inode_shape {g g₁ : Graph} (hr : Removes g p leaf g₁) (n : Nat) :
    (g₁ n).used = (g n).used ∧ (g₁ n).inode.SameShape (g n).inode ∧ (g n).inode.SameShape (g₁ n).inode := by
  obtain ⟨now, rfl⟩ := hr.node
  by_cases hn : n = p
  · subst hn
    rw [update_self]
    exact ⟨hr.used.symm, ⟨rfl, rfl, rfl, rfl⟩, .touch _ _⟩
  · rw [update_of_ne hn]
    exact ⟨rfl, .refl _, .refl _⟩

theorem FsInv.run_mayDrop (inv : FsInv aware full L v) (hn : Named L v n) (hv : L.ValidIno n) (hd : (v.inode n).isDir = directory) :
    ∃ ok, run (Store.step L) (mayDrop L.fs directory n) v = (ok, v) ∧ (ok = true → directory = true →
      (v.node L n).used = true ∧ ∀ e ∈ (v.node L n).ents, e.name = dotName ∨ e.name = dotdotName) := by
  unfold mayDrop
  cases directory with
  | false => exact ⟨true, rfl, nofun⟩
  | true =>
    have hu := FsInv.used_of_isDir hn hv hd
    rw [if_pos rfl, inv.run_dirIsEmpty hu hd]
    exact ⟨_, rfl, fun he _ => ⟨by rw [node_used]; exact hu, of_decide_eq_true he⟩⟩

/-- **Removing an entry and what it stands for.** -/
theorem FsInv.wp_dropEntry (h : L.Ok) (inv : FsInv aware full L v) (hp : DirSlot L v p) (hleaf : leaf.length < 64)
    (hn : Named L v n) (hv : L.ValidIno n) (hl : (v.inode n).inline aware = false) (hd : (v.inode n).isDir = directory)
    (now : UInt32) {adjust stamp : Inode → Inode} (ha : ∀ i : Inode, i.SameShape (adjust i))
    (hst : ∀ i : Inode, i.SameShape (stamp i)) :
    wp (Store.step L) (dropEntry L.fs now directory p n leaf (v.inode n) adjust stamp) (fun rc v' =>
      FsInv aware full L v' ∧
      ((rc = 0 ∧ Dropped L (v.node L) p n leaf directory adjust stamp (v'.node L) ∧
          ((∃ e ∈ (v.node L p).vis, e.name = leaf) → ¬ InsertLoses L v' 0 p leaf)) ∨ (rc ≠ 0 ∧ v' = v))) v := by
  obtain ⟨ok, hrun, hempty⟩ := inv.run_mayDrop hn hv hd
  refine wp_seq_run hrun ?_
  refine wp_ite (fun hok => ?_) fun _ => ⟨inv, .inr ⟨show -ENOTEMPTY ≠ 0 by decide, rfl⟩⟩
  refine wp_seq (inv.wp_dirRemove h hp (by omega) now) ?_
  rintro r v₁ ⟨inv₁, ⟨rfl, hrem, hroom⟩ | ⟨rfl, rfl, -⟩⟩
  swap
  · exact ⟨inv, .inr ⟨show (- EIO) ≠ 0 by decide, rfl⟩⟩
  have hkeeps : ∀ v₂ : Store, v₁.Thins v₂ → (∃ e ∈ (v.node L p).vis, e.name = leaf) → ¬ InsertLoses L v₂ 0 p leaf :=
    fun v₂ hthin hex hlose => (hthin.roomSeen hlose.1 (hroom hex)).room hlose.2.2.1
  obtain ⟨hu₁, hs₁, hs₁'⟩ := hrem.inode_shape n
  rw [node_used, node_used] at hu₁
  rw [node_inode, node_inode] at hs₁ hs₁'
  have hn₁ : Named L v₁ n := ⟨hn.range, fun hv => (hn.slot hv).imp (fun hu => hu₁.trans hu) fun hd => hs₁'.dead hd⟩
  cases directory with
  | true =>
    have hd₁ : (v₁.inode n).isDir = true := by rw [hs₁'.isDir]; exact hd
    refine wp_seq (inv₁.wp_dropDir h (FsInv.used_of_isDir hn₁ hv hd₁) hd₁ hs₁ ha) ?_
    rintro - v₂ ⟨inv₂, hnode, hthin⟩
    exact ⟨inv₂, .inl ⟨rfl, ⟨_, hrem, hempty hok, hnode⟩, hkeeps v₂ hthin⟩⟩
  | false =>
    refine wp_seq (inv₁.wp_dropFile h hn₁ hv hs₁ hl hst) ?_
    rintro - v₂ ⟨inv₂, hnode, hthin⟩
    refine ⟨inv₂, .inl ⟨rfl, ⟨_, hrem, nofun, ?_⟩, hkeeps v₂ hthin⟩⟩
    rw [dropNode, if_neg (by decide), node_inode]
    exact hnode

/-- The last component of a path has lost its entry. -/
def Unlinked (L : Layout) (g : Graph) (path : Text) (directory : Bool) (g' : Graph) : Prop :=
  ∃ parent leaf p n, ∃ now : UInt32, splitParentLeaf path = some (parent, leaf) ∧ pathNode g parent = some p ∧
    (g p).find leaf = some n ∧ L.ValidIno n ∧ (g n).inode.isDir = directory ∧
    Dropped L g p n leaf directory (fun q => q.decLinks.touch now) (fun i => { i with iCtime := now }) g'

/-- **`ext2_unlink`** on any path; what it frees must not be a fast symbolic link if these are told apart. -/
theorem FsInv.wp_unlink (h : L.Ok) (inv : FsInv aware full L v) (env : Env) (path : Text) (directory : Bool)
    (hi : ∀ n, targetNode (v.node L) path = some n → (v.inode n).inline aware = false) :
    wp (Store.step L) (unlink L.fs env path directory) (fun rc v' => FsInv aware full L v' ∧
      ((rc = 0 ∧ Unlinked L (v.node L) path directory (v'.node L)) ∨ (rc ≠ 0 ∧ v' = v))) v := by
  unfold unlink
  rw [if_neg h.isMounted]
  refine inv.at_parent .wp h ⟨inv, .inr ⟨show -ENOENT ≠ 0 by decide, rfl⟩⟩ fun {parent leaf p} hsp hpn hleaf hp => ?_
  cases hf : (v.node L p).find leaf with
  | none => exact ⟨inv, .inr ⟨show -ENOENT ≠ 0 by decide, rfl⟩⟩
  | some n =>
    have hn := inv.find_named hf
    dsimp only
    refine PastReads.wp.inode (fun _ => ⟨inv, .inr ⟨show (- EIO) ≠ 0 by decide, rfl⟩⟩) fun hv => ?_
    refine wp_ite (fun _ => ⟨inv, .inr ⟨show -ENOTDIR ≠ 0 by decide, rfl⟩⟩) fun h1 => ?_
    refine wp_ite (fun _ => ⟨inv, .inr ⟨show -EISDIR ≠ 0 by decide, rfl⟩⟩) fun h2 => ?_
    have hd : (v.inode n).isDir = directory := by
      cases directory <;> cases hd : (v.inode n).isDir
      · rfl
      · exact absurd ⟨rfl, hd⟩ h2
      · exact absurd ⟨rfl, hd⟩ h1
      · rfl
    refine wp_mono (inv.wp_dropEntry h (hp.dirSlot_of_find hf) hleaf.2 hn hv (hi n (by simp [targetNode, hsp, hpn, hf])) hd (env.time 0)
      (fun i => (Inode.SameShape.decLinks i).trans (Inode.SameShape.touch _ _)) fun i => ⟨rfl, rfl, rfl, rfl⟩) ?_
    rintro rc v' ⟨inv', ⟨h0, hdrop, -⟩ | hr⟩
    · exact ⟨inv', .inl ⟨h0, parent, leaf, p, n, env.time 1, hsp, hpn, hf, hv, by rw [node_inode]; exact hd, hdrop⟩⟩
    · exact ⟨inv', .inr hr⟩

end
end PureUnix.Ext2
