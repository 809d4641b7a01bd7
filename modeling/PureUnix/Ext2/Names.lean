import PureUnix.Ext2.Calls

/-!
# Adding and moving names

`ext2_link` and `ext2_rename` (write.c:217-320) on the graph of nodes. Rename first removes what the new
name stands for, which may be the very directory it then takes the old name out of; so what it holds on
to between its steps is only that a number stands for a directory or for a wiped slot (`Node.Steps`).
-/
namespace PureUnix.Ext2

open Lib Function
open Store

/-- What a step may do to a node whose number a call holds: wipe it, or keep its kind. -/
structure Node.Steps (m m' : Node) : Prop where
  dead : m.inode.Dead → m'.inode.Dead
  kind : m'.inode.Dead ∨ (m'.used = m.used ∧ m'.inode.isDir = m.inode.isDir)

/-- The same for every node. -/
def Graph.Steps (g g' : Graph) : Prop := ∀ j, (g j).Steps (g' j)

namespace Graph.Steps
variable {g g' g'' : Graph} {p n : Nat}

theorem refl (g : Graph) : g.Steps g := fun _ => ⟨id, .inr ⟨rfl, rfl⟩⟩

theorem trans (h : g.Steps g') (h' : g'.Steps g'') : g.Steps g'' := by
  intro j
  refine ⟨(h' j).dead ∘ (h j).dead, ?_⟩
  rcases (h' j).kind with hd | ⟨hu, hd⟩
  · exact .inl hd
  · rcases (h j).kind with hd' | ⟨hu', hd'⟩
    · exact .inl ((h' j).dead hd')
    · exact .inr ⟨hu.trans hu', hd.trans hd'⟩

theorem update {m : Node} (hm : (g n).Steps m) : g.Steps (update g n m) := by
  intro j
  by_cases hj : j = n
  · subst hj; rw [update_self]; exact hm
  · rw [update_of_ne hj]; exact refl g j

theorem wiped (g : Graph) (n : Nat) : g.Steps (Function.update g n (Node.free Inode.empty)) :=
  update ⟨fun _ => Inode.dead_empty, .inl Inode.dead_empty⟩

theorem withInode {i : Inode} (hs : (g n).inode.SameShape i) : g.Steps (Function.update g n ((g n).withInode i)) :=
  update ⟨hs.dead, .inr ⟨rfl, hs.isDir⟩⟩

theorem adjust (L : Layout) {f : Inode → Inode} (hf : ∀ i : Inode, i.SameShape (f i)) : g.Steps (adjustNode L g p f) := by
  unfold adjustNode
  split
  · exact withInode (hf _)
  · exact refl g

theorem inserts {e : Dent} (h : Inserts g p e g') : g.Steps g' := by
  obtain ⟨i', es, vs, rfl, hm, -⟩ := h.node
  refine update ⟨fun hd => ?_, .inr ⟨h.used.symm, ?_⟩⟩
  · have := h.isDir
    rw [hd.2.1] at this
    cases this
  · unfold Inode.isDir; rw [hm]

theorem removes {name : Text} (h : Removes g p name g') : g.Steps g' := by
  obtain ⟨now, rfl⟩ := h.node
  have hs := Inode.SameShape.touch (g p).inode now
  exact update ⟨hs.dead, .inr ⟨h.used.symm, hs.isDir⟩⟩

theorem dropped {L : Layout} {leaf : Text} {directory : Bool} {adjust stamp : Inode → Inode}
    (ha : ∀ i : Inode, i.SameShape (adjust i)) (hst : ∀ i : Inode, i.SameShape (stamp i))
    (h : Dropped L g p n leaf directory adjust stamp g') : g.Steps g' := by
  obtain ⟨g₁, hr, -, rfl⟩ := h
  refine (removes hr).trans ?_
  unfold dropNode
  split
  · exact (wiped g₁ n).trans (.adjust L ha)
  unfold Node.dropName
  split
  · split
    · exact wiped g₁ n
    · rw [update_eq_self]; exact refl g₁
  · exact withInode ((hr.inode_shape n).2.1.trans ((Inode.SameShape.decLinks _).trans (hst _)))

end Graph.Steps

section
variable {aware full : Bool} {L : Layout} {v v' : Store} {env : Env} {p n : Nat} {leaf : Text}

theorem Named.steps (hn : Named L v n) (hs : Graph.Steps (v.node L) (v'.node L)) : Named L v' n := by
  obtain ⟨hd, hk⟩ := hs n
  rw [node_inode, node_inode] at hd
  rw [node_inode, node_used, node_used] at hk
  refine ⟨hn.range, fun hv => ?_⟩
  rcases hn.slot hv with hu | hx
  · exact hk.symm.imp (fun hk => hk.1.trans hu) id
  · exact .inr (hd hx)

theorem DirSlot.steps (hp : DirSlot L v p) (hs : Graph.Steps (v.node L) (v'.node L)) : DirSlot L v' p := by
  obtain ⟨hd, hk⟩ := hs p
  rw [node_inode, node_inode] at hd
  rw [node_inode, node_inode, node_used, node_used] at hk
  refine ⟨hp.range, fun hv => ?_⟩
  rcases hp.slot hv with ⟨hu, hdir⟩ | hx
  · exact hk.symm.imp (fun hk => ⟨hk.1.trans hu, hk.2.trans hdir⟩) id
  · exact .inr (hd hx)

/-! ## `ext2_link` -/

/-- A second name has been entered for what `oldPath` names. -/
def Linked (g : Graph) (oldPath newPath : Text) (g' : Graph) : Prop :=
  ∃ n parent leaf p ft g₁, ∃ now : UInt32, pathNode g oldPath = some n ∧ (g n).inode.isDir = false ∧
    splitParentLeaf newPath = some (parent, leaf) ∧ pathNode g parent = some p ∧ (g p).find leaf = none ∧
    Inserts g p ⟨leaf, n, ft⟩ g₁ ∧
    g' = update g₁ n ((g₁ n).withInode { (g n).inode.incLinks with iCtime := now })

/-- The insertion that `ext2_link` makes loses a block. -/
def LinkLoses (L : Layout) (v : Store) (oldPath newPath : Text) : Prop :=
  ∃ n parent leaf p, pathNode (v.node L) oldPath = some n ∧ L.ValidIno n ∧ (v.inode n).isDir = false ∧
    splitParentLeaf newPath = some (parent, leaf) ∧ pathNode (v.node L) parent = some p ∧ (v.node L p).find leaf = none ∧
    InsertLoses L v 0 p leaf

/-- **`ext2_link`** on any two paths. -/
theorem FsInv.wp_link (h : L.Ok) (inv : FsInv aware full L v) (env : Env) (oldPath newPath : Text)
    (hl : full = true → ¬ LinkLoses L v oldPath newPath) :
    wp (step L) (link L.fs env oldPath newPath) (fun rc v' => FsInv aware full L v' ∧
      ((rc = 0 ∧ Linked (v.node L) oldPath newPath (v'.node L)) ∨ (rc ≠ 0 ∧ v'.node L = v.node L))) v := by
  unfold link
  rw [if_neg h.isMounted]
  obtain ⟨hpath, hnamed⟩ := inv.run_pathToInode h oldPath
  refine wp_seq_run hpath ?_
  cases hon : pathNode (v.node L) oldPath with
  | none => exact ⟨inv, .inr ⟨show -ENOENT ≠ 0 by decide, rfl⟩⟩
  | some n =>
    have hn := hnamed n hon
    refine PastReads.wp.inode (fun _ => ⟨inv, .inr ⟨show (- EIO) ≠ 0 by decide, rfl⟩⟩) fun hv => ?_
    refine wp_ite (fun _ => ⟨inv, .inr ⟨show -EPERM ≠ 0 by decide, rfl⟩⟩) fun hd => ?_
    have hd : (v.inode n).isDir = false := by simpa using hd
    refine inv.at_parent .wp h ⟨inv, .inr ⟨show -ENOENT ≠ 0 by decide, rfl⟩⟩ fun {parent leaf p} hsp hpn hleaf hp => ?_
    cases hf : (v.node L p).find leaf with
    | some e => exact ⟨inv, .inr ⟨show -EEXIST ≠ 0 by decide, rfl⟩⟩
    | none =>
      refine wp_seq (inv.wp_dirInsert h hp ⟨hleaf.1, by omega⟩ hn _ (env.time 0)
        fun hfull hlose => hl hfull ⟨n, parent, leaf, p, hon, hv, hd, hsp, hpn, hf, hlose⟩) ?_
      rintro r v₁ ⟨inv₁, ⟨rfl, hins, -⟩ | ⟨rfl, hsame, -⟩⟩
      swap
      · exact ⟨inv₁, .inr ⟨show -ENOSPC ≠ 0 by decide, hsame⟩⟩
      -- the directory that took the entry is not the file itself, so its record is the one that was read
      have hino : v₁.inode n = v.inode n := by
        have hne : n ≠ p := by
          rintro rfl
          have := hins.isDir
          rw [node_inode, hd] at this
          cases this
        obtain ⟨i', es, vs, hg, -⟩ := hins.node
        rw [← node_inode, hg, update_of_ne hne, node_inode]
      refine wp_seq_run (Drv.run_writeInode hv) ?_
      have hs : (v₁.inode n).SameShape { (v.inode n).incLinks with iCtime := env.time 1 } := by
        rw [hino]; exact ⟨rfl, rfl, rfl, rfl⟩
      obtain ⟨inv₂, hnode⟩ := inv₁.restamp hs
      refine ⟨inv₂, .inl ⟨rfl, n, parent, leaf, p, _, _, env.time 1, hon, ?_, hsp, hpn, hf, hins, ?_⟩⟩
      · rw [node_inode]; exact hd
      · rw [node_inode]; exact hnode

/-! ## `ext2_rename` -/

/-- What `ext2_dir_set_parent` did to the directory `n`. -/
def Reparents (g : Graph) (n parent : Nat) (g' : Graph) : Prop :=
  ((g n).used = true ∧ (g n).inode.isDir = true ∧ g' = update g n
    ⟨true, (g n).inode, (g n).ents.replaceF (reparent parent), (g n).vis.replaceF (reparent parent), []⟩) ∨
  (g' = g ∧ ∀ e ∈ (g n).ents, e.name ≠ dotdotName)

/-- The name `oldLeaf` of `n` in `po` has become `newLeaf` in `pn`. -/
def MovedEntry (L : Layout) (g : Graph) (directory : Bool) (po pn n : Nat) (oldLeaf newLeaf : Text) (g' : Graph) : Prop :=
  ∃ ft g₁ g₂, Inserts g pn ⟨newLeaf, n, ft⟩ g₁ ∧ Removes g₁ po oldLeaf g₂ ∧
    if directory = true ∧ po ≠ pn then
      ∃ g₃, Reparents g₂ n pn g₃ ∧ g' = adjustNode L (adjustNode L g₃ po Inode.decLinks) pn Inode.incLinks
    else g' = g₂

/-- The move failed: nothing happened, or the new name stands and the old one was not there any more. -/
def HalfMoved (g : Graph) (po pn n : Nat) (oldLeaf newLeaf : Text) (g' : Graph) : Prop :=
  g' = g ∨ ∃ ft, Inserts g pn ⟨newLeaf, n, ft⟩ g' ∧ ∀ e ∈ (g' po).ents, e.name ≠ oldLeaf

/-- The second half of `ext2_rename`. -/
theorem FsInv.wp_renameMove (h : L.Ok) (inv : FsInv aware full L v) {po pn : Nat} {oldLeaf newLeaf : Text} (i : Inode)
    (hpo : DirSlot L v po) (hpn : Named L v pn) (hn : Named L v n) (hd : i.isDir = true → DirSlot L v n)
    (ho : oldLeaf.length < 64) (hnew : 0 < newLeaf.length ∧ newLeaf.length < 64)
    (hl : full = true → ¬ InsertLoses L v 0 pn newLeaf) :
    wp (step L) (renameMove L.fs env i po pn n oldLeaf newLeaf) (fun rc v' => FsInv aware full L v' ∧
      ((rc = 0 ∧ MovedEntry L (v.node L) i.isDir po pn n oldLeaf newLeaf (v'.node L)) ∨
       (rc ≠ 0 ∧ HalfMoved (v.node L) po pn n oldLeaf newLeaf (v'.node L)))) v := by
  refine wp_seq (inv.wp_dirInsert h hpn ⟨hnew.1, by omega⟩ hn _ (env.time 1) hl) ?_
  rintro r v₁ ⟨inv₁, ⟨rfl, hins, -⟩ | ⟨rfl, hsame, -⟩⟩
  swap
  · exact ⟨inv₁, .inr ⟨show -ENOSPC ≠ 0 by decide, .inl hsame⟩⟩
  have hs₁ := Graph.Steps.inserts hins
  refine wp_seq (inv₁.wp_dirRemove h (hpo.steps hs₁) (by omega) (env.time 2)) ?_
  rintro r v₂ ⟨inv₂, ⟨rfl, hrem, -⟩ | ⟨rfl, rfl, hno⟩⟩
  swap
  · exact ⟨inv₂, .inr ⟨show (- EIO) ≠ 0 by decide, .inr ⟨_, hins, hno⟩⟩⟩
  rw [if_pos rfl]
  refine wp_ite (fun hc => ?_) fun hc => ?_
  swap
  · exact ⟨inv₂, .inl ⟨rfl, _, _, _, hins, hrem, by rw [if_neg hc]; rfl⟩⟩
  have hs₂ := hs₁.trans (Graph.Steps.removes hrem)
  refine wp_seq (inv₂.wp_dirSetParent ((hd hc.1).steps hs₂) (hpn.steps hs₂)) ?_
  rintro - v₃ ⟨inv₃, hrep⟩
  have hrep : Reparents (v₂.node L) n pn (v₃.node L) := by
    rcases hrep with ⟨hu, hdir, hnode⟩ | ⟨rfl, hno⟩
    · refine .inl ⟨by rw [node_used]; exact hu, by rw [node_inode]; exact hdir, ?_⟩
      rw [node_inode]; exact hnode
    · exact .inr ⟨rfl, hno⟩
  refine wp_seq (inv₃.wp_updateInode Inode.SameShape.decLinks) ?_
  rintro - v₄ ⟨inv₄, h4, -⟩
  refine wp_seq (inv₄.wp_updateInode Inode.SameShape.incLinks) ?_
  rintro - v₅ ⟨inv₅, h5, -⟩
  refine ⟨inv₅, .inl ⟨rfl, _, _, _, hins, hrem, ?_⟩⟩
  rw [if_pos hc]
  exact ⟨_, hrep, h5.trans (by rw [h4])⟩

/-- What the paths of a rename stand for. -/
structure RenameEnds (L : Layout) (g : Graph) (oldPath newPath : Text) (po pn n : Nat) (oldLeaf newLeaf : Text) :
    Prop where
  old : ∃ oldParent, splitParentLeaf oldPath = some (oldParent, oldLeaf) ∧ pathNode g oldParent = some po
  new : ∃ newParent, splitParentLeaf newPath = some (newParent, newLeaf) ∧ pathNode g newParent = some pn
  found : (g po).find oldLeaf = some n
  valid : L.ValidIno n

/-- The graph in which `ext2_rename` moves the entry: what stood under the new name has gone. -/
def Cleared (L : Layout) (g : Graph) (directory : Bool) (pn n : Nat) (newLeaf : Text) (g' : Graph) : Prop :=
  ((g pn).find newLeaf = none ∧ g' = g) ∨
  ∃ m, (g pn).find newLeaf = some m ∧ m ≠ n ∧ L.ValidIno m ∧ (g m).inode.isDir = directory ∧
    Dropped L g pn m newLeaf directory Inode.decLinks id g'

/-- The outcomes of `ext2_rename` on the graph. -/
inductive Renamed (L : Layout) (g : Graph) (oldPath newPath : Text) : Int → Graph → Prop
  | refused {rc : Int} : rc ≠ 0 → Renamed L g oldPath newPath rc g
  | same {po pn n : Nat} {oldLeaf newLeaf : Text} : RenameEnds L g oldPath newPath po pn n oldLeaf newLeaf →
      (g pn).find newLeaf = some n → Renamed L g oldPath newPath 0 g
  | moved {po pn n : Nat} {oldLeaf newLeaf : Text} {g₁ g' : Graph} :
      RenameEnds L g oldPath newPath po pn n oldLeaf newLeaf → Cleared L g (g n).inode.isDir pn n newLeaf g₁ →
      MovedEntry L g₁ (g n).inode.isDir po pn n oldLeaf newLeaf g' → Renamed L g oldPath newPath 0 g'
  | half {po pn n : Nat} {oldLeaf newLeaf : Text} {g₁ g' : Graph} {rc : Int} : rc ≠ 0 →
      RenameEnds L g oldPath newPath po pn n oldLeaf newLeaf → Cleared L g (g n).inode.isDir pn n newLeaf g₁ →
      HalfMoved g₁ po pn n oldLeaf newLeaf g' → Renamed L g oldPath newPath rc g'

/-- The insertion that `ext2_rename` makes loses a block. A name that is taken leaves room for itself. -/
def RenameLoses (L : Layout) (v : Store) (oldPath newPath : Text) : Prop :=
  ∃ po pn n oldLeaf newLeaf, RenameEnds L (v.node L) oldPath newPath po pn n oldLeaf newLeaf ∧
    (v.node L pn).find newLeaf = none ∧ InsertLoses L v 0 pn newLeaf

/-- How `ext2_rename` begins: it finds out what the paths stand for. -/
theorem FsInv.rename_front {E : Drv Int → Prop} (past : PastReads L v E) (h : L.Ok) (inv : FsInv aware full L v) (env : Env)
    {oldPath newPath : Text}
    (hno : ∀ rc : Int, rc ≠ 0 → (∀ po pn n oldLeaf newLeaf, ¬ RenameEnds L (v.node L) oldPath newPath po pn n oldLeaf newLeaf) → E (pure rc))
    (hk : ∀ {po pn n oldLeaf newLeaf}, RenameEnds L (v.node L) oldPath newPath po pn n oldLeaf newLeaf → Named L v po → Named L v pn →
      oldLeaf.length < 64 → 0 < newLeaf.length ∧ newLeaf.length < 64 → E (match (v.node L pn).find newLeaf with
        | none => renameMove L.fs env (v.inode n) po pn n oldLeaf newLeaf
        | some m => if m = n then pure 0 else do
          let rc ← renameOver L.fs env (v.inode n).isDir pn m newLeaf
          if rc ≠ 0 then pure rc else renameMove L.fs env (v.inode n) po pn n oldLeaf newLeaf)) :
    E (rename L.fs env oldPath newPath) := by
  unfold rename
  rw [if_neg h.isMounted]
  cases hso : splitParentLeaf oldPath with
  | none =>
    refine hno _ (show -ENOENT ≠ 0 by decide) ?_
    rintro _ _ _ _ _ ⟨⟨_, hs, -⟩, _⟩
    simp [hso] at hs
  | some opl =>
    obtain ⟨oldParent, oldLeaf⟩ := opl
    cases hsn : splitParentLeaf newPath with
    | none =>
      refine hno _ (show -ENOENT ≠ 0 by decide) ?_
      rintro _ _ _ _ _ ⟨_, ⟨_, hs, -⟩, _⟩
      simp [hsn] at hs
    | some npl =>
      obtain ⟨newParent, newLeaf⟩ := npl
      obtain ⟨hro, hnamo⟩ := inv.run_pathToInode h oldParent
      obtain ⟨hrn, hnamn⟩ := inv.run_pathToInode h newParent
      have hol := splitParentLeaf_length hso
      have hnl := splitParentLeaf_length hsn
      refine past.seq hro ?_
      cases hpo : pathNode (v.node L) oldParent with
      | none =>
        refine hno _ (show -ENOENT ≠ 0 by decide) ?_
        rintro _ _ _ _ _ ⟨⟨_, hs, hp⟩, _⟩
        simp_all
      | some po =>
        refine past.seq hrn ?_
        cases hpn : pathNode (v.node L) newParent with
        | none =>
          refine hno _ (show -ENOENT ≠ 0 by decide) ?_
          rintro _ _ _ _ _ ⟨_, ⟨_, hs, hp⟩, _⟩
          simp_all
        | some pn =>
          refine past.seq (inv.run_dirLookup h (hnamo po hpo) (by omega)) ?_
          cases hfo : (v.node L po).find oldLeaf with
          | none =>
            refine hno _ (show -ENOENT ≠ 0 by decide) ?_
            rintro _ _ _ _ _ ⟨⟨_, hs, hp⟩, _, hf, _⟩
            simp_all
          | some n =>
            refine past.inode (fun hv => hno _ (show (- EIO) ≠ 0 by decide) ?_) fun hv => ?_
            · rintro _ _ _ _ _ ⟨⟨_, hs, hp⟩, _, hf, hv'⟩
              simp_all
            · refine past.seq (inv.run_dirLookup h (hnamn pn hpn) (by omega)) ?_
              exact hk ⟨⟨_, hso, hpo⟩, ⟨_, hsn, hpn⟩, hfo, hv⟩ (hnamo po hpo) (hnamn pn hpn) hol.2 hnl

/-- **`ext2_rename`** on any two paths; what it frees must not be a fast symbolic link if these are told apart. -/
theorem FsInv.wp_rename (h : L.Ok) (inv : FsInv aware full L v) (env : Env) (oldPath newPath : Text)
    (hi : ∀ m, targetNode (v.node L) newPath = some m → (v.inode m).inline aware = false)
    (hl : full = true → ¬ RenameLoses L v oldPath newPath) :
    wp (step L) (rename L.fs env oldPath newPath) (fun rc v' => FsInv aware full L v' ∧
      Renamed L (v.node L) oldPath newPath rc (v'.node L)) v := by
  have refuse : ∀ e : Int, e ≠ 0 → FsInv aware full L v ∧ Renamed L (v.node L) oldPath newPath e (v.node L) :=
    fun e he => ⟨inv, .refused he⟩
  refine inv.rename_front .wp h env (fun rc hrc _ => refuse rc hrc) fun {po pn n oldLeaf newLeaf} ends npo npn hol hnl => ?_
  have hn := inv.find_named ends.found
  have spo := npo.dirSlot_of_find ends.found
  obtain ⟨_, hsn, hpn⟩ := ends.new
  -- the move itself, from the state in which the new name is free
  have move : ∀ v₁ : Store, FsInv aware full L v₁ →
      Cleared L (v.node L) (v.inode n).isDir pn n newLeaf (v₁.node L) → Graph.Steps (v.node L) (v₁.node L) →
      (full = true → ¬ InsertLoses L v₁ 0 pn newLeaf) →
      wp (step L) (renameMove L.fs env (v.inode n) po pn n oldLeaf newLeaf) (fun rc v' =>
        FsInv aware full L v' ∧ Renamed L (v.node L) oldPath newPath rc (v'.node L)) v₁ := by
    intro v₁ inv₁ hclear hs hlose
    refine wp_mono (inv₁.wp_renameMove h (v.inode n) (spo.steps hs) (npn.steps hs) (hn.steps hs)
      (fun hd => (hn.dirSlot hd).steps hs) hol hnl hlose) ?_
    rintro rc v' ⟨inv', ⟨rfl, hm⟩ | ⟨hrc, hm⟩⟩
    · exact ⟨inv', .moved ends (by rw [node_inode]; exact hclear) (by rw [node_inode]; exact hm)⟩
    · exact ⟨inv', .half hrc ends (by rw [node_inode]; exact hclear) hm⟩
  cases hfn : (v.node L pn).find newLeaf with
  | none =>
    exact move v inv (.inl ⟨hfn, rfl⟩) (.refl _) fun hf hlose => hl hf ⟨po, pn, n, oldLeaf, newLeaf, ends, hfn, hlose⟩
  | some m =>
    dsimp only
    refine wp_ite (fun hmn => ⟨inv, .same ends (by rw [hfn, hmn])⟩) fun hmn => ?_
    have hm := inv.find_named hfn
    have spn := npn.dirSlot_of_find hfn
    have hover : wp (step L) (renameOver L.fs env (v.inode n).isDir pn m newLeaf) (fun rc v₁ =>
        FsInv aware full L v₁ ∧
        ((rc = 0 ∧ Cleared L (v.node L) (v.inode n).isDir pn n newLeaf (v₁.node L) ∧ Graph.Steps (v.node L) (v₁.node L) ∧
            ¬ InsertLoses L v₁ 0 pn newLeaf) ∨ (rc ≠ 0 ∧ v₁ = v))) v := by
      unfold renameOver
      by_cases hvm : L.ValidIno m
      swap
      · refine wp_seq_run (Drv.run_readInode_invalid hvm) ?_
        exact ⟨inv, .inr ⟨show (- EIO) ≠ 0 by decide, rfl⟩⟩
      refine wp_seq_run (Drv.run_readInode hvm) ?_
      refine wp_ite (fun _ => ⟨inv, .inr ⟨?_, rfl⟩⟩) fun hkind => ?_
      · split
        · exact show -EISDIR ≠ 0 by decide
        · exact show -ENOTDIR ≠ 0 by decide
      have hkind : (v.inode m).isDir = (v.inode n).isDir := not_not.1 hkind
      refine wp_mono (inv.wp_dropEntry h spn hnl.2 hm hvm (hi m (by simp [targetNode, hsn, hpn, hfn])) rfl (env.time 0) .decLinks .refl) ?_
      rintro rc v₁ ⟨inv₁, ⟨h0, hdrop, hroom⟩ | hr⟩
      · rw [hkind] at hdrop
        obtain ⟨e, he, hname, -⟩ := Node.find_mem hfn
        refine ⟨inv₁, .inl ⟨h0, .inr ⟨m, hfn, hmn, hvm, ?_, hdrop⟩, .dropped .decLinks .refl hdrop, hroom ⟨e, he, hname⟩⟩⟩
        rw [node_inode]; exact hkind
      · exact ⟨inv₁, .inr hr⟩
    refine wp_seq hover ?_
    rintro rc v₁ ⟨inv₁, ⟨h0, hclear, hs, hkeeps⟩ | ⟨hrc, rfl⟩⟩
    · rw [if_neg (by rw [h0]; decide)]
      exact move v₁ inv₁ hclear hs fun _ => hkeeps
    · rw [if_pos hrc]
      exact refuse rc hrc

end
end PureUnix.Ext2
