import PureUnix.Ext2.SampleDir

/-!
# Directories as finite maps

`WellFormed` is a directory of at most 12 + 256 tiled blocks with distinct live names. `DirContract`
is what a caller expects of the five operations on it: they implement a finite map from names to
inode numbers and file types. `dir_contract_iff` says when they do, for one directory and one name.

Two inputs break the contract. Insertion into a full directory of 268 blocks grows it to 269 when
blocks are larger than 1 KiB, and lookup never reads the last one; enumeration passes over an entry
with an empty name.
-/
namespace PureUnix.Ext2
open Lib List Nat

variable {k : Nat} {buf : Buf} {i' : Inode}

structure WellFormed (L : Layout) (v : Store) (ino : Nat) : Prop where
  dir : DirAt L v ino
  used : ∀ b ∈ (v.inode ino).blockRefs L.blockSize v.data, v.blockUsed b = true
  blocks : (v.inode ino).iSize.toNat / L.blockSize ≤ 12 + 256
  names : ((v.ents L ino).map Dent.name).Nodup

/-- The callback that collects what it is given and never stops. -/
def collect (e : VfsDirent) (l : List VfsDirent) : Bool × List VfsDirent := (false, l ++ [e])

/-- The five operations on directory `ino` of disk `d` act as a finite map, at `name`. -/
structure DirContract (L : Layout) (d : Disk) (ino : Nat) (name : Text) (n : Nat) (ft : UInt8) (now : UInt32) :
    Prop where
  insert : (∀ e ∈ (d.store L).ents L ino, e.name ≠ name) → (d.exec L (dirInsert L.fs ino name n ft now)).1 = true →
    WellFormed L ((d.exec L (dirInsert L.fs ino name n ft now)).2.store L) ino ∧
    (((d.exec L (dirInsert L.fs ino name n ft now)).2.store L).ents L ino).Perm (⟨name, n, ft⟩ :: (d.store L).ents L ino)
  remove : ∀ e ∈ (d.store L).ents L ino, e.name = name → (d.exec L (dirRemove L.fs ino name now)).1 = true ∧
    WellFormed L ((d.exec L (dirRemove L.fs ino name now)).2.store L) ino ∧
    ((d.store L).ents L ino).Perm (e :: ((d.exec L (dirRemove L.fs ino name now)).2.store L).ents L ino)
  lookup : (∀ e ∈ (d.store L).ents L ino, e.name = name → (d.exec L (dirLookup L.fs ino name)).1 = some e.ino) ∧
    ((∀ e ∈ (d.store L).ents L ino, e.name ≠ name) → (d.exec L (dirLookup L.fs ino name)).1 = none)
  readdir : ∃ l, (d.exec L (readdirIno L.fs ino collect [])).1 = (0, l) ∧
    l.Perm (((d.store L).ents L ino).map (reportOf L (d.store L)))
  isEmpty : (d.exec L (dirIsEmpty L.fs ino)).1 = true ↔ ∀ e ∈ (d.store L).ents L ino, e.name = dotName ∨ e.name = dotdotName

/-- No empty names; and the name is there already, or fits into the blocks there are, or there is room for
one more block below 268, or no block to be had. -/
def DirFits (L : Layout) (v : Store) (ino : Nat) (name : Text) : Prop :=
  (∀ e ∈ v.ents L ino, e.name ≠ []) ∧
  ((∃ e ∈ v.ents L ino, e.name = name) ∨ ¬ NoRoom L v ino (align4 (8 + name.length)) ∨
    (v.inode ino).iSize.toNat / L.blockSize < 12 + 256 ∨ ¬ CanGrow L v ino)

section
variable {L : Layout} {v v' : Store} {ino : Nat} {l : List Dent} {e : Dent}

/-- Below 268 blocks lookup sees everything. -/
theorem vis_eq_ents (h : L.Ok) (hb : (v.inode ino).iSize.toNat / L.blockSize ≤ 12 + 256) : v.vis L ino = v.ents L ino := by
  have hc : iterCap L.blockSize = 12 + 256 := by
    rcases h.blockSize with e | e | e <;> rw [e] <;> rfl
  rw [Store.vis, Store.ents, Inode.visibleEntries, Inode.dirEntries, hc, min_eq_left hb]

theorem EditedAt.wellFormed (he : EditedAt L v ino k buf i' v')
    (hw : WellFormed L v ino) (hn : ((v'.ents L ino).map Dent.name).Nodup) : WellFormed L v' ino := by
  refine ⟨he.dirAt hw.dir, ?_, by rw [he.size_eq]; exact hw.blocks, hn⟩
  rw [he.blockRefs_eq hw.dir.map]
  intro b hb
  rw [he.eq]
  exact hw.used b hb

theorem EditedAt.wild (he : EditedAt L v ino k buf i' v') : v'.wild = v.wild := by
  rw [he.eq]; rfl

theorem nodup_names_cons {l' : List Dent} (hp : l'.Perm (e :: l)) (hn : (l.map Dent.name).Nodup)
    (hnew : ∀ x ∈ l, x.name ≠ e.name) : (l'.map Dent.name).Nodup := by
  rw [(hp.map Dent.name).nodup_iff, map_cons, nodup_cons]
  refine ⟨fun hmem => ?_, hn⟩
  obtain ⟨x, hx, he⟩ := mem_map.1 hmem
  exact hnew x hx he

theorem perm_eraseP_name (hn : (l.map Dent.name).Nodup) (he : e ∈ l) : l.Perm (e :: l.eraseP fun d => d.name = e.name) := by
  induction l with
  | nil => cases he
  | cons x l ih =>
    rw [map_cons, nodup_cons] at hn
    rcases mem_cons.1 he with rfl | he
    · rw [eraseP_cons_of_pos (by simp)]
    · have hne : ¬ x.name = e.name := fun h => hn.1 (h ▸ mem_map_of_mem he)
      rw [eraseP_cons_of_neg (by simpa using hne)]
      exact ((ih hn.2 he).cons x).trans (List.Perm.swap _ _ _)

theorem find?_name (hn : (l.map Dent.name).Nodup) (he : e ∈ l) : l.find? (fun d => d.name = e.name) = some e := by
  induction l with
  | nil => cases he
  | cons x l ih =>
    rw [map_cons, nodup_cons] at hn
    rcases mem_cons.1 he with rfl | he
    · rw [find?_cons_of_pos (by simp)]
    · have hne : ¬ x.name = e.name := fun h => hn.1 (h ▸ mem_map_of_mem he)
      rw [find?_cons_of_neg (by simpa using hne), ih hn.2 he]

theorem foldl_collect (l s : List VfsDirent) : l.foldl (fun s e => (collect e s).2) s = s ++ l := by
  induction l generalizing s with
  | nil => simp
  | cons e l ih => rw [foldl_cons, ih]; simp [collect]

theorem reports_perm_iff : (reports L v l).Perm (l.map (reportOf L v)) ↔ ∀ e ∈ l, e.name ≠ [] := by
  unfold reports
  constructor
  · intro hp e he hnil
    have hlen := hp.length_eq
    rw [length_map, length_map] at hlen
    have := length_filter_eq_length_iff.1 hlen e he
    simp [hnil] at this
  · intro hall
    rw [filter_eq_self.2 fun e he => by simpa using hall e he]

end

section
variable {L : Layout} (h : L.Ok) {d : Disk} (hd : L.Mounted d) {ino : Nat} (hm : (d.store L).MetaUsed L)
  (hw : WellFormed L (d.store L) ino) {name : Text} (hn : 0 < name.length ∧ name.length < 256) {n : Nat}
  (hi : n ≠ 0 ∧ n < 4294967296) {ft : UInt8} {now : UInt32}
include h hd hw

theorem exec_dirInsert (hm : (d.store L).MetaUsed L) (hn : 0 < name.length ∧ name.length < 256)
    (hi : n ≠ 0 ∧ n < 4294967296) (hok : (d.exec L (dirInsert L.fs ino name n ft now)).1 = true) :
    (∃ k buf, EditedAt L (d.store L) ino k buf (((d.store L).inode ino).touch now)
        ((d.exec L (dirInsert L.fs ino name n ft now)).2.store L) ∧
      Inserted ⟨name, n, ft⟩ ((d.store L).ents L ino) (((d.exec L (dirInsert L.fs ino name n ft now)).2.store L).ents L ino) ∧
      ¬ NoRoom L (d.store L) ino (align4 (8 + name.length))) ∨
    (NoRoom L (d.store L) ino (align4 (8 + name.length)) ∧ CanGrow L (d.store L) ino ∧
      GrownBy L (d.store L) ino ⟨name, n, ft⟩ now ((d.exec L (dirInsert L.fs ino name n ft now)).2.store L)) := by
  rcases run_dirInsert h hw.dir ft now hn hi with
    ⟨hno, hrun⟩ | ⟨hroom, v', k, buf, hrun, he, hins, -⟩
  · rcases run_growDir h hw.dir hm hw.used ft now hn.2 hi with
      ⟨-, hg⟩ | ⟨g, b, hb, -, hg⟩ | ⟨v', hg, hgrown⟩
    · obtain ⟨h1, -⟩ := exec_of_run h hd (hrun.trans hg) rfl
      rw [h1] at hok; cases hok
    · obtain ⟨hbd, -, -⟩ := (d.store L).nextBlock_spec h hm hb
      obtain ⟨h1, -⟩ := exec_of_run h hd (hrun.trans hg) (by simp [Store.takeBlock, hbd, Disk.store])
      rw [h1] at hok; cases hok
    · obtain ⟨-, -, h3⟩ := exec_of_run h hd (hrun.trans hg) (hgrown.wild.trans rfl)
      rw [h3]
      exact .inr ⟨hno, hgrown.canGrow, hgrown⟩
  · obtain ⟨-, -, h3⟩ := exec_of_run h hd hrun (he.wild.trans rfl)
    rw [h3]
    exact .inl ⟨k, buf, he, hins, hroom⟩

/-- Insertion does what the map says unless it grows a directory of 268 blocks. -/
theorem insert_ok (hm : (d.store L).MetaUsed L) (hn : 0 < name.length ∧ name.length < 256)
    (hi : n ≠ 0 ∧ n < 4294967296) (hnew : ∀ e ∈ (d.store L).ents L ino, e.name ≠ name)
    (hfit : ¬ NoRoom L (d.store L) ino (align4 (8 + name.length)) ∨
      ((d.store L).inode ino).iSize.toNat / L.blockSize < 12 + 256 ∨ ¬ CanGrow L (d.store L) ino)
    (hok : (d.exec L (dirInsert L.fs ino name n ft now)).1 = true) :
    WellFormed L ((d.exec L (dirInsert L.fs ino name n ft now)).2.store L) ino ∧
    (((d.exec L (dirInsert L.fs ino name n ft now)).2.store L).ents L ino).Perm (⟨name, n, ft⟩ :: (d.store L).ents L ino) := by
  rcases exec_dirInsert h hd hw hm hn hi hok with ⟨k, buf, he, hins, -⟩ | ⟨hno, hcan, hg⟩
  · exact ⟨he.wellFormed hw (nodup_names_cons hins.perm hw.names hnew), hins.perm⟩
  · have hlt : ((d.store L).inode ino).iSize.toNat / L.blockSize < 12 + 256 := by
      rcases hfit with hf | hf | hf
      · exact absurd hno hf
      · exact hf
      · exact absurd hcan hf
    have hp : (((d.exec L (dirInsert L.fs ino name n ft now)).2.store L).ents L ino).Perm
        (⟨name, n, ft⟩ :: (d.store L).ents L ino) := by
      rw [hg.ents]; exact perm_append_singleton _ _
    refine ⟨⟨hg.dirAt, hg.used, ?_, nodup_names_cons hp hw.names hnew⟩, hp⟩
    rw [hg.size, add_div_right _ h.bs_pos]
    omega

variable (name n ft now) in
/-- **A directory that grows to 269 blocks** is no longer well-formed although insertion succeeded. -/
theorem insert_past_cap (hm : (d.store L).MetaUsed L) (hn : 0 < name.length ∧ name.length < 256)
    (hi : n ≠ 0 ∧ n < 4294967296) (hno : NoRoom L (d.store L) ino (align4 (8 + name.length)))
    (hfull : ((d.store L).inode ino).iSize.toNat / L.blockSize = 12 + 256) (hcan : CanGrow L (d.store L) ino) :
    (d.exec L (dirInsert L.fs ino name n ft now)).1 = true ∧
    ¬ WellFormed L ((d.exec L (dirInsert L.fs ino name n ft now)).2.store L) ino := by
  rcases run_dirInsert (v := d.store L) h hw.dir ft now hn hi with
    ⟨-, hrun⟩ | ⟨hroom, -⟩
  · rcases run_growDir (v := d.store L) h hw.dir hm hw.used ft now hn.2 hi with
      ⟨hnone, -⟩ | ⟨g, b, hb, hcant, -⟩ | ⟨v', hg, hgrown⟩
    · obtain ⟨g, b, hb, -⟩ := hcan
      rw [hnone] at hb; cases hb
    · obtain ⟨g', b', hb', hadd⟩ := hcan
      rw [hb] at hb'
      cases hb'
      exact absurd hadd hcant
    · obtain ⟨h1, -, h3⟩ := exec_of_run h hd (hrun.trans hg) (hgrown.wild.trans rfl)
      refine ⟨h1, fun hwf => ?_⟩
      have := hwf.blocks
      rw [h3, hgrown.size, add_div_right _ h.bs_pos] at this
      omega
  · exact absurd hno hroom

theorem remove_ok (hn : name.length < 256) {e : Dent} (hmem : e ∈ (d.store L).ents L ino) (he : e.name = name) :
    (d.exec L (dirRemove L.fs ino name now)).1 = true ∧
    WellFormed L ((d.exec L (dirRemove L.fs ino name now)).2.store L) ino ∧
    ((d.store L).ents L ino).Perm (e :: ((d.exec L (dirRemove L.fs ino name now)).2.store L).ents L ino) := by
  subst he
  rcases run_dirRemove h hw.dir now hn with ⟨-, hall⟩ | ⟨v', k, buf, hrun, hed, -, hents, -⟩
  · exact absurd rfl (hall e hmem)
  · obtain ⟨h1, -, h3⟩ := exec_of_run h hd hrun (hed.wild.trans rfl)
    have hp := perm_eraseP_name hw.names hmem
    rw [h1, h3, hents]
    refine ⟨rfl, hed.wellFormed hw ?_, hp⟩
    rw [hents]
    have := (hp.map Dent.name).nodup_iff.1 hw.names
    rw [map_cons, nodup_cons] at this
    exact this.2

theorem lookup_ok (hn : name.length < 256) :
    (∀ e ∈ (d.store L).ents L ino, e.name = name → (d.exec L (dirLookup L.fs ino name)).1 = some e.ino) ∧
    ((∀ e ∈ (d.store L).ents L ino, e.name ≠ name) → (d.exec L (dirLookup L.fs ino name)).1 = none) := by
  obtain ⟨h1, -⟩ := exec_of_run h hd (run_dirLookup h hw.dir hn) rfl
  rw [h1, vis_eq_ents h hw.blocks]
  constructor
  · rintro e he rfl
    rw [find?_name hw.names he]
    rfl
  · intro hall
    rw [find?_eq_none.2 fun e he => by simpa using hall e he]
    rfl

theorem readdir_ok_iff : (∃ l, (d.exec L (readdirIno L.fs ino collect [])).1 = (0, l) ∧
      l.Perm (((d.store L).ents L ino).map (reportOf L (d.store L)))) ↔
    ∀ e ∈ (d.store L).ents L ino, e.name ≠ [] := by
  obtain ⟨h1, -⟩ := exec_of_run h hd (run_readdirIno collect (fun _ _ => rfl) h hw.dir []) rfl
  rw [h1, vis_eq_ents h hw.blocks, foldl_collect, ← reports_perm_iff]
  constructor
  · rintro ⟨l, hl, hp⟩
    cases hl
    exact hp
  · intro hp
    exact ⟨_, rfl, hp⟩

theorem isEmpty_ok : (d.exec L (dirIsEmpty L.fs ino)).1 = true ↔
    ∀ e ∈ (d.store L).ents L ino, e.name = dotName ∨ e.name = dotdotName := by
  obtain ⟨h1, -⟩ := exec_of_run h hd (run_dirIsEmpty hw.dir) rfl
  rw [h1, decide_eq_true_iff]

end

/-- **Directories are finite maps, and exactly when.** On a well-formed directory the five operations
implement a finite map at `name` if and only if no live entry has an empty name and insertion of
`name` would not grow a full directory beyond 268 blocks. -/
theorem dir_contract_iff {L : Layout} (h : L.Ok) {d : Disk} (hd : L.Mounted d) (hm : (d.store L).MetaUsed L) {ino : Nat}
    (hw : WellFormed L (d.store L) ino) {name : Text} (hn : 0 < name.length ∧ name.length < 256) {n : Nat}
    (hi : n ≠ 0 ∧ n < 4294967296) (ft : UInt8) (now : UInt32) :
    DirContract L d ino name n ft now ↔ DirFits L (d.store L) ino name := by
  constructor
  · intro hc
    refine ⟨(readdir_ok_iff h hd hw).1 hc.readdir, ?_⟩
    by_contra hfit
    simp only [not_or, not_not] at hfit
    obtain ⟨habs, hno, hblocks, hcan⟩ := hfit
    have hfull : ((d.store L).inode ino).iSize.toNat / L.blockSize = 12 + 256 := by
      have := hw.blocks
      omega
    obtain ⟨h1, h2⟩ := insert_past_cap h hd hw name n ft now hm hn hi hno hfull hcan
    exact h2 (hc.insert (fun e he hne => habs ⟨e, he, hne⟩) h1).1
  · rintro ⟨hnames, hfit⟩
    refine ⟨fun hnew hok => ?_, fun e he hne => remove_ok h hd hw hn.2 he hne, lookup_ok h hd hw hn.2,
      (readdir_ok_iff h hd hw).2 hnames, isEmpty_ok h hd hw⟩
    refine insert_ok h hd hw hm hn hi hnew (hfit.resolve_left ?_) hok
    rintro ⟨e, he, hne⟩
    exact hnew e he hne

/-! ### The full directory -/

theorem fullDir_wellFormed : WellFormed fullDirLayout (fullDirDisk.store fullDirLayout) 2 := by
  rw [fullDir_rel.2]
  refine ⟨fullDir_dirAt, fullDir_used, le_of_eq fullDir_nblocks, ?_⟩
  rw [fullDir_ents]
  exact nodup_nil

theorem fullDir_canGrow : CanGrow fullDirLayout fullDirStore 2 :=
  ⟨0, 274, fullDir_nextBlock, .inr ⟨by decide, .inl (by decide)⟩⟩

/-- A name of one letter fits into a slot of the full directory, so all five operations work. -/
theorem dir_contract_full_short : DirContract fullDirLayout fullDirDisk 2 [97] 12 EXT2_FT_REG_FILE 0 := by
  refine (dir_contract_iff fullDirLayout_ok fullDir_rel.1 ?_ fullDir_wellFormed (by decide) (by decide) _ _).2 ?_
  · rw [fullDir_rel.2]; exact fullDir_metaUsed
  · rw [fullDir_rel.2]
    refine ⟨?_, .inr (.inl fun hno => ?_)⟩
    · rw [fullDir_ents]; intro e he; cases he
    · have h0 : fullDirInode.blockAt 2048 fullDirStore.data 0 ≠ 0 := by rw [fullDir_blockAt]; decide
      refine hno 0 (by decide) h0 ⟨64, none⟩ ?_ (by decide)
      have := (fullDir_slots h0).2
      change _ ∈ recs 2048 (fullDirStore.data (fullDirInode.blockAt 2048 fullDirStore.data 0))
      rw [this]
      exact mem_replicate.2 ⟨by decide, rfl⟩

/-- A name of 63 letters does not: insertion succeeds, and the directory now has 269 blocks. -/
theorem full_dir_grows_past_cap : WellFormed fullDirLayout (fullDirDisk.store fullDirLayout) 2 ∧
    (∀ e ∈ (fullDirDisk.store fullDirLayout).ents fullDirLayout 2, e.name ≠ List.replicate 63 97) ∧
    (fullDirDisk.exec fullDirLayout (dirInsert fullDirLayout.fs 2 (List.replicate 63 97) 12 EXT2_FT_REG_FILE 0)).1 = true ∧
    ¬ DirContract fullDirLayout fullDirDisk 2 (List.replicate 63 97) 12 EXT2_FT_REG_FILE 0 := by
  have hs := fullDir_rel.2
  have hents : (fullDirDisk.store fullDirLayout).ents fullDirLayout 2 = [] := by rw [hs]; exact fullDir_ents
  have hnew : ∀ e ∈ (fullDirDisk.store fullDirLayout).ents fullDirLayout 2, e.name ≠ replicate 63 97 := by
    rw [hents]; intro e he; cases he
  obtain ⟨h1, h2⟩ := insert_past_cap fullDirLayout_ok fullDir_rel.1 fullDir_wellFormed (replicate 63 97) 12
    EXT2_FT_REG_FILE 0 (by rw [hs]; exact fullDir_metaUsed) (by decide) (by decide)
    (by rw [hs]; exact fullDir_noRoom (by decide)) (by rw [hs]; exact fullDir_nblocks) (by rw [hs]; exact fullDir_canGrow)
  exact ⟨fullDir_wellFormed, hnew, h1, fun hc => h2 (hc.insert hnew h1).1⟩

end PureUnix.Ext2
