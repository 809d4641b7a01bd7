import PureUnix.Ext2.Crowded
import PureUnix.Ext2.Shadow
import PureUnix.Ext2.Tidy

/-!
# `ext2_rename` on the names

What `ext2_rename` (write.c:217) does to the map from paths to inode numbers and contents, whatever stands under the new name.
A destination leaves the room of its entry behind (`RoomSeen`), so that the new entry goes in without a block being taken; a name
that is new may end up in a block that `ext2_iter_blocks` does not reach.
-/
namespace PureUnix.Ext2
open Lib List Option
open Store
open Inode (decLinks empty incLinks)
open Inode.SameShape

variable {e : Dent} {g : Graph} {m p : Nat} {rc : Int}

/-! ## What the steps keep -/

section
variable {L : Layout} {g g' g'' : Graph} {p n : Nat} {name : Text} {K K' : Nat → Text → Prop} {B B' : Nat → Prop}

namespace Keeps

theorem refl (g : Graph) : Keeps K B g g := ⟨fun _ _ _ => rfl, fun _ _ => rfl⟩

theorem trans (h : Keeps K B g g') (h' : Keeps K B g' g'') : Keeps K B g g'' :=
  ⟨fun j name hk => (h'.find j name hk).trans (h.find j name hk), fun j hb => (h'.bytes j hb).trans (h.bytes j hb)⟩

theorem mono (h : Keeps K B g g') (hk : ∀ j name, K j name → K' j name) (hb : ∀ j, B j → B' j) : Keeps K' B' g g' :=
  ⟨fun j name hn => h.find j name fun hc => hn (hk j name hc), fun j hn => h.bytes j fun hc => hn (hb j hc)⟩

theorem update {x : Node} (hf : ∀ name, ¬ K p name → x.find name = (g p).find name) (hb : ¬ B p → x.bytes = (g p).bytes) :
    Keeps K B g (update g p x) := by
  refine ⟨fun j name hk => ?_, fun j hj => ?_⟩
  · by_cases hjp : j = p
    · subst hjp; rw [update_self]; exact hf name hk
    · rw [update_of_ne hjp]
  · by_cases hjp : j = p
    · subst hjp; rw [update_self]; exact hb hj
    · rw [update_of_ne hjp]

theorem withInode (i : Inode) : Keeps K B g (Function.update g n ((g n).withInode i)) := update (fun _ _ => rfl) fun _ => rfl

theorem adjust (L : Layout) (f : Inode → Inode) : Keeps K B g (adjustNode L g p f) := by
  unfold adjustNode
  split
  · exact withInode _
  · exact refl g

theorem wiped (hk : ∀ name, K n name) (hb : B n) : Keeps K B g (Function.update g n (Node.free empty)) :=
  update (fun name hn => absurd (hk name) hn) fun hn => absurd hb hn

theorem inserts (h : Inserts g p e g') (hb : (g p).bytes = []) (hk : K p e.name) : Keeps K B g g' := by
  obtain ⟨i', es, vs, rfl, -, -, -, hvis⟩ := h.node
  refine update (fun name hn => ?_) fun _ => hb.symm
  have hne : e.name ≠ name := fun he => hn (he ▸ hk)
  unfold Node.find
  rcases hvis with hi | hs
  · rw [hi.find?_eq (by simpa using hne)]
  · rw [hs]

theorem removes (h : Removes g p name g') (hb : (g p).bytes = []) (hk : K p name) : Keeps K B g g' := by
  obtain ⟨now, rfl⟩ := h.node
  refine update (fun name' hn => ?_) fun _ => hb.symm
  have hne : name ≠ name' := fun he => hn (he ▸ hk)
  unfold Node.find
  rw [find?_eraseP]
  intro d hd
  rw [decide_eq_true_eq] at hd
  rw [hd]
  simpa using hne

theorem reparents (h : Reparents g n p g') (hb : (g n).inode.isDir = true → (g n).bytes = []) (hk : K n dotdotName) : Keeps K B g g' := by
  rcases h with ⟨-, hd, rfl⟩ | ⟨rfl, -⟩
  · refine update (fun name hn => ?_) fun _ => (hb hd).symm
    have hne : dotdotName ≠ name := fun he => hn (he ▸ hk)
    unfold Node.find
    rw [find?_replaceF]
    intro d d' hd
    rw [reparent] at hd
    split at hd
    · rename_i hdot
      cases hd
      rw [hdot]
      exact ⟨by simpa using hne, by simpa using hne⟩
    · cases hd
  · exact refl _

end Keeps

theorem Removes.find_none (h : Removes g p name g') (honce : ((g p).vis.countP fun d => d.name = name) ≤ 1) : (g' p).find name = none := by
  obtain ⟨now, rfl⟩ := h.node
  rw [update_self, Node.find, map_eq_none_iff]
  exact find?_eraseP_self honce

theorem countP_name_le {l : List Dent} (h : (l.map Dent.name).Nodup) (name : Text) : (l.countP fun d => d.name = name) ≤ 1 := by
  have hc := nodup_iff_count_le_one.1 h name
  rw [count, countP_map] at hc
  refine Nat.le_trans (countP_mono_left fun d _ hd => ?_) hc
  simpa using hd

/-! ## The move -/

/-- What stood under the new name has gone. -/
structure Vacated (g : Graph) (pn : Nat) (newLeaf : Text) (gone : Nat → Prop) (g' : Graph) : Prop where
  keeps : Keeps (fun j name => (j = pn ∧ name = newLeaf) ∨ gone j) gone g g'
  none : (g' pn).find newLeaf = none
  vis : ∀ p, (g' p).vis.Sublist (g p).vis

variable {po pn : Nat} {oldLeaf newLeaf : Text} {gone : Nat → Prop} {r : Option Nat} {ft : UInt8}

theorem Vacated.relinked {g₁ g₂ g₃ : Graph} (hc : Vacated g pn newLeaf gone g₁) (hins : Inserts g₁ pn ⟨newLeaf, n, ft⟩ g₂)
    (hrem : Removes g₂ po oldLeaf g₃) (hrest : Keeps (fun _ name => IsDot name) (fun _ => False) g₃ g')
    (hne : po = pn → oldLeaf ≠ newLeaf) (hdo : ¬ IsDot oldLeaf) (hdn : ¬ IsDot newLeaf)
    (hbn : (g₁ pn).bytes = []) (hbo : (g₂ po).bytes = []) (honce : ((g₁ po).vis.countP fun d => d.name = oldLeaf) ≤ 1)
    (hnew : (g₂ pn).find newLeaf = r)
    (hgone : ∀ m, gone m → (g pn).find newLeaf = some m ∧ ((g m).inode.isDir = false → (g m).inode.iLinksCount.toNat ≤ 1)) :
    Relinked g po oldLeaf pn newLeaf gone r g' := by
  have hone₂ : ((g₂ po).vis.countP fun d => d.name = oldLeaf) ≤ 1 := by
    obtain ⟨i', es, vs, rfl, -, -, -, hvis⟩ := hins.node
    by_cases hp : po = pn
    · subst hp
      rw [update_self]
      rcases hvis with hi | hs
      · rw [hi.countP_eq (by simpa using fun he => hne rfl he.symm)]
        exact honce
      · rw [hs]
        exact honce
    · rw [update_of_ne hp]
      exact honce
  refine ⟨hgone, ?_, ?_, ?_⟩
  · refine (hc.keeps.mono ?_ fun _ h => h).trans (((Keeps.inserts hins hbn ?_).trans (Keeps.removes hrem hbo ?_)).trans
      (hrest.mono (fun j name h => .inl h) fun _ h => h.elim))
    · rintro j name (h | h)
      · exact .inr (.inr (.inl h))
      · exact .inr (.inr (.inr h))
    · exact .inr (.inr (.inl ⟨rfl, rfl⟩))
    · exact .inr (.inl ⟨rfl, rfl⟩)
  · rw [hrest.find pn newLeaf hdn, (Keeps.removes (K := fun j name => j = po ∧ name = oldLeaf) (B := fun _ => False) hrem hbo ⟨rfl, rfl⟩).find]
    · exact hnew
    · rintro ⟨rfl, he⟩
      exact hne rfl he.symm
  · rw [hrest.find po oldLeaf hdo]
    exact hrem.find_none hone₂

/-! ## What stood under the new name -/

theorem Inode.links_of_decLinks {i : Inode} (h : i.decLinks.iLinksCount = 0) : i.iLinksCount.toNat ≤ 1 := by
  unfold decLinks at h
  split at h
  · have h2 : i.iLinksCount = 1 := by grind
    rw [h2]
    decide
  · rw [h]
    decide

/-- The inode `m` is wiped with the name. -/
def WipedWith (g : Graph) (m : Nat) (j : Nat) : Prop := j = m ∧ ((g m).inode.isDir = true ∨ (g m).inode.decLinks.iLinksCount = 0)

variable {m : Nat}

/-- A name less changes one node and the link count of the parent. -/
theorem Keeps.dropNode (g g' : Graph) (L : Layout) :
    Keeps (fun j _ => WipedWith g m j) (WipedWith g m) g' (dropNode L g' p m (g m).inode (g m).inode.isDir decLinks id) := by
  unfold Ext2.dropNode
  split
  · rename_i hd
    exact (Keeps.wiped (fun _ => ⟨rfl, .inl hd⟩) ⟨rfl, .inl hd⟩).trans (Keeps.adjust L _)
  unfold Node.dropName
  split
  · rename_i h0
    split
    · exact .wiped (fun _ => ⟨rfl, .inr h0⟩) ⟨rfl, .inr h0⟩
    · rw [Function.update_eq_self]
      exact .refl _
  · exact .withInode _

theorem dropNode_vis (L : Layout) (g : Graph) (i : Inode) (directory : Bool) (adjust stamp : Inode → Inode) (q : Nat) :
    ((dropNode L g p m i directory adjust stamp q).vis).Sublist (g q).vis := by
  have hup : ∀ x : Node, x.vis.Sublist (g m).vis → ((update g m x q).vis).Sublist (g q).vis := by
    intro x hx
    by_cases hq : q = m
    · subst hq; rw [update_self]; exact hx
    · rw [update_of_ne hq]
  unfold dropNode
  split
  · unfold adjustNode
    split
    · by_cases hq : q = p
      · subst hq
        rw [update_self]
        exact hup _ (nil_sublist _)
      · rw [update_of_ne hq]
        exact hup _ (nil_sublist _)
    · exact hup _ (nil_sublist _)
  · refine hup _ ?_
    unfold Node.dropName
    split
    · split
      · exact nil_sublist _
      · exact List.Sublist.refl _
    · exact List.Sublist.refl _

/-- **The new name is free**, and the directory it goes into still stands. -/
theorem Dropped.vacated (hdrop : Dropped L g pn m newLeaf (g m).inode.isDir decLinks id g') (hpm : pn ≠ m)
    (hb : (g pn).bytes = []) (honce : ((g pn).vis.countP fun d => d.name = newLeaf) ≤ 1) :
    Vacated g pn newLeaf (WipedWith g m) g' ∧ (g' pn).used = true ∧ (g' pn).inode.isDir = true := by
  obtain ⟨g₀, hrem, -, rfl⟩ := hdrop
  have hkeep := Keeps.dropNode (p := pn) (m := m) g g₀ L
  have hnot : ¬ WipedWith g m pn := fun hw => hpm hw.1
  refine ⟨⟨?_, ?_, fun q => ?_⟩, ?_⟩
  · exact (Keeps.removes hrem hb (.inl ⟨rfl, rfl⟩)).trans (hkeep.mono (fun _ _ => .inr) fun _ => id)
  · rw [hkeep.find pn newLeaf hnot]
    exact hrem.find_none honce
  · refine (dropNode_vis L g₀ _ _ _ _ q).trans ?_
    obtain ⟨now, rfl⟩ := hrem.node
    by_cases hq : q = pn
    · subst hq
      rw [update_self]
      exact eraseP_sublist
    · rw [update_of_ne hq]
  · -- the count of the parent changes, nothing else
    have h0 : (g₀ pn).used = true ∧ (g₀ pn).inode.isDir = true := by
      obtain ⟨now, rfl⟩ := hrem.node
      rw [update_self]
      exact ⟨rfl, by rw [(touch _ now).isDir]; exact hrem.isDir⟩
    unfold dropNode
    split
    · unfold adjustNode
      split
      · rw [update_self, update_of_ne hpm]
        exact ⟨h0.1, by rw [Node.withInode, (Inode.SameShape.decLinks _).isDir]; exact h0.2⟩
      · rw [update_of_ne hpm]
        exact h0
    · rw [update_of_ne hpm]
      exact h0

end

/-! ## The outcomes -/

/-- The new name goes into a block that `ext2_iter_blocks` does not reach. -/
def RenameMisplaces (L : Layout) (v : Store) (oldPath newPath : Text) : Prop :=
  ∃ po pn n oldLeaf newLeaf, RenameEnds L (v.node L) oldPath newPath po pn n oldLeaf newLeaf ∧ (v.node L pn).find newLeaf = none ∧
    InsertFits L v pn newLeaf ∧ ¬ SeesInsert L v pn (align4 (8 + newLeaf.length))

inductive RenameOut (L : Layout) (v : Store) (oldPath newPath : Text) : Int → Graph → Prop
  | refused {rc : Int} : rc ≠ 0 → ¬ RenameMisplaces L v oldPath newPath → RenameOut L v oldPath newPath rc (v.node L)
  | same {po pn n : Nat} {oldLeaf newLeaf : Text} : RenameEnds L (v.node L) oldPath newPath po pn n oldLeaf newLeaf →
      (v.node L pn).find newLeaf = some n → RenameOut L v oldPath newPath 0 (v.node L)
  | moved {po pn n : Nat} {oldLeaf newLeaf : Text} {gone : Nat → Prop} {r : Option Nat} {g' : Graph} :
      RenameEnds L (v.node L) oldPath newPath po pn n oldLeaf newLeaf → (v.node L pn).inode.isDir = true →
      (∀ m, (v.node L pn).find newLeaf = some m → m ≠ n ∧ ∀ e ∈ (v.node L m).vis, IsDot e.name) →
      Relinked (v.node L) po oldLeaf pn newLeaf gone r g' →
      (r = some n ∧ ¬ RenameMisplaces L v oldPath newPath) ∨ (r = none ∧ RenameMisplaces L v oldPath newPath) →
      RenameOut L v oldPath newPath 0 g'

def RenameDone (L : Layout) (v : Store) (oldPath newPath : Text) (out : Int × Disk) : Prop :=
  RenameOut L v oldPath newPath out.1 ((out.2.store L).node L)

section
variable {aware : Bool} {L : Layout} {d : Disk} {v w : Store} {po pn n : Nat} {oldLeaf newLeaf oldPath newPath : Text}

theorem RenameEnds.unique {po' pn' n' : Nat} {oldLeaf' newLeaf' : Text}
    (h : RenameEnds L g oldPath newPath po pn n oldLeaf newLeaf) (h' : RenameEnds L g oldPath newPath po' pn' n' oldLeaf' newLeaf') :
    po' = po ∧ pn' = pn ∧ n' = n ∧ oldLeaf' = oldLeaf ∧ newLeaf' = newLeaf := by
  obtain ⟨⟨_, ho, hpo⟩, ⟨_, hn, hpn⟩, hf, -⟩ := h
  obtain ⟨⟨_, ho', hpo'⟩, ⟨_, hn', hpn'⟩, hf', -⟩ := h'
  simp_all

theorem RenameEnds.misplaces_iff (h : RenameEnds L (v.node L) oldPath newPath po pn n oldLeaf newLeaf) :
    RenameMisplaces L v oldPath newPath ↔ (v.node L pn).find newLeaf = none ∧ InsertFits L v pn newLeaf ∧
      ¬ SeesInsert L v pn (align4 (8 + newLeaf.length)) := by
  constructor
  · rintro ⟨po', pn', n', oldLeaf', newLeaf', h', hrest⟩
    obtain ⟨rfl, rfl, rfl, rfl, rfl⟩ := h.unique h'
    exact hrest
  · exact fun hrest => ⟨po, pn, n, oldLeaf, newLeaf, h, hrest⟩

/-- The second half of `ext2_rename`, once the new entry is in. -/
def renameTail (fs : Fs) (i : Inode) (po pn n : Nat) (oldLeaf : Text) (now : UInt32) : Drv Int := do
  if ← dirRemove fs po oldLeaf now then
    if i.isDir = true ∧ po ≠ pn then do
      let _ ← dirSetParent fs n pn
      updateInode po decLinks
      updateInode pn incLinks
      pure 0
    else pure 0
  else pure (- EIO)

theorem renameTail_exec (h : L.Ok) (hs : Shadow L d w) (inv : FsInv aware false L w) (i : Inode) (now : UInt32) (ho : oldLeaf.length < 64)
    (hfo : ∃ e ∈ (w.node L po).ents, e.name = oldLeaf) (hpn : Named L w pn) (hd : i.isDir = true → DirSlot L w n)
    (hout : ∀ g₃ g', Removes (w.node L) po oldLeaf g₃ → Keeps (fun _ name => IsDot name) (fun _ => False) g₃ g' →
      RenameOut L v oldPath newPath 0 g') :
    RenameDone L v oldPath newPath (d.exec L (renameTail L.fs i po pn n oldLeaf now)) := by
  obtain ⟨e, he, hename⟩ := hfo
  obtain ⟨hvo, huo, hdo⟩ := (formed inv).dir po e he
  rw [node_used] at huo
  rw [node_inode] at hdo
  have hpo : DirSlot L w po := (h.named_of_used hvo huo).dirSlot hdo
  refine hs.exec_seq h (dirRemove_spares L.fs po oldLeaf now) (inv.wp_dirRemove h hpo (by omega) now) ?_
  rintro r d₃ w₃ hs₃ ⟨inv₃, ⟨rfl, hrem, -⟩ | ⟨rfl, rfl, hno⟩⟩
  swap
  · exact absurd hename (hno e he)
  by_cases hc : i.isDir = true ∧ po ≠ pn
  swap
  · rw [if_neg hc]
    change RenameOut L v oldPath newPath 0 ((d₃.store L).node L)
    rw [hs₃.node]
    exact hout _ _ hrem (Keeps.refl _)
  rw [if_pos hc]
  have hst := Graph.Steps.removes hrem
  refine hs₃.exec_seq h (dirSetParent_spares L.fs n pn) (inv₃.wp_dirSetParent ((hd hc.1).steps hst) (hpn.steps hst)) ?_
  rintro - d₄ w₄ hs₄ ⟨inv₄, hrep⟩
  have hrep : Reparents (w₃.node L) n pn (w₄.node L) := by
    rcases hrep with ⟨hu, hdir, hnode⟩ | ⟨rfl, hno⟩
    · refine .inl ⟨by rw [node_used]; exact hu, by rw [node_inode]; exact hdir, ?_⟩
      rw [node_inode]; exact hnode
    · exact .inr ⟨rfl, hno⟩
  refine hs₄.exec_seq h (updateInode_spares po _) (inv₄.wp_updateInode decLinks) ?_
  rintro - d₅ w₅ hs₅ ⟨inv₅, h5, -⟩
  refine hs₅.exec_seq h (updateInode_spares pn _) (inv₅.wp_updateInode incLinks) ?_
  rintro - d₆ w₆ hs₆ ⟨inv₆, h6, -⟩
  change RenameOut L v oldPath newPath 0 ((d₆.store L).node L)
  rw [hs₆.node]
  refine hout _ _ hrem ((Keeps.reparents hrep ((formed inv₃).bytes n) (.inr rfl)).trans ?_)
  rw [h6, h5]
  exact (Keeps.adjust L _).trans (Keeps.adjust L _)

/-- What the call knows when it starts to move the name. -/
structure Moving (L : Layout) (v : Store) (oldPath newPath : Text) (po pn n : Nat) (oldLeaf newLeaf : Text) : Prop where
  ends : RenameEnds L (v.node L) oldPath newPath po pn n oldLeaf newLeaf
  tidy : Tidy L (v.node L)
  oldPlain : ¬ IsDot oldLeaf
  newPlain : ¬ IsDot newLeaf
  oldLen : oldLeaf.length < 64
  newLen : 0 < newLeaf.length ∧ newLeaf.length < 64
  named : Named L v n
  parent : Named L v pn
  other : (v.node L pn).find newLeaf ≠ some n

theorem Moving.ne (hm : Moving L v oldPath newPath po pn n oldLeaf newLeaf) : po = pn → oldLeaf ≠ newLeaf := by
  rintro rfl rfl
  exact hm.other hm.ends.found

/-- From the entry on: the old name goes. -/
theorem Moving.tail {w₁ : Store} {gone : Nat → Prop} {r : Option Nat} {ft : UInt8} (h : L.Ok) (inv : FsInv aware false L v)
    (hm : Moving L v oldPath newPath po pn n oldLeaf newLeaf) (hd : (v.inode pn).isDir = true)
    (hempty : ∀ m, (v.node L pn).find newLeaf = some m → ∀ e ∈ (v.node L m).vis, IsDot e.name)
    (hgone : ∀ m, gone m → (v.node L pn).find newLeaf = some m ∧
      ((v.node L m).inode.isDir = false → (v.node L m).inode.iLinksCount.toNat ≤ 1))
    (inv₁ : FsInv aware false L w₁) (hvac : Vacated (v.node L) pn newLeaf gone (w₁.node L)) (hst : Graph.Steps (v.node L) (w₁.node L))
    (hs : Shadow L d w) (inv₂ : FsInv aware false L w) (hins : Inserts (w₁.node L) pn ⟨newLeaf, n, ft⟩ (w.node L))
    (hnew : (w.node L pn).find newLeaf = r)
    (hr : (r = some n ∧ ¬ RenameMisplaces L v oldPath newPath) ∨ (r = none ∧ RenameMisplaces L v oldPath newPath)) (now : UInt32) :
    RenameDone L v oldPath newPath (d.exec L (renameTail L.fs (v.inode n) po pn n oldLeaf now)) := by
  -- the old parent holds a name, so it has not been wiped
  have hpo : ¬ gone po := by
    intro hg
    obtain ⟨e, he, hname, -⟩ := Node.find_mem hm.ends.found
    have := hempty po (hgone po hg).1 e he
    rw [hname] at this
    exact hm.oldPlain this
  have hbn : (w₁.node L pn).bytes = [] := (formed inv₁).bytes pn hins.isDir
  have hf₁ : (w₁.node L po).find oldLeaf = some n := by
    rw [hvac.keeps.find po oldLeaf, hm.ends.found]
    rintro (⟨he, hl⟩ | hg)
    · exact hm.ne he hl
    · exact hpo hg
  have hf₂ : (w.node L po).find oldLeaf = some n := by
    rw [(Keeps.inserts (K := fun j name => j = pn ∧ name = newLeaf) (B := fun _ => False) hins hbn ⟨rfl, rfl⟩).find po oldLeaf, hf₁]
    rintro ⟨he, hl⟩
    exact hm.ne he hl
  obtain ⟨e, he, hname, -⟩ := (formed inv₂).entry hf₂
  have hst₂ := hst.trans (.inserts hins)
  refine renameTail_exec h hs inv₂ (v.inode n) now hm.oldLen ⟨e, he, hname⟩ (hm.parent.steps hst₂) (fun hdir => (hm.named.dirSlot hdir).steps hst₂) ?_
  intro g₃ g' hrem hrest
  have honce := Nat.le_trans ((hvac.vis po).trans ((formed inv).vis po)).countP_le (countP_name_le (hm.tidy.names po) oldLeaf)
  have hbo : (w.node L po).bytes = [] := (formed inv₂).bytes po ((formed inv₂).dir po e he).2.2
  refine .moved hm.ends (by rw [node_inode]; exact hd) (fun m hf => ⟨?_, hempty m hf⟩)
    (hvac.relinked hins hrem hrest hm.ne hm.oldPlain hm.newPlain hbn hbo honce hnew hgone) hr
  rintro rfl
  exact hm.other hf

/-- **A new name.** -/
theorem Moving.exec_new (h : L.Ok) (hd : L.Mounted d ∧ d.store L = v) (inv : FsInv aware false L v)
    (hm : Moving L v oldPath newPath po pn n oldLeaf newLeaf) (hnone : (v.node L pn).find newLeaf = none) (env : Env) :
    RenameDone L v oldPath newPath (d.exec L (renameMove L.fs env (v.inode n) po pn n oldLeaf newLeaf)) := by
  obtain ⟨hmount, rfl⟩ := hd
  have hlen := hm.newLen
  refine exec_seq h hmount (Prog.wp_mono (inv.wp_dirInsert h hm.parent ⟨hlen.1, by omega⟩ hm.named _ (env.time 1) nofun) fun r v' hr =>
    ⟨hr.1.own.wild, hr⟩) ?_
  rintro r d₁ hd₁ ⟨inv₁, ⟨rfl, hins, hplaced⟩ | ⟨rfl, hsame, hfits, -⟩⟩
  swap
  · change RenameOut L _ oldPath newPath (-ENOSPC) ((d₁.store L).node L)
    rw [hsame]
    exact .refused (by decide) fun hmis => hfits (hm.ends.misplaces_iff.1 hmis).2.1
  have hdir : ((d.store L).inode pn).isDir = true := by simpa using hins.isDir
  have hvac : Vacated ((d.store L).node L) pn newLeaf (fun _ => False) ((d.store L).node L) :=
    ⟨.refl _, hnone, fun _ => List.Sublist.refl _⟩
  -- whether lookup sees the entry is what decides
  have hvis : ((d₁.store L).node L pn).vis = (d₁.store L).vis L pn := by
    obtain ⟨i', es, vs, hg, hmode, -⟩ := hins.node
    have hu₁ : (d₁.store L).inodeUsed pn = true := by
      rw [← node_used, hg, update_self]
    have hd₁ : ((d₁.store L).inode pn).isDir = true := by
      rw [← node_inode, hg, update_self, Inode.isDir, hmode]
      exact hins.isDir
    rw [node_dir hu₁ hd₁]
  have hvis₀ : ((d.store L).node L pn).vis = (d.store L).vis L pn := by
    rw [node_dir (by simpa using hins.used) hdir]
  have hempty : ∀ m, ((d.store L).node L pn).find newLeaf = some m → ∀ e ∈ ((d.store L).node L m).vis, IsDot e.name := by
    intro m hf
    rw [hnone] at hf
    cases hf
  rcases hplaced.vis with ⟨hi, hsees⟩ | ⟨hv, hsees⟩
  · refine hm.tail h inv hdir hempty (fun _ hg => hg.elim) inv hvac (.refl _) (.refl hd₁) inv₁ hins ?_
      (.inl ⟨rfl, fun hmis => (hm.ends.misplaces_iff.1 hmis).2.2 hsees⟩) (env.time 2)
    rw [Node.find, hvis₀, map_eq_none_iff] at hnone
    rw [Node.find, hvis, hi.find?_new (by simp) hnone]
    rfl
  · refine hm.tail h inv hdir hempty (fun _ hg => hg.elim) inv hvac (.refl _) (.refl hd₁) inv₁ hins ?_
      (.inr ⟨rfl, hm.ends.misplaces_iff.2 ⟨hnone, hplaced.fits, hsees⟩⟩) (env.time 2)
    rw [Node.find, hvis₀] at hnone
    rw [Node.find, hvis, hv]
    exact hnone

/-- **A name that was taken.** The room of the old entry takes the new one. -/
theorem Moving.exec_over (h : L.Ok) (inv : FsInv aware false L v) (hm : Moving L v oldPath newPath po pn n oldLeaf newLeaf)
    (hf : (v.node L pn).find newLeaf = some m) (hs : Shadow L d w) (inv₁ : FsInv aware false L w)
    (hdrop : Dropped L (v.node L) pn m newLeaf (v.inode m).isDir decLinks id (w.node L))
    (hroom : (∃ e ∈ (v.node L pn).vis, e.name = newLeaf) → RoomSeen L w pn (align4 (8 + newLeaf.length))) (hrc : rc = 0) (env : Env) :
    RenameDone L v oldPath newPath (d.exec L (if rc ≠ 0 then pure rc else renameMove L.fs env (v.inode n) po pn n oldLeaf newLeaf)) := by
  have hform := formed inv
  obtain ⟨e, he, hname, hino⟩ := Node.find_mem hf
  obtain ⟨hvp, hup, hdp⟩ := hform.dir pn e ((hform.vis pn).subset he)
  rw [← node_inode] at hdrop
  -- only dots are left in a directory that goes
  have hempty : ∀ e ∈ (v.node L m).vis, IsDot e.name := by
    intro e' he'
    have hents := (hform.vis m).subset he'
    obtain ⟨g₀, -, hdots, -⟩ := hdrop
    exact (hdots (hform.dir m e' hents).2.2).2 e' hents
  have hpm : pn ≠ m := by
    rintro rfl
    have := hempty e he
    rw [hname] at this
    exact hm.newPlain this
  have honce := Nat.le_trans (hform.vis pn).countP_le (countP_name_le (hm.tidy.names pn) newLeaf)
  obtain ⟨hvac, hu₁, hd₁⟩ := hdrop.vacated hpm (hform.bytes pn hdp) honce
  have hst := Graph.Steps.dropped decLinks refl hdrop
  rw [node_used] at hu₁
  rw [node_inode] at hd₁ hdp
  have hlen := hm.newLen
  rw [if_neg (not_not.2 hrc)]
  refine hs.exec_insert h inv₁ hu₁ hd₁ (hroom ⟨e, he, hname⟩) ⟨hlen.1, by omega⟩ (hm.named.steps hst) _ (env.time 1) ?_
  intro d' w' hs' inv' hins hvis
  refine hm.tail h inv hdp ?_ ?_ inv₁ hvac hst hs' inv' hins ?_ (.inl ⟨rfl, fun hmis => ?_⟩) (env.time 2)
  · intro m' hf'
    rw [hf] at hf'
    cases hf'
    exact hempty
  · rintro m' ⟨rfl, hw⟩
    refine ⟨hf, fun hfile => ?_⟩
    rw [hfile] at hw
    exact Inode.links_of_decLinks (hw.resolve_left nofun)
  · have hnone := hvac.none
    rw [Node.find, map_eq_none_iff] at hnone
    rw [Node.find, hvis.find?_new (by simp) hnone]
    rfl
  · rw [(hm.ends.misplaces_iff.1 hmis).1] at hf
    cases hf

theorem RenameDone.refuse {d' : Disk} (hd : d'.store L = v) (hrc : rc ≠ 0) (hno : ¬ RenameMisplaces L v oldPath newPath) :
    RenameDone L v oldPath newPath (rc, d') := by
  unfold RenameDone
  rw [hd]
  exact .refused hrc hno

theorem renameOver_exec (h : L.Ok) (hd : L.Mounted d ∧ d.store L = v) (inv : FsInv aware false L v) (env : Env) (oldIsDir : Bool)
    (hp : DirSlot L v pn) (hlen : newLeaf.length < 64) (hm : Named L v m) (hv : L.ValidIno m) (hpm : pn ≠ m) :
    EntryDropped aware L v pn m newLeaf (v.inode m).isDir Inode.decLinks id (d.exec L (renameOver L.fs env oldIsDir pn m newLeaf)) := by
  refine exec_read h hd (Drv.run_readInode hv) inv.own.wild fun d' hd' => ?_
  have hs : Shadow L d' v := hd'.2 ▸ .refl hd'.1
  dsimp only
  by_cases hkind : (v.inode m).isDir ≠ oldIsDir
  · rw [if_pos hkind]
    refine .inl ⟨?_, hs⟩
    change (if (v.inode m).isDir = true then -EISDIR else -ENOTDIR) ≠ 0
    split <;> decide
  · rw [if_neg hkind]
    exact hs.dropEntry h inv hp hlen hm hv rfl hpm (env.time 0) .decLinks .refl

/-- **`ext2_rename`** on two paths without dots. -/
theorem rename_exec (h : L.Ok) (hd : L.Mounted d ∧ d.store L = v) (inv : FsInv aware false L v) (ht : Tidy L (v.node L)) (env : Env)
    (hold : Plain (components oldPath)) (hnew : Plain (components newPath)) :
    RenameDone L v oldPath newPath (d.exec L (rename L.fs env oldPath newPath)) := by
  refine inv.rename_front (.exec h inv.own.wild) h env (fun rc hrc hno d' hd' => ?_) (fun {po pn n oldLeaf newLeaf} ends npo npn hol hnl d' hd' => ?_) d hd
  · refine .refuse hd'.2 hrc ?_
    rintro ⟨_, _, _, _, _, he, -⟩
    exact hno _ _ _ _ _ he
  · have hn := inv.find_named ends.found
    obtain ⟨oldParent, hso, hpo⟩ := ends.old
    obtain ⟨newParent, hsn, hpn⟩ := ends.new
    have hmoving : (v.node L pn).find newLeaf ≠ some n → Moving L v oldPath newPath po pn n oldLeaf newLeaf := fun hne =>
      { ends, tidy := ht, named := hn, other := hne, newLen := hnl, oldLen := hol, parent := npn
        oldPlain := hold oldLeaf (by rw [(components_split hso (v.node L)).1]; simp)
        newPlain := hnew newLeaf (by rw [(components_split hsn (v.node L)).1]; simp) }
    cases hfn : (v.node L pn).find newLeaf with
    | none => exact (hmoving (by rw [hfn]; nofun)).exec_new h hd' inv hfn env
    | some m =>
      dsimp only
      by_cases hmn : m = n
      · rw [if_pos hmn]
        change RenameOut L v oldPath newPath 0 ((d'.store L).node L)
        rw [hd'.2]
        exact .same ends (by rw [hfn, hmn])
      rw [if_neg hmn]
      have hmov := hmoving (by rw [hfn]; exact fun hc => hmn (Option.some.inj hc))
      have hmis : ¬ RenameMisplaces L v oldPath newPath := by
        rw [ends.misplaces_iff, hfn]
        exact fun hc => nomatch hc.1
      -- what stands under the new name
      have hnm := inv.find_named hfn
      obtain ⟨e', he', hname, hino'⟩ := (formed inv).entry hfn
      have hvm : L.ValidIno m := by
        refine inv.own.valid m ?_
        have := ht.live pn e' he'
        rwa [hino', node_used] at this
      have hform := formed inv
      have hdn : (v.node L pn).inode.isDir = true := (hform.dir pn e' he').2.2
      have hpm : pn ≠ m := by
        rintro rfl
        obtain ⟨hsplit, hwalk⟩ := components_split hsn (v.node L)
        rw [hsplit] at hnew
        rw [hpn] at hwalk
        refine Relinked.not_prefix_self (components newParent) newLeaf ⟨[], ?_⟩
        rw [append_nil]
        refine ht.walk_unique hform hnew hnew.left ?_ hwalk.symm hdn
        rw [walkNodes_append, ← hwalk, bind_some, walkNodes_single, hfn]
      have hslot : DirSlot L v pn := npn.dirSlot (by rw [← node_inode]; exact hdn)
      have hover := renameOver_exec h hd' inv env (v.inode n).isDir hslot hnl.2 hnm hvm hpm
      rw [Disk.exec_bind]
      rcases hover with ⟨hrc, hs⟩ | ⟨hrc, w, hs, inv₁, hdrop, hroom⟩
      · rw [if_pos hrc]
        change RenameOut L v oldPath newPath _ (((d'.exec L (renameOver L.fs env (v.inode n).isDir pn m newLeaf)).2.store L).node L)
        rw [hs.node]
        exact .refused hrc hmis
      · exact hmov.exec_over h inv hfn hs inv₁ hdrop hroom hrc env

/-! ## Atomicity -/

/-- A rename is atomic on the names: a failure changes no path, and a success gives the new path what the old one named, takes the old
path away, unless both named one inode, and leaves all other paths alone. -/
def RenameAtomic (g : Graph) (old new : List Text) (rc : Int) (g' : Graph) : Prop :=
  (rc ≠ 0 → ∀ toks, g'.look toks = g.look toks) ∧
  (rc = 0 → ∃ x, g.look old = some x ∧ g'.look new = some x ∧ ((g.look new = some x ∧ ∀ toks, g'.look toks = g.look toks) ∨
     (g'.look old = none ∧ ∀ toks, Plain toks → ¬ old <+: toks → ¬ new <+: toks → g'.look toks = g.look toks)))

def Inside (old new : List Text) : Prop := old <+: new ∧ old ≠ new

instance (old new : List Text) : Decidable (Inside old new) := inferInstanceAs (Decidable (_ ∧ _))

theorem RenameEnds.look (he : RenameEnds L g oldPath newPath po pn n oldLeaf newLeaf) :
    ∃ oldDir newDir, components oldPath = oldDir ++ [oldLeaf] ∧ components newPath = newDir ++ [newLeaf] ∧
      walkNodes g EXT2_ROOT_INODE oldDir = some po ∧ walkNodes g EXT2_ROOT_INODE newDir = some pn := by
  obtain ⟨op, hso, hpo⟩ := he.old
  obtain ⟨np, hsn, hpn⟩ := he.new
  obtain ⟨h1, h2⟩ := components_split hso g
  obtain ⟨h3, h4⟩ := components_split hsn g
  exact ⟨_, _, h1, h3, h2.symm.trans hpo, h4.symm.trans hpn⟩

theorem RenameEnds.moveEnds (he : RenameEnds L (v.node L) oldPath newPath po pn n oldLeaf newLeaf) (inv : FsInv aware false L v)
    (ht : Tidy L (v.node L)) (hold : Plain (components oldPath)) (hnew : Plain (components newPath))
    (hin : ¬ Inside (components oldPath) (components newPath)) (hd : (v.node L pn).inode.isDir = true)
    (hfree : ∀ m, (v.node L pn).find newLeaf = some m → m ≠ n ∧ ∀ e ∈ (v.node L m).vis, IsDot e.name) :
    ∃ oldDir newDir, components oldPath = oldDir ++ [oldLeaf] ∧ components newPath = newDir ++ [newLeaf] ∧
      MoveEnds L (v.node L) oldDir newDir oldLeaf newLeaf po pn n := by
  obtain ⟨oldDir, newDir, ho, hn, hwo, hwn⟩ := he.look
  rw [ho] at hold hin
  rw [hn] at hnew hin
  refine ⟨oldDir, newDir, ho, hn, ht, formed inv, hold, hnew, hwo, hwn, he.found, hd, fun hpre => ?_, hfree⟩
  refine hin ⟨hpre.trans (prefix_append _ _), fun heq => ?_⟩
  rw [heq] at hpre
  exact Relinked.not_prefix_self _ _ hpre

section
variable {rc : Int} {g' : Graph} (inv : FsInv aware false L v) (ht : Tidy L (v.node L)) (hold : Plain (components oldPath))
  (hnew : Plain (components newPath)) (hin : ¬ Inside (components oldPath) (components newPath))
include inv ht hold hnew hin

/-- A misplaced name: the call succeeds, and neither path names anything. -/
theorem RenameOut.lost (hout : RenameOut L v oldPath newPath rc g') (hmis : RenameMisplaces L v oldPath newPath) :
    rc = 0 ∧ g'.look (components oldPath) = none ∧ g'.look (components newPath) = none := by
  cases hout with
  | refused hrc hno => exact absurd hmis hno
  | same ends hf =>
    rw [(ends.misplaces_iff.1 hmis).1] at hf
    cases hf
  | moved ends hd hfree hr hcase =>
    obtain ⟨rfl, -⟩ := hcase.resolve_left fun hc => hc.2 hmis
    obtain ⟨oldDir, newDir, ho, hn, he⟩ := ends.moveEnds inv ht hold hnew hin hd hfree
    rw [ho, hn]
    exact ⟨rfl, hr.look_old he, hr.look_new he⟩

theorem RenameOut.atomic (hout : RenameOut L v oldPath newPath rc g') (hmis : ¬ RenameMisplaces L v oldPath newPath) :
    RenameAtomic (v.node L) (components oldPath) (components newPath) rc g' := by
  cases hout with
  | refused hrc _ => exact ⟨fun _ _ => rfl, fun h0 => absurd h0 hrc⟩
  | @same po pn n oldLeaf newLeaf ends hf =>
    obtain ⟨oldDir, newDir, ho, hn, hwo, hwn⟩ := ends.look
    have hlo := look_snoc (v.node L) oldDir oldLeaf hwo
    have hln := look_snoc (v.node L) newDir newLeaf hwn
    rw [ends.found, ← ho] at hlo
    rw [hf, ← hn] at hln
    exact ⟨fun h0 => absurd rfl h0, fun _ => ⟨(n, (v.node L n).bytes), hlo, hln, .inl ⟨hln, fun _ => rfl⟩⟩⟩
  | @moved po pn n oldLeaf newLeaf gone r g' ends hd hfree hr hcase =>
    obtain ⟨rfl, -⟩ := hcase.resolve_right fun hc => hmis hc.2
    obtain ⟨oldDir, newDir, ho, hn, he⟩ := ends.moveEnds inv ht hold hnew hin hd hfree
    have hlo := look_snoc (v.node L) oldDir oldLeaf he.oldWalk
    rw [ends.found] at hlo
    rw [ho, hn]
    refine ⟨fun h0 => absurd rfl h0, fun _ => ⟨(n, (v.node L n).bytes), hlo, ?_, .inr ⟨hr.look_old he, ?_⟩⟩⟩
    · rw [hr.look_new he, map_some, hr.bytes_moved he]
    · exact fun toks hp h1 h2 => hr.look_other he hp h1 h2

end

/-- **When `ext2_rename` is atomic on the names.** -/
theorem rename_atomic_iff {d : Disk} (h : L.Ok) (hd : Consistent aware false L d) (ht : Tidy L ((d.store L).node L)) (env : Env)
    (oldPath newPath : Text) (hold : Plain (components oldPath)) (hnew : Plain (components newPath))
    (hin : ¬ Inside (components oldPath) (components newPath)) :
    RenameAtomic ((d.store L).node L) (components oldPath) (components newPath) (d.exec L (rename L.fs env oldPath newPath)).1
      (((d.exec L (rename L.fs env oldPath newPath)).2.store L).node L) ↔ ¬ RenameMisplaces L (d.store L) oldPath newPath := by
  have hout := rename_exec h ⟨hd.mounted, rfl⟩ hd.inv ht env hold hnew
  refine ⟨fun hat hmis => ?_, hout.atomic hd.inv ht hold hnew hin⟩
  obtain ⟨hrc, -, hlost⟩ := hout.lost hd.inv ht hold hnew hin hmis
  obtain ⟨x, -, hx, -⟩ := hat.2 hrc
  rw [hlost] at hx
  cases hx

end

/-! ## In the crowded root directory -/

theorem crowded_ents_other (hp : p ≠ 2) : (crowdedStore.node fullDirLayout p).ents = [] := by
  refine (crowded_fsInv : FsInv false false fullDirLayout crowdedStore).ents_nil fun _ => ?_
  by_cases h12 : p = 12
  · rw [h12]; rfl
  have hino : crowdedStore.inode p = empty := by
    simp only [crowdedStore, withFileStore, Store.setInode, Store.setData, Store.takeInode, update_of_ne hp, update_of_ne h12]
    exact fullDir_other hp
  rw [hino]
  rfl

theorem crowded_entry (he : e ∈ (crowdedStore.node fullDirLayout p).ents) :
    p = 2 ∧ (IsDot e.name ∧ e.ino = 2 ∨ e = ⟨[97], 12, EXT2_FT_REG_FILE⟩) := by
  by_cases hp : p = 2
  · subst hp
    rw [crowded_node] at he
    simp only [crowdedEntries, mem_cons, not_mem_nil, or_false] at he
    rcases he with rfl | rfl | rfl
    · exact ⟨rfl, .inl ⟨.inl rfl, rfl⟩⟩
    · exact ⟨rfl, .inl ⟨.inr rfl, rfl⟩⟩
    · exact ⟨rfl, .inr rfl⟩
  · rw [crowded_ents_other hp] at he
    cases he

theorem crowded_tidy : Tidy fullDirLayout (crowdedStore.node fullDirLayout) where
  live p e he := by
    rcases (crowded_entry he).2 with ⟨-, hi⟩ | rfl
    · rw [hi]; rfl
    · rfl
  names p := by
    by_cases hp : p = 2
    · subst hp
      rw [crowded_node]
      decide
    · rw [crowded_ents_other hp]
      exact nodup_nil
  links n hu hd := by
    rw [Graph.nameCount, Finset.sum_eq_single 2]
    · rw [crowded_node]
      by_cases h12 : n = 12
      · subst h12
        decide
      have h2 : n ≠ 2 := by
        rintro rfl
        cases hd
      have hz : crowdedEntries.countP (fun e => e.ino = n) = 0 := by
        simp [crowdedEntries, Ne.symm h12, Ne.symm h2]
      rw [hz]
      exact Nat.zero_le _
    · intro p _ hp
      rw [crowded_ents_other hp]
      rfl
    · exact fun h2 => absurd (by decide) h2
  one p p' e he e' he' _ _ hn hn' := by
    obtain ⟨rfl, ⟨hdot, -⟩ | rfl⟩ := crowded_entry he
    · exact absurd hdot hn
    obtain ⟨rfl, ⟨hdot, -⟩ | rfl⟩ := crowded_entry he'
    · exact absurd hdot hn'
    exact ⟨rfl, rfl⟩
  root p e he hi := by
    rcases (crowded_entry he).2 with ⟨hdot, -⟩ | rfl
    · exact hdot
    · exact absurd hi (by decide)

theorem crowded_ends {leaf : Text} (hsp : splitParentLeaf (slash :: leaf) = some ([slash], leaf)) :
    RenameEnds fullDirLayout (crowdedStore.node fullDirLayout) [slash, 97] (slash :: leaf) 2 2 12 [97] leaf := by
  refine ⟨⟨[slash], rfl, rfl⟩, ⟨[slash], hsp, rfl⟩, ?_, by decide⟩
  rfl

/-- The file "a" gets a name of one letter. -/
theorem rename_atomic_short_name : RenameAtomic ((crowdedDisk.store fullDirLayout).node fullDirLayout) [[97]] [[98]]
      (crowdedDisk.exec fullDirLayout (rename fullDirLayout.fs sampleEnv [slash, 97] [slash, 98])).1
      (((crowdedDisk.exec fullDirLayout (rename fullDirLayout.fs sampleEnv [slash, 97] [slash, 98])).2.store fullDirLayout).node
        fullDirLayout) := by
  have ht := crowded_rel.2 ▸ crowded_tidy
  refine (rename_atomic_iff fullDirLayout_ok (crowded_consistent : Consistent true false fullDirLayout crowdedDisk) ht sampleEnv [slash, 97] [slash, 98] (by decide)
    (by decide) (by decide)).2 ?_
  rw [crowded_rel.2, (crowded_ends rfl).misplaces_iff]
  exact fun hmis => hmis.2.2 (crowded_seen (by decide))

/-- A name of 63 letters: the call succeeds, and the file is under neither name. -/
theorem rename_loses_long_name :
    Consistent true false fullDirLayout crowdedDisk ∧ Tidy fullDirLayout ((crowdedDisk.store fullDirLayout).node fullDirLayout) ∧
    Plain (components [slash, 97]) ∧ Plain (components (slash :: List.replicate 63 98)) ∧
    ¬ Inside (components [slash, 97]) (components (slash :: List.replicate 63 98)) ∧
    (crowdedDisk.exec fullDirLayout (rename fullDirLayout.fs sampleEnv [slash, 97] (slash :: List.replicate 63 98))).1 = 0 ∧
    Graph.look (((crowdedDisk.exec fullDirLayout (rename fullDirLayout.fs sampleEnv [slash, 97] (slash :: List.replicate 63 98))).2.store
      fullDirLayout).node fullDirLayout) (components (slash :: List.replicate 63 98)) = none ∧
    ¬ RenameAtomic ((crowdedDisk.store fullDirLayout).node fullDirLayout) (components [slash, 97]) (components (slash :: List.replicate 63 98))
      (crowdedDisk.exec fullDirLayout (rename fullDirLayout.fs sampleEnv [slash, 97] (slash :: List.replicate 63 98))).1
      (((crowdedDisk.exec fullDirLayout (rename fullDirLayout.fs sampleEnv [slash, 97] (slash :: List.replicate 63 98))).2.store
        fullDirLayout).node fullDirLayout) := by
  have ht := crowded_rel.2 ▸ crowded_tidy
  have hold : Plain (components [slash, 97]) := by decide
  have hnew : Plain (components (slash :: replicate 63 98)) := by decide
  have hin : ¬ Inside (components [slash, 97]) (components (slash :: replicate 63 98)) := by decide
  have hc : Consistent true false fullDirLayout crowdedDisk := crowded_consistent
  have hmis : RenameMisplaces fullDirLayout (crowdedDisk.store fullDirLayout) [slash, 97] (slash :: replicate 63 98) := by
    rw [crowded_rel.2, (crowded_ends (by decide)).misplaces_iff]
    refine ⟨?_, ⟨rfl, fullDir_dirAt.isDir, .inr (crowded_canGrow ⟨rfl, rfl⟩ rfl)⟩, crowded_unseen (by decide)⟩
    rw [crowded_find]
    decide
  have hout := rename_exec fullDirLayout_ok ⟨hc.mounted, rfl⟩ hc.inv ht sampleEnv hold hnew
  obtain ⟨hrc, -, hlost⟩ := hout.lost hc.inv ht hold hnew hin hmis
  refine ⟨hc, ht, hold, hnew, hin, hrc, hlost, fun hat => ?_⟩
  obtain ⟨x, -, hx, -⟩ := hat.2 hrc
  rw [hlost] at hx
  cases hx

end PureUnix.Ext2
