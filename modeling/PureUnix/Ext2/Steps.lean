import PureUnix.Ext2.FsInv
import PureUnix.Ext2.Write
import PureUnix.Ext2.Tokens

/-!
# The steps of a call

`ext2_create`, `ext2_unlink`, `ext2_rename`, `ext2_link` and `ext2_write_file` are sequences of a few
steps: resolve a path, enter or remove a name, take, rewrite or wipe an inode. Each step has one theorem
here: it keeps `FsInv`, and it changes at most one node, in the way the theorem says.
-/
namespace PureUnix.Ext2
open Lib List Nat Option Function FsInv
open Store
open Inode

variable {e : Dent} {P : Set Nat}

/-! ## Paths -/

/-- What `ext2_dir_lookup` finds in a node. -/
def Node.find (n : Node) (name : Text) : Option Nat := (n.vis.find? fun d => d.name = name).map Dent.ino

theorem Node.find_mem {x : Node} {name : Text} {n : Nat} (h : x.find name = some n) :
    ∃ e ∈ x.vis, e.name = name ∧ e.ino = n := by
  obtain ⟨e, he, rfl⟩ := map_eq_some_iff.1 h
  exact ⟨e, mem_of_find?_eq_some he, by simpa using find?_some he, rfl⟩

/-- `ext2_path_to_inode` on the nodes. -/
def walkNodes (g : Nat → Node) : Nat → List Text → Option Nat
  | cur, [] => some cur
  | cur, tok :: toks =>
    match (g cur).find tok with
    | none => none
    | some next => walkNodes g next toks

def pathNode (g : Nat → Node) (path : Text) : Option Nat :=
  if path.head? ≠ some slash then none
  else if path = [slash] then some EXT2_ROOT_INODE
  else walkNodes g EXT2_ROOT_INODE (pathTokens path)

section
variable {g g' : Nat → Node} {n : Nat} (hn : ∀ name, (g' n).find name = none)
  (hfind : ∀ {j name m}, (g' j).find name = some m → (g j).find name = some m ∨ m = n)
include hn hfind

/-- Where a walk gets that did not: to `n`, which is all that is new and leads nowhere. -/
theorem walkNodes_new : ∀ {toks : List Text} {cur m : Nat}, walkNodes g' cur toks = some m →
    walkNodes g cur toks = some m ∨ m = n
  | [], _, _, h => .inl h
  | tok :: toks, cur, m, h => by
    rw [walkNodes] at h ⊢
    cases hf : (g' cur).find tok with
    | none => rw [hf] at h; cases h
    | some next =>
      rw [hf] at h
      rcases hfind hf with hold | rfl
      · rw [hold]
        exact walkNodes_new h
      · cases toks with
        | nil => exact .inr (Option.some.inj h).symm
        | cons t ts => simp only [walkNodes, hn] at h; cases h

theorem pathNode_new {path : Text} {m : Nat} (h : pathNode g' path = some m) : pathNode g path = some m ∨ m = n := by
  unfold pathNode at h ⊢
  split
  · rw [if_pos ‹_›] at h; exact .inl h
  rw [if_neg ‹_›] at h
  split
  · rw [if_pos ‹_›] at h; exact .inl h
  · rw [if_neg ‹_›] at h
    exact walkNodes_new hn hfind h

end

theorem pathTokens_length {path t : Text} (ht : t ∈ pathTokens path) : t.length < 256 := by
  rw [pathTokens, tokens_eq_split] at ht
  have h := PathText.length_le_of_mem_split (mem_of_mem_filter ht)
  rw [length_take] at h
  have : PUREUNIX_MAX_PATH - 1 = 255 := rfl
  omega

theorem splitParentLeaf_length {path parent leaf : Text} (h : splitParentLeaf path = some (parent, leaf)) :
    0 < leaf.length ∧ leaf.length < 64 := by
  unfold splitParentLeaf at h
  split at h
  · cases h
  dsimp only at h
  split at h
  · cases h
  have hlen' : 0 < (path.reverse.takeWhile (· ≠ slash)).reverse.length ∧
      (path.reverse.takeWhile (· ≠ slash)).reverse.length < 64 := by
    have e : PUREUNIX_MAX_NAME = 64 := rfl
    omega
  split at h
  · cases h; exact hlen'
  · split at h
    · cases h
    · cases h; exact hlen'

section
variable {aware full : Bool} {L : Layout} {v v' : Store} {p n : Nat} {name : Text}

theorem Inode.mem_ents_of_vis (he : e ∈ v.vis L p) : e ∈ v.ents L p :=
  entriesUpTo_mono (min_le_left _ _) he

/-- What is said of a program that begins by reading is said of what follows. -/
structure PastReads (L : Layout) (v : Store) (E : Drv Int → Prop) : Prop where
  seq : ∀ {α : Type} {q : Drv α} {a : α} {f : α → Drv Int}, run (step L) q v = (a, v) → E (f a) → E (q >>= f)

theorem PastReads.wp {Q : Int → Store → Prop} : PastReads L v fun q => Lib.wp (step L) q Q v := ⟨wp_seq_run⟩

theorem PastReads.inode {E : Drv Int → Prop} (past : PastReads L v E) {k : Inode → Drv Int} (hno : ¬ L.ValidIno n → E (pure (- EIO)))
    (hk : L.ValidIno n → E (k (v.inode n))) : E (do
      match ← Drv.readInode n with
      | none => pure (- EIO)
      | some i => k i) := by
  by_cases hv : L.ValidIno n
  · exact past.seq (Drv.run_readInode hv) (hk hv)
  · exact past.seq (Drv.run_readInode_invalid hv) (hno hv)

namespace FsInv

/-- **Lookup** in any named inode. -/
theorem run_dirLookup (h : L.Ok) (inv : FsInv aware full L v) (hp : Named L v p) (hn : name.length < 256) :
    run (step L) (dirLookup L.fs p name) v = ((v.node L p).find name, v) := by
  by_cases hd : L.ValidIno p ∧ (v.inode p).isDir = true
  · have hu := used_of_isDir hp hd.1 hd.2
    rw [Ext2.run_dirLookup h (inv.dirAt hu hd.2) hn, node_dir hu hd.2]
    rfl
  have hnot : L.ValidIno p → (v.inode p).isDir = false := fun hv => by
    by_contra hc
    exact hd ⟨hv, by simpa using hc⟩
  rw [run_dirLookup_not hnot]
  have hvis : (v.node L p).vis = [] := by
    by_cases hu : v.inodeUsed p = true
    · simp [node, hu, hnot (inv.own.valid p hu)]
    · rw [node_free (by simpa using hu)]; rfl
  rw [Node.find, hvis]
  rfl

theorem find_named (inv : FsInv aware full L v) (hf : (v.node L p).find name = some n) : Named L v n := by
  obtain ⟨e, he, rfl⟩ := map_eq_some_iff.1 hf
  have hmem := mem_of_find?_eq_some he
  by_cases hu : v.inodeUsed p = true
  · by_cases hd : (v.inode p).isDir = true
    · rw [node_dir hu hd] at hmem
      exact (inv.dirs p hu hd).named e (mem_ents_of_vis hmem)
    · simp [node, hu, hd] at hmem
  · rw [node_free (by simpa using hu)] at hmem
    simp [Node.free] at hmem

theorem run_walkPath (h : L.Ok) (inv : FsInv aware full L v) : ∀ (toks : List Text) (cur : Nat),
    (∀ t ∈ toks, t.length < 256) → Named L v cur → run (step L) (walkPath L.fs cur toks) v = (walkNodes (v.node L) cur toks, v) ∧
      ∀ n, walkNodes (v.node L) cur toks = some n → Named L v n
  | [], cur, _, hc => ⟨rfl, fun n hn => by cases hn; exact hc⟩
  | tok :: toks, cur, ht, hc => by
    rw [walkPath, run_bind, inv.run_dirLookup h hc (ht tok (by simp)), walkNodes]
    cases hf : (v.node L cur).find tok with
    | none => exact ⟨rfl, nofun⟩
    | some next => exact run_walkPath h inv toks next (fun t h => ht t (by simp [h])) (inv.find_named hf)

/-- **Path resolution** reads only, and ends at a named inode. -/
theorem run_pathToInode (h : L.Ok) (inv : FsInv aware full L v) (path : Text) :
    run (step L) (pathToInode L.fs path) v = (pathNode (v.node L) path, v) ∧
    ∀ n, pathNode (v.node L) path = some n → Named L v n := by
  unfold pathToInode pathNode
  split
  · exact ⟨rfl, nofun⟩
  · split
    · exact ⟨rfl, fun n hn => by cases hn; exact inv.root⟩
    · exact inv.run_walkPath h _ _ (fun t ht => pathTokens_length ht) inv.root

/-- The calls begin alike: the parent of the path is resolved, and its last component looked up there. -/
theorem at_parent {E : Drv Int → Prop} (past : PastReads L v E) (h : L.Ok) (inv : FsInv aware full L v) {path : Text}
    {k : Nat → Text → Option Nat → Drv Int} (hno : E (pure (-ENOENT)))
    (hk : ∀ {parent leaf p}, splitParentLeaf path = some (parent, leaf) → pathNode (v.node L) parent = some p →
      0 < leaf.length ∧ leaf.length < 64 → Named L v p → E (k p leaf ((v.node L p).find leaf))) :
    E (match splitParentLeaf path with
      | none => pure (-ENOENT)
      | some (parent, leaf) => do
        match ← pathToInode L.fs parent with
        | none => pure (-ENOENT)
        | some p => dirLookup L.fs p leaf >>= k p leaf) := by
  cases hsp : splitParentLeaf path with
  | none => exact hno
  | some pl =>
    obtain ⟨parent, leaf⟩ := pl
    have hleaf := splitParentLeaf_length hsp
    obtain ⟨hpath, hnamed⟩ := inv.run_pathToInode h parent
    refine past.seq hpath ?_
    cases hpn : pathNode (v.node L) parent with
    | none => exact hno
    | some p => exact past.seq (inv.run_dirLookup h (hnamed p hpn) (by omega)) (hk hsp hpn hleaf (hnamed p hpn))

/-! ## Putting an inode back -/

/-- The inode the function worked on goes back to the table. -/
theorem putBack (inv : FsInv aware full L v) (w : Work aware full L v (some n) v' P)
    (hu : v'.inodeUsed n = true) (hl : (v'.inode n).inline aware = false) (hh : Holds L v' P (v'.inode n))
    (hall : full = true → ∀ c ∈ P, c ∈ (v'.inode n).blockRefs L.blockSize v'.data)
    (hdir : (v'.inode n).isDir = true → DirOk full L v' n) : FsInv aware full L v' := by
  have href : v'.refs aware L n = (v'.inode n).blockRefs L.blockSize v'.data := refs_of_not_inline hl
  have o := w.own.checkin hu (by rw [href]; exact hh.nodup) (by rw [href]; exact hh.held)
  refine inv.rebuild ?_ w.frame (fun hn => ⟨hn.range, fun _ => .inl hu⟩) fun _ => hdir
  cases full with
  | false => exact o.forget (Set.empty_subset _)
  | true =>
    have he : P \ {b | b ∈ v'.refs aware L n} = ∅ :=
      Set.eq_empty_of_forall_notMem fun c hc => hc.2 (by rw [href]; exact hall rfl c hc.1)
    rwa [he] at o

/-- The inode the function worked on is wiped (`ext2_free_inode`). -/
theorem wipe (inv : FsInv aware full L v) (w : Work aware full L v (some n) v' P)
    (hu : v'.inodeUsed n = true) (hall : full = true → P = ∅) :
    FsInv aware full L (v'.dropInode L n) ∧ (v'.dropInode L n).node L = update (v.node L) n (Node.free empty) := by
  have hv := w.own.valid n hu
  have he : v'.dropInode L n = { v' with
      inodeUsed := update v'.inodeUsed n false
      freeInodes := update v'.freeInodes (L.groupOfIno n) ((v'.freeInodes (L.groupOfIno n) + 1) % 65536)
      inode := update v'.inode n empty } := by
    unfold Store.dropInode
    rw [if_neg]
    rintro (hc | hc)
    · exact hc hv
    · rw [hu] at hc; cases hc
  have hused : (v'.dropInode L n).inodeUsed n = false := by rw [he]; exact update_self ..
  have hino : (v'.dropInode L n).inode n = empty := by rw [he]; exact update_self ..
  obtain ⟨o, f⟩ := w.dropInode
  refine ⟨inv.rebuild ?_ f (fun hn => ⟨hn.range, fun _ => .inr (by rw [hino]; exact dead_empty)⟩) fun hc => ?_, ?_⟩
  · cases full with
    | false => exact o.forget (Set.empty_subset _)
    | true => rwa [hall rfl] at o
  · rw [hused] at hc; cases hc
  · rw [f.node_eq, node_free hused, hino]

end FsInv

/-! ## Edits of a directory -/

theorem FsInv.edited (inv : FsInv aware full L v) (hu : v.inodeUsed p = true) (hd : (v.inode p).isDir = true)
    {k : Nat} {buf : Buf} {i' : Inode} (he : EditedAt L v p k buf i' v') (hn : ∀ e ∈ v'.ents L p, Named L v e.ino) :
    FsInv aware full L v' ∧ Frame aware L (some p) v v' ∧
      v'.node L = update (v.node L) p ⟨true, i', v'.ents L p, v'.vis L p, []⟩ := by
  have hda := inv.dirAt hu hd
  have hnl : (v.inode p).inline aware = false := inline_of_not_lnk (isLnk_of_isDir hd)
  have href : v.refs aware L p = (v.inode p).blockRefs L.blockSize v.data := refs_of_not_inline hnl
  have w := (((inv.own.checkout hu).start.write (.inr (by
    rw [href]; exact blockAt_mem_refs he.ne)) buf).setInode i')
  rw [← he.eq] at w
  have hino : v'.inode p = i' := by rw [he.inode_eq, update_self]
  have hd' : (v'.inode p).isDir = true := (he.dirAt hda).isDir
  have hu' : v'.inodeUsed p = true := by rw [he.eq]; exact hu
  have hrefs := he.blockRefs_eq hda.map
  refine ⟨inv.putBack w hu' (inline_of_not_lnk (isLnk_of_isDir hd')) ⟨?_, fun c hc => ?_⟩ (fun _ c hc => ?_) fun _ =>
    ⟨(he.dirAt hda).wf, fun hf k hk => ?_, fun e hm => ?_⟩, w.frame, ?_⟩
  · rw [hrefs]; exact hda.map.nodup
  · rw [hrefs, ← href] at hc
    exact .inr hc
  · rw [hrefs, ← href]
    exact hc.resolve_left (Set.notMem_empty c)
  · rw [he.blockAt_eq hda.map]
    rw [he.size_eq] at hk
    exact (inv.dirs p hu hd).tail hf k hk
  · exact w.frame.named (fun hn => ⟨hn.range, fun _ => .inl hu'⟩) (hn e hm)
  · rw [w.frame.node_eq, node_dir hu' hd', hino]

/-- An entry has gone into the directory `p`. -/
structure Inserts (g : Graph) (p : Nat) (e : Dent) (g' : Graph) : Prop where
  used : (g p).used = true
  isDir : (g p).inode.isDir = true
  node : ∃ i' es vs, g' = update g p ⟨true, i', es, vs, []⟩ ∧
    i'.iMode = (g p).inode.iMode ∧ i'.iLinksCount = (g p).inode.iLinksCount ∧ Inserted e (g p).ents es ∧
    (Inserted e (g p).vis vs ∨ vs = (g p).vis)

theorem Inserts.find_new {g g' : Graph} {p j m : Nat} {name : Text} (h : Inserts g p e g') (hno : (g p).find e.name = none)
    (hm : (g' j).find name = some m) : (g j).find name = some m ∨ m = e.ino := by
  obtain ⟨i', es, vs, rfl, -, -, -, hvis⟩ := h.node
  by_cases hj : j = p
  swap
  · rw [update_of_ne hj] at hm; exact .inl hm
  subst hj
  rw [update_self] at hm
  unfold Node.find at hm hno ⊢
  rcases hvis with hi | rfl
  swap
  · exact .inl hm
  by_cases hname : e.name = name
  · subst hname
    rw [hi.find?_new (by simp) (map_eq_none_iff.1 hno)] at hm
    exact .inr (Option.some.inj hm).symm
  · rw [hi.find?_eq (by simpa using hname)] at hm
    exact .inl hm

/-- The name goes into a block there is, or into one more block. -/
def InsertFits (L : Layout) (v : Store) (p : Nat) (name : Text) : Prop :=
  v.inodeUsed p = true ∧ (v.inode p).isDir = true ∧ (¬ NoRoom L v p (align4 (8 + name.length)) ∨ CanGrow L v p)

/-- How many blocks the insertion takes: none where a record has room, else one for the directory, and one more if the
pointer to it is the first in the indirect block. -/
inductive InsertTakes (L : Layout) (v : Store) (p : Nat) (name : Text) : Nat → Prop
  | room : ¬ NoRoom L v p (align4 (8 + name.length)) → InsertTakes L v p name 0
  | grow : NoRoom L v p (align4 (8 + name.length)) → InsertTakes L v p name
      (if (v.inode p).iSize.toNat / L.blockSize < 12 ∨ (v.inode p).blkNo 12 ≠ 0 then 1 else 2)

theorem Frame.noRoom {w : Store} (hf : Frame aware L (some n) v w) (hne : some n ≠ some p) (hu : v.inodeUsed p = true)
    (hd : (v.inode p).isDir = true) {need : Nat} : NoRoom L w p need ↔ NoRoom L v p need := by
  refine NoRoom.congr (by rw [hf.inode p hne]) (by rw [hf.inode p hne]) fun b hb => hf.data p hne hu b ?_
  rw [Store.refs, refs_of_not_inline (inline_of_not_lnk (isLnk_of_isDir hd))]
  exact hb

theorem InsertTakes.before {w : Store} {c : Nat} (ht : InsertTakes L w p name c) (hf : Frame aware L (some n) v w) (hpn : p ≠ n)
    (hu : w.inodeUsed p = true) (hd : (w.inode p).isDir = true) : InsertTakes L v p name c := by
  have hne : some n ≠ some p := fun he => hpn (Option.some.inj he).symm
  rw [hf.used p hne] at hu
  rw [hf.inode p hne] at hd
  cases ht with
  | room h => exact .room (mt (hf.noRoom hne hu hd).2 h)
  | grow h => rw [hf.inode p hne]; exact .grow ((hf.noRoom hne hu hd).1 h)

/-- What the insertion has left alone, whether lookup sees the new entry, and the blocks taken. -/
structure Placed (aware : Bool) (L : Layout) (v : Store) (p : Nat) (e : Dent) (v' : Store) : Prop where
  fits : InsertFits L v p e.name
  frame : Frame aware L (some p) v v'
  vis : (Inserted e (v.vis L p) (v'.vis L p) ∧ SeesInsert L v p (align4 (8 + e.name.length))) ∨
    (v'.vis L p = v.vis L p ∧ ¬ SeesInsert L v p (align4 (8 + e.name.length)))
  took : ∃ c, InsertTakes L v p e.name c ∧ Took L v c v'

/-- With `c` blocks taken before it, `ext2_dir_insert` on `p` takes a block and cannot place the pointer to it: the pointers
are used up, or the indirect block cannot be had. -/
def InsertLoses (L : Layout) (v : Store) (c p : Nat) (name : Text) : Prop :=
  v.inodeUsed p = true ∧ (v.inode p).isDir = true ∧ NoRoom L v p (align4 (8 + name.length)) ∧ v.CanTake L (c + 1) ∧
  (maxBlocks L.blockSize ≤ (v.inode p).iSize.toNat / L.blockSize ∨
    12 ≤ (v.inode p).iSize.toNat / L.blockSize ∧ (v.inode p).blkNo 12 = 0 ∧ ¬ v.CanTake L (c + 2))

theorem insertLoses_of_full {g b : Nat} (hu : v.inodeUsed p = true) (hd : (v.inode p).isDir = true)
    (hno : NoRoom L v p (align4 (8 + name.length))) (hb : v.nextBlock L = some (g, b))
    (hcan : ¬ CanAdd L (v.takeBlock L g b) (v.inode p) ((v.inode p).iSize.toNat / L.blockSize)) :
    InsertLoses L v 0 p name := by
  have ht : Took L v 1 (v.takeBlock L g b) := Took.step ⟨v, rfl, .refl v⟩ hb (.refl _)
  rw [CanAdd, not_or, not_and_or, not_or, not_not, not_not, not_lt, not_lt] at hcan
  exact ⟨hu, hd, hno, ht.canTake, hcan.2.imp id fun hfull => ⟨hcan.1, hfull.1, ht.full hfull.2⟩⟩

/-- The insertion is made in `w`, which has taken `c` blocks since `v` and left the directory alone. -/
theorem InsertLoses.before {w : Store} {c : Nat} (hl : InsertLoses L w 0 p name) (ht : Took L v c w)
    (hf : Frame aware L (some n) v w) (hpn : p ≠ n) : InsertLoses L v c p name := by
  obtain ⟨hu, hd, hno, htake, hfull⟩ := hl
  have hne : some n ≠ some p := fun he => hpn (Option.some.inj he).symm
  rw [hf.used p hne] at hu
  rw [hf.inode p hne] at hd hfull
  rw [zero_add, ht.canTake_iff] at htake
  simp only [zero_add, ht.canTake_iff] at hfull
  exact ⟨hu, hd, (hf.noRoom hne hu hd).1 hno, htake, hfull⟩

theorem FsInv.grown (h : L.Ok) (inv : FsInv aware full L v) (hu : v.inodeUsed p = true) (hd : (v.inode p).isDir = true)
    {now : UInt32} (hg : GrownBy L v p e now v') (hn : Named L v e.ino) :
    FsInv aware full L v' ∧ Frame aware L (some p) v v' ∧
      v'.node L = update (v.node L) p ⟨true, v'.inode p, v'.ents L p, v'.vis L p, []⟩ := by
  have hnl : (v.inode p).inline aware = false := inline_of_not_lnk (isLnk_of_isDir hd)
  have href : v.refs aware L p = (v.inode p).blockRefs L.blockSize v.data := refs_of_not_inline hnl
  obtain ⟨g, b, v₂, i₂, hb, hadd, he⟩ := hg.added
  have hmap := inv.own.mapOk hu hnl
  obtain ⟨hf, hkeep⟩ := NewTo.take h inv.own.metaUsed (inv.own.refs_used hu hnl) hb
  -- out with the directory, take a block, place the pointer, write the block, back with the directory
  have w := (inv.own.checkout hu).start
  have hh : Holds L v (∅ ∪ {c | c ∈ v.refs aware L p}) (v.inode p) :=
    ⟨hmap.nodup, fun c hc => .inr (by rw [Set.mem_ofPred_eq, href]; exact hc)⟩
  have hrefsb : (v.inode p).blockRefs L.blockSize (v.takeBlock L g b).data = (v.inode p).blockRefs L.blockSize v.data :=
    blockRefs_congr hkeep
  obtain ⟨P', w', -, hh', hleft⟩ := (w.take h hb).added h (hh.congr (Set.subset_insert _ _) hkeep) (Set.mem_insert _ _) hf.notMem hadd
  have hbP : b ∈ P' := hh'.held b ((hadd.mem_refs h hf).2 (.inl rfl))
  have hblk : (v'.inode p).iBlock = i₂.iBlock := by rw [he]; simp [Store.setInode, Inode.touch]
  have hdat : v'.data = (v₂.setData L b (freshDirBlock L.blockSize e.name e.ino e.fileType)).data := by rw [he]; rfl
  have w'' := (w'.write hbP (freshDirBlock L.blockSize e.name e.ino e.fileType)).setInode
    ({ i₂ with iSize := i₂.iSize + UInt32.ofNat L.blockSize }.touch now)
  rw [← he] at w''
  have hd' := hg.dirAt.isDir
  have hu' : v'.inodeUsed p = true := by
    rw [he]
    change v₂.inodeUsed p = true
    rw [(hadd.rest h fun g' c hc => (hf.next g' c hc).1).2.1]
    exact hu
  -- the new block is not the indirect block, so the pointers are those of `i₂`
  have hrefs2 : (v'.inode p).blockRefs L.blockSize v'.data = i₂.blockRefs L.blockSize v₂.data := by
    rw [blockRefs_of_iBlock hblk, hdat]
    exact blockRefs_congr fun _ => update_of_ne (hadd.indirect_ne h hf (by rw [hrefsb]; exact hmap.nodup)).1 _ _
  have hents : v'.ents L p = v.ents L p ++ [e] := hg.ents
  refine ⟨inv.putBack w'' hu' (inline_of_not_lnk (isLnk_of_isDir hd')) ⟨?_, fun c hc => ?_⟩ (fun hf c hc => ?_)
    fun _ => ⟨hg.dirAt.wf, fun hf k hk => ?_, fun e' hm => ?_⟩, w''.frame, ?_⟩
  · rw [hrefs2]; exact hh'.nodup
  · rw [hrefs2] at hc; exact hh'.held c hc
  · rw [hrefs2]
    by_contra hcn
    have hz : (v.inode p).blockAt L.blockSize (v.takeBlock L g b).data ((v.inode p).iSize.toNat / L.blockSize) = 0 := by
      rw [blockAt_congr hkeep]
      exact (inv.dirs p hu hd).tail hf _ (le_refl _)
    obtain ⟨hcP, hcr, hcb⟩ := hleft hz c hc hcn
    rw [hrefsb, ← href] at hcr
    rcases hcP with hcP | hcP | hcP
    · exact hcb hcP
    · exact hcP
    · exact hcr hcP
  · rw [hg.size, add_div_right _ h.bs_pos] at hk
    rw [hg.map k (by omega)]
    exact (inv.dirs p hu hd).tail hf k (by omega)
  · rw [hents, mem_append, mem_singleton] at hm
    refine w''.frame.named (fun hn => ⟨hn.range, fun _ => .inl hu'⟩) ?_
    rcases hm with hm | rfl
    · exact (inv.dirs p hu hd).named e' hm
    · exact hn
  · rw [w''.frame.node_eq, node_dir hu' hd']

/-- **`ext2_dir_insert`** on any named inode: the entry goes in, or nothing changes except that a block may
be lost. -/
theorem FsInv.wp_dirInsert (h : L.Ok) (inv : FsInv aware full L v) (hp : Named L v p)
    (hname : 0 < name.length ∧ name.length < 256) (hn : Named L v n) (ft : UInt8) (now : UInt32)
    (hl : full = true → ¬ InsertLoses L v 0 p name) :
    wp (step L) (dirInsert L.fs p name n ft now) (fun r v' => FsInv aware full L v' ∧
      ((r = true ∧ Inserts (v.node L) p ⟨name, n, ft⟩ (v'.node L) ∧ Placed aware L v p ⟨name, n, ft⟩ v') ∨
       (r = false ∧ v'.node L = v.node L ∧ ¬ InsertFits L v p name ∧
        (v' = v ∨ InsertLoses L v 0 p name ∧ ∃ g b, v.nextBlock L = some (g, b) ∧ v' = v.takeBlock L g b)))) v := by
  by_cases hv : L.ValidIno p
  swap
  · refine wp_of_run ?_ ⟨inv, .inr ⟨rfl, rfl, fun hf => hv (inv.own.valid p hf.1), .inl rfl⟩⟩
    rw [dirInsert, run_bind, Drv.run_readInode_invalid hv]
    rfl
  by_cases hd : (v.inode p).isDir = true
  swap
  · refine wp_of_run ?_ ⟨inv, .inr ⟨rfl, rfl, fun hf => hd hf.2.1, .inl rfl⟩⟩
    rw [dirInsert, run_bind, Drv.run_readInode hv]
    dsimp only
    rw [if_pos (by simpa using hd), Prog.run_pure]
  have hu := used_of_isDir hp hv hd
  have hda := inv.dirAt hu hd
  rcases Ext2.run_dirInsert h hda ft now hname hn.range with ⟨hno, hrun⟩ | ⟨hroom, v', k, buf, hrun, he, hins, hvis⟩
  · rcases run_growDir h hda inv.own.metaUsed (inv.own.refs_used hu (inline_of_not_lnk (isLnk_of_isDir hd))) ft now
      hname.2 hn.range with ⟨hfull, hg⟩ | ⟨g, b, hb, hcan, hg⟩ | ⟨v', hg, hgrown⟩
    · refine wp_of_run (hrun.trans hg) ⟨inv, .inr ⟨rfl, rfl, fun hf => ?_, .inl rfl⟩⟩
      obtain ⟨g, b, hb, -⟩ := hf.2.2.resolve_left (not_not.2 hno)
      rw [hfull] at hb
      cases hb
    · have hlose : InsertLoses L v 0 p name := insertLoses_of_full hu hd hno hb hcan
      have hf : full = false := by
        cases full with
        | false => rfl
        | true => exact absurd hlose (hl rfl)
      have w := inv.own.start.take h hb
      have hnot : ¬ InsertFits L v p name := by
        rintro ⟨-, -, hroom | ⟨g', b', hb', hadd⟩⟩
        · exact hroom hno
        · rw [hb] at hb'
          cases hb'
          exact hcan hadd
      refine wp_of_run (hrun.trans hg)
        ⟨inv.rebuild_none ?_ w.frame, .inr ⟨rfl, w.frame.node_eq_none, hnot, .inr ⟨hlose, g, b, hb, rfl⟩⟩⟩
      subst hf
      exact w.own.forget (Set.empty_subset _)
    · obtain ⟨hinv, hframe, hnode⟩ := inv.grown h hu hd hgrown hn
      have hvis : (Inserted ⟨name, n, ft⟩ (v.vis L p) (v'.vis L p) ∧ SeesInsert L v p (align4 (8 + name.length))) ∨
          (v'.vis L p = v.vis L p ∧ ¬ SeesInsert L v p (align4 (8 + name.length))) := by
        refine hgrown.vis.imp (fun ⟨hv, hfew⟩ => ⟨?_, .inl hfew⟩) fun ⟨hv, hcap⟩ => ⟨hv, ?_⟩
        · rw [hv]
          exact Inserted.append_new _ _
        · rintro (hfew | ⟨k, -, hk, h0, r, hr, hneed⟩)
          · omega
          · exact hno k hk h0 r hr hneed
      refine wp_of_run (hrun.trans hg) ⟨hinv, .inl ⟨rfl, ⟨by simpa using hu, by simpa using hd, _, _, _, hnode,
        by simpa using hgrown.mode, by simpa using hgrown.links, ?_, ?_⟩, ⟨hu, hd, .inr hgrown.canGrow⟩, hframe, hvis, _, .grow hno, hgrown.took⟩⟩
      · rw [node_dir hu hd, hgrown.ents]
        exact Inserted.append_new _ _
      · rw [node_dir hu hd]
        exact hvis.imp And.left And.left
  · obtain ⟨hinv, hframe, hnode⟩ := inv.edited hu hd he fun e hm => by
      rcases hins.mem_iff.1 hm with rfl | hm
      · exact hn
      · exact (inv.dirs p hu hd).named e hm
    refine wp_of_run hrun ⟨hinv, .inl ⟨rfl, ⟨by simpa using hu, by simpa using hd, (v.inode p).touch now, _, _, hnode,
      by rw [node_inode]; rfl, by rw [node_inode]; rfl, ?_, ?_⟩, ⟨hu, hd, .inl hroom⟩, hframe, hvis, 0, .room hroom, v, rfl, ?_⟩⟩
    · rw [node_dir hu hd]; exact hins
    · rw [node_dir hu hd]; exact hvis.imp And.left And.left
    · rw [he.eq]; exact ⟨rfl, rfl⟩

/-- A number a function took for a directory before something was wiped: still a directory, or a wiped slot. -/
structure DirSlot (L : Layout) (v : Store) (p : Nat) : Prop where
  range : p ≠ 0 ∧ p < 4294967296
  slot : L.ValidIno p → (v.inodeUsed p = true ∧ (v.inode p).isDir = true) ∨ (v.inode p).Dead

theorem Named.dirSlot (hp : Named L v p) (hd : (v.inode p).isDir = true) : DirSlot L v p :=
  ⟨hp.range, fun hv => .inl ⟨used_of_isDir hp hv hd, hd⟩⟩

theorem Named.dirSlot_of_find (hp : Named L v p) (hf : (v.node L p).find name = some n) : DirSlot L v p := by
  refine ⟨hp.range, fun hv => (hp.slot hv).imp (fun hu => ⟨hu, ?_⟩) id⟩
  by_contra hd
  have hvis : (v.node L p).vis = [] := by simp [node, hu, hd]
  rw [Node.find, hvis] at hf
  cases hf

theorem run_scanDir_dead {β : Type} (body : Buf → Option β) {i : Inode} (hi : i.Dead) : ∀ (m b : Nat),
    run (step L) (scanDir L.fs i body m b) v = (.missing, v)
  | 0, _ => rfl
  | m + 1, b => by
    have hat : run (step L) (inodeBlockAt L.fs i b) v = (0, v) := by
      rw [run_inodeBlockAt (fun h0 => absurd (hi.2.2 12 (by decide)) h0), hi.2.2.blockAt]
    rw [scanDir, run_bind, hat]
    exact run_scanDir_dead body hi m (b + 1)

theorem FsInv.ents_nil (inv : FsInv aware full L v) (hp : L.ValidIno p → (v.inode p).isDir = false) : (v.node L p).ents = [] := by
  by_cases hu : v.inodeUsed p = true
  · simp [node, hu, hp (inv.own.valid p hu)]
  · rw [node_free (by simpa using hu)]; rfl

/-- The first entry of the name has gone. -/
structure Removes (g : Graph) (p : Nat) (name : Text) (g' : Graph) : Prop where
  used : (g p).used = true
  isDir : (g p).inode.isDir = true
  found : ∃ e ∈ (g p).ents, e.name = name
  node : ∃ now, g' = update g p
    ⟨true, (g p).inode.touch now, (g p).ents.eraseP (fun d => d.name = name), (g p).vis.eraseP (fun d => d.name = name), []⟩

/-- **`ext2_dir_remove`** drops the first entry of the name, or finds none. -/
theorem FsInv.wp_dirRemove (h : L.Ok) (inv : FsInv aware full L v) (hp : DirSlot L v p) (hname : name.length < 256)
    (now : UInt32) :
    wp (step L) (dirRemove L.fs p name now) (fun r v' => FsInv aware full L v' ∧
      ((r = true ∧ Removes (v.node L) p name (v'.node L) ∧
          ((∃ e ∈ (v.node L p).vis, e.name = name) → RoomSeen L v' p (align4 (8 + name.length)))) ∨
       (r = false ∧ v' = v ∧ ∀ e ∈ (v.node L p).ents, e.name ≠ name))) v := by
  by_cases hv : L.ValidIno p
  swap
  · refine wp_of_run ?_ ⟨inv, .inr ⟨rfl, rfl, ?_⟩⟩
    · rw [dirRemove, run_bind, Drv.run_readInode_invalid hv]
      rfl
    · rw [inv.ents_nil fun hv' => absurd hv' hv]; exact nofun
  rcases hp.slot hv with ⟨hu, hd⟩ | hdead
  · rcases run_dirRemove h (inv.dirAt hu hd) now hname with ⟨hrun, hall⟩ | ⟨v', k, buf, hrun, he, hex, hents, hvis, hroom⟩
    · refine wp_of_run hrun ⟨inv, .inr ⟨rfl, rfl, ?_⟩⟩
      rw [node_dir hu hd]; exact hall
    · obtain ⟨hinv, -, hnode⟩ := inv.edited hu hd he fun e hm => by
        rw [hents] at hm
        exact (inv.dirs p hu hd).named e (mem_of_mem_eraseP hm)
      refine wp_of_run hrun ⟨hinv, .inl ⟨rfl, ⟨by simpa using hu, by simpa using hd, ?_, now, ?_⟩, ?_⟩⟩
      · rw [node_dir hu hd]; exact hex
      · rw [hnode, node_dir hu hd, hents, hvis]
      · rw [node_dir hu hd]; exact hroom
  · refine wp_of_run ?_ ⟨inv, .inr ⟨rfl, rfl, ?_⟩⟩
    · rw [dirRemove, run_bind, Drv.run_readInode hv]
      rw [run_bind, run_scanDir_dead _ hdead]
      rfl
    · rw [inv.ents_nil fun _ => hdead.2.1]; exact nofun

/-- **`ext2_dir_set_parent`** redirects the first "..", or finds none. -/
theorem FsInv.wp_dirSetParent (inv : FsInv aware full L v) (hp : DirSlot L v p) (hn : Named L v n) :
    wp (step L) (dirSetParent L.fs p n) (fun _ v' => FsInv aware full L v' ∧
      ((v.inodeUsed p = true ∧ (v.inode p).isDir = true ∧ v'.node L = update (v.node L) p
          ⟨true, v.inode p, (v.node L p).ents.replaceF (reparent n), (v.node L p).vis.replaceF (reparent n), []⟩) ∨
        (v' = v ∧ ∀ e ∈ (v.node L p).ents, e.name ≠ dotdotName))) v := by
  by_cases hv : L.ValidIno p
  swap
  · refine wp_of_run (a := false) ?_ ⟨inv, .inr ⟨rfl, ?_⟩⟩
    · rw [dirSetParent, run_bind, Drv.run_readInode_invalid hv]
      rfl
    · rw [inv.ents_nil fun hv' => absurd hv' hv]; exact nofun
  rcases hp.slot hv with ⟨hu, hd⟩ | hdead
  · rcases run_dirSetParent (inv.dirAt hu hd) hn.range with ⟨hrun, hall⟩ | ⟨v', k, buf, hrun, he, -, hents, hvis⟩
    · refine wp_of_run hrun ⟨inv, .inr ⟨rfl, ?_⟩⟩
      rw [node_dir hu hd]; exact hall
    · obtain ⟨hinv, -, hnode⟩ := inv.edited hu hd he fun e hm => by
        rw [hents] at hm
        rcases mem_replaceF hm with hm | ⟨d, -, hde⟩
        · exact (inv.dirs p hu hd).named e hm
        · rw [reparent] at hde
          split at hde
          · cases hde; exact hn
          · cases hde
      refine wp_of_run hrun ⟨hinv, .inl ⟨hu, hd, ?_⟩⟩
      rw [hnode, node_dir hu hd, hents, hvis]
  · refine wp_of_run (a := false) ?_ ⟨inv, .inr ⟨rfl, ?_⟩⟩
    · rw [dirSetParent, run_bind, Drv.run_readInode hv]
      rw [run_bind, run_scanDir_dead _ hdead]
      rfl
    · rw [inv.ents_nil fun _ => hdead.2.1]; exact nofun

/-- **`ext2_dir_is_empty`** on a directory. -/
theorem FsInv.run_dirIsEmpty (inv : FsInv aware full L v) (hu : v.inodeUsed p = true) (hd : (v.inode p).isDir = true) :
    run (step L) (dirIsEmpty L.fs p) v = (decide (∀ e ∈ (v.node L p).ents, e.name = dotName ∨ e.name = dotdotName), v) := by
  rw [Ext2.run_dirIsEmpty (inv.dirAt hu hd), node_dir hu hd]

end
end PureUnix.Ext2
