import Mathlib.Algebra.Order.BigOperators.Group.Finset
import PureUnix.Lib.Walks
import PureUnix.Ext2.Paths

/-!
# Trees of names

In a tidy file system the names of a directory are distinct, a directory has one name apart from "." and "..", and no file has
more names than its link count says. Then every directory has one path without dots, and so has a file whose count is one. From
this follows what a change of two names does to all paths.
-/
namespace PureUnix.Ext2
open Lib List Nat Store Option Finset

def IsDot (name : Text) : Prop := name = dotName ∨ name = dotdotName

instance (name : Text) : Decidable (IsDot name) := inferInstanceAs (Decidable (_ ∨ _))

def Plain (toks : List Text) : Prop := ∀ t ∈ toks, ¬ IsDot t

instance (toks : List Text) : Decidable (Plain toks) := inferInstanceAs (Decidable (∀ t ∈ toks, ¬ IsDot t))

def components (path : Text) : List Text := tokensFrom [] path

/-- What the components name from the root on: an inode number and the contents of the file. -/
def Graph.look (g : Graph) (toks : List Text) : Option (Nat × Text) :=
  (walkNodes g EXT2_ROOT_INODE toks).map fun n => (n, (g n).bytes)

def Graph.nameCount (L : Layout) (g : Graph) (n : Nat) : Nat :=
  ∑ p ∈ Finset.range (L.totalInodes + 1), (g p).ents.countP fun e => e.ino = n

/-- What is true of the meaning of any store. -/
structure Graph.Formed (L : Layout) (g : Graph) : Prop where
  vis : ∀ p, (g p).vis.Sublist (g p).ents
  dir : ∀ p, ∀ e ∈ (g p).ents, L.ValidIno p ∧ (g p).used = true ∧ (g p).inode.isDir = true
  bytes : ∀ p, (g p).inode.isDir = true → (g p).bytes = []

structure Tidy (L : Layout) (g : Graph) : Prop where
  live : ∀ p, ∀ e ∈ (g p).ents, (g e.ino).used = true
  names : ∀ p, ((g p).ents.map Dent.name).Nodup
  links : ∀ n, (g n).used = true → (g n).inode.isDir = false → g.nameCount L n ≤ (g n).inode.iLinksCount.toNat
  one : ∀ p p', ∀ e ∈ (g p).ents, ∀ e' ∈ (g p').ents, e.ino = e'.ino → (g e.ino).inode.isDir = true → ¬ IsDot e.name → ¬ IsDot e'.name →
    p = p' ∧ e.name = e'.name
  root : ∀ p, ∀ e ∈ (g p).ents, e.ino = EXT2_ROOT_INODE → IsDot e.name

/-! ## Components -/

theorem components_split {path parent leaf : Text} (h : splitParentLeaf path = some (parent, leaf)) (g : Graph) :
    components path = components parent ++ [leaf] ∧ pathNode g parent = walkNodes g EXT2_ROOT_INODE (components parent) := by
  obtain ⟨hs, hne, ⟨rfl, rfl⟩ | ⟨dir, hfit, rfl, rfl⟩⟩ := splitParentLeaf_cases h
  · refine ⟨?_, rfl⟩
    change tokensFrom [] ([] ++ slash :: leaf) = _
    rw [tokens_append_slash, tokens_of_notMem hs hne]
    rfl
  · constructor
    · rw [components, tokens_append_slash, tokens_of_notMem hs hne]
      rfl
    · rw [pathNode_eq_walk rfl, pathTokens, drop_one, tail_cons, take_of_length_le (by omega)]
      rfl

theorem walkNodes_eq_walk (g : Graph) (cur : Nat) (toks : List Text) :
    walkNodes g cur toks = walk (fun p => (g p).find) cur toks := by
  induction toks generalizing cur with
  | nil => rfl
  | cons tok toks ih =>
    rw [walkNodes, walk]
    cases (g cur).find tok with
    | none => rfl
    | some next => exact ih next

/-! ## One path to each directory -/

section
variable {L : Layout} {g g' : Graph} {p p' n m : Nat} {name name' : Text} {toks toks' : List Text}

theorem Store.vis_sublist (v : Store) : (v.vis L p).Sublist (v.ents L p) := by
  exact (range_sublist.2 (min_le_left _ _)).flatMap _

theorem Store.formed {aware full : Bool} {v : Store} (inv : FsInv aware full L v) : Graph.Formed L (v.node L) := by
  refine ⟨fun p => ?_, fun p e he => ?_, fun p hd => ?_⟩
  · unfold Store.node
    split
    · split
      · exact v.vis_sublist
      · exact List.Sublist.refl _
    · exact List.Sublist.refl _
  · by_cases hu : v.inodeUsed p = true
    · refine ⟨inv.own.valid p hu, by rw [node_used]; exact hu, ?_⟩
      by_contra hd
      rw [node_inode] at hd
      simp [Store.node, hu, hd] at he
    · rw [node_free (by simpa using hu)] at he
      cases he
  · rw [node_inode] at hd
    by_cases hu : v.inodeUsed p = true
    · rw [node_dir hu hd]
    · rw [node_free (by simpa using hu)]
      rfl

theorem Graph.Formed.entry (hg : g.Formed L) (h : (g p).find name = some n) : ∃ e ∈ (g p).ents, e.name = name ∧ e.ino = n := by
  obtain ⟨e, he, h1, h2⟩ := Node.find_mem h
  exact ⟨e, (hg.vis p).subset he, h1, h2⟩

namespace Tidy

theorem tree (ht : Tidy L g) (hg : g.Formed L) :
    Tree (fun p => (g p).find) (fun name => ¬ IsDot name) (fun p => (g p).inode.isDir = true) EXT2_ROOT_INODE where
  inner_of_edge hf := by
    obtain ⟨e, he, -⟩ := hg.entry hf
    exact (hg.dir _ e he).2.2
  one hf hf' hc hc' hd := by
    obtain ⟨e, he, rfl, rfl⟩ := hg.entry hf
    obtain ⟨e', he', rfl, hi⟩ := hg.entry hf'
    exact ht.one _ _ e he e' he' hi.symm hd hc hc'
  root hf := by
    obtain ⟨e, he, rfl, hi⟩ := hg.entry hf
    exact not_not.2 (ht.root _ e he hi)

/-- **A directory has one path without dots.** -/
theorem walk_unique (ht : Tidy L g) (hg : g.Formed L) (hp : Plain toks) (hp' : Plain toks')
    (hw : walkNodes g EXT2_ROOT_INODE toks = some n) (hw' : walkNodes g EXT2_ROOT_INODE toks' = some n)
    (hd : (g n).inode.isDir = true) : toks = toks' := by
  rw [walkNodes_eq_walk] at hw hw'
  exact (ht.tree hg).walk_inj hp hp' hw hw' hd

theorem countP_pos {l : List Dent} {e : Dent} (he : e ∈ l) : 0 < l.countP fun d => d.ino = e.ino :=
  countP_pos_iff.2 ⟨e, he, by simp⟩

theorem two_le_countP {l : List Dent} {e e' : Dent} (he : e ∈ l) (he' : e' ∈ l) (hi : e'.ino = e.ino) (hne : e.name ≠ e'.name) :
    2 ≤ l.countP fun d => d.ino = e.ino := by
  obtain ⟨l₁, l₂, rfl⟩ := append_of_mem he
  have hmem : e' ∈ l₁ ++ l₂ := by
    rcases mem_append.1 he' with h | h
    · exact mem_append_left _ h
    · rcases mem_cons.1 h with rfl | h
      · exact absurd rfl hne
      · exact mem_append_right _ h
  have hpos := countP_pos hmem
  rw [hi, countP_append] at hpos
  rw [countP_append, countP_cons_of_pos (by simp)]
  omega

theorem entry_unique (ht : Tidy L g) (hg : g.Formed L) (hd : (g n).inode.isDir = false) (hl : (g n).inode.iLinksCount.toNat ≤ 1)
    (hf : (g p).find name = some n) (hf' : (g p').find name' = some n) : p = p' ∧ name = name' := by
  obtain ⟨e, he, rfl, rfl⟩ := hg.entry hf
  obtain ⟨e', he', rfl, hi⟩ := hg.entry hf'
  have hle := ht.links e.ino (ht.live p e he) hd
  have hmem : ∀ q, ∀ d ∈ (g q).ents, q ∈ Finset.range (L.totalInodes + 1) := fun q d hd =>
    Finset.mem_range.2 (lt_succ_of_le (hg.dir q d hd).1.2)
  have hpos := countP_pos he
  have hpos' := hi ▸ countP_pos he'
  have hpp : p = p' := by
    by_contra hpp
    have hsum := add_le_sum (f := fun q => (g q).ents.countP fun d => d.ino = e.ino) (fun _ _ => zero_le _)
      (hmem p e he) (hmem p' e' he') hpp
    unfold Graph.nameCount at hle
    omega
  subst hpp
  refine ⟨rfl, ?_⟩
  by_contra hne
  have htwo := two_le_countP he he' hi hne
  have hsum := single_le_sum (f := fun q => (g q).ents.countP fun d => d.ino = e.ino) (fun _ _ => zero_le _) (hmem p e he)
  unfold Graph.nameCount at hle
  omega

end Tidy

/-! ## A name moves -/

/-- Outside `K` lookup finds what it found, and outside `B` the contents are what they were. -/
structure Keeps (K : Nat → Text → Prop) (B : Nat → Prop) (g g' : Graph) : Prop where
  find : ∀ j name, ¬ K j name → (g' j).find name = (g j).find name
  bytes : ∀ j, ¬ B j → (g' j).bytes = (g j).bytes

/-- Where a move starts and ends, in a tidy graph: `oldLeaf` in `oldDir` names `n`, and what stands under `newLeaf` in `newDir`, if
anything, is another inode with nothing below it. -/
structure MoveEnds (L : Layout) (g : Graph) (oldDir newDir : List Text) (oldLeaf newLeaf : Text) (po pn n : Nat) : Prop where
  tidy : Tidy L g
  formed : g.Formed L
  oldPlain : Plain (oldDir ++ [oldLeaf])
  newPlain : Plain (newDir ++ [newLeaf])
  oldWalk : walkNodes g EXT2_ROOT_INODE oldDir = some po
  newWalk : walkNodes g EXT2_ROOT_INODE newDir = some pn
  found : (g po).find oldLeaf = some n
  isDir : (g pn).inode.isDir = true
  outside : ¬ oldDir ++ [oldLeaf] <+: newDir
  free : ∀ m, (g pn).find newLeaf = some m → m ≠ n ∧ ∀ e ∈ (g m).vis, IsDot e.name

/-- The old name has gone, the new one finds `r`, and the inodes `gone`, which had no other name, have been wiped. -/
structure Relinked (g : Graph) (po : Nat) (oldLeaf : Text) (pn : Nat) (newLeaf : Text) (gone : Nat → Prop) (r : Option Nat)
    (g' : Graph) : Prop where
  single : ∀ m, gone m → (g pn).find newLeaf = some m ∧ ((g m).inode.isDir = false → (g m).inode.iLinksCount.toNat ≤ 1)
  keeps : Keeps (fun j name => IsDot name ∨ (j = po ∧ name = oldLeaf) ∨ (j = pn ∧ name = newLeaf) ∨ gone j) gone g g'
  new : (g' pn).find newLeaf = r
  old : (g' po).find oldLeaf = none

theorem Plain.left {as bs : List Text} (h : Plain (as ++ bs)) : Plain as := fun t ht => h t (mem_append_left _ ht)

theorem look_snoc (g : Graph) (dir : List Text) (leaf : Text) (hw : walkNodes g EXT2_ROOT_INODE dir = some p) :
    g.look (dir ++ [leaf]) = ((g p).find leaf).map fun n => (n, (g n).bytes) := by
  rw [Graph.look, walkNodes_append, hw, bind_some, walkNodes_single]

namespace Relinked
variable {oldDir newDir : List Text} {oldLeaf newLeaf : Text} {po pn : Nat} {gone : Nat → Prop} {r : Option Nat}

theorem not_prefix_self (dir : List Text) (leaf : Text) : ¬ dir ++ [leaf] <+: dir := fun h => by
  have := h.length_le
  rw [length_append, length_singleton] at this
  omega

section
variable (he : MoveEnds L g oldDir newDir oldLeaf newLeaf po pn n) (hr : Relinked g po oldLeaf pn newLeaf gone r g')
include he hr

/-- A wiped inode was reached by the new path alone. -/
theorem reached (hm : gone m)
    (hp : Plain toks) (hw : walkNodes g EXT2_ROOT_INODE toks = some m) : toks = newDir ++ [newLeaf] := by
  obtain ⟨hf, hl⟩ := hr.single m hm
  cases hd : (g m).inode.isDir with
  | true =>
    refine he.tidy.walk_unique he.formed hp he.newPlain hw ?_ hd
    rw [walkNodes_append, he.newWalk, bind_some, walkNodes_single, hf]
  | false =>
    cases toks using reverseRecOn with
    | nil =>
      obtain rfl : EXT2_ROOT_INODE = m := Option.some.inj hw
      obtain ⟨e, hmem, rfl, hi⟩ := he.formed.entry hf
      exact absurd (he.tidy.root pn e hmem hi) (he.newPlain e.name (by simp))
    | append_singleton dir leaf =>
      rw [walkNodes_append] at hw
      obtain ⟨q, hq, hwq⟩ := bind_eq_some_iff.1 hw
      rw [walkNodes_single] at hwq
      obtain ⟨rfl, rfl⟩ := he.tidy.entry_unique he.formed hd (hl hd) hwq hf
      rw [he.tidy.walk_unique he.formed hp.left he.newPlain.left hq he.newWalk he.isDir]

/-- Only paths that start with the old or the new one lead elsewhere. -/
theorem walk_eq (hp : Plain toks) (hold : ¬ oldDir ++ [oldLeaf] <+: toks) (hnew : ¬ newDir ++ [newLeaf] <+: toks) :
    walkNodes g' EXT2_ROOT_INODE toks = walkNodes g EXT2_ROOT_INODE toks := by
  rw [walkNodes_eq_walk, walkNodes_eq_walk]
  refine walk_congr fun pre tok post q htoks hw => hr.keeps.find q tok ?_
  subst htoks
  rw [← walkNodes_eq_walk] at hw
  have hpo : (g po).inode.isDir = true := (he.tidy.tree he.formed).inner_of_edge he.found
  rintro (hdot | ⟨rfl, rfl⟩ | ⟨rfl, rfl⟩ | hgone)
  · exact hp tok (by simp) hdot
  · rw [he.tidy.walk_unique he.formed hp.left he.oldPlain.left hw he.oldWalk hpo] at hold
    exact hold ⟨post, by simp⟩
  · rw [he.tidy.walk_unique he.formed hp.left he.newPlain.left hw he.newWalk he.isDir] at hnew
    exact hnew ⟨post, by simp⟩
  · rw [hr.reached he hgone hp.left hw] at hnew
    exact hnew (prefix_append _ _)

/-- **Every other path names what it did.** -/
theorem look_other
    (hp : Plain toks) (hold : ¬ oldDir ++ [oldLeaf] <+: toks) (hnew : ¬ newDir ++ [newLeaf] <+: toks) : g'.look toks = g.look toks := by
  rw [Graph.look, Graph.look, hr.walk_eq he hp hold hnew]
  cases hw : walkNodes g EXT2_ROOT_INODE toks with
  | none => rfl
  | some q =>
    have hq : ¬ gone q := fun hgone => hnew (by rw [hr.reached he hgone hp hw])
    rw [map_some, map_some, hr.keeps.bytes q hq]

/-- **The new path names what the old one did**, if the entry is found at all. -/
theorem look_new : g'.look (newDir ++ [newLeaf]) = r.map fun k => (k, (g' k).bytes) := by
  have hw : walkNodes g' EXT2_ROOT_INODE newDir = some pn := by
    rw [hr.walk_eq he he.newPlain.left he.outside (not_prefix_self _ _), he.newWalk]
  rw [look_snoc g' newDir newLeaf hw, hr.new]

theorem bytes_moved : (g' n).bytes = (g n).bytes :=
  hr.keeps.bytes n fun hgone => (he.free n (hr.single n hgone).1).1 rfl

/-- **The old path names nothing.** -/
theorem look_old : g'.look (oldDir ++ [oldLeaf]) = none := by
  -- the new path is no part of the way: nothing is below it
  have hnew : ¬ newDir ++ [newLeaf] <+: oldDir := by
    rintro ⟨rest, rfl⟩
    have hw := he.oldWalk
    rw [walkNodes_append, walkNodes_append, he.newWalk, bind_some, walkNodes_single] at hw
    obtain ⟨m, hm, hrest⟩ := bind_eq_some_iff.1 hw
    have hvis := (he.free m hm).2
    have hstep : ∃ tok k, ¬ IsDot tok ∧ (g m).find tok = some k := by
      cases rest with
      | nil =>
        obtain rfl : m = po := Option.some.inj hrest
        exact ⟨oldLeaf, n, he.oldPlain oldLeaf (by simp), he.found⟩
      | cons tok rest =>
        rw [walkNodes] at hrest
        cases hf : (g m).find tok with
        | none => rw [hf] at hrest; cases hrest
        | some k => exact ⟨tok, k, he.oldPlain tok (by simp), hf⟩
    obtain ⟨tok, k, hdot, hf⟩ := hstep
    obtain ⟨e, hmem, rfl, -⟩ := Node.find_mem hf
    exact hdot (hvis e hmem)
  have hw : walkNodes g' EXT2_ROOT_INODE oldDir = some po := by
    rw [hr.walk_eq he he.oldPlain.left (not_prefix_self _ _) hnew, he.oldWalk]
  rw [look_snoc g' oldDir oldLeaf hw, hr.old]
  rfl

end

end Relinked

end
end PureUnix.Ext2
