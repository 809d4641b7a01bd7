import PureUnix.Ext2.BlockRefs
import PureUnix.Ext2.Dir

/-!
# What the directory functions do

A directory as the list of its live entries, block by block (`Inode.dirEntries`), and the part of
it that `ext2_iter_blocks` reaches (`Inode.visibleEntries`): insertion, removal, the emptiness test and
`ext2_dir_set_parent` see all blocks, lookup and enumeration the first 268.

Each function has one specification on a directory that is tiled block by block (`DirWf`) and whose
pointers are distinct data blocks (`MapOk`); nothing is asked of the rest of the file system.
-/
namespace PureUnix.Ext2
open Lib List Store
open Nat
open Store (ext step)
open Inode

variable {k b n need : Nat} {i' : Inode} {data' : Nat → Buf} {buf : Buf} {v' : Store} {e : Dent}

/-! ## Entries of a directory -/

def blockEntries (bs : Nat) (data : Nat → Buf) (b : Nat) : List Dent := if b = 0 then [] else entries bs (data b)

namespace Inode

/-- Live entries of the first `n` blocks. -/
def entriesUpTo (bs : Nat) (data : Nat → Buf) (i : Inode) (n : Nat) : List Dent :=
  (List.range n).flatMap fun k => blockEntries bs data (i.blockAt bs data k)

def dirEntries (bs : Nat) (data : Nat → Buf) (i : Inode) : List Dent := i.entriesUpTo bs data (i.iSize.toNat / bs)

/-- The entries lookup and enumeration see. -/
def visibleEntries (bs : Nat) (data : Nat → Buf) (i : Inode) : List Dent :=
  i.entriesUpTo bs data (min (i.iSize.toNat / bs) (iterCap bs))

end Inode

/-- Blocks in full, each tiled by records. -/
structure DirWf (bs : Nat) (data : Nat → Buf) (i : Inode) : Prop where
  size : i.iSize.toNat % bs = 0
  tiled : ∀ k, k < i.iSize.toNat / bs → i.blockAt bs data k ≠ 0 → Tiled bs (data (i.blockAt bs data k))

/-- Distinct references, all to data blocks. -/
structure MapOk (L : Layout) (data : Nat → Buf) (i : Inode) : Prop where
  nodup : (i.blockRefs L.blockSize data).Nodup
  data : ∀ b ∈ i.blockRefs L.blockSize data, L.Data b

namespace MapOk
variable {L : Layout} {data : Nat → Buf} {i : Inode}

theorem indirect (h : MapOk L data i) (h0 : i.blkNo 12 ≠ 0) : L.Data (i.blkNo 12) :=
  h.data _ (indirect_mem_refs h0)

theorem blockAt (h : MapOk L data i) (h0 : i.blockAt L.blockSize data k ≠ 0) :
    L.Data (i.blockAt L.blockSize data k) := h.data _ (blockAt_mem_refs h0)

end MapOk

section
variable {bs n : Nat} {data : Nat → Buf} {i : Inode} {d : Dent}

theorem entries_ino {b : Buf} (h : Tiled bs b) (hd : d ∈ entries bs b) : d.ino ≠ 0 ∧ d.ino < 4294967296 := by
  obtain ⟨r, hr, hrd⟩ := mem_live.1 hd
  obtain ⟨pre, post, he⟩ := append_of_mem hr
  unfold Tiled at h
  rw [he] at h
  rw [← (chain_at h).1] at hrd
  obtain ⟨h0, rfl⟩ := recAt_dent hrd
  exact ⟨h0, get32_lt _ _⟩

theorem Inode.entriesUpTo_congr (h : ∀ k, k < n → i'.blockAt bs data' k = i.blockAt bs data k ∧
      (i.blockAt bs data k ≠ 0 → data' (i.blockAt bs data k) = data (i.blockAt bs data k))) :
    i'.entriesUpTo bs data' n = i.entriesUpTo bs data n := by
  have hk : ∀ k ∈ range n, blockEntries bs data' (i'.blockAt bs data' k) = blockEntries bs data (i.blockAt bs data k) := by
    intro k hk
    obtain ⟨h1, h2⟩ := h k (mem_range.1 hk)
    unfold blockEntries
    rw [h1]
    split
    · rfl
    · rename_i h0; rw [h2 h0]
  exact flatMap_congr hk

theorem Inode.entriesUpTo_succ (n : Nat) : i.entriesUpTo bs data (n + 1) =
    i.entriesUpTo bs data n ++ blockEntries bs data (i.blockAt bs data n) := by
  unfold Inode.entriesUpTo
  rw [range_succ, flatMap_append, flatMap_singleton]

theorem mem_entriesUpTo : d ∈ i.entriesUpTo bs data n ↔
    ∃ k, k < n ∧ i.blockAt bs data k ≠ 0 ∧ d ∈ entries bs (data (i.blockAt bs data k)) := by
  simp only [Inode.entriesUpTo, mem_flatMap, mem_range, blockEntries]
  constructor
  · rintro ⟨k, hk, hd⟩
    split at hd
    · cases hd
    · exact ⟨k, hk, ‹_›, hd⟩
  · rintro ⟨k, hk, h0, hd⟩
    exact ⟨k, hk, by rw [if_neg h0]; exact hd⟩

theorem Inode.entriesUpTo_mono {m : Nat} (h : m ≤ n) (hd : d ∈ i.entriesUpTo bs data m) : d ∈ i.entriesUpTo bs data n := by
  obtain ⟨k, hk, h0⟩ := mem_entriesUpTo.1 hd
  exact mem_entriesUpTo.2 ⟨k, by omega, h0⟩

theorem range_split (h : k < n) : ∃ rest, range n = range k ++ k :: rest ∧ ∀ j ∈ rest, k < j := by
  refine ⟨(range (n - k - 1)).map (k + 1 + ·), ?_, ?_⟩
  · obtain ⟨m, rfl⟩ : ∃ m, n = k + 1 + m := ⟨n - k - 1, by omega⟩
    rw [range_add, range_succ, append_assoc, show k + 1 + m - k - 1 = m by omega]
    rfl
  · intro j hj
    obtain ⟨x, -, rfl⟩ := mem_map.1 hj
    omega

variable (bs) in
theorem entriesUpTo_split (h : k < n) : ∃ rest : List Nat, (∀ j ∈ rest, k < j) ∧
    ∀ (data : Nat → Buf) (i : Inode), i.entriesUpTo bs data n = i.entriesUpTo bs data k ++
      (blockEntries bs data (i.blockAt bs data k) ++ rest.flatMap fun j => blockEntries bs data (i.blockAt bs data j)) := by
  obtain ⟨rest, hr, hlt⟩ := range_split h
  refine ⟨rest, hlt, fun data i => ?_⟩
  unfold Inode.entriesUpTo
  rw [hr, flatMap_append, flatMap_cons]

section update
variable {k : Nat} {buf : Buf} (hn : (i.blockRefs bs data).Nodup) (h0 : i.blockAt bs data k ≠ 0)
include hn h0

theorem blockAt_update (j : Nat) : i.blockAt bs (update data (i.blockAt bs data k) buf) j = i.blockAt bs data j := by
  refine blockAt_congr (fun _ => ?_) j
  rw [update_of_ne ((nodup_blockRefs.1 hn).2 k h0).symm]

omit h0 in
theorem blockEntries_update {j : Nat} (hj : j ≠ k) :
    blockEntries bs (update data (i.blockAt bs data k) buf) (i.blockAt bs data j) =
      blockEntries bs data (i.blockAt bs data j) := by
  unfold blockEntries
  split
  · rfl
  · rw [update_of_ne]
    intro he
    exact hj ((nodup_blockRefs.1 hn).1 j k ‹_› he)

variable (buf) in
theorem entriesUpTo_update (hk : k < n) : ∃ C, i.entriesUpTo bs data n =
      i.entriesUpTo bs data k ++ (entries bs (data (i.blockAt bs data k)) ++ C) ∧
    i.entriesUpTo bs (update data (i.blockAt bs data k) buf) n = i.entriesUpTo bs data k ++ (entries bs buf ++ C) := by
  obtain ⟨rest, hlt, hsplit⟩ := entriesUpTo_split bs hk
  refine ⟨rest.flatMap fun j => blockEntries bs data (i.blockAt bs data j), ?_, ?_⟩
  · rw [hsplit data i, blockEntries, if_neg h0]
  · rw [hsplit _ i]
    congr 1
    · unfold Inode.entriesUpTo
      refine flatMap_congr fun j hj => ?_
      have := mem_range.1 hj
      rw [blockAt_update hn h0, blockEntries_update hn (by omega)]
    · rw [blockAt_update hn h0, blockEntries, if_neg h0, update_self]
      congr 1
      refine flatMap_congr fun j hj => ?_
      have := hlt j hj
      rw [blockAt_update hn h0, blockEntries_update hn (by omega)]

theorem entriesUpTo_update_out (hk : n ≤ k) :
    i.entriesUpTo bs (update data (i.blockAt bs data k) buf) n = i.entriesUpTo bs data n := by
  refine flatMap_congr fun j hj => ?_
  have := mem_range.1 hj
  rw [blockAt_update hn h0, blockEntries_update hn (by omega)]

theorem DirWf.update (h : DirWf bs data i) (ht : Tiled bs buf) : DirWf bs (update data (i.blockAt bs data k) buf) i := by
  refine ⟨h.size, fun j hj hj0 => ?_⟩
  rw [blockAt_update hn h0] at hj0 ⊢
  by_cases he : i.blockAt bs data j = i.blockAt bs data k
  · rw [he, update_self]; exact ht
  · rw [update_of_ne he]; exact h.tiled j hj hj0

end update
end

/-! ## Lookup -/

section
variable {L : Layout} {v : Store} {ino bs : Nat} {name : Text} {data : Nat → Buf} {i : Inode}

/-- The answer of `lookup_in_block`, as a function. -/
def lookupStep (bs : Nat) (data : Nat → Buf) (name : Text) (b found : Nat) : Int × Nat :=
  if b = 0 then (0, found)
  else match lookupBlock bs (data b) name with
    | some ino => (1, ino)
    | none => (0, found)

theorem run_lookupInBlock {found : Nat} (hb : b ≠ 0 → L.Data b) :
    run (step L) (lookupInBlock L.fs name b found) v = (lookupStep L.blockSize v.data name b found, v) := by
  unfold lookupInBlock lookupStep
  by_cases h0 : b = 0
  · rw [if_pos h0, if_pos h0, run_pure]
  · rw [if_neg h0, if_neg h0, run_bind, Drv.run_readBlock h0 (hb h0)]
    dsimp only
    cases lookupBlock L.blockSize (v.data b) name <;> rfl

theorem foldVisits_lookup (hn : name.length < 256) : ∀ (blks : List Nat), (∀ b ∈ blks, b ≠ 0 → Tiled bs (data b)) →
      foldVisits (lookupStep bs data name) blks 0 =
        match (blks.flatMap (blockEntries bs data)).find? (fun d => d.name = name) with
        | some d => (1, d.ino)
        | none => (0, 0)
  | [], _ => rfl
  | b :: blks, ht => by
    have ih := foldVisits_lookup hn blks fun c hc => ht c (by simp [hc])
    rw [flatMap_cons, find?_append]
    by_cases h0 : b = 0
    · have hs : lookupStep bs data name b 0 = (0, 0) := if_pos h0
      rw [foldVisits_go (by rw [hs]), hs, ih, blockEntries, if_pos h0]
      rfl
    have hl := lookupBlock_eq (ht b (by simp) h0) hn
    rw [blockEntries, if_neg h0]
    change lookupBlock bs (data b) name = ((entries bs (data b)).find? _).map Dent.ino at hl
    cases hf : (entries bs (data b)).find? (fun d => d.name = name) with
    | none =>
      have hs : lookupStep bs data name b 0 = (0, 0) := by
        rw [lookupStep, if_neg h0, hl, hf]; rfl
      rw [foldVisits_go (by rw [hs]), hs, ih, Option.none_or]
    | some d =>
      have hs : lookupStep bs data name b 0 = (1, d.ino) := by
        rw [lookupStep, if_neg h0, hl, hf]; rfl
      rw [foldVisits_stop (by rw [hs]; exact one_ne_zero), hs, Option.some_or]

theorem ceil_of_mod (hbs : 0 < bs) (hn : n % bs = 0) : (n + bs - 1) / bs = n / bs := by
  obtain ⟨m, rfl⟩ := Nat.dvd_of_mod_eq_zero hn
  rw [Nat.mul_div_cancel_left _ hbs, Nat.add_sub_assoc hbs, Nat.mul_add_div hbs, Nat.div_eq_of_lt (by omega), Nat.add_zero]

/-- Lookup misses nothing by stopping early when there is no indirect block. -/
theorem visits_entries (hbs : 0 < bs) (hs : i.iSize.toNat % bs = 0) :
    (i.visits bs data i.iSize.toNat).flatMap (blockEntries bs data) = i.visibleEntries bs data := by
  rw [visits_eq, ceil_of_mod hbs hs, flatMap_map]
  by_cases h0 : i.blkNo 12 = 0
  · rw [if_pos h0]
    unfold Inode.visibleEntries
    have key : ∀ m, 12 ≤ m → i.entriesUpTo bs data m = i.entriesUpTo bs data 12 := by
      intro m hm
      induction m, hm using le_induction with
      | base => rfl
      | succ m hm ih =>
        rw [entriesUpTo_succ, ih, blockAt_no_indirect h0 hm, blockEntries, if_pos rfl, append_nil]
    have hcap : 12 ≤ iterCap bs := by unfold iterCap; omega
    by_cases h12 : i.iSize.toNat / bs ≤ 12
    · rw [min_eq_left h12, min_eq_left (by omega)]
      rfl
    · rw [min_eq_right (by omega), key (min _ _) (by omega)]
      rfl
  · rw [if_neg h0]
    rfl

/-- A directory: a valid number, and an inode that is a well-formed directory. -/
structure DirAt (L : Layout) (v : Store) (ino : Nat) : Prop where
  valid : L.ValidIno ino
  isDir : (v.inode ino).isDir = true
  map : MapOk L v.data (v.inode ino)
  wf : DirWf L.blockSize v.data (v.inode ino)

theorem mem_visits (hbs : 0 < bs) (hs : i.iSize.toNat % bs = 0)
    (hb : b ∈ i.visits bs data i.iSize.toNat) : ∃ k, k < i.iSize.toNat / bs ∧ i.blockAt bs data k = b := by
  rw [visits_eq, ceil_of_mod hbs hs] at hb
  obtain ⟨k, hk, rfl⟩ := mem_map.1 hb
  have h1 := mem_range.1 hk
  exact ⟨k, by omega, rfl⟩

def Store.ents (L : Layout) (v : Store) (ino : Nat) : List Dent := (v.inode ino).dirEntries L.blockSize v.data

/-- The entries of `ino` that lookup sees. -/
def Store.vis (L : Layout) (v : Store) (ino : Nat) : List Dent := (v.inode ino).visibleEntries L.blockSize v.data

theorem run_dirLookup_not (hd : L.ValidIno ino → (v.inode ino).isDir = false) :
    run (step L) (dirLookup L.fs ino name) v = (none, v) := by
  unfold dirLookup
  by_cases hi : L.ValidIno ino
  · rw [run_bind, Drv.run_readInode hi]
    dsimp only
    rw [if_pos (hd hi), run_pure]
  · rw [run_bind, Drv.run_readInode_invalid hi]
    rfl

/-- **`ext2_dir_lookup`** answers with the first visible entry of the name. -/
theorem run_dirLookup (h : L.Ok) (hd : DirAt L v ino) (hn : name.length < 256) : run (step L) (dirLookup L.fs ino name) v =
      (((v.vis L ino).find? fun d => d.name = name).map Dent.ino, v) := by
  have hfold := foldVisits_lookup hn ((v.inode ino).visits L.blockSize v.data (v.inode ino).iSize.toNat) (fun b hb h0 => by
    obtain ⟨k, hk, rfl⟩ := mem_visits h.bs_pos hd.wf.size hb
    exact hd.wf.tiled k hk h0)
  rw [visits_entries h.bs_pos hd.wf.size] at hfold
  have hrun := run_iterBlocks (lookupInBlock L.fs name) h.bs_pos (v.inode ino) (v.inode ino).iSize.toNat 0
    hd.map.indirect (fun b hb s => run_lookupInBlock fun h0 => by
      obtain ⟨k, -, rfl⟩ := mem_visits h.bs_pos hd.wf.size hb
      exact hd.map.blockAt h0)
  unfold dirLookup
  rw [run_bind, Drv.run_readInode hd.valid]
  dsimp only
  rw [if_neg (by rw [hd.isDir]; decide), run_bind, hrun, hfold, Store.vis]
  cases hf : ((v.inode ino).visibleEntries L.blockSize v.data).find? (fun d => d.name = name) with
  | none => rfl
  | some d =>
    -- a live entry has a non-zero inode number, so `found_ino != 0` holds
    have hmem := mem_of_find?_eq_some hf
    obtain ⟨k, hk, h0, hdk⟩ := mem_entriesUpTo.1 hmem
    have hino := (entries_ino (hd.wf.tiled k (by omega) h0) hdk).1
    rw [if_pos ⟨rfl, hino⟩]
    rfl

/-! ## Scans over all blocks -/

/-- How a scan of `n` blocks from block `b` ends. -/
def ScanEnds {β : Type} (L : Layout) (v : Store) (i : Inode) (body : Buf → Option β) (n b : Nat) (out : Scan β × Store) : Prop :=
  (out = (.missing, v) ∧ ∀ k, b ≤ k → k < b + n → i.blockAt L.blockSize v.data k ≠ 0 →
    body (v.data (i.blockAt L.blockSize v.data k)) = none) ∨
  ∃ k x, out = (.found (i.blockAt L.blockSize v.data k) x, v) ∧ b ≤ k ∧ k < b + n ∧ i.blockAt L.blockSize v.data k ≠ 0 ∧
    body (v.data (i.blockAt L.blockSize v.data k)) = some x ∧
    ∀ j, b ≤ j → j < k → i.blockAt L.blockSize v.data j ≠ 0 → body (v.data (i.blockAt L.blockSize v.data j)) = none

theorem run_scanDir {β : Type} (body : Buf → Option β) (hm : MapOk L v.data i) (n : Nat) : ∀ b,
    ScanEnds L v i body n b (run (step L) (scanDir L.fs i body n b) v) := by
  induction n with
  | zero => exact fun b => .inl ⟨rfl, fun k h1 h2 => by omega⟩
  | succ n ih =>
    intro b
    have hat := run_inodeBlockAt (v := v) hm.indirect b
    -- what is left to scan when block `b` does not answer
    have hnext : run (step L) (scanDir L.fs i body (n + 1) b) v = run (step L) (scanDir L.fs i body n (b + 1)) v →
        (i.blockAt L.blockSize v.data b ≠ 0 → body (v.data (i.blockAt L.blockSize v.data b)) = none) →
        ScanEnds L v i body (n + 1) b (run (step L) (scanDir L.fs i body (n + 1) b) v) := by
      intro he hb
      rw [he]
      rcases ih (b + 1) with ⟨hr, hall⟩ | ⟨k, x, hr, h1, h2, h3, h4, h5⟩
      · refine .inl ⟨hr, fun k hk1 hk2 hk0 => ?_⟩
        rcases eq_or_lt_of_le hk1 with rfl | hlt
        · exact hb hk0
        · exact hall k hlt (by omega) hk0
      · refine .inr ⟨k, x, hr, by omega, by omega, h3, h4, fun j hj1 hj2 hj0 => ?_⟩
        rcases eq_or_lt_of_le hj1 with rfl | hlt
        · exact hb hj0
        · exact h5 j hlt hj2 hj0
    by_cases h0 : i.blockAt L.blockSize v.data b = 0
    · refine hnext ?_ fun h => absurd h0 h
      rw [scanDir, run_bind, hat]
      rw [if_pos h0]
    have hread := Drv.run_readBlock (v := v) h0 (hm.blockAt h0)
    cases hb : body (v.data (i.blockAt L.blockSize v.data b)) with
    | none =>
      refine hnext ?_ fun _ => hb
      rw [scanDir, run_bind, hat]
      rw [if_neg h0, run_bind, hread]
      dsimp only
      rw [hb]
    | some x =>
      refine .inr ⟨b, x, ?_, le_refl _, by omega, h0, hb, fun j h1 h2 => by omega⟩
      rw [scanDir, run_bind, hat]
      rw [if_neg h0, run_bind, hread]
      dsimp only
      rw [hb, run_pure]

/-- **`ext2_dir_is_empty`**: no name but "." and "..". -/
theorem run_dirIsEmpty (hd : DirAt L v ino) : run (step L) (dirIsEmpty L.fs ino) v =
      (decide (∀ d ∈ v.ents L ino, d.name = dotName ∨ d.name = dotdotName), v) := by
  unfold dirIsEmpty
  rw [run_bind, Drv.run_readInode hd.valid]
  rw [run_bind]
  rcases run_scanDir (otherBlock L.blockSize) hd.map ((v.inode ino).nblocks L.fs) 0 with
    ⟨hr, hall⟩ | ⟨k, x, hr, -, hk, h0, hx, -⟩
  · rw [hr]
    refine Prod.ext (Eq.symm (decide_eq_true ?_)) rfl
    intro d hdm
    obtain ⟨k, hk, h0, hdk⟩ := mem_entriesUpTo.1 hdm
    exact (otherBlock_none (hd.wf.tiled k hk h0)).1 (hall k (zero_le _) (by rw [zero_add]; exact hk) h0) d hdk
  · rw [hr]
    refine Prod.ext (Eq.symm (decide_eq_false fun hall => ?_)) rfl
    rw [zero_add] at hk
    have := (otherBlock_none (hd.wf.tiled k hk h0)).2 fun d hdk =>
      hall d (mem_entriesUpTo.2 ⟨k, hk, h0, hdk⟩)
    rw [this] at hx
    cases hx

/-! ## Edits in place -/

/-- Same type, size, link count and pointers; the times may differ. -/
structure Inode.SameBody (i i' : Inode) : Prop where
  iMode : i'.iMode = i.iMode
  iSize : i'.iSize = i.iSize
  iLinksCount : i'.iLinksCount = i.iLinksCount
  iBlocks : i'.iBlocks = i.iBlocks
  iBlock : i'.iBlock = i.iBlock

theorem Inode.sameBody_touch (i : Inode) (now : UInt32) : i.SameBody (i.touch now) := ⟨rfl, rfl, rfl, rfl, rfl⟩

theorem Inode.SameBody.refl (i : Inode) : i.SameBody i := ⟨rfl, rfl, rfl, rfl, rfl⟩

/-- Block `k` of the directory `ino` has been rewritten, and its inode stamped. -/
structure EditedAt (L : Layout) (v : Store) (ino k : Nat) (buf : Buf) (i' : Inode) (v' : Store) : Prop where
  lt : k < (v.inode ino).iSize.toNat / L.blockSize
  ne : (v.inode ino).blockAt L.blockSize v.data k ≠ 0
  body : (v.inode ino).SameBody i'
  eq : v' = (v.setData L ((v.inode ino).blockAt L.blockSize v.data k) buf).setInode ino i'
  tiled : Tiled L.blockSize (trunc L.blockSize buf)

namespace EditedAt
variable {k : Nat} {buf : Buf} {i' : Inode} {v' : Store}

section
variable (he : EditedAt L v ino k buf i' v')
include he

theorem data_eq : v'.data = update v.data ((v.inode ino).blockAt L.blockSize v.data k) (trunc L.blockSize buf) := by
  rw [he.eq]; rfl

theorem inode_eq : v'.inode = update v.inode ino i' := by
  rw [he.eq]; rfl

theorem blockAt_eq (hm : MapOk L v.data (v.inode ino)) (j : Nat) :
    (v'.inode ino).blockAt L.blockSize v'.data j = (v.inode ino).blockAt L.blockSize v.data j := by
  rw [he.inode_eq, update_self, blockAt_of_iBlock he.body.iBlock, he.data_eq, blockAt_update hm.nodup he.ne]

theorem blockRefs_eq (hm : MapOk L v.data (v.inode ino)) :
    (v'.inode ino).blockRefs L.blockSize v'.data = (v.inode ino).blockRefs L.blockSize v.data := by
  rw [he.inode_eq, update_self, blockRefs_of_iBlock he.body.iBlock]
  refine blockRefs_congr fun _ => ?_
  rw [he.data_eq, update_of_ne ((nodup_blockRefs.1 hm.nodup).2 k he.ne).symm]

theorem entriesUpTo_eq (n : Nat) : (v'.inode ino).entriesUpTo L.blockSize v'.data n = (v.inode ino).entriesUpTo L.blockSize
        (update v.data ((v.inode ino).blockAt L.blockSize v.data k) (trunc L.blockSize buf)) n := by
  rw [he.inode_eq, update_self, he.data_eq]
  exact entriesUpTo_congr fun j _ => ⟨blockAt_of_iBlock he.body.iBlock j, fun _ => rfl⟩

theorem size_eq : (v'.inode ino).iSize = (v.inode ino).iSize := by
  rw [he.inode_eq, update_self]; exact he.body.iSize

theorem dirAt (hd : DirAt L v ino) : DirAt L v' ino := by
  refine ⟨hd.valid, ?_, ⟨?_, ?_⟩, ?_, ?_⟩
  · rw [he.inode_eq, update_self, isDir, he.body.iMode]
    exact hd.isDir
  · rw [he.blockRefs_eq hd.map]; exact hd.map.nodup
  · rw [he.blockRefs_eq hd.map]; exact hd.map.data
  · rw [he.size_eq]; exact hd.wf.size
  · intro j hj h0
    rw [he.size_eq] at hj
    rw [he.blockAt_eq hd.map] at h0 ⊢
    have := (hd.wf.update hd.map.nodup he.ne he.tiled).tiled j hj (by rwa [blockAt_update hd.map.nodup he.ne])
    rw [blockAt_update hd.map.nodup he.ne] at this
    rw [he.data_eq]; exact this

theorem ents_split (hd : DirAt L v ino) : ∃ C, v.ents L ino = (v.inode ino).entriesUpTo L.blockSize v.data k ++
      (entries L.blockSize (v.data ((v.inode ino).blockAt L.blockSize v.data k)) ++ C) ∧
    v'.ents L ino = (v.inode ino).entriesUpTo L.blockSize v.data k ++
      (entries L.blockSize (trunc L.blockSize buf) ++ C) := by
  obtain ⟨C, h1, h2⟩ := entriesUpTo_update (trunc L.blockSize buf) hd.map.nodup he.ne he.lt
  refine ⟨C, h1, ?_⟩
  rw [Store.ents, Inode.dirEntries, he.size_eq, he.entriesUpTo_eq]
  exact h2

/-- The same for the visible entries, which may end before the edited block. -/
theorem vis_split (hd : DirAt L v ino) :
    (k < iterCap L.blockSize ∧ ∃ C, v.vis L ino = (v.inode ino).entriesUpTo L.blockSize v.data k ++
      (entries L.blockSize (v.data ((v.inode ino).blockAt L.blockSize v.data k)) ++ C) ∧
    v'.vis L ino = (v.inode ino).entriesUpTo L.blockSize v.data k ++
      (entries L.blockSize (trunc L.blockSize buf) ++ C)) ∨
    (iterCap L.blockSize ≤ k ∧ v'.vis L ino = v.vis L ino) := by
  unfold Store.vis Inode.visibleEntries
  rw [he.size_eq, he.entriesUpTo_eq]
  by_cases hk : iterCap L.blockSize ≤ k
  · exact .inr ⟨hk, entriesUpTo_update_out hd.map.nodup he.ne (by omega)⟩
  · have hlt := he.lt
    exact .inl ⟨by omega, entriesUpTo_update _ hd.map.nodup he.ne (by omega)⟩

/-- An edit of the entries that passes over those before the block, and rewrites those of the block as the driver does. -/
theorem map_entries (hd : DirAt L v ino) {f : List Dent → List Dent} (hnil : f [] = [])
    (hpass : ∀ A ⊆ (v.inode ino).entriesUpTo L.blockSize v.data k, ∀ C, f (A ++ C) = A ++ f C)
    (hedit : ∀ C, f (entries L.blockSize (v.data ((v.inode ino).blockAt L.blockSize v.data k)) ++ C) =
      entries L.blockSize (trunc L.blockSize buf) ++ C) :
    v'.ents L ino = f (v.ents L ino) ∧ v'.vis L ino = f (v.vis L ino) := by
  constructor
  · obtain ⟨C, e1, e2⟩ := he.ents_split hd
    rw [e1, e2, hpass _ (Subset.refl _), hedit]
  · rcases he.vis_split hd with ⟨-, C, e1, e2⟩ | ⟨hcap, e⟩
    · rw [e1, e2, hpass _ (Subset.refl _), hedit]
    · have hsame := hpass (v.vis L ino) (fun x hx => entriesUpTo_mono (by omega) hx) []
      rw [append_nil, hnil, append_nil] at hsame
      rw [e, hsame]

end

end EditedAt

variable {name : Text} {n bs : Nat} {now : UInt32}

theorem run_commitDir (hd : DirAt L v ino) (h0 : (v.inode ino).blockAt L.blockSize v.data k ≠ 0) : run (step L)
        (commitDir ino (v.inode ino) now ((v.inode ino).blockAt L.blockSize v.data k) buf) v =
      (true, (v.setData L ((v.inode ino).blockAt L.blockSize v.data k) buf).setInode ino ((v.inode ino).touch now)) := by
  unfold commitDir
  rw [run_bind, Drv.run_writeBlock h0 (hd.map.blockAt h0)]
  rw [if_pos rfl, Drv.run_writeInode hd.valid]

theorem chain_trunc {b : Buf} {rs : List Rec} (hc : direntFormat.Chain b rs 0 bs) :
    Tiled bs (trunc bs b) ∧ entries bs (trunc bs b) = live rs := by
  obtain ⟨h1, h2⟩ := Tiled.of_chain (hc.congr (trunc_same bs b).symm)
  exact ⟨h1, by rw [entries, h2]⟩

/-- No record of the directory can take `need` more bytes. -/
def NoRoom (L : Layout) (v : Store) (ino need : Nat) : Prop :=
  ∀ k, k < (v.inode ino).iSize.toNat / L.blockSize → (v.inode ino).blockAt L.blockSize v.data k ≠ 0 →
    ∀ r ∈ recs L.blockSize (v.data ((v.inode ino).blockAt L.blockSize v.data k)), ¬ r.Room need

/-- A block that lookup reads has a record that can take `need` more bytes. -/
def RoomSeen (L : Layout) (v : Store) (ino need : Nat) : Prop :=
  ∃ k < iterCap L.blockSize, k < (v.inode ino).iSize.toNat / L.blockSize ∧ (v.inode ino).blockAt L.blockSize v.data k ≠ 0 ∧
    ∃ r ∈ recs L.blockSize (v.data ((v.inode ino).blockAt L.blockSize v.data k)), r.Room need

theorem RoomSeen.room (hr : RoomSeen L v ino need) : ¬ NoRoom L v ino need := by
  obtain ⟨k, -, hk, h0, r, hm, hroom⟩ := hr
  exact fun hno => hno k hk h0 r hm hroom

section
variable (hs : (v'.inode ino).iSize = (v.inode ino).iSize) (hb : (v'.inode ino).iBlock = (v.inode ino).iBlock)
  (hd : ∀ b ∈ (v.inode ino).blockRefs L.blockSize v.data, v'.data b = v.data b)
include hb hd

theorem blockAt_same (k : Nat) :
    (v'.inode ino).blockAt L.blockSize v'.data k = (v.inode ino).blockAt L.blockSize v.data k := by
  rw [blockAt_of_iBlock hb, blockAt_congr fun h0 => hd _ (indirect_mem_refs h0)]

include hs

theorem NoRoom.congr : NoRoom L v' ino need ↔ NoRoom L v ino need := by
  unfold NoRoom
  rw [hs]
  refine forall_congr' fun k => forall_congr' fun _ => ?_
  rw [blockAt_same hb hd]
  refine forall_congr' fun h0 => ?_
  rw [hd _ (blockAt_mem_refs h0)]

theorem RoomSeen.congr : RoomSeen L v' ino need ↔ RoomSeen L v ino need := by
  unfold RoomSeen
  rw [hs]
  refine exists_congr fun k => and_congr_right fun _ => and_congr_right fun _ => ?_
  rw [blockAt_same hb hd]
  refine and_congr_right fun h0 => ?_
  rw [hd _ (blockAt_mem_refs h0)]

end

/-- An entry of `need` bytes goes where lookup finds it: into one of the blocks it reads, or into a new one among them. -/
def SeesInsert (L : Layout) (v : Store) (ino need : Nat) : Prop :=
  (v.inode ino).iSize.toNat / L.blockSize < iterCap L.blockSize ∨ RoomSeen L v ino need

/-- **`ext2_dir_remove`** drops the first entry of the name, or fails if there is none. What lookup could see leaves its room
where lookup sees it. -/
theorem run_dirRemove (h : L.Ok) (hd : DirAt L v ino) (now : UInt32) (hn : name.length < 256) :
    (run (step L) (dirRemove L.fs ino name now) v = (false, v) ∧ ∀ d ∈ v.ents L ino, d.name ≠ name) ∨
    (∃ v' k buf, run (step L) (dirRemove L.fs ino name now) v = (true, v') ∧
      EditedAt L v ino k buf ((v.inode ino).touch now) v' ∧ (∃ d ∈ v.ents L ino, d.name = name) ∧
      v'.ents L ino = (v.ents L ino).eraseP (fun d => d.name = name) ∧
      v'.vis L ino = (v.vis L ino).eraseP (fun d => d.name = name) ∧
      ((∃ d ∈ v.vis L ino, d.name = name) → RoomSeen L v' ino (align4 (8 + name.length)))) := by
  have hbs := h.bs_le
  unfold dirRemove
  rw [run_bind, Drv.run_readInode hd.valid]
  rw [run_bind]
  rcases run_scanDir (fun buf => removeBlock L.blockSize buf name) hd.map ((v.inode ino).nblocks L.fs) 0 with
    ⟨hr, hall⟩ | ⟨k, buf, hr, -, hk, h0, hx, hbefore⟩
  · rw [hr]
    refine .inl ⟨rfl, fun d hdm => ?_⟩
    obtain ⟨k, hk, h0, hdk⟩ := mem_entriesUpTo.1 hdm
    exact removeBlock_none (hd.wf.tiled k hk h0) hn (hall k (zero_le _) (by rw [zero_add]; exact hk) h0) d hdk
  · rw [zero_add] at hk
    obtain ⟨⟨d, hdk, hdn⟩, rs', hc, hlive, hroom⟩ := removeBlock_some (hd.wf.tiled k hk h0) hbs hn hx
    change d ∈ entries L.blockSize (v.data _) at hdk
    change live rs' = (entries L.blockSize (v.data _)).eraseP _ at hlive
    obtain ⟨ht, hent⟩ := chain_trunc hc
    rw [hr]
    rw [run_commitDir hd h0]
    have he : EditedAt L v ino k buf ((v.inode ino).touch now) _ :=
      ⟨hk, h0, sameBody_touch _ _, rfl, ht⟩
    -- the blocks before hold no entry of that name
    have hA : ∀ x ∈ (v.inode ino).entriesUpTo L.blockSize v.data k, ¬ decide (x.name = name) = true := by
      intro x hxm
      obtain ⟨j, hj, hj0, hxj⟩ := mem_entriesUpTo.1 hxm
      have := removeBlock_none (hd.wf.tiled j (lt_trans hj hk) hj0) hn (hbefore j (zero_le _) hj hj0) x hxj
      simpa using this
    obtain ⟨hents, hvis⟩ := he.map_entries hd eraseP_nil (fun A hsub C => eraseP_append_right _ fun x hxm => hA x (hsub hxm))
      fun C => by rw [eraseP_append_left (p := fun d => d.name = name) (decide_eq_true hdn) _ hdk, hent, hlive]
    refine .inr ⟨_, k, buf, rfl, he, ⟨d, mem_entriesUpTo.2 ⟨k, hk, h0, hdk⟩, hdn⟩, hents, hvis, ?_⟩
    rintro ⟨x, hxm, hxn⟩
    -- beyond lookup's reach the name would not have been seen
    have hcap : k < iterCap L.blockSize := by
      by_contra hge
      exact hA x (entriesUpTo_mono (by omega) hxm) (decide_eq_true hxn)
    refine ⟨k, hcap, ?_, ?_, ?_⟩
    · rw [he.size_eq]
      exact hk
    · rw [he.blockAt_eq hd.map]
      exact h0
    · rw [he.blockAt_eq hd.map, he.data_eq, update_self, (Tiled.of_chain (hc.congr (trunc_same _ buf).symm)).2]
      exact hroom

/-- **`ext2_dir_set_parent`** redirects the first "..", or fails if there is none. -/
theorem run_dirSetParent (hd : DirAt L v ino) {newParent : Nat} (hp : newParent ≠ 0 ∧ newParent < 4294967296) :
    (run (step L) (dirSetParent L.fs ino newParent) v = (false, v) ∧ ∀ d ∈ v.ents L ino, d.name ≠ dotdotName) ∨
    (∃ v' k buf, run (step L) (dirSetParent L.fs ino newParent) v = (true, v') ∧
      EditedAt L v ino k buf (v.inode ino) v' ∧ (∃ d ∈ v.ents L ino, d.name = dotdotName) ∧
      v'.ents L ino = (v.ents L ino).replaceF (reparent newParent) ∧
      v'.vis L ino = (v.vis L ino).replaceF (reparent newParent)) := by
  unfold dirSetParent
  rw [run_bind, Drv.run_readInode hd.valid]
  rw [run_bind]
  rcases run_scanDir (fun buf => setParentBlock L.blockSize buf newParent) hd.map ((v.inode ino).nblocks L.fs) 0
    with ⟨hr, hall⟩ | ⟨k, buf, hr, -, hk, h0, hx, hbefore⟩
  · rw [hr]
    refine .inl ⟨rfl, fun d hdm => ?_⟩
    obtain ⟨k, hk, h0, hdk⟩ := mem_entriesUpTo.1 hdm
    exact setParentBlock_none (hd.wf.tiled k hk h0) (hall k (zero_le _) (by rw [zero_add]; exact hk) h0) d hdk
  · rw [zero_add] at hk
    obtain ⟨⟨d, hdk, hdn⟩, rs', hc, hlive⟩ := setParentBlock_some (hd.wf.tiled k hk h0) hp hx
    change d ∈ entries L.blockSize (v.data _) at hdk
    change live rs' = (entries L.blockSize (v.data _)).replaceF _ at hlive
    obtain ⟨ht, hent⟩ := chain_trunc hc
    rw [hr]
    rw [Drv.run_writeBlock h0 (hd.map.blockAt h0)]
    have he : EditedAt L v ino k buf (v.inode ino) (v.setData L ((v.inode ino).blockAt L.blockSize v.data k) buf) := by
      refine ⟨hk, h0, Inode.SameBody.refl _, ?_, ht⟩
      refine ext rfl rfl ?_ rfl rfl rfl rfl
      exact (Function.update_eq_self ino v.inode).symm
    have hA : ∀ x ∈ (v.inode ino).entriesUpTo L.blockSize v.data k, reparent newParent x = none := by
      intro x hxm
      obtain ⟨j, hj, hj0, hxj⟩ := mem_entriesUpTo.1 hxm
      exact if_neg (setParentBlock_none (hd.wf.tiled j (lt_trans hj hk) hj0)
        (hbefore j (zero_le _) hj hj0) x hxj)
    exact .inr ⟨_, k, buf, rfl, he, ⟨d, mem_entriesUpTo.2 ⟨k, hk, h0, hdk⟩, hdn⟩,
      he.map_entries hd rfl (fun A hsub => replaceF_append fun x hxm => hA x (hsub hxm))
        fun C => by rw [replaceF_append_left ⟨d, hdk, by rw [reparent, if_pos hdn]; rfl⟩, hent, hlive]⟩

/-- **`ext2_dir_insert`** adds exactly the new entry in place, or goes on to grow the directory. -/
theorem run_dirInsert (h : L.Ok) (hd : DirAt L v ino) (ft : UInt8) (now : UInt32)
    (hn : 0 < name.length ∧ name.length < 256) (hi : n ≠ 0 ∧ n < 4294967296) :
    (NoRoom L v ino (align4 (8 + name.length)) ∧ run (step L) (dirInsert L.fs ino name n ft now) v =
        run (step L) (growDir L.fs ino (v.inode ino) name n ft now) v) ∨
    (¬ NoRoom L v ino (align4 (8 + name.length)) ∧ ∃ v' k buf, run (step L) (dirInsert L.fs ino name n ft now) v = (true, v') ∧
      EditedAt L v ino k buf ((v.inode ino).touch now) v' ∧
      Inserted ⟨name, n, ft⟩ (v.ents L ino) (v'.ents L ino) ∧
      ((Inserted ⟨name, n, ft⟩ (v.vis L ino) (v'.vis L ino) ∧ SeesInsert L v ino (align4 (8 + name.length))) ∨
       (v'.vis L ino = v.vis L ino ∧ ¬ SeesInsert L v ino (align4 (8 + name.length))))) := by
  have hbs := h.bs_le
  unfold dirInsert
  rw [run_bind, Drv.run_readInode hd.valid]
  dsimp only
  rw [if_neg (by rw [hd.isDir]; decide), if_neg (by omega), run_bind]
  rcases run_scanDir (fun buf => insertBlock L.blockSize buf name n ft) hd.map ((v.inode ino).nblocks L.fs) 0
    with ⟨hr, hall⟩ | ⟨k, buf, hr, -, hk, h0, hx, hbefore⟩
  · rw [hr]
    refine .inl ⟨fun k hk h0 => ?_, rfl⟩
    exact insertBlock_none (hd.wf.tiled k hk h0) (hall k (zero_le _) (by rw [zero_add]; exact hk) h0)
  · rw [zero_add] at hk
    obtain ⟨rs', hc, hins⟩ := insertBlock_some (hd.wf.tiled k hk h0) hbs hi hn.2 hx
    obtain ⟨ht, hent⟩ := chain_trunc hc
    rw [hr]
    rw [run_commitDir hd h0]
    have he : EditedAt L v ino k buf ((v.inode ino).touch now) _ :=
      ⟨hk, h0, sameBody_touch _ _, rfl, ht⟩
    rw [← hent] at hins
    have hroom := insertBlock_room (hd.wf.tiled k hk h0) hx
    refine .inr ⟨fun hno => hroom (hno k hk h0), _, k, buf, rfl, he, ?_, ?_⟩
    · obtain ⟨C, e1, e2⟩ := he.ents_split hd
      rw [e1, e2]
      exact (hins.append_right C).append_left _
    · rcases he.vis_split hd with ⟨hcap, C, e1, e2⟩ | ⟨hcap, e⟩
      · left
        rw [e1, e2]
        refine ⟨(hins.append_right C).append_left _, .inr ⟨k, hcap, hk, h0, ?_⟩⟩
        by_contra hnone
        exact hroom fun r hr hneed => hnone ⟨r, hr, hneed⟩
      · -- the first block with room is beyond lookup's reach
        refine .inr ⟨e, ?_⟩
        rintro (hfew | ⟨j, hj, hjn, hj0, r, hr, hneed⟩)
        · change k < (v.inode ino).iSize.toNat / L.blockSize at hk
          omega
        · exact insertBlock_none (hd.wf.tiled j hjn hj0) (hbefore j (zero_le _) (by omega) hj0) r hr hneed

/-! ## Growth -/

theorem freshDirBlock_chain (ft : UInt8)
    (hbs : bs = 1024 ∨ bs = 2048 ∨ bs = 4096) (hn : name.length < 256) (hi : n ≠ 0 ∧ n < 4294967296) :
    direntFormat.Chain (freshDirBlock bs name n ft) [⟨bs, some ⟨name, n, ft⟩⟩] 0 bs := by
  have h16 : deRecLen (put16 zeros 4 bs) 0 = bs := by
    rw [deRecLen, get16_put16, mod_eq_of_lt (by omega)]
  refine ⟨?_, ⟨?_, ?_, ?_⟩, ?_⟩
  · exact (recAt_putEntry hi hn).trans (by rw [h16])
  · change bs % 4 = 0; omega
  · change 8 ≤ bs; omega
  · rintro d ⟨⟩
    change align4 (8 + name.length) ≤ bs
    unfold align4; omega
  · change 0 + bs = bs; omega

def CanGrow (L : Layout) (v : Store) (ino : Nat) : Prop :=
  ∃ g b, v.nextBlock L = some (g, b) ∧ CanAdd L (v.takeBlock L g b) (v.inode ino) ((v.inode ino).iSize.toNat / L.blockSize)

/-- The directory has a new last block that holds the new entry alone. -/
structure GrownBy (L : Layout) (v : Store) (ino : Nat) (e : Dent) (now : UInt32) (v' : Store) : Prop where
  /-- Fresh block, then the pointer to it. -/
  added : ∃ g b v₂ i₂, v.nextBlock L = some (g, b) ∧
    AddedWhere L (v.takeBlock L g b) (v.inode ino) ((v.inode ino).iSize.toNat / L.blockSize) b v₂ i₂ ∧
    v' = (v₂.setData L b (freshDirBlock L.blockSize e.name e.ino e.fileType)).setInode ino
      ({ i₂ with iSize := i₂.iSize + UInt32.ofNat L.blockSize }.touch now)
  dirAt : DirAt L v' ino
  used : ∀ c ∈ (v'.inode ino).blockRefs L.blockSize v'.data, v'.blockUsed c = true
  wild : v'.wild = v.wild
  size : (v'.inode ino).iSize.toNat = (v.inode ino).iSize.toNat + L.blockSize
  ents : v'.ents L ino = v.ents L ino ++ [e]
  vis : (v'.vis L ino = v.vis L ino ++ [e] ∧ (v.inode ino).iSize.toNat / L.blockSize < iterCap L.blockSize) ∨
    (v'.vis L ino = v.vis L ino ∧ iterCap L.blockSize ≤ (v.inode ino).iSize.toNat / L.blockSize)
  map : ∀ k, k ≠ (v.inode ino).iSize.toNat / L.blockSize →
    (v'.inode ino).blockAt L.blockSize v'.data k = (v.inode ino).blockAt L.blockSize v.data k
  mode : (v'.inode ino).iMode = (v.inode ino).iMode
  links : (v'.inode ino).iLinksCount = (v.inode ino).iLinksCount

theorem grown_dir {nb : Nat} (data : Nat → Buf) {i : Inode}
    (hnb : i.iSize.toNat / bs = nb) (hnb' : i'.iSize.toNat / bs = nb + 1) (hb : b ≠ 0)
    (hmap : ∀ k, i'.blockAt bs data' k = if k = nb then b else i.blockAt bs data k)
    (hsame : ∀ k, k < nb → i.blockAt bs data k ≠ 0 → data' (i.blockAt bs data k) = data (i.blockAt bs data k))
    (hent : entries bs (data' b) = [e]) :
    i'.dirEntries bs data' = i.dirEntries bs data ++ [e] ∧
    ((i'.visibleEntries bs data' = i.visibleEntries bs data ++ [e] ∧ nb < iterCap bs) ∨
      (i'.visibleEntries bs data' = i.visibleEntries bs data ∧ iterCap bs ≤ nb)) := by
  have hold : ∀ n, n ≤ nb → i'.entriesUpTo bs data' n = i.entriesUpTo bs data n := fun n hn =>
    entriesUpTo_congr fun k hk => ⟨by rw [hmap, if_neg (by omega)], hsame k (by omega)⟩
  have hnew : i'.entriesUpTo bs data' (nb + 1) = i.entriesUpTo bs data nb ++ [e] := by
    rw [entriesUpTo_succ, hold nb (le_refl _), hmap, if_pos rfl, blockEntries, if_neg hb, hent]
  unfold Inode.dirEntries Inode.visibleEntries
  rw [hnb, hnb']
  refine ⟨hnew, ?_⟩
  by_cases hc : iterCap bs ≤ nb
  · right
    rw [min_eq_right (by omega), min_eq_right hc]
    exact ⟨hold _ hc, hc⟩
  · left
    rw [min_eq_left (by omega), min_eq_left (by omega)]
    exact ⟨hnew, by omega⟩

/-- Growth takes the new block, and the indirect block if the directory has none and needs it. -/
theorem GrownBy.took (hg : GrownBy L v ino e now v') : Took L v
    (if (v.inode ino).iSize.toNat / L.blockSize < 12 ∨ (v.inode ino).blkNo 12 ≠ 0 then 1 else 2) v' := by
  obtain ⟨g, b, v₂, i₂, hb, hadd, rfl⟩ := hg.added
  have ht : Took L v 1 (v.takeBlock L g b) := Took.step ⟨v, rfl, .refl v⟩ hb (.refl _)
  cases hadd with
  | direct h12 => rw [if_pos (.inl h12)]; exact ht.same ⟨rfl, rfl⟩
  | indirect _ _ h0 => rw [if_pos (.inr h0)]; exact ht.same ⟨rfl, rfl⟩
  | fresh g' ind h12 _ h0 hn =>
    rw [if_neg (not_or.2 ⟨by omega, not_not.2 h0⟩)]
    exact ht.step hn ⟨rfl, rfl⟩

theorem GrownBy.canGrow (hg : GrownBy L v ino e now v') : CanGrow L v ino := by
  obtain ⟨g, b, v₂, i₂, hb, hadd, -⟩ := hg.added
  exact ⟨g, b, hb, hadd.canAdd⟩

/-- A directory has at most as many blocks as an inode has pointers, so its size grows without wrap-around. -/
theorem grown_size (h : L.Ok) {size : UInt32} (hmod : size.toNat % L.blockSize = 0)
    (hlt : size.toNat / L.blockSize < maxBlocks L.blockSize) :
    (size + UInt32.ofNat L.blockSize).toNat = size.toNat + L.blockSize := by
  have hmul := div_add_mod size.toNat L.blockSize
  have hle : L.blockSize * (size.toNat / L.blockSize) ≤ 4096 * 1036 :=
    Nat.mul_le_mul h.bs_le (by
      unfold maxBlocks at hlt
      rcases h.blockSize with e | e | e <;> rw [e] at hlt ⊢ <;> omega)
  rw [UInt32.toNat_add, UInt32.toNat_ofNat']
  rcases h.blockSize with e | e | e <;> omega

/-- The directory after the block is taken, its pointer placed, and block and inode written. -/
theorem grownBy_of_added (h : L.Ok) (hd : DirAt L v ino) (hmeta : v.MetaUsed L)
    (hused : ∀ b ∈ (v.inode ino).blockRefs L.blockSize v.data, v.blockUsed b = true)
    (ft : UInt8) (now : UInt32) (hn : name.length < 256) (hi : n ≠ 0 ∧ n < 4294967296)
    {g : Nat} {v₂ : Store} {i₂ : Inode} (hb : v.nextBlock L = some (g, b))
    (hadd : AddedWhere L (v.takeBlock L g b) (v.inode ino) ((v.inode ino).iSize.toNat / L.blockSize) b v₂ i₂) :
    GrownBy L v ino ⟨name, n, ft⟩ now ((v₂.setData L b (freshDirBlock L.blockSize name n ft)).setInode ino
      ({ i₂ with iSize := i₂.iSize + UInt32.ofNat L.blockSize }.touch now)) := by
  obtain ⟨hf, hkeep⟩ := NewTo.take h hmeta hused hb
  have hrefs₁ : (v.inode ino).blockRefs L.blockSize (v.takeBlock L g b).data = (v.inode ino).blockRefs L.blockSize v.data :=
    blockRefs_congr hkeep
  have hold : ∀ k, (v.inode ino).blockAt L.blockSize (v.takeBlock L g b).data k = (v.inode ino).blockAt L.blockSize v.data k :=
    blockAt_congr hkeep
  obtain ⟨hind, havoid⟩ := hadd.indirect_ne h hf (by rw [hrefs₁]; exact hd.map.nodup)
  obtain ⟨-, -, hwild, hmono, -, -⟩ := hadd.rest h fun g' c hc => (hf.next g' c hc).1
  obtain ⟨ht, hent⟩ := chain_trunc (freshDirBlock_chain ft h.blockSize hn hi)
  have hfields := hadd.fields
  -- names for the new inode and the new store
  have hino : ((v₂.setData L b (freshDirBlock L.blockSize name n ft)).setInode ino
      ({ i₂ with iSize := i₂.iSize + UInt32.ofNat L.blockSize }.touch now)).inode ino =
        { i₂ with iSize := i₂.iSize + UInt32.ofNat L.blockSize }.touch now := update_self ..
  generalize hi' : ({ i₂ with iSize := i₂.iSize + UInt32.ofNat L.blockSize }.touch now) = i' at hino ⊢
  generalize hv₃ : v₂.setData L b (freshDirBlock L.blockSize name n ft) = v₃ at hino ⊢
  have hblk' : i'.iBlock = i₂.iBlock := by rw [← hi']; rfl
  have hmode : i'.iMode = (v.inode ino).iMode := by rw [← hi', hfields]; rfl
  have hlinks : i'.iLinksCount = (v.inode ino).iLinksCount := by rw [← hi', hfields]; rfl
  have hdata : ∀ c, v₃.data c = if c = b then trunc L.blockSize (freshDirBlock L.blockSize name n ft) else v₂.data c := by
    intro c
    simp only [← hv₃, Store.setData, Function.update_apply]
  have hkeep₃ : i₂.blkNo 12 ≠ 0 → v₃.data (i₂.blkNo 12) = v₂.data (i₂.blkNo 12) := fun _ => by rw [hdata, if_neg hind]
  have hmap : ∀ k, i'.blockAt L.blockSize v₃.data k =
      if k = (v.inode ino).iSize.toNat / L.blockSize then b else (v.inode ino).blockAt L.blockSize v.data k := fun k => by
    rw [blockAt_of_iBlock hblk', blockAt_congr hkeep₃, hadd.blockAt_new h hf, hold]
  have hrefs : i'.blockRefs L.blockSize v₃.data = i₂.blockRefs L.blockSize v₂.data :=
    (blockRefs_of_iBlock hblk').trans (blockRefs_congr hkeep₃)
  have hsame : ∀ k, (v.inode ino).blockAt L.blockSize v.data k ≠ 0 →
      v₃.data ((v.inode ino).blockAt L.blockSize v.data k) = v.data ((v.inode ino).blockAt L.blockSize v.data k) := by
    intro k
    rw [← hold k]
    intro hk0
    rw [hdata, if_neg (hf.ne_blockAt hk0), hadd.data_same (havoid k hk0) fun g' c hc => h.data_lt (hf.next g' c hc).1,
      takeBlock_data hf.data (hf.ne_blockAt hk0)]
  have hsize : i'.iSize.toNat = (v.inode ino).iSize.toNat + L.blockSize := by
    have hs : i'.iSize = (v.inode ino).iSize + UInt32.ofNat L.blockSize := by rw [← hi', hfields]; rfl
    rw [hs, grown_size h hd.wf.size hadd.idx_lt]
  have hnb' : i'.iSize.toNat / L.blockSize = (v.inode ino).iSize.toNat / L.blockSize + 1 := by
    rw [hsize, add_div_right _ h.bs_pos]
  have hentries := grown_dir v.data rfl hnb' (h.data_ne_zero hf.data) hmap
    (fun k _ hk0 => hsame k hk0) (by rw [hdata, if_pos rfl, hent]; rfl)
  refine ⟨⟨g, b, v₂, i₂, hb, hadd, by rw [hi', hv₃]⟩, ⟨hd.valid, ?_, ?_, ?_, fun k hk hk0 => ?_⟩, fun c hc => ?_, ?_, ?_, ?_, ?_,
    fun k hk => ?_, ?_, ?_⟩
  · rw [hino, isDir, hmode]; exact hd.isDir
  · rw [hino]
    change MapOk L v₃.data i'
    refine ⟨by rw [hrefs]; exact hadd.nodup_refs h hf (by rw [hrefs₁]; exact hd.map.nodup), fun c hc => ?_⟩
    rw [hrefs] at hc
    rcases hadd.refs_cases h hf hc with rfl | hc | ⟨-, g', hc⟩
    · exact hf.data
    · exact hd.map.data c (hrefs₁ ▸ hc)
    · exact (hf.next g' c hc).1
  · rw [hino, hsize, add_mod_right]; exact hd.wf.size
  · rw [hino] at hk hk0 ⊢
    change Tiled _ (v₃.data (i'.blockAt L.blockSize v₃.data k))
    change i'.blockAt L.blockSize v₃.data k ≠ 0 at hk0
    rw [hmap] at hk0 ⊢
    by_cases hkn : k = (v.inode ino).iSize.toNat / L.blockSize
    · rw [if_pos hkn, hdata, if_pos rfl]; exact ht
    · rw [if_neg hkn] at hk0 ⊢
      rw [hsame k hk0]
      exact hd.wf.tiled k (by omega) hk0
  · rw [hino] at hc
    change c ∈ i'.blockRefs L.blockSize v₃.data at hc
    rw [← hv₃]
    rw [hrefs] at hc
    rcases hadd.refs_cases h hf hc with rfl | hc | ⟨hu, -⟩
    · exact hmono _ (blockUsed_takeBlock.2 (.inl rfl))
    · exact hmono _ (blockUsed_takeBlock.2 (.inr (hused c (hrefs₁ ▸ hc))))
    · exact hu
  · rw [← hv₃]
    change v₂.wild = _
    rw [hwild]
    simp [Store.takeBlock, hf.data]
  · rw [hino]; exact hsize
  · rw [Store.ents, hino]; exact hentries.1
  · rw [Store.vis, hino]; exact hentries.2
  · rw [hino]; exact (hmap k).trans (if_neg hk)
  · rw [hino]; exact hmode
  · rw [hino]; exact hlinks

/-- **Growth of a directory.** It fails without a trace when there is no free block, fails with one block
lost when the pointer cannot be placed, and otherwise appends a block with the new entry. -/
theorem run_growDir (h : L.Ok) (hd : DirAt L v ino) (hmeta : v.MetaUsed L)
    (hused : ∀ b ∈ (v.inode ino).blockRefs L.blockSize v.data, v.blockUsed b = true)
    (ft : UInt8) (now : UInt32)
    (hn : name.length < 256) (hi : n ≠ 0 ∧ n < 4294967296) :
    (v.nextBlock L = none ∧ run (step L) (growDir L.fs ino (v.inode ino) name n ft now) v = (false, v)) ∨
    (∃ g b, v.nextBlock L = some (g, b) ∧
      ¬ CanAdd L (v.takeBlock L g b) (v.inode ino) ((v.inode ino).iSize.toNat / L.blockSize) ∧
      run (step L) (growDir L.fs ino (v.inode ino) name n ft now) v = (false, v.takeBlock L g b)) ∨
    (∃ v', run (step L) (growDir L.fs ino (v.inode ino) name n ft now) v = (true, v') ∧
      GrownBy L v ino ⟨name, n, ft⟩ now v') := by
  unfold growDir
  rw [run_bind]
  cases hb : v.nextBlock L with
  | none => exact .inl ⟨rfl, by rw [Drv.run_allocBlock_none hb]; rfl⟩
  | some gb =>
    obtain ⟨g, b⟩ := gb
    right
    obtain ⟨hf, -⟩ := NewTo.take h hmeta hused hb
    rw [Drv.run_allocBlock_some hb]
    rw [run_bind]
    rcases run_inodeAddBlock ((v.inode ino).nblocks L.fs) b h hd.map.indirect
      (fun g' c hc => (hf.next g' c hc).1) with ⟨v₂, i₂, hadd, hrun⟩ | ⟨hcan, hrun⟩
    · right
      rw [hrun]
      dsimp only
      rw [if_neg (by decide), run_bind, Drv.run_writeBlock (h.data_ne_zero hf.data) hf.data]
      rw [if_pos rfl, Drv.run_writeInode hd.valid]
      exact ⟨_, rfl, grownBy_of_added h hd hmeta hused ft now hn hi hb hadd⟩
    · left
      refine ⟨g, b, rfl, hcan, ?_⟩
      rw [hrun]
      rfl

/-! ## Enumeration -/

/-- What `readdir_block` reports for an entry. -/
def reportOf (L : Layout) (v : Store) (d : Dent) : VfsDirent :=
  ⟨d.name.take (PUREUNIX_MAX_NAME - 1),
    if d.fileType = EXT2_FT_DIR then .dir else if d.fileType = EXT2_FT_SYMLINK then .symlink else .file,
    if d.fileType = EXT2_FT_DIR then 0 else if L.ValidIno d.ino then (v.inode d.ino).iSize.toNat else 0⟩

/-- The reports for a list of entries; an entry with an empty name is passed over. -/
def reports (L : Layout) (v : Store) (l : List Dent) : List VfsDirent :=
  (l.filter fun d => d.name ≠ []).map (reportOf L v)

theorem reports_append (l l' : List Dent) : reports L v (l ++ l') = reports L v l ++ reports L v l' := by
  simp only [reports, filter_append, map_append]

theorem run_fillDirent {off : Nat} {d : Dent} (hd : (recAt buf off).dent = some d) :
    run (step L) (fillDirent buf off) v = (reportOf L v d, v) := by
  obtain ⟨-, rfl⟩ := recAt_dent hd
  have hname : slice buf (off + 8) (min (deNameLen buf off) (PUREUNIX_MAX_NAME - 1)) =
      (slice buf (off + 8) (deNameLen buf off)).take (PUREUNIX_MAX_NAME - 1) := by
    rw [slice, slice, ← map_take, take_range, min_comm]
  unfold fillDirent reportOf
  rw [hname]
  by_cases hft : deFileType buf off = EXT2_FT_DIR
  · rw [if_pos hft, if_pos hft, if_pos hft, run_pure]
  rw [if_neg hft, if_neg hft, if_neg hft, run_bind]
  by_cases hv : L.ValidIno (deInode buf off)
  · rw [Drv.run_readInode hv, if_pos hv]; rfl
  · rw [Drv.run_readInode_invalid hv, if_neg hv]; rfl

section
variable {S : Type} {cb : VfsDirent → S → Bool × S} (hcb : ∀ e s, (cb e s).1 = false)
include hcb

theorem run_readdirWalk : ∀ {rs : List Rec} {off fuel : Nat} {s : S},
    direntFormat.Chain buf rs off L.blockSize → rs.length ≤ fuel →
    run (step L) (readdirWalk L.fs cb buf fuel off s) v =
      ((false, (reports L v (live rs)).foldl (fun s e => (cb e s).2) s), v) := by
  intro rs
  induction rs with
  | nil =>
    intro off fuel s hc _
    have : off = L.blockSize := hc
    cases fuel with
    | zero => rfl
    | succ fuel => rw [readdirWalk, if_pos (by omega)]; rfl
  | cons r rs ih =>
    intro off fuel s hc hf
    obtain ⟨hr, hok, hrest⟩ := hc
    have hlen : deRecLen buf off = r.len := by rw [← hr]; rfl
    have h8 : 8 ≤ r.len := hok.2.1
    have hstop := hrest.stop_eq
    change L.blockSize = off + r.len + _ at hstop
    change direntFormat.Chain buf rs (off + r.len) _ at hrest
    cases fuel with
    | zero => exact absurd hf (by simp)
    | succ fuel =>
      have hf' : rs.length ≤ fuel := by simpa using hf
      rw [readdirWalk, if_neg (by omega), if_neg (by omega)]
      cases hd : r.dent with
      | none =>
        have h0 : deInode buf off = 0 := recAt_free (by rw [← hd, ← hr]; rfl)
        rw [if_neg (fun h => h.1 h0), hlen, live_cons_none hd]
        exact ih hrest hf'
      | some d =>
        have hd' : (recAt buf off).dent = some d := by rw [← hd, ← hr]; rfl
        have hdent := recAt_dent hd'
        have hnl : deNameLen buf off = d.name.length := by rw [hdent.2, length_slice]
        rw [live_cons_some hd]
        by_cases hn : 0 < deNameLen buf off
        · rw [if_pos ⟨hdent.1, hn⟩, run_bind, run_fillDirent hd']
          rw [if_neg (by rw [hcb]; decide), hlen, ih hrest hf', reports, reports,
            filter_cons_of_pos (by rw [hnl] at hn; simpa using length_pos_iff.1 hn)]
          rfl
        · have hnil : d.name = [] := eq_nil_of_length_eq_zero (by omega)
          rw [if_neg (fun h => hn h.2), hlen, ih hrest hf', reports, reports, filter_cons_of_neg (by simp [hnil])]

variable (cb) in
/-- **`ext2_readdir_ino`** with a callback that never stops it reports the visible entries in order. -/
theorem run_readdirIno (h : L.Ok) (hd : DirAt L v ino) (s : S) : run (step L) (readdirIno L.fs ino cb s) v =
      ((0, (reports L v (v.vis L ino)).foldl (fun s e => (cb e s).2) s), v) := by
  -- the callback of the iterator, as a function
  let f : Nat → Bool × S → Int × Bool × S := fun b ctx =>
    (0, ctx.1, (reports L v (blockEntries L.blockSize v.data b)).foldl (fun s e => (cb e s).2) ctx.2)
  have hstep : ∀ b ∈ (v.inode ino).visits L.blockSize v.data (v.inode ino).iSize.toNat, ∀ ctx,
      run (step L) (readdirBlock L.fs cb b ctx) v = (f b ctx, v) := by
    intro b hb ctx
    obtain ⟨k, hk, rfl⟩ := mem_visits h.bs_pos hd.wf.size hb
    unfold readdirBlock
    by_cases h0 : (v.inode ino).blockAt L.blockSize v.data k = 0
    · rw [if_pos h0, run_pure]
      simp only [f, blockEntries, if_pos h0]
      rfl
    have hc : direntFormat.Chain _ _ 0 _ := hd.wf.tiled k hk h0
    rw [if_neg h0, run_bind, Drv.run_readBlock h0 (hd.map.blockAt h0)]
    dsimp only
    rw [run_bind, run_readdirWalk hcb hc hc.length_le]
    simp only [f, blockEntries, if_neg h0]
    rfl
  have hfold : ∀ (blks : List Nat) (ctx : Bool × S), foldVisits f blks ctx =
      (0, ctx.1, (reports L v (blks.flatMap (blockEntries L.blockSize v.data))).foldl (fun s e => (cb e s).2) ctx.2) := by
    intro blks
    induction blks with
    | nil => intro ctx; rfl
    | cons b blks ih =>
      intro ctx
      rw [foldVisits_go (by rfl), ih, flatMap_cons, reports_append, foldl_append]
  unfold readdirIno
  rw [run_bind, Drv.run_readInode hd.valid]
  dsimp only
  rw [if_neg (by rw [hd.isDir]; decide), run_bind,
    run_iterBlocks _ h.bs_pos _ _ _ hd.map.indirect hstep, hfold, visits_entries h.bs_pos hd.wf.size]
  rfl

end
end
end PureUnix.Ext2
