import PureUnix.Ext2.Mount
import PureUnix.Ext2.Sample
import PureUnix.Tools.MkExt2

/-!
# What the builder allocated and what the driver sees

The builder writes bit `b` of the block bitmap for block `b`; the driver reads bit `i` as block
`first_data_block + i`, and `first_data_block` is 1. Block 0 is in the builder's set, so the used
bits form a prefix one longer than the driver expects: the first block behind the allocated ones
looks used, and the free counts are one too high. The shift disappears only when the builder has
filled the disk. Inode bits are shifted by the builder, and agree.

`Bump` is the invariant of the two bump allocators; `keeps_*` show that every method keeps it,
whether it returns or raises. `build_spec` is what a build that returns has written.
-/
namespace PureUnix.MkExt2
open Lib Ext2 List

variable {n b fb fi i : Nat} {u : Unit} {image raw : Buf} {s : Ext2Builder}

/-! ## Methods that return or raise -/

/-- The object after a method has returned or raised. -/
def after {α : Type} (m : Py α) (s : Ext2Builder) : Ext2Builder :=
  match m s with
  | .ok _ s' => s'
  | .error _ s' => s'

def Keeps {α : Type} (I : Ext2Builder → Prop) (m : Py α) : Prop := ∀ s, I s → I (after m s)

variable {I : Ext2Builder → Prop} {α β : Type} {s s' : Ext2Builder} {k bt i : Nat} {x : Py α} {f : Ext2Builder → Ext2Builder} {data : Text}

theorem bind_ok {f : α → Py β} {b : β} : (x >>= f) s = .ok b s' ↔ ∃ a s₁, x s = .ok a s₁ ∧ f a s₁ = .ok b s' := by
  change EStateM.bind x f s = _ ↔ _
  unfold EStateM.bind
  cases x s <;> simp

theorem get_bind (f : Ext2Builder → Py β) (s : Ext2Builder) : ((get : Py Ext2Builder) >>= f) s = f s s := rfl

theorem Keeps.bind {f : α → Py β} (hx : Keeps I x) (hf : ∀ a, Keeps I (f a)) : Keeps I (x >>= f) := by
  intro s hs
  have h1 := hx s hs
  unfold after at h1 ⊢
  change I (match EStateM.bind x f s with | .ok _ s' => s' | .error _ s' => s')
  unfold EStateM.bind
  cases hxs : x s with
  | ok a s₁ => rw [hxs] at h1; exact hf a s₁ h1
  | error e s₁ => rw [hxs] at h1; exact h1

theorem Keeps.pure (a : α) : Keeps I (Pure.pure a : Py α) := fun _ h => h
theorem Keeps.throw (e : PyError) : Keeps I (MonadExcept.throw e : Py α) := fun _ h => h
theorem Keeps.get : Keeps I (MonadState.get : Py Ext2Builder) := fun _ h => h

theorem Keeps.lift (x : Except PyError α) : Keeps I (liftExcept x) := by
  intro s h
  cases x <;> exact h

theorem Keeps.modify (hf : ∀ s, I s → I (f s)) : Keeps I (modify f : Py Unit) := fun s h => hf s h

theorem Keeps.ite {c : Prop} [Decidable c] {y : Py α} (hx : Keeps I x) (hy : Keeps I y) : Keeps I (if c then x else y) := by
  split
  · exact hx
  · exact hy

/-! ## The bump allocators -/

/-- The sets are the initial segments below the bump pointers; no inode has two records. -/
structure Bump (s : Ext2Builder) : Prop where
  nextBlock : FIRST_FREE_BLOCK ≤ s.nextBlock ∧ s.nextBlock ≤ TOTAL_BLOCKS
  usedBlocks : s.usedBlocks = List.range s.nextBlock
  nextInode : ROOT_INO < s.nextInode ∧ s.nextInode ≤ INODES_PER_GROUP + 1
  usedInodes : s.usedInodes = (List.range (s.nextInode - 1)).map (· + 1)
  keys : (s.inodes.map Prod.fst).Nodup

theorem allocBlock_run (s : Ext2Builder) : allocBlock s =
    if TOTAL_BLOCKS ≤ s.nextBlock then .error .imageFull s
    else .ok s.nextBlock { s with nextBlock := s.nextBlock + 1, usedBlocks := setAdd s.usedBlocks s.nextBlock } := by
  rw [allocBlock, get_bind]
  split <;> rfl

theorem allocInode_run (s : Ext2Builder) : allocInode s =
    if INODES_PER_GROUP < s.nextInode then .error .inodeTableFull s
    else .ok s.nextInode { s with nextInode := s.nextInode + 1, usedInodes := setAdd s.usedInodes s.nextInode } := by
  rw [allocInode, get_bind]
  split <;> rfl

theorem setAdd_range (n : Nat) : setAdd (range n) n = range (n + 1) := by
  rw [setAdd, if_neg (by simp), range_succ]

theorem setAdd_inodes (hn : 1 ≤ n) : setAdd ((range (n - 1)).map (· + 1)) n = (range (n + 1 - 1)).map (· + 1) := by
  obtain ⟨m, rfl⟩ : ∃ m, n = m + 1 := ⟨n - 1, by omega⟩
  rw [setAdd, if_neg (by simp), Nat.add_sub_cancel, Nat.add_sub_cancel, range_succ, map_append]
  rfl

theorem keys_set (d : Dict α) (k : Nat) (v : α) : (Dict.set d k v).map Prod.fst =
    if k ∈ d.map Prod.fst then d.map Prod.fst else d.map Prod.fst ++ [k] := by
  induction d with
  | nil => simp [Dict.set]
  | cons p d ih =>
    simp only [Dict.set]
    by_cases h : p.1 = k
    · simp [h]
    · simp only [if_neg h, map_cons, ih, mem_cons, Ne.symm h, false_or]
      split <;> simp

theorem nodup_set {d : Dict α} (h : (d.map Prod.fst).Nodup) (k : Nat) (v : α) : ((Dict.set d k v).map Prod.fst).Nodup := by
  rw [keys_set]
  split
  · exact h
  · next hk =>
    refine nodup_append.2 ⟨h, nodup_singleton _, fun a ha b hb e => hk ?_⟩
    rwa [← mem_singleton.1 hb, ← e]

theorem bump_init : Bump Ext2Builder.init := by
  refine ⟨by decide, rfl, by decide, rfl, by decide⟩

theorem keeps_allocBlock : Keeps Bump allocBlock := by
  intro s hs
  rw [after, allocBlock_run]
  by_cases h : TOTAL_BLOCKS ≤ s.nextBlock
  · rwa [if_pos h]
  · rw [if_neg h]
    exact ⟨⟨Nat.le_succ_of_le hs.nextBlock.1, Nat.lt_of_not_le h⟩, by rw [hs.usedBlocks, setAdd_range], hs.nextInode, hs.usedInodes, hs.keys⟩

theorem keeps_allocInode : Keeps Bump allocInode := by
  intro s hs
  rw [after, allocInode_run]
  by_cases h : INODES_PER_GROUP < s.nextInode
  · rwa [if_pos h]
  have hn := hs.nextInode
  rw [if_neg h]
  exact ⟨hs.nextBlock, hs.usedBlocks, ⟨Nat.lt_succ_of_lt hn.1, Nat.succ_le_succ (Nat.le_of_not_lt h)⟩,
    by rw [hs.usedInodes, setAdd_inodes (by omega)], hs.keys⟩

/-- A change that touches neither allocator and keeps inode keys distinct. -/
theorem keeps_modify (h2 : ∀ s, (s.inodes.map Prod.fst).Nodup → ((f s).inodes.map Prod.fst).Nodup)
    (h1 : ∀ s, (f s).nextBlock = s.nextBlock ∧ (f s).usedBlocks = s.usedBlocks ∧ (f s).nextInode = s.nextInode ∧
      (f s).usedInodes = s.usedInodes := by exact fun _ => ⟨rfl, rfl, rfl, rfl⟩) : Keeps Bump (modify f) := by
  refine .modify fun s hs => ?_
  obtain ⟨e1, e2, e3, e4⟩ := h1 s
  exact ⟨by rw [e1]; exact hs.nextBlock, by rw [e1, e2]; exact hs.usedBlocks,
    by rw [e3]; exact hs.nextInode, by rw [e3, e4]; exact hs.usedInodes, h2 s hs.keys⟩

theorem keeps_writeBlock (b : Nat) (data : Text) : Keeps Bump (writeBlock b data) :=
  keeps_modify fun _ h => h

theorem keeps_appendEntry (p : Nat) (e : Entry) : Keeps Bump (appendEntry p e) := by
  refine Keeps.get.bind fun s => ?_
  split
  · exact .throw _
  · exact keeps_modify fun _ h => h

theorem keeps_mkdir (p : Nat) (name : String) (mode : Option Int) : Keeps Bump (mkdir p name mode) := by
  refine keeps_allocInode.bind fun ino => ?_
  refine .bind (keeps_modify fun _ h => nodup_set h _ _) fun _ => ?_
  refine (keeps_appendEntry _ _).bind fun _ => Keeps.get.bind fun s => ?_
  split
  · exact .throw _
  · exact .bind (keeps_modify fun _ h => nodup_set h _ _) fun _ => .pure _

theorem keeps_addSymlink (p : Nat) (name target : String) : Keeps Bump (addSymlink p name target) := by
  refine (Keeps.lift _).bind fun t => ?_
  refine Keeps.ite ((Keeps.throw _).bind fun _ => ?_) ?_ <;>
  · refine keeps_allocInode.bind fun ino => ?_
    refine .bind (keeps_modify fun _ h => nodup_set h _ _) fun _ => ?_
    exact (keeps_appendEntry _ _).bind fun _ => .pure _

theorem keeps_writeChunks : ∀ (n : Nat) (data : Text) (blks : List Nat), Keeps Bump (writeChunks n data blks)
  | 0, _, _ => .pure _
  | n + 1, data, blks => by
    refine .ite (.pure _) ?_
    refine keeps_allocBlock.bind fun b => ?_
    exact (keeps_writeBlock _ _).bind fun _ => keeps_writeChunks n _ _

theorem keeps_addFile (p : Nat) (name : String) (data : Text) (mode : Option Int) (uid gid : Int) :
    Keeps Bump (addFile p name data mode uid gid) := by
  refine keeps_allocInode.bind fun ino => (keeps_writeChunks _ _ _).bind fun blks => ?_
  refine .bind (keeps_modify fun _ h => nodup_set h _ _) fun _ => ?_
  exact (keeps_appendEntry _ _).bind fun _ => .pure _

/-! ## Sequences of calls -/

inductive Call where
  | mkdir (parentIno : Nat) (name : String) (mode : Option Int)
  | addFile (parentIno : Nat) (name : String) (data : Text) (mode : Option Int) (uid gid : Int)
  | addSymlink (parentIno : Nat) (name target : String)

def Call.exec : Call → Py Nat
  | .mkdir p name mode => MkExt2.mkdir p name mode
  | .addFile p name data mode uid gid => MkExt2.addFile p name data mode uid gid
  | .addSymlink p name target => MkExt2.addSymlink p name target

/-- The builder after a sequence of calls; one that raises is caught by the caller. -/
def runCalls (cs : List Call) : Ext2Builder := cs.foldl (fun s c => after c.exec s) Ext2Builder.init

theorem keeps_call (c : Call) : Keeps Bump c.exec := by
  cases c with
  | mkdir p name mode => exact keeps_mkdir p name mode
  | addFile p name data mode uid gid => exact keeps_addFile p name data mode uid gid
  | addSymlink p name target => exact keeps_addSymlink p name target

theorem bump_runCalls (cs : List Call) : Bump (runCalls cs) := by
  suffices ∀ s, Bump s → Bump (cs.foldl (fun s c => after c.exec s) s) from this _ bump_init
  induction cs with
  | nil => exact fun s h => h
  | cons c cs ih => exact fun s h => ih _ (keeps_call c s h)

/-! ## What a build allocates -/

/-- Inodes whose block list needs an indirect block. -/
def Info.indirect (i : Info) : Bool := i.inlineTarget.isNone && decide (12 < i.blocks.length)

/-- Files of the builder that will be given an indirect block. -/
def Ext2Builder.indirectFiles (s : Ext2Builder) : Nat :=
  s.inodes.countP fun p => p.2.indirect && !(s.dirs.map Prod.fst).contains p.1

theorem allocBlock_ok (h : allocBlock s = .ok b s') :
    b = s.nextBlock ∧ s'.nextBlock = s.nextBlock + 1 ∧ s'.dirs = s.dirs ∧ s'.inodes = s.inodes := by
  rw [allocBlock_run] at h
  split at h
  · cases h
  · cases h; exact ⟨rfl, rfl, rfl, rfl⟩

theorem lift_ok {x : Except PyError α} {a : α} : liftExcept x s = .ok a s' ↔ x = .ok a ∧ s = s' := by
  cases x with
  | error => exact ⟨by rintro ⟨⟩, by rintro ⟨⟨⟩, -⟩⟩
  | ok => exact ⟨by rintro ⟨⟩; exact ⟨rfl, rfl⟩, by rintro ⟨⟨⟩, rfl⟩; rfl⟩

theorem modify_ok : (modify f : Py Unit) s = .ok u s' ↔ f s = s' := by
  constructor <;> rintro ⟨⟩ <;> rfl

theorem packInode_ok {info : Info} {raw : Text} (h : packInode bt info s = .ok raw s') :
    s'.nextBlock = s.nextBlock + (if info.indirect then 1 else 0) ∧ s'.dirs = s.dirs ∧ s'.inodes = s.inodes := by
  unfold packInode at h
  cases ht : info.inlineTarget with
  | some t =>
    simp only [ht, lift_ok] at h
    simp [Info.indirect, ht, h]
  | none =>
    have hlen : (info.blocks.drop 12).isEmpty = !info.indirect := by
      rw [Bool.eq_iff_iff]
      simp [Info.indirect, ht]
    simp only [ht, hlen] at h
    cases hi : info.indirect with
    | false =>
      simp only [hi, Bool.not_false, if_true, bind_ok, lift_ok] at h
      obtain ⟨w, _, ⟨-, rfl⟩, -, rfl⟩ := h
      simp
    | true =>
      simp only [hi, Bool.not_true, Bool.false_eq_true, if_false, bind_ok, lift_ok, writeBlock, modify_ok] at h
      obtain ⟨ind, s₁, h1, buf, _, ⟨-, rfl⟩, u, _, rfl, w, _, ⟨-, rfl⟩, -, rfl⟩ := h
      exact (allocBlock_ok h1).2

theorem writeInodeTable_ok : ∀ {ds : Dict Info} {s s' : Ext2Builder} {u : Unit}, writeInodeTable bt ds s = .ok u s' →
      s'.nextBlock = s.nextBlock + ds.countP (fun p => p.2.indirect)
  | [], s, s', u, h => by cases h; rfl
  | (ino, info) :: ds, s, s', u, h => by
    simp only [writeInodeTable, bind_ok, modify_ok] at h
    obtain ⟨raw, s₁, h1, v, _, rfl, h2⟩ := h
    rw [writeInodeTable_ok h2, (packInode_ok h1).1, countP_cons]
    dsimp only
    omega

/-- The records that will be given an indirect block, those at keys of `D` apart. -/
def countOutside (D : List Nat) (d : Dict Info) : Nat := d.countP fun p => p.2.indirect && !D.contains p.1

/-- A record that needs none, stored at `k`, takes the one at `k` out of the count. -/
theorem countOutside_set {v : Info} (hv : v.indirect = false) (D : List Nat) {d : Dict Info} (hn : (d.map Prod.fst).Nodup) :
    countOutside D (Dict.set d k v) = countOutside (k :: D) d := by
  unfold countOutside
  induction d with
  | nil => simp [Dict.set, hv]
  | cons p d ih =>
    simp only [map_cons, nodup_cons] at hn
    rw [Dict.set]
    split
    · rename_i hp
      simp only [countP_cons, hv, hp, contains_cons, beq_self_eq_true, Bool.true_or, Bool.not_true, Bool.and_false, Bool.false_and]
      refine congrArg (· + 0) (countP_congr fun q hq => ?_)
      have hne : q.1 ≠ k := fun e => hn.1 (by rw [hp, ← e]; exact mem_map_of_mem hq)
      simp [hne]
    · rename_i hp
      rw [countP_cons, countP_cons, ih hn.2]
      simp [hp]

theorem finaliseDirs_ok (D : List Nat) : ∀ {ds : Dict (List Entry)} {s s' : Ext2Builder} {u : Unit},
    (s.inodes.map Prod.fst).Nodup → finaliseDirs ds s = .ok u s' → s'.nextBlock = s.nextBlock + ds.length ∧
      countOutside D s'.inodes = countOutside (ds.map Prod.fst ++ D) s.inodes
  | [], s, s', u, _, h => by
    cases h
    exact ⟨rfl, rfl⟩
  | (ino, es) :: ds, s, s', u, hn, h => by
    simp only [finaliseDirs, get_bind, bind_ok, lift_ok, writeBlock, modify_ok] at h
    obtain ⟨blk, s₁, h1, data, _, ⟨-, rfl⟩, v, _, rfl, h⟩ := h
    obtain ⟨-, e1, -, e3⟩ := allocBlock_ok h1
    cases hg : Dict.get? s₁.inodes ino with
    | none => simp only [hg] at h; cases h
    | some i =>
      simp only [hg, bind_ok, modify_ok] at h
      obtain ⟨w, s₄, h4, h8⟩ := h
      -- the record just stored is a directory's, with a single block
      have ei4 : s₄.inodes = Dict.set s.inodes ino { i with blocks := [blk], size := BLOCK_SIZE } := by
        rw [← h4, ← e3]
      have en4 : s₄.nextBlock = s.nextBlock + 1 := by rw [← h4, ← e1]
      obtain ⟨r1, r2⟩ := finaliseDirs_ok D (by rw [ei4]; exact nodup_set hn _ _) h8
      refine ⟨by rw [r1, en4, length_cons]; omega, ?_⟩
      rw [r2, ei4, countOutside_set (by simp [Info.indirect]) _ hn]
      rfl

theorem keeps_packInode (bt : Nat) (info : Info) : Keeps Bump (packInode bt info) := by
  unfold packInode
  split
  · exact .lift _
  · refine Keeps.ite ((Keeps.lift _).bind fun _ => Keeps.lift _) ?_
    refine keeps_allocBlock.bind fun _ => (Keeps.lift _).bind fun _ => ?_
    exact (keeps_writeBlock _ _).bind fun _ => (Keeps.lift _).bind fun _ => Keeps.lift _

theorem keeps_writeInodeTable (bt : Nat) : ∀ ds : Dict Info, Keeps Bump (writeInodeTable bt ds)
  | [] => .pure _
  | (ino, info) :: ds => by
    refine (keeps_packInode bt info).bind fun raw => ?_
    exact .bind (keeps_modify fun _ h => h) fun _ => keeps_writeInodeTable bt ds

theorem keeps_finaliseDirs : ∀ ds : Dict (List Entry), Keeps Bump (finaliseDirs ds)
  | [] => .pure _
  | (ino, es) :: ds => by
    refine Keeps.get.bind fun s => keeps_allocBlock.bind fun b => (Keeps.lift _).bind fun data => ?_
    refine (keeps_writeBlock _ _).bind fun _ => Keeps.get.bind fun s => ?_
    split
    · exact .throw _
    · exact .bind (keeps_modify fun _ h => nodup_set h _ _) fun _ => keeps_finaliseDirs ds

theorem Keeps.ok {m : Py α} (hm : Keeps I m) {a : α} (hs : I s) (h : m s = .ok a s') : I s' := by
  have := hm s hs
  unfold after at this
  rw [h] at this
  exact this

/-- The bytes of the descriptor table's block. -/
def bgdtBytes (freeBlocks freeInodes usedDirs : Nat) : Text :=
  le32 BLOCK_BITMAP_BLOCK ++ le32 INODE_BITMAP_BLOCK ++ le32 INODE_TABLE_BLOCK ++ le16 freeBlocks ++
    le16 freeInodes ++ le16 usedDirs ++ le32 0 ++ List.replicate (BLOCK_SIZE - 22) 0

/-- The image with the four metadata blocks as `build` leaves them. -/
def metaImage (s : Ext2Builder) : Buf :=
  let image := putBytes s.image (BLOCK_BITMAP_BLOCK * BLOCK_SIZE)
    ((slice (bitmapOf TOTAL_BLOCKS s.usedBlocks zeros) 0 BLOCK_SIZE).take BLOCK_SIZE)
  let image := putBytes image (INODE_BITMAP_BLOCK * BLOCK_SIZE)
    ((slice (bitmapOf INODES_PER_GROUP (s.usedInodes.map (· - 1)) zeros) 0 BLOCK_SIZE).take BLOCK_SIZE)
  let image := putBytes image (FIRST_DATA_BLOCK * BLOCK_SIZE)
    (slice (superblock (TOTAL_BLOCKS - s.usedBlocks.length) (INODES_PER_GROUP - s.usedInodes.length)) 0 BLOCK_SIZE)
  putBytes image (BGDT_BLOCK * BLOCK_SIZE) ((bgdtBytes (TOTAL_BLOCKS - s.usedBlocks.length)
    (INODES_PER_GROUP - s.usedInodes.length) s.dirs.length).take BLOCK_SIZE)

theorem packH_ok {n : Int} {l : Text} (h : packH n = .ok l) : l = le16 n.toNat := by
  unfold packH at h
  split at h
  · cases h; rfl
  · cases h

/-- **What a build writes**: it allocates one block for each directory and one for each file with
an indirect block, and then lays down bitmaps, superblock and descriptor table. -/
theorem build_spec (hs : Bump s) (h : build bt s = .ok u s') :
    Bump s' ∧ s'.nextBlock = s.nextBlock + s.dirs.length + s.indirectFiles ∧
      ∃ s₀, s'.image = metaImage s₀ ∧ s₀.usedBlocks = s'.usedBlocks ∧ s₀.usedInodes = s'.usedInodes ∧ s₀.dirs = s'.dirs := by
  simp only [build, writeBgdt, get_bind, bind_ok, writeBitmap, writeBlock, writeSuperblock, modify_ok, lift_ok] at h
  obtain ⟨_, s₁, h1, _, s₂, h2, _, _, rfl, _, _, rfl, _, _, rfl, fb, _, ⟨p1, rfl⟩, fi, _, ⟨p2, rfl⟩, ud, _, ⟨p3, rfl⟩, rfl⟩ := h
  have b1 := (keeps_finaliseDirs s.dirs).ok hs h1
  obtain ⟨e1, c1⟩ := finaliseDirs_ok [] hs.keys h1
  have b2 := (keeps_writeInodeTable bt s₁.inodes).ok b1 h2
  have hcount : s₁.inodes.countP (fun p => p.2.indirect) = s.indirectFiles := by
    rw [Ext2Builder.indirectFiles]
    simpa [countOutside] using c1
  refine ⟨⟨b2.1, b2.2, b2.3, b2.4, b2.5⟩, ?_, s₂, ?_, rfl, rfl, rfl⟩
  · simp only [writeInodeTable_ok h2, hcount, e1]
  · have t1 : ∀ n k : Nat, ((n : Int) - k).toNat = n - k := fun n k => by omega
    rw [packH_ok p1, packH_ok p2, packH_ok p3, t1, t1]
    rfl

/-! ## Reading the image -/

theorem putBytes_self (hi : i < data.length) : putBytes image (k * BLOCK_SIZE) data (k * BLOCK_SIZE + i) = data.getD i 0 := by
  rw [putBytes, copy, if_pos (by omega), Nat.add_sub_cancel_left]
  rfl

theorem putBytes_ne {k' : Nat} (hd : data.length ≤ BLOCK_SIZE) (hi : i < BLOCK_SIZE) (hne : k ≠ k') :
    putBytes image (k * BLOCK_SIZE) data (k' * BLOCK_SIZE + i) = image (k' * BLOCK_SIZE + i) := by
  simp only [BLOCK_SIZE] at hd hi ⊢
  rw [putBytes, copy, if_neg (by omega)]

theorem slice_getD {b : Buf} (hi : i < n) : (slice b 0 n).getD i 0 = b i := by
  simp [slice, getD, hi]

theorem take_slice (b : Buf) (n : Nat) : (slice b 0 n).take n = slice b 0 n :=
  take_of_length_le (by rw [length_slice])

theorem length_bgdtBytes (fb fi ud : Nat) : (bgdtBytes fb fi ud).length = BLOCK_SIZE := by
  simp only [bgdtBytes, le32, le16, BLOCK_SIZE, length_append, length_cons, length_nil, length_replicate]

section
variable (s : Ext2Builder)

theorem metaImage_blockBitmap : Same 0 BLOCK_SIZE (fun i => metaImage s (BLOCK_BITMAP_BLOCK * BLOCK_SIZE + i))
    (bitmapOf TOTAL_BLOCKS s.usedBlocks zeros) := by
  intro i _ hi
  simp only [metaImage, take_slice]
  rw [putBytes_ne (by rw [length_take]; omega) hi (by decide),
    putBytes_ne (by rw [length_slice]) hi (by decide), putBytes_ne (by rw [length_slice]) hi (by decide),
    putBytes_self (by rwa [length_slice]), slice_getD hi]

theorem metaImage_inodeBitmap : Same 0 BLOCK_SIZE (fun i => metaImage s (INODE_BITMAP_BLOCK * BLOCK_SIZE + i))
    (bitmapOf INODES_PER_GROUP (s.usedInodes.map (· - 1)) zeros) := by
  intro i _ hi
  simp only [metaImage, take_slice]
  rw [putBytes_ne (by rw [length_take]; omega) hi (by decide),
    putBytes_ne (by rw [length_slice]) hi (by decide), putBytes_self (by rwa [length_slice]), slice_getD hi]

theorem metaImage_super : Same 0 BLOCK_SIZE (fun i => metaImage s (FIRST_DATA_BLOCK * BLOCK_SIZE + i))
    (superblock (TOTAL_BLOCKS - s.usedBlocks.length) (INODES_PER_GROUP - s.usedInodes.length)) := by
  intro i _ hi
  simp only [metaImage, take_slice]
  rw [putBytes_ne (by rw [length_take]; omega) hi (by decide), putBytes_self (by rwa [length_slice]), slice_getD hi]

theorem metaImage_bgdt : Same 0 BLOCK_SIZE (fun i => metaImage s (BGDT_BLOCK * BLOCK_SIZE + i))
    (ofList (bgdtBytes (TOTAL_BLOCKS - s.usedBlocks.length) (INODES_PER_GROUP - s.usedInodes.length) s.dirs.length)) := by
  intro i _ hi
  have hl := length_bgdtBytes (TOTAL_BLOCKS - s.usedBlocks.length) (INODES_PER_GROUP - s.usedInodes.length) s.dirs.length
  simp only [metaImage]
  rw [putBytes_self (by rw [length_take]; omega), take_of_length_le (Nat.le_of_eq hl)]
  rfl

end

/-! ## Mounting the image -/

/-- The group layout the driver derives from the image. -/
def imageLayout : Layout := oneGroup 1024 8192 4096 1024

theorem imageLayout_ok : imageLayout.Ok := oneGroup_ok (.inl rfl) (by decide) (by decide)

/-- The disk with the image, before mounting. -/
def Ext2Builder.rawDisk (s : Ext2Builder) : Disk := ⟨s.image, zeros⟩

/-- The machine state after `ext2_super_read` on the image. -/
def Ext2Builder.mounted (s : Ext2Builder) : Disk :=
  (Prog.run (Dev.step imageLayout.fs) (superRead true) s.rawDisk).2

theorem rawSuper_image {s₀ : Ext2Builder} {d : Disk} (hd : d.bytes = metaImage s₀) :
    Same 0 1024 (rawSuper (d.sector 2) (d.sector 3))
      (superblock (TOTAL_BLOCKS - s₀.usedBlocks.length) (INODES_PER_GROUP - s₀.usedInodes.length)) := by
  intro i h0 hi
  rw [← metaImage_super s₀ i h0 hi]
  simp only [rawSuper, Disk.sector, trunc, hd]
  split
  · simp only [FIRST_DATA_BLOCK, BLOCK_SIZE]
  · rw [if_pos (by omega)]
    simp only [FIRST_DATA_BLOCK, BLOCK_SIZE]
    exact congrArg _ (by omega)

theorem superblock_fields (h : Same 0 1024 raw (superblock fb fi)) :
    get32 raw 0 = 1024 ∧ get32 raw 4 = 4096 ∧ get32 raw 20 = 1 ∧ get32 raw 24 = 0 ∧ get32 raw 32 = 8192 ∧
      get32 raw 40 = 1024 ∧ get16 raw 56 = 0xEF53 ∧ get32 raw 76 = 1 ∧ get16 raw 88 = 128 ∧ get32 raw 96 = 2 := by
  have g32 : ∀ o, o + 4 ≤ 1024 → get32 raw o = get32 (superblock fb fi) o := fun o ho =>
    get32_congr (h.mono (by omega) (by omega))
  have g16 : ∀ o, o + 2 ≤ 1024 → get16 raw o = get16 (superblock fb fi) o := fun o ho =>
    get16_congr (h.mono (by omega) (by omega))
  simp (disch := omega) only [g32, g16, superblock, get32_put32_ne, get32_put16_ne, get32_copy_ne, get16_put32_ne,
    get16_put16_ne, get16_copy_ne, get32_put32, get16_put16, get32_zeros, INODES_PER_GROUP, TOTAL_BLOCKS,
    FIRST_DATA_BLOCK, BLOCKS_PER_GROUP, EXT2_MAGIC, INODE_SIZE, Nat.reduceMod, and_self]

theorem superblock_counts (fb fi : Nat) (h1 : fb < 4294967296) (h2 : fi < 4294967296) :
    get32 (superblock fb fi) 12 = fb ∧ get32 (superblock fb fi) 16 = fi := by
  simp (disch := omega) only [superblock, get32_put32_ne, get32_put16_ne, get32_copy_ne, get32_put32, Nat.mod_eq_of_lt, and_self]

theorem superParse_image (h : Same 0 1024 raw (superblock fb fi)) : superParse raw = some imageLayout.fs := by
  obtain ⟨f0, f4, f20, f24, f32, f40, f56, f76, f88, f96⟩ := superblock_fields h
  have hb : superBlockSize raw = 1024 := by rw [superBlockSize, f24]; rfl
  have hi : superInodeSize raw = 128 := by rw [superInodeSize, f76, f88]; rfl
  have hn : superNumGroups raw = 1 := by rw [superNumGroups, f4, f32]; rfl
  have hc : superChecks raw := by
    unfold superChecks
    rw [f56, f76, f96, hb, hi, hn, f40, f32]
    decide
  rw [superParse, if_pos hc, superFs, hb, hi, hn, f0, f4, f20, f32, f40]
  rfl

/-- A built image: the metadata blocks hold what the builder knows. -/
structure Built (s : Ext2Builder) : Prop where
  bump : Bump s
  image : ∃ s₀, s.image = metaImage s₀ ∧ s₀.usedBlocks = s.usedBlocks ∧ s₀.usedInodes = s.usedInodes ∧ s₀.dirs = s.dirs

theorem Built.of_build {bt : Nat} {s' : Ext2Builder} (hs : Bump s) (h : build bt s = .ok u s') :
    Built s' := ⟨(build_spec hs h).1, (build_spec hs h).2.2⟩

section
variable {s : Ext2Builder} (hb : Built s)
include hb

/-- The driver mounts the image, with the parameters the builder assumed. -/
theorem mount_built (fs₀ : Fs) : Prog.run (Dev.step fs₀) (superRead true) s.rawDisk =
    (some imageLayout.fs, ⟨s.image, copy zeros 0 (fun i => s.image (2 * 1024 + i)) (1 * 1024)⟩) := by
  obtain ⟨s₀, h1, -⟩ := hb.image
  exact run_superRead (superParse_image (rawSuper_image h1)) (by decide)

theorem mounted_bytes : s.mounted.bytes = s.image := by
  rw [Ext2Builder.mounted, mount_built hb]

theorem mounted_bgdt : s.mounted.bgdt = copy zeros 0 (fun i => s.image (2 * 1024 + i)) (1 * 1024) := by
  rw [Ext2Builder.mounted, mount_built hb]

omit hb in
theorem bit_bitmapOf (m : Nat) (j : Nat) : ∀ (us : List Nat) (b : Buf),
    bit (bitmapOf m us b) j = (bit b j || (decide (j < m) && decide (j ∈ us)))
  | [], b => by simp [bitmapOf]
  | i :: us, b => by
    rw [bitmapOf, bit_bitmapOf m j us]
    by_cases hi : i < m
    · rw [if_pos hi, bit_setBit]
      by_cases e : j = i
      · subst e; simp [hi]
      · simp [e]
    · rw [if_neg hi]
      by_cases e : j = i
      · subst e; simp [hi]
      · simp [e]

omit hb in
theorem bit_zeros (j : Nat) : bit zeros j = false := by simp [bit, zeros]

theorem blockBit_built (hi : i < 8192) : s.mounted.blockBit imageLayout 0 i = decide (i < s.nextBlock) := by
  obtain ⟨s₀, h1, h2, -⟩ := hb.image
  have hu := hb.bump.usedBlocks
  have hn := hb.bump.nextBlock.2
  have hblk : Same 0 1024 (s.mounted.block imageLayout.fs (imageLayout.blockBitmap 0))
      (bitmapOf TOTAL_BLOCKS s.usedBlocks zeros) := by
    refine (trunc_same _ _).trans ?_
    rw [mounted_bytes hb, h1, ← h2]
    exact metaImage_blockBitmap s₀
  rw [Disk.blockBit, bit_congr hblk (by omega), bit_bitmapOf, bit_zeros, hu, ← Bool.decide_and]
  simp only [mem_range]
  exact decide_eq_decide.2 (by omega)

theorem inodeBit_built (hi : i < 8192) : s.mounted.inodeBit imageLayout 0 i = decide (i < s.nextInode - 1) := by
  obtain ⟨s₀, h1, -, h2, -⟩ := hb.image
  have hu := hb.bump.usedInodes
  have hn := hb.bump.nextInode.2
  have hblk : Same 0 1024 (s.mounted.block imageLayout.fs (imageLayout.inodeBitmap 0))
      (bitmapOf INODES_PER_GROUP (s.usedInodes.map (· - 1)) zeros) := by
    refine (trunc_same _ _).trans ?_
    rw [mounted_bytes hb, h1, ← h2]
    exact metaImage_inodeBitmap s₀
  have hmem : ((range (s.nextInode - 1)).map (· + 1)).map (· - 1) = range (s.nextInode - 1) := by
    rw [map_map]
    exact map_id' _
  rw [Disk.inodeBit, bit_congr hblk (by omega), bit_bitmapOf, bit_zeros, hu, hmem, ← Bool.decide_and]
  simp only [mem_range, INODES_PER_GROUP] at hn ⊢
  exact decide_eq_decide.2 (by omega)

omit hb in
theorem get32_shift {b : Buf} (k o : Nat) : get32 (fun a => b (a - k)) (k + o) = get32 b o := by
  simp only [get32, Nat.add_assoc, Nat.add_sub_cancel_left]

theorem counts_built : bgFreeBlocksCount s.mounted.bgdt 0 = TOTAL_BLOCKS - s.nextBlock ∧
      bgFreeInodesCount s.mounted.bgdt 0 = INODES_PER_GROUP - (s.nextInode - 1) ∧
      s.mounted.superFreeBlocks = TOTAL_BLOCKS - s.nextBlock ∧
      s.mounted.superFreeInodes = INODES_PER_GROUP - (s.nextInode - 1) := by
  obtain ⟨s₀, h1, h2, h3, h4⟩ := hb.image
  have l1 : s₀.usedBlocks.length = s.nextBlock := by rw [h2, hb.bump.usedBlocks, length_range]
  have l2 : s₀.usedInodes.length = s.nextInode - 1 := by
    rw [h3, hb.bump.usedInodes, length_map, length_range]
  have hg := metaImage_bgdt s₀
  have hsup := metaImage_super s₀
  rw [l1, l2] at hg hsup
  have hlt1 : TOTAL_BLOCKS - s.nextBlock < 65536 := by simp only [TOTAL_BLOCKS]; omega
  have hlt2 : INODES_PER_GROUP - (s.nextInode - 1) < 65536 := by simp only [INODES_PER_GROUP]; omega
  have hbg : Same 0 1024 s.mounted.bgdt (ofList (bgdtBytes (TOTAL_BLOCKS - s.nextBlock)
      (INODES_PER_GROUP - (s.nextInode - 1)) s₀.dirs.length)) := by
    intro i h0 hi
    rw [← hg i h0 hi, mounted_bgdt hb, copy, if_pos (by omega), h1]
    rfl
  have hsb : Same 1024 2048 s.mounted.bytes fun a => superblock (TOTAL_BLOCKS - s.nextBlock)
      (INODES_PER_GROUP - (s.nextInode - 1)) (a - 1024) := by
    intro a ha1 ha2
    have := hsup (a - 1024) (by omega) (by simp only [BLOCK_SIZE]; omega)
    rw [mounted_bytes hb, h1]
    refine Eq.trans (congrArg _ ?_) this
    simp only [FIRST_DATA_BLOCK, BLOCK_SIZE]; omega
  obtain ⟨c1, c2⟩ := superblock_counts (TOTAL_BLOCKS - s.nextBlock) (INODES_PER_GROUP - (s.nextInode - 1)) (by omega) (by omega)
  have le16_get : ∀ {l : Text} {o n : Nat}, n < 65536 → l.getD o 0 = leByte n 0 →
      l.getD (o + 1) 0 = leByte n 1 → get16 (ofList l) o = n := by
    intro l o n hn e1 e2
    simp only [get16, ofList, e1, e2, leByte_toNat]
    omega
  refine ⟨?_, ?_, ?_, ?_⟩
  · rw [bgFreeBlocksCount, Nat.zero_mul, Nat.zero_add, get16_congr (hbg.mono (by omega) (by omega))]
    exact le16_get hlt1 rfl rfl
  · rw [bgFreeInodesCount, Nat.zero_mul, Nat.zero_add, get16_congr (hbg.mono (by omega) (by omega))]
    exact le16_get hlt2 rfl rfl
  · rw [Disk.superFreeBlocks, get32_congr (hsb.mono (by omega) (by omega)), get32_shift 1024 12]
    exact c1
  · rw [Disk.superFreeInodes, get32_congr (hsb.mono (by omega) (by omega)), get32_shift 1024 16]
    exact c2

theorem zeroBlocks_built : s.mounted.zeroBlocks imageLayout 0 = TOTAL_BLOCKS - (s.nextBlock + 1) := by
  have e : s.mounted.zeroBlocks imageLayout 0 = Nat.count (fun i => s.nextBlock ≤ i ∧ i < 4095) 8192 := by
    refine count_congr fun i hi => ?_
    rw [blockBit_built hb hi]
    simp only [imageLayout, oneGroup, firstBlockOf, if_true, decide_eq_false_iff_not]
    omega
  rw [e, count_interval]
  simp only [TOTAL_BLOCKS]
  omega

theorem zeroInodes_built : s.mounted.zeroInodes imageLayout 0 = INODES_PER_GROUP - (s.nextInode - 1) := by
  have e : s.mounted.zeroInodes imageLayout 0 = Nat.count (fun i => s.nextInode - 1 ≤ i ∧ i < 1024) 1024 := by
    refine count_congr fun i hi => ?_
    have hi' : i < 1024 := hi
    rw [inodeBit_built hb (by omega)]
    simp only [imageLayout, oneGroup, decide_eq_false_iff_not]
    omega
  rw [e, count_interval]
  simp only [INODES_PER_GROUP]
  omega

end

/-! ## Agreement -/

/-- Read the driver's way, the block bitmap marks exactly the metadata blocks 1..132 and the blocks
the builder allocated, and both free counts are the number of blocks the driver can still take. -/
def BlocksAgree (s : Ext2Builder) : Prop :=
  (∀ b, 1 ≤ b → b < TOTAL_BLOCKS → ((s.mounted.store imageLayout).blockUsed b = true ↔ b < FIRST_FREE_BLOCK ∨ b ∈ s.usedBlocks)) ∧
  bgFreeBlocksCount s.mounted.bgdt 0 = s.mounted.zeroBlocks imageLayout 0 ∧
  s.mounted.superFreeBlocks = s.mounted.zeroBlocks imageLayout 0

/-- The same for inodes. -/
def InodesAgree (s : Ext2Builder) : Prop :=
  (∀ ino, 1 ≤ ino → ino ≤ INODES_PER_GROUP → ((s.mounted.store imageLayout).inodeUsed ino = true ↔ ino ∈ s.usedInodes)) ∧
  bgFreeInodesCount s.mounted.bgdt 0 = s.mounted.zeroInodes imageLayout 0 ∧
  s.mounted.superFreeInodes = s.mounted.zeroInodes imageLayout 0

section
variable {s : Ext2Builder} (hb : Built s)
include hb

/-- The driver sees blocks `1 .. next_block` as used, one more than were allocated. -/
theorem blockUsed_built (h1 : 1 ≤ b) (h2 : b < TOTAL_BLOCKS) :
    (s.mounted.store imageLayout).blockUsed b = decide (b ≤ s.nextBlock) := by
  have hlt : b < 4096 := h2
  have e1 : imageLayout.groupOf b = 0 := Nat.div_eq_of_lt (by
    simp only [imageLayout, oneGroup, firstBlockOf, if_true]; omega)
  have e2 : imageLayout.indexOf b = b - 1 := Nat.mod_eq_of_lt (by
    simp only [imageLayout, oneGroup, firstBlockOf, if_true]; omega)
  rw [blockUsed_store imageLayout_ok h1 h2, e1, blockBit_built hb (by omega)]
  exact decide_eq_decide.2 (by omega)

theorem blocksAgree_iff : BlocksAgree s ↔ s.nextBlock = TOTAL_BLOCKS := by
  have hn := hb.bump.nextBlock
  have hu := hb.bump.usedBlocks
  obtain ⟨c1, -, c3, -⟩ := counts_built hb
  have hz := zeroBlocks_built hb
  unfold BlocksAgree
  rw [hu]
  constructor
  · omega
  · intro h
    refine ⟨fun b h1 h2 => ?_, by omega, by omega⟩
    rw [blockUsed_built hb h1 h2, decide_eq_true_eq, mem_range]
    omega

theorem inodesAgree_built : InodesAgree s := by
  obtain ⟨-, c2, -, c4⟩ := counts_built hb
  refine ⟨fun ino h1 h2 => ?_, c2.trans (zeroInodes_built hb).symm, c4.trans (zeroInodes_built hb).symm⟩
  have h2' : ino ≤ 1024 := h2
  have hv : imageLayout.ValidIno ino := ⟨by omega, h2⟩
  have e1 : imageLayout.groupOfIno ino = 0 := Nat.div_eq_of_lt (by simp only [imageLayout, oneGroup]; omega)
  have e2 : imageLayout.indexOfIno ino = ino - 1 := Nat.mod_eq_of_lt (by
    simp only [imageLayout, oneGroup]; omega)
  have hbit := inodeBit_built hb (i := ino - 1) (by omega)
  rw [Disk.inodeBit] at hbit
  simp only [Disk.store, hv, decide_true, Bool.true_and, e1, e2, hbit, decide_eq_true_eq, hb.bump.usedInodes, mem_map, mem_range]
  constructor
  · intro h
    exact ⟨ino - 1, h, by omega⟩
  · omega

end

/-- **The image builder and the driver.** After any calls and a build that returns, the driver mounts
the image and agrees with the builder about inodes; about blocks they agree exactly when the image
is full, that is when the blocks handed out so far, one for each directory and one for each file
with an indirect block make 4096. -/
theorem image_agrees_iff (cs : List Call) (buildTime : Nat) (s : Ext2Builder) (h : build buildTime (runCalls cs) = .ok () s) :
    (Prog.run (Dev.step imageLayout.fs) (superRead true) s.rawDisk).1 = some imageLayout.fs ∧ InodesAgree s ∧
      (BlocksAgree s ↔ (runCalls cs).nextBlock + (runCalls cs).dirs.length + (runCalls cs).indirectFiles = TOTAL_BLOCKS) := by
  have hb := Built.of_build (bump_runCalls cs) h
  obtain ⟨-, hn, -⟩ := build_spec (bump_runCalls cs) h
  refine ⟨by rw [mount_built hb], inodesAgree_built hb, ?_⟩
  rw [blocksAgree_iff hb, hn]

def returned (m : Py α) (s : Ext2Builder) : Bool :=
  match m s with
  | .ok _ _ => true
  | .error _ _ => false

theorem ok_of_returned {m : Py Unit} (h : returned m s = true) : m s = .ok () (after m s) := by
  unfold returned at h
  unfold after
  cases hm : m s with
  | ok u s' => rfl
  | error e s' => rw [hm] at h; cases h

/-- A directory and a file in it. -/
def sampleCalls : List Call :=
  [.mkdir ROOT_INO "etc" none, .addFile 3 "motd" [104, 105, 10] none 0 0]

theorem image_agrees_iff_sample : build 0 (runCalls sampleCalls) = .ok () (after (build 0) (runCalls sampleCalls)) ∧
      InodesAgree (after (build 0) (runCalls sampleCalls)) ∧
      (BlocksAgree (after (build 0) (runCalls sampleCalls)) ↔ 134 + 2 + 0 = TOTAL_BLOCKS) := by
  have h : build 0 (runCalls sampleCalls) = .ok () (after (build 0) (runCalls sampleCalls)) :=
    ok_of_returned (by decide +kernel)
  exact ⟨h, (image_agrees_iff sampleCalls 0 _ h).2⟩

/-- With no calls at all: the root directory is the one block allocated, 133, and the driver takes
block 134 for used. -/
theorem empty_image_disagrees : build 0 (runCalls []) = .ok () (after (build 0) (runCalls [])) ∧
      ((after (build 0) (runCalls [])).mounted.store imageLayout).blockUsed 134 = true ∧
      134 ∉ (after (build 0) (runCalls [])).usedBlocks ∧
      ¬ BlocksAgree (after (build 0) (runCalls [])) := by
  have h : build 0 (runCalls []) = .ok () (after (build 0) (runCalls [])) :=
    ok_of_returned (by decide +kernel)
  have hb := Built.of_build (bump_runCalls []) h
  have hn := (build_spec (bump_runCalls []) h).2.1
  refine ⟨h, ?_, ?_, ?_⟩
  · rw [blockUsed_built hb (by omega) (by decide), hn]
    rfl
  · rw [hb.bump.usedBlocks, hn]
    exact not_mem_range_self
  · rw [blocksAgree_iff hb, hn]
    decide

end PureUnix.MkExt2
