import PureUnix.Lib.Touch
import PureUnix.Ext2.DirSpec

/-!
# How far the directory code reaches (`fs/ext2/dir.c` on arbitrary blocks)

The functions of `Dir.lean` once more, with the loads and stores of their record loops written out: each one also returns a
`Trace`, the end of the farthest access to a block buffer and whether every record loop has ended. The loops trust `rec_len`
and `name_len`: they stop at a header that would pass the end of the block, but a name behind the last header may lie outside,
and so may the entry that `ext2_dir_insert` puts into a record longer than what is left of the block.
-/
namespace PureUnix.Ext2.Traced
open Lib Lib.OnBuf

variable {β S : Type}

/-- How far the accesses to the block buffers reached, and whether every record loop has ended. -/
structure Trace where
  mark : Nat
  ended : Bool
deriving DecidableEq, Repr

namespace Trace

def start : Trace := ⟨0, true⟩

/-- One more piece of code has run. -/
def also (t t' : Trace) : Trace := ⟨max t.mark t'.mark, t.ended && t'.ended⟩

/-- Everything ended, and nothing outside the first `bs` bytes was touched if and only if `P`. -/
def Within (t : Trace) (bs : Nat) (P : Prop) : Prop := t.ended = true ∧ (t.mark ≤ bs ↔ P)

theorem within_start (bs : Nat) : start.Within bs True := ⟨rfl, iff_of_true (Nat.zero_le bs) trivial⟩

variable {t t' : Trace} {bs : Nat} {P Q : Prop}

theorem Within.congr (h : t.Within bs P) (hpq : P ↔ Q) : t.Within bs Q := ⟨h.1, h.2.trans hpq⟩

theorem Within.also (h : t.Within bs P) (h' : t'.Within bs Q) : (t.also t').Within bs (P ∧ Q) :=
  ⟨Bool.and_eq_true_iff.2 ⟨h.1, h'.1⟩, Nat.max_le.trans (and_congr h.2 h'.2)⟩

/-- After more code that ends: it stays inside if and only if `P`. -/
def Goes (t t' : Trace) (bs : Nat) (P : Prop) : Prop := t'.ended = t.ended ∧ (t'.mark ≤ bs ↔ t.mark ≤ bs ∧ P)

theorem Goes.within (h : t.Goes t' bs P) (ht : t.Within bs Q) : t'.Within bs (Q ∧ P) :=
  ⟨h.1.trans ht.1, h.2.trans (and_congr_left fun _ => ht.2)⟩

theorem Within.goes (h : t'.Within bs P) : t.Goes (t.also t') bs P :=
  ⟨by rw [Trace.also, h.1, Bool.and_true], Nat.max_le.trans (and_congr_right fun _ => h.2)⟩

theorem Goes.congr (h : t.Goes t' bs P) (hpq : P ↔ Q) : t.Goes t' bs Q := ⟨h.1, h.2.trans (and_congr_right fun _ => hpq)⟩

theorem Goes.refl (t : Trace) (bs : Nat) : t.Goes t bs True := ⟨rfl, (iff_of_eq (and_true _)).symm⟩

theorem Goes.trans {t'' : Trace} (h : t.Goes t' bs P) (h' : t'.Goes t'' bs Q) : t.Goes t'' bs (P ∧ Q) :=
  ⟨h'.1.trans h.1, h'.2.trans ((and_congr_left fun _ => h.2).trans and_assoc)⟩

end Trace

/-! ## One block -/

/-- The record loop; `none` when it has not ended after `fuel` rounds. -/
def recordLoop (bs : Nat) (body : Option Nat → Nat → OnBuf (Option β)) : Nat → Option Nat → Nat → OnBuf (Option (Option β))
  | 0, _, _ => pure none
  | fuel + 1, prev, off =>
    if bs < off + 8 then pure (some none)
    else do
      let recLen ← load16 (off + 4)
      if recLen = 0 then pure (some none)
      else do
        match ← body prev off with
        | some x => pure (some (some x))
        | none => do
          let recLen ← load16 (off + 4)
          recordLoop bs body fuel (some off) (off + recLen)

/-- The answer of a loop over the block `b`, the block after it, and the trace. -/
def scanBlock (bs : Nat) (body : Option Nat → Nat → OnBuf (Option β)) (b : Buf) : (Option β × Buf) × Trace :=
  let r := Prog.run touch (recordLoop bs body bs none 0) ⟨b, 0⟩
  ((r.1.join, r.2.bytes), ⟨r.2.mark, r.1.isSome⟩)

/-- The answer of a loop that leaves the block as it is. -/
def askBlock (bs : Nat) (body : Option Nat → Nat → OnBuf (Option β)) (b : Buf) : Option β × Trace :=
  ((scanBlock bs body b).1.1, (scanBlock bs body b).2)

/-- The block after a loop that edits it, if the loop has answered. -/
def editBlock (bs : Nat) (body : Option Nat → Nat → OnBuf (Option Unit)) (b : Buf) : Option Buf × Trace :=
  ((scanBlock bs body b).1.1.map fun _ => (scanBlock bs body b).1.2, (scanBlock bs body b).2)

/-- `de->inode != 0 && de->name_len == (uint8_t)name_len && strncmp(name(de), name, name_len) == 0`. -/
def deMatches (name : Text) (off : Nat) : OnBuf Bool := do
  let inode ← load32 off
  if inode ≠ 0 then do
    let nameLen ← load8 (off + 6)
    if nameLen.toNat = name.length % 256 then strncmp (off + 8) name else pure false
  else pure false

/-- `lookup_in_block` (dir.c:47). -/
def lookupBody (name : Text) (_ : Option Nat) (off : Nat) : OnBuf (Option Nat) := do
  if ← deMatches name off then do
    let inode ← load32 off
    pure (some inode)
  else pure none

def storeEntry (off : Nat) (name : Text) (fileType : UInt8) : OnBuf Unit := do
  store8 (off + 6) (UInt8.ofNat name.length)
  store8 (off + 7) fileType
  memcpyTo (off + 8) name

/-- A free slot is reused (dir.c:241). -/
def reuseSlot (off ino : Nat) (name : Text) (fileType : UInt8) : OnBuf Unit := do
  store32 off ino
  storeEntry off name fileType

/-- A live record is cut to `actual` bytes, and a new one starts there (dir.c:252). -/
def splitRecord (off actual recLen ino : Nat) (name : Text) (fileType : UInt8) : OnBuf Unit := do
  store16 (off + 4) actual
  store32 (off + actual) ino
  store16 (off + actual + 4) (recLen + 65536 - actual)
  storeEntry (off + actual) name fileType

/-- `ext2_dir_insert` (dir.c:210). -/
def insertBody (name : Text) (ino : Nat) (fileType : UInt8) (_ : Option Nat) (off : Nat) : OnBuf (Option Unit) := do
  let needed := align4 (8 + name.length)
  let inode ← load32 off
  let recLen ← load16 (off + 4)
  if inode = 0 then
    if needed ≤ recLen then do
      reuseSlot off ino name fileType
      pure (some ())
    else pure none
  else do
    let nameLen ← load8 (off + 6)
    let actual := align4 (8 + nameLen.toNat)
    if needed ≤ u32 (recLen + 4294967296 - actual) then do
      splitRecord off actual recLen ino name fileType
      pure (some ())
    else pure none

/-- `ext2_dir_remove` (dir.c:295). -/
def removeBody (name : Text) (prev : Option Nat) (off : Nat) : OnBuf (Option Unit) := do
  if ← deMatches name off then
    match prev with
    | some p => do
      let before ← load16 (p + 4)
      let recLen ← load16 (off + 4)
      store16 (p + 4) (before + recLen)
      pure (some ())
    | none => do
      store32 off 0
      pure (some ())
  else pure none

/-- `n[0] == '.' && n[1] == '.'`. -/
def isDotDot (off : Nat) : OnBuf Bool := do
  let c ← load8 (off + 8)
  if c = 46 then do
    let c ← load8 (off + 9)
    pure (c == 46)
  else pure false

/-- `ext2_dir_is_empty` (dir.c:338). -/
def otherBody (_ : Option Nat) (off : Nat) : OnBuf (Option Unit) := do
  let inode ← load32 off
  if inode ≠ 0 then do
    let nameLen ← load8 (off + 6)
    if nameLen.toNat = 1 then do
      let c ← load8 (off + 8)
      pure (if c = 46 then none else some ())
    else if nameLen.toNat = 2 then do
      let dotdot ← isDotDot off
      pure (if dotdot then none else some ())
    else pure (some ())
  else pure none

/-- `ext2_dir_set_parent` (dir.c:367). -/
def setParentBody (newParent : Nat) (_ : Option Nat) (off : Nat) : OnBuf (Option Unit) := do
  let inode ← load32 off
  if inode ≠ 0 then do
    let nameLen ← load8 (off + 6)
    if nameLen.toNat = 2 then do
      if ← isDotDot off then do
        store32 off newParent
        pure (some ())
      else pure none
    else pure none
  else pure none

/-- The block a directory grows by (dir.c:280). -/
def freshDirBlock (bs : Nat) (name : Text) (ino : Nat) (fileType : UInt8) : OnBuf Unit := do
  store32 0 ino
  store16 4 bs
  storeEntry 0 name fileType

/-- What `readdir_block` takes from the record at `off`: its length, and name, file type and inode number if they are reported. -/
def readdirBody (off : Nat) : OnBuf (Nat × Option (Text × UInt8 × Nat)) := do
  let recLen ← load16 (off + 4)
  if recLen = 0 then pure (0, none)
  else do
    let inode ← load32 off
    if inode ≠ 0 then do
      let nameLen ← load8 (off + 6)
      if 0 < nameLen.toNat then do
        let name ← memcpyFrom (off + 8) (min nameLen.toNat (PUREUNIX_MAX_NAME - 1))
        let fileType ← load8 (off + 7)
        pure (recLen, some (name, fileType, inode))
      else pure (recLen, none)
    else pure (recLen, none)

/-! ## Lookup and enumeration -/

/-- `lookup_in_block` (dir.c:47). -/
def lookupInBlock (fs : Fs) (name : Text) (blkNo : Nat) (ctx : Nat × Trace) : Drv (Int × Nat × Trace) :=
  if blkNo = 0 then pure (0, ctx)
  else do
    match ← Drv.readBlock blkNo with
    | none => pure (-1, ctx)
    | some buf =>
      let r := askBlock fs.blockSize (lookupBody name) buf
      match r.1 with
      | some ino => pure (1, ino, ctx.2.also r.2)
      | none => pure (0, ctx.1, ctx.2.also r.2)

/-- `ext2_dir_lookup` (dir.c:75). -/
def dirLookup (fs : Fs) (dirIno : Nat) (name : Text) : Drv (Option Nat × Trace) := do
  match ← Drv.readInode dirIno with
  | none => pure (none, .start)
  | some inode =>
    if inode.isDir = false then pure (none, .start)
    else do
      let r ← iterBlocks fs inode inode.iSize.toNat (lookupInBlock fs name) (0, .start)
      if r.1 = 1 ∧ r.2.1 ≠ 0 then pure (some r.2.1, r.2.2) else pure (none, r.2.2)

/-- The `vfs_dirent_t` of a record. -/
def fillDirent (name : Text) (fileType : UInt8) (ino : Nat) : Drv VfsDirent :=
  if fileType = EXT2_FT_DIR then pure ⟨name, .dir, 0⟩
  else do
    let i ← Drv.readInode ino
    pure ⟨name, if fileType = EXT2_FT_SYMLINK then .symlink else .file, (i.map fun i => i.iSize.toNat).getD 0⟩

/-- The record loop of `readdir_block` (dir.c:154). -/
def readdirWalk (fs : Fs) (cb : VfsDirent → S → Bool × S) (buf : Buf) : Nat → Nat → S → Trace → Drv (Bool × S × Trace)
  | 0, _, s, t => pure (false, s, { t with ended := false })
  | fuel + 1, off, s, t =>
    if fs.blockSize < off + 8 then pure (false, s, t)
    else
      let r := Prog.run touch (readdirBody off) ⟨buf, t.mark⟩
      let t' : Trace := { t with mark := r.2.mark }
      if r.1.1 = 0 then pure (false, s, t')
      else match r.1.2 with
        | some (name, fileType, ino) => do
          let e ← fillDirent name fileType ino
          if (cb e s).1 then pure (true, (cb e s).2, t')
          else readdirWalk fs cb buf fuel (off + r.1.1) (cb e s).2 t'
        | none => readdirWalk fs cb buf fuel (off + r.1.1) s t'

/-- `readdir_block` (dir.c:133). -/
def readdirBlock (fs : Fs) (cb : VfsDirent → S → Bool × S) (blkNo : Nat) (ctx : Bool × S × Trace) :
    Drv (Int × Bool × S × Trace) :=
  if blkNo = 0 then pure (0, ctx)
  else do
    match ← Drv.readBlock blkNo with
    | none => pure (-1, ctx)
    | some buf => do
      let r ← readdirWalk fs cb buf fs.blockSize 0 ctx.2.1 ctx.2.2
      if r.1 then pure (1, true, r.2) else pure (0, ctx.1, r.2)

/-- `ext2_readdir_ino` (dir.c:195). -/
def readdirIno (fs : Fs) (dirIno : Nat) (cb : VfsDirent → S → Bool × S) (s : S) : Drv ((Int × S) × Trace) := do
  match ← Drv.readInode dirIno with
  | none => pure ((-1, s), .start)
  | some inode =>
    if inode.isDir = false then pure ((-1, s), .start)
    else do
      let r ← iterBlocks fs inode inode.iSize.toNat (readdirBlock fs cb) (false, s, .start)
      pure ((if r.2.1 then 1 else 0, r.2.2.1), r.2.2.2)

/-! ## Modification -/

/-- The block loop of the functions that go by block index. -/
def scanDir (fs : Fs) (dir : Inode) (body : Buf → Option β × Trace) : Nat → Nat → Trace → Drv (Scan β × Trace)
  | 0, _, t => pure (.missing, t)
  | n + 1, b, t => do
    let blkNo ← inodeBlockAt fs dir b
    if blkNo = 0 then scanDir fs dir body n (b + 1) t
    else do
      match ← Drv.readBlock blkNo with
      | none => pure (.ioError, t)
      | some buf =>
        match (body buf).1 with
        | some x => pure (.found blkNo x, t.also (body buf).2)
        | none => scanDir fs dir body n (b + 1) (t.also (body buf).2)

/-- The growth path of `ext2_dir_insert` (dir.c:275). -/
def growDir (fs : Fs) (dirIno : Nat) (dir : Inode) (name : Text) (ino : Nat) (fileType : UInt8) (now : UInt32) (t : Trace) :
    Drv (Bool × Trace) := do
  match ← Drv.allocBlock with
  | none => pure (false, t)
  | some newBlk => do
    let r ← inodeAddBlock fs dir (dir.nblocks fs) newBlk
    if r.1 = false then pure (false, t)
    else do
      -- `memset(buf, 0, fs->block_size)` comes first
      let m := (Prog.run touch (freshDirBlock fs.blockSize name ino fileType) ⟨zeros, fs.blockSize⟩).2
      let t' := t.also ⟨m.mark, true⟩
      if ← Drv.writeBlock newBlk m.bytes then do
        let rc ← Drv.writeInode dirIno ({ r.2 with iSize := r.2.iSize + UInt32.ofNat fs.blockSize }.touch now)
        pure (rc, t')
      else pure (false, t')

/-- `ext2_dir_insert` (dir.c:210). -/
def dirInsert (fs : Fs) (dirIno : Nat) (name : Text) (ino : Nat) (fileType : UInt8) (now : UInt32) : Drv (Bool × Trace) := do
  match ← Drv.readInode dirIno with
  | none => pure (false, .start)
  | some dir =>
    if dir.isDir = false then pure (false, .start)
    else if name.length = 0 ∨ 255 < name.length then pure (false, .start)
    else do
      let r ← scanDir fs dir (editBlock fs.blockSize (insertBody name ino fileType)) (dir.nblocks fs) 0 .start
      match r.1 with
      | .ioError => pure (false, r.2)
      | .found blkNo buf => do
        let rc ← commitDir dirIno dir now blkNo buf
        pure (rc, r.2)
      | .missing => growDir fs dirIno dir name ino fileType now r.2

/-- `ext2_dir_remove` (dir.c:295). -/
def dirRemove (fs : Fs) (dirIno : Nat) (name : Text) (now : UInt32) : Drv (Bool × Trace) := do
  match ← Drv.readInode dirIno with
  | none => pure (false, .start)
  | some dir => do
    let r ← scanDir fs dir (editBlock fs.blockSize (removeBody name)) (dir.nblocks fs) 0 .start
    match r.1 with
    | .found blkNo buf => do
      let rc ← commitDir dirIno dir now blkNo buf
      pure (rc, r.2)
    | _ => pure (false, r.2)

/-- `ext2_dir_is_empty` (dir.c:338). -/
def dirIsEmpty (fs : Fs) (dirIno : Nat) : Drv (Bool × Trace) := do
  match ← Drv.readInode dirIno with
  | none => pure (false, .start)
  | some dir => do
    let r ← scanDir fs dir (askBlock fs.blockSize otherBody) (dir.nblocks fs) 0 .start
    match r.1 with
    | .missing => pure (true, r.2)
    | _ => pure (false, r.2)

/-- `ext2_dir_set_parent` (dir.c:367). -/
def dirSetParent (fs : Fs) (dirIno newParent : Nat) : Drv (Bool × Trace) := do
  match ← Drv.readInode dirIno with
  | none => pure (false, .start)
  | some dir => do
    let r ← scanDir fs dir (editBlock fs.blockSize (setParentBody newParent)) (dir.nblocks fs) 0 .start
    match r.1 with
    | .found blkNo buf => do
      let rc ← Drv.writeBlock blkNo buf
      pure (rc, r.2)
    | _ => pure (false, r.2)

end PureUnix.Ext2.Traced
