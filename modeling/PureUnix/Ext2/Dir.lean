import PureUnix.Ext2.BlockMap
import PureUnix.Ext2.DirBlock

/-!
# Directories (`fs/ext2/dir.c`)

Lookup and enumeration go through `ext2_iter_blocks`; insertion, removal, the emptiness test and
`ext2_dir_set_parent` go through `inode_block_at`, one block index after the other (`scanDir`).

Names and paths are C strings without their terminator. Values of `time_now()` are passed in.
-/
namespace PureUnix.Ext2
open Lib

/-! ## Lookup and path resolution -/

/-- `lookup_in_block` (dir.c:47); the context is `found_ino`. -/
def lookupInBlock (fs : Fs) (name : Text) (blkNo found : Nat) : Drv (Int × Nat) :=
  if blkNo = 0 then pure (0, found)
  else do
    match ← Drv.readBlock blkNo with
    | none => pure (-1, found)
    | some buf =>
      match lookupBlock fs.blockSize buf name with
      | some ino => pure (1, ino)
      | none => pure (0, found)

/-- `ext2_dir_lookup` (dir.c:75). -/
def dirLookup (fs : Fs) (dirIno : Nat) (name : Text) : Drv (Option Nat) := do
  match ← Drv.readInode dirIno with
  | none => pure none
  | some inode =>
    if inode.isDir = false then pure none
    else do
      let r ← iterBlocks fs inode inode.iSize.toNat (lookupInBlock fs name) 0
      if r.1 = 1 ∧ r.2 ≠ 0 then pure (some r.2) else pure none

def slash : UInt8 := 47

/-- The tokens `strtok_r(s, "/", &save)` yields; `cur` is the token being read, reversed. -/
def tokensFrom : Text → Text → List Text
  | [], [] => []
  | c :: cur, [] => [(c :: cur).reverse]
  | [], c :: s => if c = slash then tokensFrom [] s else tokensFrom [c] s
  | c' :: cur, c :: s =>
    if c = slash then (c' :: cur).reverse :: tokensFrom [] s else tokensFrom (c :: c' :: cur) s

def PUREUNIX_MAX_PATH : Nat := 256
def PUREUNIX_MAX_NAME : Nat := 64

/-- The components `ext2_path_to_inode` looks up: `tmp` holds at most 255 bytes of `path + 1`. -/
def pathTokens (path : Text) : List Text :=
  tokensFrom [] ((path.drop 1).take (PUREUNIX_MAX_PATH - 1))

/-- One lookup per component. -/
def walkPath (fs : Fs) : Nat → List Text → Drv (Option Nat)
  | cur, [] => pure (some cur)
  | cur, tok :: toks => do
    match ← dirLookup fs cur tok with
    | none => pure none
    | some next => walkPath fs next toks

/-- `ext2_path_to_inode` (dir.c:96). -/
def pathToInode (fs : Fs) (path : Text) : Drv (Option Nat) :=
  if path.head? ≠ some slash then pure none
  else if path = [slash] then pure (some EXT2_ROOT_INODE)
  else walkPath fs EXT2_ROOT_INODE (pathTokens path)

/-! ## Enumeration -/

inductive VfsType where
  | file
  | dir
  | symlink
deriving DecidableEq, Repr

/-- `vfs_dirent_t`. -/
structure VfsDirent where
  name : Text
  type : VfsType
  size : Nat
deriving DecidableEq, Repr

/-- What `readdir_block` hands to the callback for the record at `off`. -/
def fillDirent (buf : Buf) (off : Nat) : Drv VfsDirent :=
  let name := slice buf (off + 8) (min (deNameLen buf off) (PUREUNIX_MAX_NAME - 1))
  if deFileType buf off = EXT2_FT_DIR then pure ⟨name, .dir, 0⟩
  else do
    let i ← Drv.readInode (deInode buf off)
    pure ⟨name, if deFileType buf off = EXT2_FT_SYMLINK then .symlink else .file, (i.map fun i => i.iSize.toNat).getD 0⟩

section
variable {S : Type}

/-- The record loop of `readdir_block` (dir.c:154); `cb` answers `true` to stop. -/
def readdirWalk (fs : Fs) (cb : VfsDirent → S → Bool × S) (buf : Buf) : Nat → Nat → S → Drv (Bool × S)
  | 0, _, s => pure (false, s)
  | fuel + 1, off, s =>
    if fs.blockSize < off + 8 then pure (false, s)
    else if deRecLen buf off = 0 then pure (false, s)
    else if deInode buf off ≠ 0 ∧ 0 < deNameLen buf off then do
      let e ← fillDirent buf off
      if (cb e s).1 then pure (true, (cb e s).2)
      else readdirWalk fs cb buf fuel (off + deRecLen buf off) (cb e s).2
    else readdirWalk fs cb buf fuel (off + deRecLen buf off) s

/-- `readdir_block` (dir.c:133); the context is `stopped` and the user's own. -/
def readdirBlock (fs : Fs) (cb : VfsDirent → S → Bool × S) (blkNo : Nat) (ctx : Bool × S) : Drv (Int × Bool × S) :=
  if blkNo = 0 then pure (0, ctx)
  else do
    match ← Drv.readBlock blkNo with
    | none => pure (-1, ctx)
    | some buf => do
      let r ← readdirWalk fs cb buf fs.blockSize 0 ctx.2
      if r.1 then pure (1, true, r.2) else pure (0, ctx.1, r.2)

/-- `ext2_readdir_ino` (dir.c:195). -/
def readdirIno (fs : Fs) (dirIno : Nat) (cb : VfsDirent → S → Bool × S) (s : S) : Drv (Int × S) := do
  match ← Drv.readInode dirIno with
  | none => pure (-1, s)
  | some inode =>
    if inode.isDir = false then pure (-1, s)
    else do
      let r ← iterBlocks fs inode inode.iSize.toNat (readdirBlock fs cb) (false, s)
      pure (if r.2.1 then 1 else 0, r.2.2)

end

/-! ## Modification -/

/-- How a scan over a directory's blocks ends. -/
inductive Scan (β : Type) where
  | ioError
  | missing
  | found (blkNo : Nat) (x : β)

/-- The block loop of `ext2_dir_insert`, `ext2_dir_remove`, `ext2_dir_is_empty` and
`ext2_dir_set_parent`, with `n` blocks to go from index `b`: holes are skipped, and the loop ends at
the first block in which `body` answers. -/
def scanDir {β : Type} (fs : Fs) (dir : Inode) (body : Buf → Option β) : Nat → Nat → Drv (Scan β)
  | 0, _ => pure .missing
  | n + 1, b => do
    let blkNo ← inodeBlockAt fs dir b
    if blkNo = 0 then scanDir fs dir body n (b + 1)
    else do
      match ← Drv.readBlock blkNo with
      | none => pure .ioError
      | some buf =>
        match body buf with
        | some x => pure (.found blkNo x)
        | none => scanDir fs dir body n (b + 1)

/-- `dir.i_mtime = dir.i_ctime = time_now()`. -/
def Inode.touch (i : Inode) (now : UInt32) : Inode := { i with iMtime := now, iCtime := now }

/-- Blocks of a directory: `dir.i_size / fs->block_size`. -/
def Inode.nblocks (fs : Fs) (i : Inode) : Nat := i.iSize.toNat / fs.blockSize

/-- Write a changed block back and stamp the directory. -/
def commitDir (dirIno : Nat) (dir : Inode) (now : UInt32) (blkNo : Nat) (buf : Buf) : Drv Bool := do
  if ← Drv.writeBlock blkNo buf then Drv.writeInode dirIno (dir.touch now) else pure false

/-- The block `ext2_dir_insert` grows a directory by: one record over the whole block. -/
def freshDirBlock (bs : Nat) (name : Text) (ino : Nat) (fileType : UInt8) : Buf :=
  putEntry (put16 zeros 4 bs) 0 ino name fileType

/-- The growth path of `ext2_dir_insert` (dir.c:275). -/
def growDir (fs : Fs) (dirIno : Nat) (dir : Inode) (name : Text) (ino : Nat) (fileType : UInt8) (now : UInt32) :
    Drv Bool := do
  match ← Drv.allocBlock with
  | none => pure false
  | some newBlk => do
    let r ← inodeAddBlock fs dir (dir.nblocks fs) newBlk
    if r.1 = false then pure false
    else do
      if ← Drv.writeBlock newBlk (freshDirBlock fs.blockSize name ino fileType) then
        Drv.writeInode dirIno ({ r.2 with iSize := r.2.iSize + UInt32.ofNat fs.blockSize }.touch now)
      else pure false

/-- `ext2_dir_insert` (dir.c:210). -/
def dirInsert (fs : Fs) (dirIno : Nat) (name : Text) (ino : Nat) (fileType : UInt8) (now : UInt32) : Drv Bool := do
  match ← Drv.readInode dirIno with
  | none => pure false
  | some dir =>
    if dir.isDir = false then pure false
    else if name.length = 0 ∨ 255 < name.length then pure false
    else do
      match ← scanDir fs dir (fun buf => insertBlock fs.blockSize buf name ino fileType) (dir.nblocks fs) 0 with
      | .ioError => pure false
      | .found blkNo buf => commitDir dirIno dir now blkNo buf
      | .missing => growDir fs dirIno dir name ino fileType now

/-- `ext2_dir_remove` (dir.c:295). Unlike insertion it does not ask whether `dirIno` is a directory. -/
def dirRemove (fs : Fs) (dirIno : Nat) (name : Text) (now : UInt32) : Drv Bool := do
  match ← Drv.readInode dirIno with
  | none => pure false
  | some dir => do
    match ← scanDir fs dir (fun buf => removeBlock fs.blockSize buf name) (dir.nblocks fs) 0 with
    | .ioError => pure false
    | .found blkNo buf => commitDir dirIno dir now blkNo buf
    | .missing => pure false

/-- `ext2_dir_is_empty` (dir.c:338). -/
def dirIsEmpty (fs : Fs) (dirIno : Nat) : Drv Bool := do
  match ← Drv.readInode dirIno with
  | none => pure false
  | some dir => do
    match ← scanDir fs dir (otherBlock fs.blockSize) (dir.nblocks fs) 0 with
    | .missing => pure true
    | _ => pure false

/-- `ext2_dir_set_parent` (dir.c:367). -/
def dirSetParent (fs : Fs) (dirIno newParent : Nat) : Drv Bool := do
  match ← Drv.readInode dirIno with
  | none => pure false
  | some dir => do
    match ← scanDir fs dir (fun buf => setParentBlock fs.blockSize buf newParent) (dir.nblocks fs) 0 with
    | .found blkNo buf => Drv.writeBlock blkNo buf
    | _ => pure false

end Ext2

export Ext2 (slash dotName dotdotName PUREUNIX_MAX_PATH PUREUNIX_MAX_NAME pathTokens tokensFrom)

end PureUnix
