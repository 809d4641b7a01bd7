import PureUnix.Ext2.Dir

/-!
# Files and the write path (`fs/ext2/file.c`, `fs/ext2/write.c`, `fs/ext2/mount.c`)

The functions the VFS calls. What they read of the world around them is passed in an `Env`: the values
of successive `time_now()` calls, the caller's credentials, and whether the kernel heap has memory.
Data and paths are byte strings; a `size_t` has 32 bits on this machine.
-/
namespace PureUnix.Ext2
open Lib

structure Env where
  /-- Values of `time_now()` in the order of the calls. -/
  time : Nat → UInt32
  uid : UInt16
  gid : UInt16
  /-- `kcalloc` in `ext2_read_file_ino` succeeds. -/
  kcalloc : Bool
  /-- `kmalloc` in `ext2_write_file` succeeds. -/
  kmalloc : Bool

/-! ## Error numbers (`include/pureunix/errno.h`) -/

def EPERM : Int := 1
def ENOENT : Int := 2
def EIO : Int := 5
def EEXIST : Int := 17
def ENOTDIR : Int := 20
def EISDIR : Int := 21
def EINVAL : Int := 22
def ENOSPC : Int := 28
def ENAMETOOLONG : Int := 36
def ENOTEMPTY : Int := 39

/-! ## Reading -/

/-- `copy_ctx_t` of file.c and `link_copy_ctx_t` of write.c: bytes copied so far, in a zeroed buffer. -/
structure CopyCtx where
  dst : Buf
  pos : Nat
  remaining : Nat

/-- `copy_block` (file.c:15) and `link_copy_block` (write.c:389): a hole leaves the buffer's zeros. -/
def copyBlock (fs : Fs) (blkNo : Nat) (c : CopyCtx) : Drv (Int × CopyCtx) :=
  let chunk := min c.remaining fs.blockSize
  if blkNo = 0 then pure (0, ⟨c.dst, c.pos + chunk, c.remaining - chunk⟩)
  else do
    match ← Drv.readBlock blkNo with
    | none => pure (-1, c)
    | some blk => pure (0, ⟨copy c.dst c.pos blk chunk, c.pos + chunk, c.remaining - chunk⟩)

/-- `ext2_read_file_ino` (file.c:39). -/
def readFileIno (fs : Fs) (env : Env) (ino : Nat) : Drv (Option Text) := do
  match ← Drv.readInode ino with
  | none => pure none
  | some inode =>
    if inode.isReg = false then pure none
    -- `kcalloc(1, 0)` is a null pointer
    else if env.kcalloc = false ∨ u32 (inode.iSize.toNat + 1) = 0 then pure none
    else if inode.iSize.toNat = 0 then pure (some [])
    else do
      let r ← iterBlocks fs inode inode.iSize.toNat (copyBlock fs) ⟨zeros, 0, inode.iSize.toNat⟩
      if r.1 < 0 then pure none else pure (some (slice r.2.dst 0 inode.iSize.toNat))

/-- `ext2_read_file` (mount.c:82). -/
def readFile (fs : Fs) (env : Env) (path : Text) : Drv (Option Text) :=
  if fs.mounted = false then pure none
  else do
    match ← pathToInode fs path with
    | none => pure none
    | some ino => do
      match ← Drv.readInode ino with
      | none => pure none
      | some inode =>
        if inode.isReg = false then pure none
        else do
          match ← readFileIno fs env ino with
          | none => pure none
          | some data => do
            let _ ← Drv.writeInode ino { inode with iAtime := env.time 0 }
            pure (some data)

/-! ## Paths -/

/-- `split_parent_leaf` (write.c:37), with buffers of `PUREUNIX_MAX_PATH` and `PUREUNIX_MAX_NAME`. -/
def splitParentLeaf (path : Text) : Option (Text × Text) :=
  if path.head? ≠ some slash ∨ path = [slash] then none
  else
    let leaf := (path.reverse.takeWhile (· ≠ slash)).reverse
    if leaf.length = 0 ∨ PUREUNIX_MAX_NAME ≤ leaf.length then none
    else
      let plen := path.length - leaf.length - 1
      if plen = 0 then some ([slash], leaf)
      else if PUREUNIX_MAX_PATH ≤ plen then none
      else some (path.take plen, leaf)

/-! ## `write_data_blocks` -/

/-- The loop of `write_data_blocks` (write.c:62) on what is left of the data; `idx` is the next logical
block. Every round consumes at least one byte, so as many rounds as bytes are enough. -/
def writeBlocksFrom (fs : Fs) : Nat → Text → Nat → Inode → Drv (Int × Inode)
  | 0, _, _, inode => pure (0, inode)
  | fuel + 1, rest, idx, inode =>
    if rest.length = 0 then pure (0, inode)
    else do
      match ← Drv.allocBlock with
      | none => pure (-ENOSPC, inode)
      | some blk => do
        let chunk := min rest.length fs.blockSize
        -- `memcpy(buf, data + pos, chunk)`, zeros behind a short last chunk
        if ← Drv.writeBlock blk (copy zeros 0 (ofList rest) chunk) then do
          let r ← inodeAddBlock fs inode idx blk
          if r.1 = false then pure (-ENOSPC, r.2)
          else writeBlocksFrom fs fuel (rest.drop chunk) (idx + 1) r.2
        else pure (- EIO, inode)

/-- `write_data_blocks` (write.c:62). -/
def writeDataBlocks (fs : Fs) (inode : Inode) (data : Text) : Drv (Int × Inode) :=
  writeBlocksFrom fs data.length data 0 inode

/-! ## `ext2_create` -/

def EXT2_DEFAULT_FILE_MODE : UInt16 := EXT2_S_IFREG ||| 0o644
def EXT2_DEFAULT_DIR_MODE : UInt16 := EXT2_S_IFDIR ||| 0o755
def EXT2_DEFAULT_LINK_MODE : UInt16 := EXT2_S_IFLNK ||| 0o777

/-- A zeroed inode with mode, owner, times and link count. -/
def newInode (env : Env) (mode : UInt16) (links : UInt16) : Inode :=
  { Inode.empty with
    iMode := mode
    iUid := env.uid
    iGid := env.gid
    iAtime := env.time 0
    iCtime := env.time 0
    iMtime := env.time 0
    iLinksCount := links }

/-- The first block of a new directory: "." over 12 bytes, ".." over the rest. -/
def newDirBlock (bs ino parentIno : Nat) : Buf :=
  putEntry (put16 (putEntry (put16 zeros 4 12) 0 ino dotName EXT2_FT_DIR) 16 (bs - 12)) 12 parentIno dotdotName EXT2_FT_DIR

/-- `ext2_read_inode`, change, `ext2_write_inode`; nothing if the inode cannot be read. -/
def updateInode (ino : Nat) (f : Inode → Inode) : Drv Unit := do
  match ← Drv.readInode ino with
  | none => pure ()
  | some i => do
    let _ ← Drv.writeInode ino (f i)
    pure ()

/-- `i_links_count++`. -/
def Inode.incLinks (i : Inode) : Inode := { i with iLinksCount := i.iLinksCount + 1 }

/-- `if (i_links_count > 0) i_links_count--`. -/
def Inode.decLinks (i : Inode) : Inode :=
  if 0 < i.iLinksCount then { i with iLinksCount := i.iLinksCount - 1 } else i

/-- `ext2_create` gives up a new inode: free a directory's block, then the inode. -/
def dropNew (fs : Fs) (directory : Bool) (newIno : Nat) (inode : Inode) : Drv Unit :=
  if directory then do
    let _ ← inodeFreeAllBlocks fs inode
    Drv.freeInode newIno true
  else Drv.freeInode newIno false

/-- `ext2_create` from the point where the new inode's contents are ready: write the inode, enter the
name, count the new directory in its parent. -/
def createFinish (fs : Fs) (env : Env) (directory : Bool) (parentIno newIno : Nat) (leaf : Text) (inode : Inode) :
    Drv Int := do
  if ← Drv.writeInode newIno inode then do
    if ← dirInsert fs parentIno leaf newIno (if directory then EXT2_FT_DIR else EXT2_FT_REG_FILE) (env.time 1) then do
      if directory then do
        updateInode parentIno fun p => (p.incLinks).touch (env.time 0)
        pure 0
      else pure 0
    else do
      dropNew fs directory newIno inode
      pure (-ENOSPC)
  else do
    dropNew fs directory newIno inode
    pure (- EIO)

/-- `ext2_create` (write.c:87). -/
def create (fs : Fs) (env : Env) (path : Text) (directory : Bool) : Drv Int :=
  if fs.mounted = false then pure (-ENOENT)
  else
    match splitParentLeaf path with
    | none => pure (-ENOENT)
    | some (parent, leaf) => do
      match ← pathToInode fs parent with
      | none => pure (-ENOENT)
      | some parentIno => do
        match ← dirLookup fs parentIno leaf with
        | some _ => pure (-EEXIST)
        | none => do
          match ← Drv.allocInode directory with
          | none => pure (-ENOSPC)
          | some newIno =>
            if directory then do
              match ← Drv.allocBlock with
              | none => do
                Drv.freeInode newIno true
                pure (-ENOSPC)
              | some blk => do
                if ← Drv.writeBlock blk (newDirBlock fs.blockSize newIno parentIno) then
                  createFinish fs env true parentIno newIno leaf { (newInode env EXT2_DEFAULT_DIR_MODE 2).setBlk 0 blk with
                      iBlocks := UInt32.ofNat fs.sectorsPerBlock
                      iSize := UInt32.ofNat fs.blockSize }
                else do
                  Drv.freeBlock blk
                  Drv.freeInode newIno true
                  pure (- EIO)
            else createFinish fs env false parentIno newIno leaf (newInode env EXT2_DEFAULT_FILE_MODE 1)

/-! ## `ext2_unlink` -/

/-- What `ext2_unlink` and `ext2_rename` do with the inode of a removed entry that is a directory. -/
def dropDir (fs : Fs) (ino parentIno : Nat) (inode : Inode) (adjust : Inode → Inode) : Drv Unit := do
  let _ ← inodeFreeAllBlocks fs inode
  Drv.freeInode ino true
  updateInode parentIno adjust

/-- The same for anything else: one name less, and the inode goes with its last name. `stamp` is what is
written to an inode that stays. -/
def dropFile (fs : Fs) (ino : Nat) (inode : Inode) (stamp : Inode → Inode) : Drv Unit :=
  if inode.decLinks.iLinksCount = 0 then do
    let _ ← inodeFreeAllBlocks fs inode.decLinks
    Drv.freeInode ino false
  else do
    let _ ← Drv.writeInode ino (stamp inode.decLinks)
    pure ()

/-- Only an empty directory may go; anything else always may. -/
def mayDrop (fs : Fs) (directory : Bool) (ino : Nat) : Drv Bool := if directory then dirIsEmpty fs ino else pure true

/-- The end of `ext2_unlink` (write.c:190) and the middle of `ext2_rename` (write.c:249): remove the entry
`leaf` of `parentIno`, which stands for `ino`, and then what it stands for. -/
def dropEntry (fs : Fs) (now : UInt32) (directory : Bool) (parentIno ino : Nat) (leaf : Text) (inode : Inode)
    (adjust stamp : Inode → Inode) : Drv Int := do
  if ← mayDrop fs directory ino then do
    if ← dirRemove fs parentIno leaf now then
      if directory then do
        dropDir fs ino parentIno inode adjust
        pure 0
      else do
        dropFile fs ino inode stamp
        pure 0
    else pure (- EIO)
  else pure (-ENOTEMPTY)

/-- `ext2_unlink` (write.c:171). -/
def unlink (fs : Fs) (env : Env) (path : Text) (directory : Bool) : Drv Int :=
  if fs.mounted = false then pure (-ENOENT)
  else
    match splitParentLeaf path with
    | none => pure (-ENOENT)
    | some (parent, leaf) => do
      match ← pathToInode fs parent with
      | none => pure (-ENOENT)
      | some parentIno => do
        match ← dirLookup fs parentIno leaf with
        | none => pure (-ENOENT)
        | some ino => do
          match ← Drv.readInode ino with
          | none => pure (- EIO)
          | some inode =>
            if directory = true ∧ inode.isDir = false then pure (-ENOTDIR)
            else if directory = false ∧ inode.isDir = true then pure (-EISDIR)
            else
              dropEntry fs (env.time 0) directory parentIno ino leaf inode (fun p => p.decLinks.touch (env.time 1))
                fun i => { i with iCtime := env.time 1 }

/-! ## `ext2_rename` -/

/-- Remove what the new name stands for: `0` to go on, an error otherwise (write.c:244). -/
def renameOver (fs : Fs) (env : Env) (oldIsDir : Bool) (newParentIno existingIno : Nat) (newLeaf : Text) : Drv Int := do
  match ← Drv.readInode existingIno with
  | none => pure (- EIO)
  | some existing =>
    if existing.isDir ≠ oldIsDir then pure (if existing.isDir then -EISDIR else -ENOTDIR)
    else dropEntry fs (env.time 0) existing.isDir newParentIno existingIno newLeaf existing Inode.decLinks id

/-- Enter the new name, remove the old one, and on a move between directories redirect ".." and adjust
both parents (write.c:272). -/
def renameMove (fs : Fs) (env : Env) (oldInode : Inode) (oldParentIno newParentIno oldIno : Nat)
    (oldLeaf newLeaf : Text) : Drv Int := do
  let ft := if oldInode.isDir then EXT2_FT_DIR else if oldInode.isLnk then EXT2_FT_SYMLINK else EXT2_FT_REG_FILE
  if ← dirInsert fs newParentIno newLeaf oldIno ft (env.time 1) then do
    if ← dirRemove fs oldParentIno oldLeaf (env.time 2) then
      if oldInode.isDir = true ∧ oldParentIno ≠ newParentIno then do
        let _ ← dirSetParent fs oldIno newParentIno
        updateInode oldParentIno Inode.decLinks
        updateInode newParentIno Inode.incLinks
        pure 0
      else pure 0
    else pure (- EIO)
  else pure (-ENOSPC)

/-- `ext2_rename` (write.c:217). -/
def rename (fs : Fs) (env : Env) (oldPath newPath : Text) : Drv Int :=
  if fs.mounted = false then pure (-ENOENT)
  else
    match splitParentLeaf oldPath, splitParentLeaf newPath with
    | some (oldParent, oldLeaf), some (newParent, newLeaf) => do
      match ← pathToInode fs oldParent with
      | none => pure (-ENOENT)
      | some oldParentIno => do
        match ← pathToInode fs newParent with
        | none => pure (-ENOENT)
        | some newParentIno => do
          match ← dirLookup fs oldParentIno oldLeaf with
          | none => pure (-ENOENT)
          | some oldIno => do
            match ← Drv.readInode oldIno with
            | none => pure (- EIO)
            | some oldInode => do
              match ← dirLookup fs newParentIno newLeaf with
              | none => renameMove fs env oldInode oldParentIno newParentIno oldIno oldLeaf newLeaf
              | some existingIno =>
                if existingIno = oldIno then pure 0 -- renaming onto itself: no-op
                else do
                  let rc ← renameOver fs env oldInode.isDir newParentIno existingIno newLeaf
                  if rc ≠ 0 then pure rc
                  else renameMove fs env oldInode oldParentIno newParentIno oldIno oldLeaf newLeaf
    | _, _ => pure (-ENOENT)

/-! ## `ext2_link`, `ext2_symlink`, `ext2_readlink` -/

/-- `ext2_link` (write.c:294). -/
def link (fs : Fs) (env : Env) (oldPath newPath : Text) : Drv Int :=
  if fs.mounted = false then pure (-ENOENT)
  else do
    match ← pathToInode fs oldPath with
    | none => pure (-ENOENT)
    | some oldIno => do
      match ← Drv.readInode oldIno with
      | none => pure (- EIO)
      | some inode =>
        if inode.isDir then pure (-EPERM)
        else
          match splitParentLeaf newPath with
          | none => pure (-ENOENT)
          | some (newParent, newLeaf) => do
            match ← pathToInode fs newParent with
            | none => pure (-ENOENT)
            | some newParentIno => do
              match ← dirLookup fs newParentIno newLeaf with
              | some _ => pure (-EEXIST)
              | none => do
                let ft := if inode.isLnk then EXT2_FT_SYMLINK else EXT2_FT_REG_FILE
                if ← dirInsert fs newParentIno newLeaf oldIno ft (env.time 0) then do
                  -- the inode as it was read before the insertion goes back to the table
                  if ← Drv.writeInode oldIno { inode.incLinks with iCtime := env.time 1 } then pure 0
                  else pure (-1)
                else pure (-ENOSPC)

/-- `memcpy((uint8_t *)inode.i_block, target, tlen)`: word `k` holds bytes `4k .. 4k+3`. -/
def Inode.withText (i : Inode) (target : Text) : Inode :=
  { i with iBlock := fun k => UInt32.ofNat (get32 (ofList target) (4 * k)) }

/-- The bytes of `i_block`. -/
def Inode.text (i : Inode) (n : Nat) : Text := slice (fun j => i.encode (40 + j)) 0 n

/-- `ext2_symlink` from the point where the target is stored: write the inode and enter the name. -/
def symlinkFinish (fs : Fs) (env : Env) (parentIno newIno : Nat) (leaf : Text) (inode : Inode) : Drv Int := do
  if ← Drv.writeInode newIno inode then do
    if ← dirInsert fs parentIno leaf newIno EXT2_FT_SYMLINK (env.time 1) then pure 0
    else do
      let _ ← inodeFreeAllBlocks fs inode
      Drv.freeInode newIno false
      pure (-ENOSPC)
  else do
    let _ ← inodeFreeAllBlocks fs inode
    Drv.freeInode newIno false
    pure (- EIO)

/-- `ext2_symlink` (write.c:322). -/
def symlink (fs : Fs) (env : Env) (target path : Text) : Drv Int :=
  if fs.mounted = false then pure (-ENOENT)
  else if target.length = 0 then pure (-EINVAL)
  else if PUREUNIX_MAX_PATH ≤ target.length then pure (-ENAMETOOLONG)
  else
    match splitParentLeaf path with
    | none => pure (-ENOENT)
    | some (parent, leaf) => do
      match ← pathToInode fs parent with
      | none => pure (-ENOENT)
      | some parentIno => do
        match ← dirLookup fs parentIno leaf with
        | some _ => pure (-EEXIST)
        | none => do
          match ← Drv.allocInode false with
          | none => pure (-ENOSPC)
          | some newIno => do
            let inode := { newInode env EXT2_DEFAULT_LINK_MODE 1 with iSize := UInt32.ofNat target.length }
            if target.length ≤ 60 then
              -- fast symlink: the target is stored inline in `i_block`
              symlinkFinish fs env parentIno newIno leaf (inode.withText target)
            else do
              let r ← writeDataBlocks fs inode target
              if r.1 ≠ 0 then do
                let _ ← inodeFreeAllBlocks fs r.2
                Drv.freeInode newIno false
                pure r.1
              else symlinkFinish fs env parentIno newIno leaf r.2

/-- `ext2_readlink` (write.c:403): the bytes copied, or an error. The buffer's own contents show where a
hole is copied; they are zeros here. -/
def readlink (fs : Fs) (path : Text) (bufsize : Nat) : Drv (Except Int Text) :=
  if fs.mounted = false then pure (.error (-ENOENT))
  else do
    match ← pathToInode fs path with
    | none => pure (.error (-ENOENT))
    | some ino => do
      match ← Drv.readInode ino with
      | none => pure (.error (- EIO))
      | some inode =>
        if inode.isLnk = false then pure (.error (-EINVAL))
        else
          let toCopy := min inode.iSize.toNat bufsize
          if inode.iBlocks = 0 then pure (.ok (inode.text toCopy))
          else do
            let r ← iterBlocks fs inode toCopy (copyBlock fs) ⟨zeros, 0, toCopy⟩
            if r.1 < 0 then pure (.error (- EIO)) else pure (.ok (slice r.2.dst 0 toCopy))

/-! ## `ext2_write_file` -/

/-- The contents to write (write.c:447): an append puts the old ones in front, unless they cannot be read;
`none` if there is no memory for both. -/
def finalContents (fs : Fs) (env : Env) (ino : Nat) (data : Text) (append : Bool) : Drv (Option Text) :=
  if append then do
    match ← readFileIno fs env ino with
    | none => pure (some data)
    | some old =>
      -- `old_size + size` is a 32-bit sum, and `kmalloc(0)` is a null pointer
      pure (if env.kmalloc = true ∧ u32 (old.length + data.length) ≠ 0 then
        some ((old ++ data).take (u32 (old.length + data.length))) else none)
  else pure (some data)

/-- Free the old blocks, write the new contents, put the inode back (write.c:464). -/
def replaceContents (fs : Fs) (env : Env) (ino : Nat) (inode : Inode) (final : Text) : Drv Int := do
  let inode ← inodeFreeAllBlocks fs inode
  let r ← writeDataBlocks fs inode final
  if r.1 ≠ 0 then do
    let inode ← inodeFreeAllBlocks fs r.2
    let _ ← Drv.writeInode ino inode
    pure r.1
  else do
    if ← Drv.writeInode ino ({ r.2 with iSize := UInt32.ofNat final.length }.touch (env.time 2)) then pure 0
    else pure (-1)

/-- The part of `ext2_write_file` behind path resolution (write.c:439). -/
def writeFileIno (fs : Fs) (env : Env) (ino : Nat) (data : Text) (append : Bool) : Drv Int := do
  match ← Drv.readInode ino with
  | none => pure (- EIO)
  | some inode =>
    if inode.isReg = false then pure (-EISDIR)
    else do
      match ← finalContents fs env ino data append with
      | none => pure (-ENOSPC)
      | some final => replaceContents fs env ino inode final

/-- `ext2_write_file` (write.c:428). -/
def writeFile (fs : Fs) (env : Env) (path data : Text) (append : Bool) : Drv Int :=
  if fs.mounted = false then pure (-ENOENT)
  else do
    match ← pathToInode fs path with
    | some ino => writeFileIno fs env ino data append
    | none => do
      let rc ← create fs env path false
      if rc ≠ 0 then pure rc
      else do
        match ← pathToInode fs path with
        | none => pure (-ENOENT)
        | some ino => writeFileIno fs env ino data append

end Ext2

export Ext2 (EPERM ENOENT EEXIST ENOTDIR EISDIR EINVAL ENOSPC ENAMETOOLONG ENOTEMPTY)

end PureUnix
