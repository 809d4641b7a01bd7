import PureUnix.Lib.Bytes

/-!
# The image builder (`tools/mkext2.py`)

`Ext2Builder` collects directories, files and symbolic links and writes a 4 MiB image with one block
group. Its state is a Python object: an image, two bump allocators with the sets of numbers handed
out, and three dictionaries. A method that raises leaves the object as it was at that point, so the
methods run in `EStateM`, whose errors carry the state.

Python dictionaries keep insertion order and are association lists here; the two sets are lists to
which only new elements are appended.
-/
namespace PureUnix.MkExt2
open Lib

/-! ## Parameters -/

def BLOCK_SIZE : Nat := 1024
def SECTORS_PER_BLOCK : Nat := 2
def EXT2_MAGIC : Nat := 0xEF53
def INODE_SIZE : Nat := 128
def INODES_PER_GROUP : Nat := 1024
def BLOCKS_PER_GROUP : Nat := 8192
def TOTAL_BLOCKS : Nat := 4096
def FIRST_DATA_BLOCK : Nat := 1
def BGDT_BLOCK : Nat := 2
def BLOCK_BITMAP_BLOCK : Nat := 3
def INODE_BITMAP_BLOCK : Nat := 4
def INODE_TABLE_BLOCK : Nat := 5
/-- `INODE_TABLE_BLOCK + INODE_TABLE_BLOCKS`. -/
def FIRST_FREE_BLOCK : Nat := 133
def DEFAULT_DIR_MODE : Int := 0o40755
def DEFAULT_FILE_MODE : Int := 0o100644
def DEFAULT_LINK_MODE : Int := 0o120777
def FT_REG : Nat := 1
def FT_DIR : Nat := 2
def FT_SYMLINK : Nat := 7
def ROOT_INO : Nat := 2

/-! ## Python values -/

inductive PyError where
  /-- `RuntimeError("EXT2 image full")` -/
  | imageFull
  /-- `RuntimeError("inode table full")` -/
  | inodeTableFull
  | keyError
  | assertionError
  | unicodeEncodeError
  | structError
deriving DecidableEq, Repr

abbrev Dict (α : Type) := List (Nat × α)

def Dict.get? {α : Type} (d : Dict α) (k : Nat) : Option α := (d.find? fun p => p.1 == k).map (·.2)

/-- `d[k] = v`: in place when the key is there, at the end otherwise. -/
def Dict.set {α : Type} : Dict α → Nat → α → Dict α
  | [], k, v => [(k, v)]
  | p :: d, k, v => if p.1 = k then (k, v) :: d else p :: Dict.set d k v

/-- `s.add(x)`. -/
def setAdd (s : List Nat) (x : Nat) : List Nat := if x ∈ s then s else s ++ [x]

/-- `str.encode('ascii')`. -/
def encodeAscii (s : String) : Except PyError Text :=
  if s.toList.all (fun c => c.toNat < 128) then .ok (s.toList.map fun c => UInt8.ofNat c.toNat)
  else .error .unicodeEncodeError

def le16 (v : Nat) : Text := [leByte v 0, leByte v 1]
def le32 (v : Nat) : Text := [leByte v 0, leByte v 1, leByte v 2, leByte v 3]

/-- Format `H` of `struct.pack`, which checks its range. -/
def packH (v : Int) : Except PyError Text :=
  if 0 ≤ v ∧ v < 65536 then .ok (le16 v.toNat) else .error .structError

/-- Format `I`. -/
def packI (v : Int) : Except PyError Text :=
  if 0 ≤ v ∧ v < 4294967296 then .ok (le32 v.toNat) else .error .structError

/-! ## The builder -/

/-- A directory entry `(name, ino, ft)`. -/
structure Entry where
  name : String
  ino : Nat
  ft : Nat

/-- The dictionary stored per inode. -/
structure Info where
  mode : Int
  size : Nat
  blocks : List Nat
  nlinks : Nat
  uid : Int
  gid : Int
  inlineTarget : Option Text

structure Ext2Builder where
  image : Buf
  nextBlock : Nat
  nextInode : Nat
  usedBlocks : List Nat
  usedInodes : List Nat
  dirs : Dict (List Entry)
  inodes : Dict Info
  parent : Dict Nat

abbrev Py := EStateM PyError Ext2Builder

/-- `__init__`. -/
def Ext2Builder.init : Ext2Builder where
  image := zeros
  nextBlock := FIRST_FREE_BLOCK
  nextInode := ROOT_INO + 1
  usedBlocks := List.range FIRST_FREE_BLOCK
  usedInodes := [1, ROOT_INO]
  dirs := [(ROOT_INO, [])]
  inodes := [(ROOT_INO, ⟨DEFAULT_DIR_MODE, 0, [], 2, 0, 0, none⟩)]
  parent := [(ROOT_INO, ROOT_INO)]

/-- Lift a computation that does not touch the object. -/
def liftExcept {α : Type} : Except PyError α → Py α
  | .ok a => pure a
  | .error e => throw e

def allocBlock : Py Nat := do
  let s ← get
  if TOTAL_BLOCKS ≤ s.nextBlock then throw .imageFull
  set { s with nextBlock := s.nextBlock + 1, usedBlocks := setAdd s.usedBlocks s.nextBlock }
  return s.nextBlock

def allocInode : Py Nat := do
  let s ← get
  if INODES_PER_GROUP < s.nextInode then throw .inodeTableFull
  set { s with nextInode := s.nextInode + 1, usedInodes := setAdd s.usedInodes s.nextInode }
  return s.nextInode

/-- `image[start : start + len(data)] = data`. -/
def putBytes (image : Buf) (start : Nat) (data : Text) : Buf :=
  copy image start (ofList data) data.length

def writeBlock (blkNo : Nat) (data : Text) : Py Unit :=
  modify fun s => { s with image := putBytes s.image (blkNo * BLOCK_SIZE) (data.take BLOCK_SIZE) }

/-- `self._dirs[parent_ino].append(e)`. -/
def appendEntry (parentIno : Nat) (e : Entry) : Py Unit := do
  match Dict.get? (← get).dirs parentIno with
  | none => throw .keyError
  | some es => modify fun s => { s with dirs := Dict.set s.dirs parentIno (es ++ [e]) }

def mkdir (parentIno : Nat) (name : String) (mode : Option Int) : Py Nat := do
  let ino ← allocInode
  modify fun s => { s with
    dirs := Dict.set s.dirs ino []
    inodes := Dict.set s.inodes ino ⟨mode.getD DEFAULT_DIR_MODE, 0, [], 2, 0, 0, none⟩
    parent := Dict.set s.parent ino parentIno }
  appendEntry parentIno ⟨name, ino, FT_DIR⟩
  match Dict.get? (← get).inodes parentIno with
  | none => throw .keyError
  | some i =>
    modify fun s => { s with inodes := Dict.set s.inodes parentIno { i with nlinks := i.nlinks + 1 } }
    return ino

def addSymlink (parentIno : Nat) (name target : String) : Py Nat := do
  let targetBytes ← liftExcept (encodeAscii target)
  if 60 < targetBytes.length then throw .assertionError
  let ino ← allocInode
  modify fun s => { s with
    inodes := Dict.set s.inodes ino ⟨DEFAULT_LINK_MODE, targetBytes.length, [], 1, 0, 0, some targetBytes⟩ }
  appendEntry parentIno ⟨name, ino, FT_SYMLINK⟩
  return ino

/-- The loop of `add_file`: one block for each started 1024 bytes. `n` bounds the turns. -/
def writeChunks : Nat → Text → List Nat → Py (List Nat)
  | 0, _, blks => return blks
  | n + 1, data, blks =>
    if data.isEmpty then return blks
    else do
      let blk ← allocBlock
      let chunk := data.take BLOCK_SIZE
      writeBlock blk (chunk ++ List.replicate (BLOCK_SIZE - chunk.length) 0)
      writeChunks n (data.drop BLOCK_SIZE) (blks ++ [blk])

def addFile (parentIno : Nat) (name : String) (data : Text) (mode : Option Int) (uid gid : Int) : Py Nat := do
  let ino ← allocInode
  let blkList ← writeChunks data.length data []
  modify fun s => { s with
    inodes := Dict.set s.inodes ino ⟨mode.getD DEFAULT_FILE_MODE, data.length, blkList, 1, uid, gid, none⟩ }
  appendEntry parentIno ⟨name, ino, FT_REG⟩
  return ino

/-! ## Serialisation -/

/-- `struct.pack_into('<IHBBs', buf, off, ino, rec_len, name_len, ft, b'\x00')`. -/
def packEntry (buf : Text) (off ino : Nat) (recLen : Int) (nameLen ft : Nat) : Except PyError Text :=
  if buf.length < off + 9 ∨ 4294967296 ≤ ino ∨ recLen < 0 ∨ 65536 ≤ recLen ∨ 256 ≤ nameLen ∨ 256 ≤ ft then
    .error .structError
  else .ok (buf.take off ++ le32 ino ++ le16 recLen.toNat ++ [UInt8.ofNat nameLen, UInt8.ofNat ft, 0] ++ buf.drop (off + 9))

/-- The loop of `_build_dir_block`. -/
def packEntries : List Entry → Nat → Text → Except PyError Text
  | [], _, buf => .ok buf
  | e :: es, off, buf =>
    match encodeAscii e.name with
    | .error err => .error err
    | .ok nameBytes =>
      let nameLen := nameBytes.length
      let recLen : Int := if es.isEmpty then (BLOCK_SIZE : Int) - off else ((8 + nameLen + 3) / 4 * 4 : Nat)
      match packEntry buf off e.ino recLen nameLen e.ft with
      | .error err => .error err
      | .ok buf => packEntries es (off + recLen.toNat)
          (buf.take (off + 8) ++ nameBytes ++ buf.drop (off + 8 + nameLen))

def buildDirBlock (entries : List Entry) : Except PyError Text :=
  packEntries entries 0 (List.replicate BLOCK_SIZE 0)

/-- The loop of `_finalise_dirs` over `self._dirs.items()`. -/
def finaliseDirs : Dict (List Entry) → Py Unit
  | [] => return ()
  | (ino, entries) :: rest => do
    let up := (Dict.get? (← get).parent ino).getD ROOT_INO
    let blk ← allocBlock
    let blockData ← liftExcept (buildDirBlock (⟨".", ino, FT_DIR⟩ :: ⟨"..", up, FT_DIR⟩ :: entries))
    writeBlock blk blockData
    match Dict.get? (← get).inodes ino with
    | none => throw .keyError
    | some i => do
      modify fun s => { s with inodes := Dict.set s.inodes ino { i with blocks := [blk], size := BLOCK_SIZE } }
      finaliseDirs rest

/-- `struct.pack_into('<I', ind_buf, idx * 4, b)` for every indirect block number. -/
def packIndirect (blks : List Nat) : Except PyError Text :=
  if BLOCK_SIZE < 4 * blks.length ∨ blks.any (fun b => 4294967296 ≤ b) then .error .structError
  else .ok ((blks.map le32).flatten ++ List.replicate (BLOCK_SIZE - 4 * blks.length) 0)

/-- `struct.unpack('<15I', padded)`, as the fifteen words packed again. -/
def packWords (ws : List Nat) : Except PyError Text :=
  if ws.any (fun w => 4294967296 ≤ w) then .error .structError else .ok (ws.map le32).flatten

/-- The final `struct.pack` of `_pack_inode`. -/
def packInodeBytes (buildTime : Nat) (info : Info) (iBlock : Text) (iBlocks : Nat) : Except PyError Text := do
  let mode ← packH info.mode
  let uid ← packH info.uid
  let size ← packI info.size
  let time ← packI buildTime
  let gid ← packH info.gid
  let nlinks ← packH info.nlinks
  let blocks ← packI iBlocks
  return mode ++ uid ++ size ++ time ++ time ++ time ++ le32 0 ++ gid ++ nlinks ++ blocks ++ le32 0 ++
    le32 0 ++ iBlock ++ le32 0 ++ le32 0 ++ le32 0 ++ le32 0 ++ List.replicate 12 0

def packInode (buildTime : Nat) (info : Info) : Py Text :=
  match info.inlineTarget with
  | some t =>
    -- the fifteen words of i_block are the target's bytes
    liftExcept (packInodeBytes buildTime info (t ++ List.replicate (60 - t.length) 0) 0)
  | none => do
    let direct := info.blocks.take 12
    let indirectData := info.blocks.drop 12
    let padded := direct ++ List.replicate (12 - direct.length) 0
    if indirectData.isEmpty then do
      let iBlock ← liftExcept (packWords (padded ++ [0, 0, 0]))
      liftExcept (packInodeBytes buildTime info iBlock (info.blocks.length * SECTORS_PER_BLOCK))
    else do
      let ind ← allocBlock
      let indBuf ← liftExcept (packIndirect indirectData)
      writeBlock ind indBuf
      let iBlock ← liftExcept (packWords (padded ++ [ind, 0, 0]))
      liftExcept (packInodeBytes buildTime info iBlock ((info.blocks.length + 1) * SECTORS_PER_BLOCK))

/-- The loop of `_write_inode_table` over `self._inodes.items()`. -/
def writeInodeTable (buildTime : Nat) : Dict Info → Py Unit
  | [] => return ()
  | (ino, info) :: rest => do
    let byteOff := (ino - 1) * INODE_SIZE
    let raw ← packInode buildTime info
    modify fun s => { s with
      image := putBytes s.image ((INODE_TABLE_BLOCK + byteOff / BLOCK_SIZE) * BLOCK_SIZE + byteOff % BLOCK_SIZE) raw }
    writeInodeTable buildTime rest

/-- The buffer of `_write_bitmap`. -/
def bitmapOf (maxBits : Nat) : List Nat → Buf → Buf
  | [], buf => buf
  | i :: is, buf => bitmapOf maxBits is (if i < maxBits then setBit buf i else buf)

def writeBitmap (blkNo : Nat) (used : List Nat) (maxBits : Nat) : Py Unit :=
  writeBlock blkNo (slice (bitmapOf maxBits used zeros) 0 BLOCK_SIZE)

/-- The superblock written by `_write_superblock`. -/
def superblock (freeBlocks freeInodes : Nat) : Buf :=
  let sb := put32 zeros 0 INODES_PER_GROUP
  let sb := put32 sb 4 TOTAL_BLOCKS
  let sb := put32 sb 12 freeBlocks
  let sb := put32 sb 16 freeInodes
  let sb := put32 sb 20 FIRST_DATA_BLOCK
  let sb := put32 sb 32 BLOCKS_PER_GROUP
  let sb := put32 sb 36 BLOCKS_PER_GROUP
  let sb := put32 sb 40 INODES_PER_GROUP
  let sb := put16 sb 54 0xFFFF
  let sb := put16 sb 56 EXT2_MAGIC
  let sb := put16 sb 58 1
  let sb := put16 sb 60 1
  let sb := put32 sb 76 1
  let sb := put32 sb 84 11
  let sb := put16 sb 88 INODE_SIZE
  let sb := put32 sb 96 2
  let sb := copy sb 104 (ofList [0x50, 0x55, 0x52, 0x45, 0x55, 0x4e, 0x49, 0x58, 0x45, 0x58, 0x54, 0x32, 0, 0, 0, 1]) 16
  -- "PureUnixEXT2"
  copy sb 120 (ofList [0x50, 0x75, 0x72, 0x65, 0x55, 0x6e, 0x69, 0x78, 0x45, 0x58, 0x54, 0x32]) 16

def writeSuperblock : Py Unit :=
  modify fun s =>
    let sb := superblock (TOTAL_BLOCKS - s.usedBlocks.length) (INODES_PER_GROUP - s.usedInodes.length)
    { s with image := putBytes s.image (FIRST_DATA_BLOCK * BLOCK_SIZE) (slice sb 0 BLOCK_SIZE) }

def writeBgdt : Py Unit := do
  let s ← get
  let fb ← liftExcept (packH ((TOTAL_BLOCKS : Int) - s.usedBlocks.length))
  let fi ← liftExcept (packH ((INODES_PER_GROUP : Int) - s.usedInodes.length))
  let ud ← liftExcept (packH s.dirs.length)
  writeBlock BGDT_BLOCK (le32 BLOCK_BITMAP_BLOCK ++ le32 INODE_BITMAP_BLOCK ++ le32 INODE_TABLE_BLOCK ++
    fb ++ fi ++ ud ++ le32 0 ++ List.replicate (BLOCK_SIZE - 22) 0)

/-- `build`, up to the file it writes. -/
def build (buildTime : Nat) : Py Unit := do
  finaliseDirs (← get).dirs
  writeInodeTable buildTime (← get).inodes
  writeBitmap BLOCK_BITMAP_BLOCK (← get).usedBlocks TOTAL_BLOCKS
  writeBitmap INODE_BITMAP_BLOCK ((← get).usedInodes.map (· - 1)) INODES_PER_GROUP
  writeSuperblock
  writeBgdt

end PureUnix.MkExt2
