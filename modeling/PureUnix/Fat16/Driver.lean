import PureUnix.Fat16.Volume

/-!
# The FAT16 driver (`fs/fat16.c`)

The functions of the driver over the accesses of `Fat`, in the order of the source. Sector accesses succeed. A
`while` loop along a chain gets the fuel 65536, more than a FAT has cells; the loops over a file's bytes get the
number of bytes, as every round of them moves at least one. Names and paths are C strings without their terminator.
-/
namespace PureUnix.Fat16

open Lib

/-- Rounds of a walk along a chain. -/
def FUEL : Nat := 65536

/-! ## Clusters -/

/-- The loop of `zero_cluster`: sector `s`, `n` to go. -/
def zeroFrom (c : Nat) : Nat → Nat → Drv Unit
  | 0, _ => pure ()
  | n + 1, s => do
    Drv.writeSector c s zeros
    zeroFrom c n (s + 1)

/-- `zero_cluster` (fat16.c:146). -/
def zeroCluster (fs : Fs) (c : Nat) : Drv Unit := zeroFrom c fs.sectorsPerCluster 0

/-- The loop of `alloc_cluster`: cluster `c`, `n` to go. -/
def allocFrom (fs : Fs) : Nat → Nat → Drv Nat
  | 0, _ => pure 0
  | n + 1, c => do
    let value ← Drv.fatRead c
    if value = 0 then do
      Drv.fatWrite c 0xFFFF
      zeroCluster fs c
      pure c
    else allocFrom fs n (c + 1)

/-- `alloc_cluster` (fat16.c:158); 0 if no cluster is free. -/
def allocCluster (fs : Fs) : Drv Nat := allocFrom fs (fs.maxCluster - 2) 2

/-- `free_chain` (fat16.c:179). -/
def freeChain : Nat → Nat → Drv Unit
  | 0, _ => pure ()
  | n + 1, cluster =>
    if 2 ≤ cluster ∧ cluster < FAT_EOC then do
      let next ← Drv.fatRead cluster
      Drv.fatWrite cluster 0
      if FAT_EOC ≤ next ∨ next = 0 then pure () else freeChain n next
    else pure ()

/-- `if (cluster) free_chain(cluster)`. -/
def freeIf (cluster : Nat) : Drv Unit := if cluster ≠ 0 then freeChain FUEL cluster else pure ()

/-! ## Directories -/

/-- `while (cluster_skip--)`: the cluster reached, `none` behind the end of the chain. -/
def walk : Nat → Nat → Drv (Option Nat)
  | 0, cluster => pure (some cluster)
  | skip + 1, cluster => do
    let next ← Drv.fatRead cluster
    if FAT_EOC ≤ next then pure none else walk skip next

/-- Where record `index` of a directory is. -/
def placeAt (fs : Fs) (dirCluster index : Nat) : Drv (Option Place) :=
  if dirCluster = 0 then pure (if fs.rootEntryCount ≤ index then none else some (.root index))
  else do
    match ← walk (index / fs.entriesPerCluster) dirCluster with
    | none => pure none
    | some c => pure (some (.data c (index % fs.entriesPerCluster)))

/-- `read_dir_entry_at` (fat16.c:194); `none` for -1. -/
def readDirEntryAt (fs : Fs) (dirCluster index : Nat) : Drv (Option Entry) := do
  match ← placeAt fs dirCluster index with
  | none => pure none
  | some p => do
    let e ← Drv.readSlot p
    pure (some e)

/-- `write_dir_entry_at` (fat16.c:232). -/
def writeDirEntryAt (fs : Fs) (dirCluster index : Nat) (e : Entry) : Drv Int := do
  match ← placeAt fs dirCluster index with
  | none => pure (-1)
  | some p => do
    Drv.writeSlot p e
    pure 0

/-- `found_entry_t`. -/
structure Found where
  entry : Entry
  dirCluster : Nat
  index : Nat

/-- `dir_cluster == 0 ? fs.root_entry_count : 65536`. -/
def dirMax (fs : Fs) (dirCluster : Nat) : Nat := if dirCluster = 0 then fs.rootEntryCount else 65536

/-- The loop of `find_in_dir`: record `i`, `n` to go. -/
def findFrom (fs : Fs) (dirCluster : Nat) (fatName : Text) : Nat → Nat → Drv (Option Found)
  | 0, _ => pure none
  | n + 1, i => do
    match ← readDirEntryAt fs dirCluster i with
    | none => pure none
    | some e =>
      if e.isEnd = true then pure none
      else if e.isVisible = true ∧ e.name = fatName then pure (some ⟨e, dirCluster, i⟩)
      else findFrom fs dirCluster fatName n (i + 1)

/-- `find_in_dir` (fat16.c:331). -/
def findInDir (fs : Fs) (dirCluster : Nat) (fatName : Text) : Drv (Option Found) :=
  findFrom fs dirCluster fatName (dirMax fs dirCluster) 0

/-- The loop of `path_lookup` over the components. -/
def lookupFrom (fs : Fs) : Nat → List Text → Drv (Option Found)
  | _, [] => pure none
  | dir, tok :: toks =>
    match nameTo83 tok with
    | none => pure none
    | some fatName => do
      match ← findInDir fs dir fatName with
      | none => pure none
      | some f =>
        if toks = [] then pure (some f)
        else if f.entry.isDirectory = true then lookupFrom fs f.entry.firstCluster toks
        else pure none

/-- What `path_lookup` gives for "/". -/
def rootFound : Found := ⟨Entry.setAttr zeros FAT_ATTR_DIRECTORY, 0, 0⟩

/-- `path_lookup` (fat16.c:355). -/
def pathLookup (fs : Fs) (path : Text) : Drv (Option Found) :=
  if fs.mounted = false ∨ path.head? ≠ some slash then pure none
  else if path = [slash] then pure (some rootFound)
  else lookupFrom fs 0 (pathTokens path)

/-- What stands before and behind the last slash. -/
def splitSlash (s : Text) : Text × Text :=
  let leaf := (s.reverse.takeWhile (· ≠ slash)).reverse
  (s.take (s.length - leaf.length - 1), leaf)

/-- The directory part of a path, for `path_lookup`. -/
def parentText (path : Text) : Text :=
  let dir := (splitSlash (path.take (PUREUNIX_MAX_PATH - 1))).1
  if dir = [] then [slash] else dir

def leafText (path : Text) : Text :=
  (splitSlash (path.take (PUREUNIX_MAX_PATH - 1))).2.take (PUREUNIX_MAX_NAME - 1)

/-- `path_parent` (fat16.c:395); the leaf is `leafText path`. -/
def pathParent (fs : Fs) (path : Text) : Drv (Option Found) :=
  if path.head? ≠ some slash ∨ path = [slash] then pure none
  else pathLookup fs (parentText path)

/-- `while (fat_read(last, &next) == 0 && next < FAT_EOC)`. -/
def lastFrom : Nat → Nat → Drv Nat
  | 0, last => pure last
  | n + 1, last => do
    let next ← Drv.fatRead last
    if next < FAT_EOC then lastFrom n next else pure last

/-- `find_free_slot` hangs a new cluster on the directory: 0 if there is none. -/
def extendDir (fs : Fs) (dirCluster : Nat) : Drv Nat := do
  let last ← lastFrom FUEL dirCluster
  let n ← allocCluster fs
  if n = 0 then pure 0
  else do
    Drv.fatWrite last n
    Drv.fatWrite n 0xFFFF
    pure n

/-- The loop of `find_free_slot`: record `i`, `n` to go. -/
def freeSlotFrom (fs : Fs) (dirCluster : Nat) : Nat → Nat → Drv (Option Nat)
  | 0, _ => pure none
  | n + 1, i => do
    match ← readDirEntryAt fs dirCluster i with
    | none =>
      if dirCluster = 0 then pure none
      else do
        let n ← extendDir fs dirCluster
        if n = 0 then pure none
        else pure (some ((i + fs.entriesPerCluster - 1) / fs.entriesPerCluster * fs.entriesPerCluster))
    | some e => if e.isFree = true then pure (some i) else freeSlotFrom fs dirCluster n (i + 1)

/-- `find_free_slot` (fat16.c:416); `none` for -1. -/
def findFreeSlot (fs : Fs) (dirCluster : Nat) : Drv (Option Nat) := freeSlotFrom fs dirCluster (dirMax fs dirCluster) 0

/-- The loop of `dir_is_empty`: record `i`, `n` to go. -/
def emptyFrom (fs : Fs) (cluster : Nat) : Nat → Nat → Drv Bool
  | 0, _ => pure true
  | n + 1, i => do
    match ← readDirEntryAt fs cluster i with
    | none => pure true
    | some e =>
      if e.isEnd = true then pure true
      else if e.isVisible = true ∧ e.isDot = false then pure false
      else emptyFrom fs cluster n (i + 1)

/-- `dir_is_empty` (fat16.c:449). -/
def dirIsEmpty (fs : Fs) (cluster : Nat) : Drv Bool := emptyFrom fs cluster 65536 0

/-! ## File contents -/

/-- `if (prev) fat_write(prev, c)`. -/
def linkIf (prev c : Nat) : Drv Unit := if prev ≠ 0 then Drv.fatWrite prev c else pure ()

/-- The first loop of `write_new_chain`: `n` clusters to go, after `first`, ..., `prev`. -/
def linkFrom (fs : Fs) : Nat → Nat → Nat → Drv (Option (Nat × Nat))
  | 0, first, prev => pure (some (first, prev))
  | n + 1, first, prev => do
    let c ← allocCluster fs
    if c = 0 then do
      freeIf first
      pure none
    else do
      linkIf prev c
      linkFrom fs n (if first = 0 then c else first) c

/-- The sectors of one cluster: sector `s`, `n` to go, `data` not yet written. -/
def fillSectors (c : Nat) : Nat → Nat → Text → Drv Unit
  | 0, _, _ => pure ()
  | n + 1, s, data => do
    Drv.writeSector c s (ofList (data.take 512))
    fillSectors c n (s + 1) (data.drop 512)

/-- The second loop of `write_new_chain`. -/
def fillFrom (fs : Fs) : Nat → Nat → Text → Drv Unit
  | 0, _, _ => pure ()
  | n + 1, cluster, data =>
    if 2 ≤ cluster ∧ cluster < FAT_EOC ∧ data ≠ [] then do
      fillSectors cluster fs.sectorsPerCluster 0 data
      let next ← Drv.fatRead cluster
      fillFrom fs n next (data.drop fs.clusterSize)
    else pure ()

/-- `needed` in `write_new_chain`, in 32 bits. -/
def clustersFor (fs : Fs) (size : Nat) : Nat := (size + fs.clusterSize - 1) % 2 ^ 32 / fs.clusterSize

/-- `write_new_chain` (fat16.c:468): the first cluster; `none` for -1. -/
def writeNewChain (fs : Fs) (data : Text) : Drv (Option Nat) :=
  if data.length = 0 then pure (some 0)
  else do
    match ← linkFrom fs (clustersFor fs data.length) 0 0 with
    | none => pure none
    | some (first, prev) => do
      Drv.fatWrite prev 0xFFFF
      fillFrom fs data.length first data
      pure (some first)

/-- What the heap does during a call. -/
structure Env where
  /-- `kmalloc` in `fat16_read_file` succeeds. -/
  readBuf : Bool
  /-- `kmalloc` in `fat16_write_file` succeeds. -/
  kmalloc : Bool
  /-- The bytes a new block holds. -/
  junk : Buf

/-- The sectors of one cluster: sector `s`, `n` to go, `left` bytes not yet read. -/
def readSectors (c : Nat) : Nat → Nat → Nat → Drv Text
  | 0, _, _ => pure []
  | n + 1, s, left =>
    if left = 0 then pure []
    else do
      let sector ← Drv.readSector c s
      let rest ← readSectors c n (s + 1) (left - 512)
      pure (slice sector 0 (min left 512) ++ rest)

/-- The loop of `fat16_read_file`: the bytes read, `left` of them still to go. -/
def readFrom (fs : Fs) : Nat → Nat → Nat → Drv Text
  | 0, _, _ => pure []
  | n + 1, cluster, left =>
    if 2 ≤ cluster ∧ cluster < FAT_EOC ∧ 0 < left then do
      let bytes ← readSectors cluster fs.sectorsPerCluster 0 left
      let next ← Drv.fatRead cluster
      let rest ← readFrom fs n next (left - fs.clusterSize)
      pure (bytes ++ rest)
    else pure []

/-- `fat16_read_file` (fat16.c:641). Where the chain is shorter than the file, the buffer keeps what it held. -/
def readFile (fs : Fs) (env : Env) (path : Text) : Drv (Option Text) := do
  match ← pathLookup fs path with
  | none => pure none
  | some f =>
    let size := f.entry.size
    if f.entry.isDirectory = true then pure none
    -- `kmalloc(0)` is a null pointer
    else if env.readBuf = false ∨ (size + 1) % 2 ^ 32 = 0 then pure none
    else do
      let bytes ← readFrom fs size f.entry.firstCluster size
      pure (some (bytes ++ slice env.junk bytes.length (size - bytes.length)))

/-! ## Calls -/

/-- `dot` in `fat16_create`: the record "." of directory `c`. -/
def dotEntry (c : Nat) : Entry :=
  ((Entry.setName zeros (dot :: List.replicate 10 space)).setAttr FAT_ATTR_DIRECTORY).setFirstCluster c

/-- `dotdot` in `fat16_create`: the record ".." of directory `c` in `parent`. -/
def dotdotEntry (c parent : Nat) : Entry := Entry.setFirstCluster (put8 (dotEntry c) 1 dot) parent

/-- A new directory with its two records (fat16.c:762): its cluster, or 0. -/
def makeDir (fs : Fs) (parentCluster : Nat) : Drv Nat := do
  let c ← allocCluster fs
  if c = 0 then pure 0
  else do
    let _ ← writeDirEntryAt fs c 0 (dotEntry c)
    let _ ← writeDirEntryAt fs c 1 (dotdotEntry c parentCluster)
    pure c

/-- The record `fat16_create` makes. -/
def newEntry (fatName : Text) (directory : Bool) : Entry :=
  (Entry.setName zeros fatName).setAttr (if directory then FAT_ATTR_DIRECTORY else FAT_ATTR_ARCHIVE)

/-- The part of `fat16_create` behind the checks of the path. -/
def createIn (fs : Fs) (parentCluster : Nat) (fatName : Text) (directory : Bool) : Drv Int := do
  match ← findInDir fs parentCluster fatName with
  | some _ => pure (-1)
  | none => do
    match ← findFreeSlot fs parentCluster with
    | none => pure (-1)
    | some index =>
      if directory = true then do
        let c ← makeDir fs parentCluster
        if c = 0 then pure (-1)
        else writeDirEntryAt fs parentCluster index ((newEntry fatName true).setFirstCluster c)
      else writeDirEntryAt fs parentCluster index (newEntry fatName false)

/-- `fat16_create` (fat16.c:738). -/
def create (fs : Fs) (path : Text) (directory : Bool) : Drv Int := do
  match ← pathParent fs path with
  | none => pure (-1)
  | some parent =>
    match nameTo83 (leafText path) with
    | none => pure (-1)
    | some fatName =>
      if parent.entry.isDirectory = false then pure (-1)
      else createIn fs parent.entry.firstCluster fatName directory

/-- The contents to write (fat16.c:698): an append puts the old ones in front, unless they cannot be read;
`none` if there is no memory for both. -/
def finalContents (fs : Fs) (env : Env) (path data : Text) (append : Bool) : Drv (Option Text) :=
  if append = true then do
    match ← readFile fs env path with
    | none => pure (some data)
    | some old =>
      -- `old_size + size` is a 32-bit sum, and `kmalloc(0)` is a null pointer
      let size := (old.length + data.length) % 2 ^ 32
      pure (if env.kmalloc = true ∧ size ≠ 0 then some ((old ++ data).take size) else none)
  else pure (some data)

/-- A new chain, then the old one is freed, then the record follows (fat16.c:717). -/
def replaceContents (fs : Fs) (f : Found) (final : Text) : Drv Int := do
  match ← writeNewChain fs final with
  | none => pure (-1)
  | some newFirst => do
    freeIf f.entry.firstCluster
    writeDirEntryAt fs f.dirCluster f.index (((f.entry.setFirstCluster newFirst).setSize final.length).setAttr FAT_ATTR_ARCHIVE)

/-- The part of `fat16_write_file` behind the lookup. -/
def writeFound (fs : Fs) (env : Env) (path data : Text) (append : Bool) (f : Found) : Drv Int :=
  if f.entry.isDirectory = true then pure (-1)
  else do
    match ← finalContents fs env path data append with
    | none => pure (-1)
    | some final => replaceContents fs f final

/-- `fat16_write_file` (fat16.c:679). -/
def writeFile (fs : Fs) (env : Env) (path data : Text) (append : Bool) : Drv Int := do
  match ← pathLookup fs path with
  | some f => writeFound fs env path data append f
  | none => do
    let rc ← create fs path false
    if rc ≠ 0 then pure (-1)
    else do
      match ← pathLookup fs path with
      | none => pure (-1)
      | some f => writeFound fs env path data append f

/-- The record is given up: its chain, then the record itself. -/
def removeFound (fs : Fs) (f : Found) : Drv Int := do
  freeIf f.entry.firstCluster
  writeDirEntryAt fs f.dirCluster f.index f.entry.erase

/-- `fat16_unlink` (fat16.c:784). -/
def unlink (fs : Fs) (path : Text) (directory : Bool) : Drv Int := do
  match ← pathLookup fs path with
  | none => pure (-1)
  | some f =>
    if path = [slash] then pure (-1)
    else if directory ≠ f.entry.isDirectory then pure (-1)
    else if f.entry.isDirectory = true then do
      if ← dirIsEmpty fs f.entry.firstCluster then removeFound fs f else pure (-1)
    else removeFound fs f

/-- The part of `fat16_rename` behind the checks of the paths. -/
def renameIn (fs : Fs) (f : Found) (parentCluster : Nat) (fatName : Text) : Drv Int := do
  match ← findInDir fs parentCluster fatName with
  | some _ => pure (-1)
  | none => do
    match ← findFreeSlot fs parentCluster with
    | none => pure (-1)
    | some newIndex => do
      let rc ← writeDirEntryAt fs parentCluster newIndex (f.entry.setName fatName)
      if rc ≠ 0 then pure (-1)
      else writeDirEntryAt fs f.dirCluster f.index f.entry.erase

/-- `fat16_rename` (fat16.c:805). -/
def rename (fs : Fs) (oldPath newPath : Text) : Drv Int := do
  match ← pathLookup fs oldPath with
  | none => pure (-1)
  | some f => do
    match ← pathParent fs newPath with
    | none => pure (-1)
    | some parent =>
      match nameTo83 (leafText newPath) with
      | none => pure (-1)
      | some fatName => renameIn fs f parent.entry.firstCluster fatName

end PureUnix.Fat16
