import PureUnix.Vfs.Correct

/-!
# Mounts and entry points

The mount layer of fs/vfs.c: longest-prefix dispatch, the tables of the two drivers, and the public entry
points that take a path. A driver is given by its functions over a state `σ` of the mounted file systems;
its table leaves out what the driver does not have. An entry point that changes something ends in one
driver operation: `Call` is that operation, `Sys.finish` runs it and turns its result into the caller's.
-/
namespace PureUnix.Vfs

open Lib Nat List

/-- `vfs_dirent_t`. -/
structure Dirent where
  name : Text
  type : NodeType
  size : Nat
  deriving DecidableEq, Repr

/-- What a driver's `readdir` hands to the callback, and what it returns if the callback never stops it. -/
structure Listing where
  entries : List Dirent
  rc : Int
  deriving DecidableEq, Repr

/-- The functions every driver has. No driver knows about descriptors. -/
structure Driver (σ : Type) where
  stat : σ → Text → Option Stat
  readFile : σ → Text → Option Text
  writeFile : Text → Text → UInt32 → σ → Int × σ
  create : Text → Bool → σ → Int × σ
  unlink : Text → Bool → σ → Int × σ
  rename : Text → Text → σ → Int × σ
  readdir : σ → Text → Listing
  root_not_link : ∀ s st, stat s [slash] = some st → st.type ≠ .symlink
  create_errno : ∀ p directory s, (create p directory s).1 ≠ -EMFILE

/-- A driver with links. A smaller buffer gets less of the target. -/
structure LinkDriver (σ : Type) extends Driver σ where
  readlink : σ → Text → Nat → Except Int Text
  readlink_cut : ∀ s p m n full, m ≤ n → readlink s p n = .ok full → readlink s p m = .ok (full.take m)
  link : Text → Text → σ → Int × σ
  symlink : Text → Text → σ → Int × σ

/-- `vfs_ops_t`; `none` is a null pointer. -/
structure Ops (σ : Type) where
  stat : Option (σ → Text → Option Stat)
  readFile : Option (σ → Text → Option Text)
  writeFile : Option (Text → Text → UInt32 → σ → Int × σ)
  create : Option (Text → Bool → σ → Int × σ)
  unlink : Option (Text → Bool → σ → Int × σ)
  rename : Option (Text → Text → σ → Int × σ)
  readdir : Option (σ → Text → Listing)
  chmod : Option (Text → UInt16 → σ → Int × σ)
  chown : Option (Text → Nat → Nat → σ → Int × σ)
  readlink : Option (σ → Text → Nat → Except Int Text)
  link : Option (Text → Text → σ → Int × σ)
  symlink : Option (Text → Text → σ → Int × σ)

/-- `ext2_vfs_ops_table` (ext2/mount.c:126). -/
def ext2VfsOps {σ : Type} (d : LinkDriver σ) : Ops σ where
  stat := some d.stat
  readFile := some d.readFile
  writeFile := some d.writeFile
  create := some d.create
  unlink := some d.unlink
  rename := some d.rename
  readdir := some d.readdir
  chmod := none
  chown := none
  readlink := some d.readlink
  link := some d.link
  symlink := some d.symlink

/-- `fat16_vfs_ops_table` (fat16.c:891). -/
def fat16VfsOps {σ : Type} (d : Driver σ) : Ops σ where
  stat := some d.stat
  readFile := some d.readFile
  writeFile := some d.writeFile
  create := some d.create
  unlink := some d.unlink
  rename := some d.rename
  readdir := some d.readdir
  chmod := none
  chown := none
  readlink := none
  link := none
  symlink := none

/-- `vfs_fs_type_t`. -/
inductive FsType
  | ext2 | fat16
  deriving DecidableEq, Repr

/-- `vfs_mount_t`; the type stands for the table. -/
structure Mount where
  mountpoint : Text
  type : FsType
  deriving DecidableEq, Repr

/-- The mount table and the drivers behind it. -/
structure Sys (σ : Type) where
  mounts : List Mount
  ext2 : LinkDriver σ
  fat16 : Driver σ

/-! ## Dispatch -/

/-- `path_under_mount` (vfs.c:89). -/
def pathUnderMount (path mnt : Text) : Bool :=
  mnt.isPrefixOf path &&
    (decide (mnt.length ≤ 1) || (path.drop mnt.length).head? == none || (path.drop mnt.length).head? == some slash)

/-- The part of `path` its mount sees: the mountpoint taken off, and "/" if nothing is left. -/
def mountRelative (m : Mount) (path : Text) : Text :=
  let rest := if m.mountpoint.length ≤ 1 then path else path.drop m.mountpoint.length
  if rest = [] then [slash] else rest

section
variable {σ : Type} (S : Sys σ)

def Sys.ops (m : Mount) : Ops σ :=
  match m.type with
  | .ext2 => ext2VfsOps S.ext2
  | .fat16 => fat16VfsOps S.fat16

/-- `vfs_find_mount` (vfs.c:97): the longest mountpoint, the last one of that length. -/
def Sys.findMount (path : Text) : Option Mount :=
  if path.head? ≠ some slash then none
  else
    S.mounts.foldl (fun best m =>
      if pathUnderMount path m.mountpoint = true ∧ (best.elim 0 fun b => b.mountpoint.length) ≤ m.mountpoint.length then some m
      else best) none

/-- `vfs_dispatch` (vfs.c:130) with a buffer of `PUREUNIX_MAX_PATH` bytes. -/
def Sys.dispatch (path : Text) : Option (Mount × Text) :=
  (S.findMount path).map fun m => (m, (mountRelative m path).take (PUREUNIX_MAX_PATH - 1))

/-- `vfs_stat_raw` (vfs.c:147). -/
def Sys.statRaw (s : σ) (path : Text) : Option Stat :=
  match S.dispatch path with
  | none => none
  | some (m, sub) =>
    match (S.ops m).stat with
    | none => none
    | some f => f s sub

/-- `vfs_readlink_raw` (vfs.c:159). -/
def Sys.readlinkRaw (s : σ) (path : Text) (bufsize : Nat) : Except Int Text :=
  match S.dispatch path with
  | none => .error (-EINVAL)
  | some (m, sub) =>
    match (S.ops m).readlink with
    | none => .error (-EINVAL)
    | some f => f s sub bufsize

/-- The target a link has for `resolve_path`, which asks for `PUREUNIX_MAX_PATH - 1` bytes. -/
def Sys.target (s : σ) (path : Text) : Option Text :=
  match S.readlinkRaw s path (PUREUNIX_MAX_PATH - 1) with
  | .error _ => none
  | .ok bytes => some ((bytes.take (PUREUNIX_MAX_PATH - 1)).takeWhile (· ≠ 0))

theorem Sys.target_le (s : σ) (p t : Text) (h : S.target s p = some t) : t.length < PUREUNIX_MAX_PATH := by
  unfold Sys.target at h
  split at h
  · cases h
  cases h
  refine lt_of_le_of_lt (takeWhile_sublist _).length_le ?_
  rw [length_take]
  exact lt_of_le_of_lt (min_le_left _ _) (by decide)

theorem Sys.findMount_under {path : Text} {m : Mount} (h : S.findMount path = some m) :
    path.head? = some slash ∧ m ∈ S.mounts ∧ pathUnderMount path m.mountpoint = true := by
  unfold Sys.findMount at h
  split at h
  · cases h
  rename_i habs
  have hfold : ∀ (ms : List Mount) (best : Option Mount),
      (∀ b, best = some b → b ∈ S.mounts ∧ pathUnderMount path b.mountpoint = true) → (∀ x ∈ ms, x ∈ S.mounts) →
      ms.foldl (fun best m =>
        if pathUnderMount path m.mountpoint = true ∧ (best.elim 0 fun b => b.mountpoint.length) ≤ m.mountpoint.length then some m
        else best) best = some m → m ∈ S.mounts ∧ pathUnderMount path m.mountpoint = true := by
    intro ms
    induction ms with
    | nil => intro best hb _ h; exact hb m h
    | cons x xs ih =>
      intro best hb hx h
      refine ih _ (fun b hbx => ?_) (fun y hy => hx y (by simp [hy])) h
      dsimp only at hbx
      split at hbx
      · cases hbx
        exact ⟨hx _ (by simp), by tauto⟩
      · exact hb b hbx
  exact ⟨not_not.1 habs, hfold S.mounts none nofun (fun x hx => hx) h⟩

theorem Sys.root_not_link (s : σ) (st : Stat) (h : S.statRaw s [slash] = some st) : st.type ≠ .symlink := by
  unfold Sys.statRaw Sys.dispatch at h
  cases hm : S.findMount [slash] with
  | none => simp [hm] at h
  | some m =>
    obtain ⟨-, -, hu⟩ := S.findMount_under hm
    -- a mountpoint that covers "/" has at most one byte, so the driver sees "/" itself
    have hlen : m.mountpoint.length ≤ 1 := by
      simp only [pathUnderMount, Bool.and_eq_true, isPrefixOf_iff_prefix] at hu
      exact hu.1.length_le
    have hsub : (mountRelative m [slash]).take (PUREUNIX_MAX_PATH - 1) = [slash] := by
      simp [mountRelative, hlen, PUREUNIX_MAX_PATH]
    simp only [hm, Option.map_some, hsub] at h
    cases ht : m.type with
    | ext2 => simp only [Sys.ops, ht, ext2VfsOps] at h; exact S.ext2.root_not_link s st h
    | fat16 => simp only [Sys.ops, ht, fat16VfsOps] at h; exact S.fat16.root_not_link s st h

/-- What `resolve_path` sees of a state. -/
def Sys.view (s : σ) : View := ⟨S.statRaw s, S.target s, S.target_le s, S.root_not_link s⟩

/-! ## Entry points -/

/-- How an entry point fails: with a code and a text for `vfs_last_error`, or past the end of a buffer.
`vfs_chmod` and `vfs_chown` leave the text as it was. -/
inductive Fail
  | errno (rc : Int) (lastError : Option String)
  | overrun
  deriving DecidableEq, Repr

def fail {α : Type} (rc : Int) (text : String) : Except Fail α := .error (.errno rc (some text))

/-- `resolve_path` in an entry point that sets `text` on an error. -/
def Sys.resolve (c : Cred) (s : σ) (path : Text) (followFinal : Bool) (text : String) : Except Fail Text :=
  match resolvePath (S.view s) c path followFinal with
  | some (.ok out) => .ok out
  | some (.errno e) => fail e text
  | _ => .error .overrun

/-- `parent_of` (vfs.c:302). -/
def parentOf (path : Text) : Text := PathText.parent slash (path.take (PUREUNIX_MAX_PATH - 1))

/-- `check_dir_write` (vfs.c:315): `0` or an error. -/
def Sys.checkDirWrite (c : Cred) (s : σ) (path : Text) : Int :=
  match S.statRaw s (parentOf path) with
  | none => -ENOENT
  | some pst => if access pst c W_OK then 0 else -EACCES

/-- `vfs_stat` (vfs.c:328). -/
def Sys.vfsStat (c : Cred) (s : σ) (path : Text) : Except Fail Stat := do
  let resolved ← S.resolve c s path true "stat failed"
  match S.statRaw s resolved with
  | none => fail (-ENOENT) "stat failed"
  | some st => .ok st

/-- `vfs_lstat` (vfs.c:338). -/
def Sys.vfsLstat (c : Cred) (s : σ) (path : Text) : Except Fail Stat := do
  let resolved ← S.resolve c s path false "lstat failed"
  match S.statRaw s resolved with
  | none => fail (-ENOENT) "lstat failed"
  | some st => .ok st

/-- `vfs_read_file` (vfs.c:348). -/
def Sys.vfsReadFile (c : Cred) (s : σ) (path : Text) : Except Fail Text := do
  let resolved ← S.resolve c s path true "read failed"
  match S.statRaw s resolved with
  | none => fail (-ENOENT) "read failed"
  | some st =>
    if access st c R_OK = false then fail (-EACCES) "permission denied"
    else
      match S.dispatch resolved with
      | none => fail (- EIO) "read failed"
      | some (m, sub) =>
        match (S.ops m).readFile with
        | none => fail (- EIO) "read failed"
        | some f =>
          match f s sub with
          | none => fail (- EIO) "read failed"
          | some data => .ok data

/-- The entries a callback sees: it stops the driver by returning non-zero. -/
def deliver (cb : Dirent → List Dirent → Int × List Dirent) : Listing → List Dirent → Int × List Dirent
  | ⟨[], rc⟩, ctx => (rc, ctx)
  | ⟨e :: es, rc⟩, ctx =>
    match cb e ctx with
    | (0, ctx') => deliver cb ⟨es, rc⟩ ctx'
    | (_, ctx') => (1, ctx')
  termination_by l => l.entries.length

/-- `vfs_readdir` (vfs.c:368). -/
def Sys.vfsReaddir (c : Cred) (s : σ) (path : Text) (cb : Dirent → List Dirent → Int × List Dirent) (ctx : List Dirent) :
    Except Fail (List Dirent) := do
  let resolved ← S.resolve c s path true "readdir failed"
  match S.statRaw s resolved with
  | none => fail (-ENOENT) "readdir failed"
  | some st =>
    if access st c R_OK = false then fail (-EACCES) "permission denied"
    else
      match S.dispatch resolved with
      | none => fail (- EIO) "readdir failed"
      | some (m, sub) =>
        match (S.ops m).readdir with
        | none => fail (- EIO) "readdir failed"
        | some f =>
          if (deliver cb (f s sub) ctx).1 < 0 then fail (- EIO) "readdir failed"
          else .ok (deliver cb (f s sub) ctx).2

/-- `vfs_readlink` (vfs.c:586). -/
def Sys.vfsReadlink (c : Cred) (s : σ) (path : Text) (bufsize : Nat) : Except Fail Text := do
  let resolved ← S.resolve c s path false "readlink failed"
  match S.statRaw s resolved with
  | none => fail (-ENOENT) "readlink failed"
  | some st =>
    if st.type ≠ .symlink then fail (-EINVAL) "not a symlink"
    else
      match S.readlinkRaw s resolved bufsize with
      | .error e => fail e "readlink failed"
      | .ok bytes => .ok bytes

/-! ### Entry points that change something -/

/-- A driver operation that changes the file system. -/
inductive Change
  | writeFile (sub : Text) (data : Text) (flags : UInt32)
  | create (sub : Text) (directory : Bool)
  | unlink (sub : Text) (directory : Bool)
  | rename (oldSub newSub : Text)
  | link (oldSub newSub : Text)
  | symlink (target sub : Text)
  deriving DecidableEq, Repr

/-- The operation an entry point reaches, and on which mount. -/
structure Call where
  mount : Mount
  change : Change
  deriving DecidableEq, Repr

/-- Dispatch to an operation of the driver; `-EROFS` if there is no mount or no such operation. -/
def Sys.reach {β : Type} (resolved : Text) (op : Ops σ → Option β) (text : String) (change : Text → Change) : Except Fail Call :=
  match S.dispatch resolved with
  | none => fail (-EROFS) text
  | some (m, sub) => if (op (S.ops m)).isNone then fail (-EROFS) text else .ok ⟨m, change sub⟩

/-- Dispatch two paths to an operation of one driver. -/
def Sys.reach₂ {β : Type} (resolvedOld resolvedNew : Text) (op : Ops σ → Option β) (text cross : String)
    (change : Text → Text → Change) : Except Fail Call :=
  match S.dispatch resolvedOld, S.dispatch resolvedNew with
  | some (mOld, oldSub), some (mNew, newSub) =>
    if mOld ≠ mNew then fail (-EXDEV) cross
    else if (op (S.ops mOld)).isNone then fail (-EROFS) text
    else .ok ⟨mOld, change oldSub newSub⟩
  | _, _ => fail (-ENOENT) text

/-- `resolve_for_create` (vfs.c:424). -/
def Sys.resolveForCreate (c : Cred) (s : σ) (path : Text) (text : String) : Except Fail Text := do
  let resolved ← S.resolve c s path true text
  if (S.statRaw s resolved).isSome then fail (-EEXIST) text
  else if S.checkDirWrite c s resolved ≠ 0 then fail (S.checkDirWrite c s resolved) text
  else .ok resolved

/-- `vfs_write_file` (vfs.c:397). -/
def Sys.vfsWriteFile (c : Cred) (s : σ) (path : Text) (data : Text) (flags : UInt32) : Except Fail Call := do
  let resolved ← S.resolve c s path true "write failed"
  match S.statRaw s resolved with
  | some st =>
    if access st c W_OK = false then fail (-EACCES) "permission denied"
    else S.reach resolved Ops.writeFile "write failed" fun sub => .writeFile sub data flags
  | none =>
    if S.checkDirWrite c s resolved ≠ 0 then fail (S.checkDirWrite c s resolved) "permission denied"
    else S.reach resolved Ops.writeFile "write failed" fun sub => .writeFile sub data flags

/-- `vfs_create` (vfs.c:436). -/
def Sys.vfsCreate (c : Cred) (s : σ) (path : Text) : Except Fail Call := do
  let resolved ← S.resolveForCreate c s path "create failed"
  S.reach resolved Ops.create "create failed" fun sub => .create sub false

/-- `vfs_mkdir` (vfs.c:451). -/
def Sys.vfsMkdir (c : Cred) (s : σ) (path : Text) : Except Fail Call := do
  let resolved ← S.resolveForCreate c s path "mkdir failed"
  S.reach resolved Ops.create "mkdir failed" fun sub => .create sub true

/-- `vfs_symlink` (vfs.c:571). -/
def Sys.vfsSymlink (c : Cred) (s : σ) (target path : Text) : Except Fail Call := do
  let resolved ← S.resolveForCreate c s path "symlink failed"
  S.reach resolved Ops.symlink "symlink failed" fun sub => .symlink target sub

/-- `vfs_unlink` (vfs.c:466). -/
def Sys.vfsUnlink (c : Cred) (s : σ) (path : Text) : Except Fail Call := do
  let resolved ← S.resolve c s path false "unlink failed"
  match S.statRaw s resolved with
  | none => fail (-ENOENT) "unlink failed"
  | some st =>
    if st.type = .dir then fail (-EISDIR) "is a directory"
    else if S.checkDirWrite c s resolved ≠ 0 then fail (S.checkDirWrite c s resolved) "permission denied"
    else S.reach resolved Ops.unlink "unlink failed" fun sub => .unlink sub false

/-- `vfs_rmdir` (vfs.c:488). -/
def Sys.vfsRmdir (c : Cred) (s : σ) (path : Text) : Except Fail Call := do
  let resolved ← S.resolve c s path false "rmdir failed"
  if resolved = [slash] then fail (-EACCES) "cannot remove root"
  else
    match S.statRaw s resolved with
    | none => fail (-ENOENT) "rmdir failed"
    | some st =>
      if st.type ≠ .dir then fail (-ENOTDIR) "not a directory"
      else if S.checkDirWrite c s resolved ≠ 0 then fail (S.checkDirWrite c s resolved) "permission denied"
      else S.reach resolved Ops.unlink "rmdir failed" fun sub => .unlink sub true

/-- `vfs_rename` (vfs.c:512). -/
def Sys.vfsRename (c : Cred) (s : σ) (oldPath newPath : Text) : Except Fail Call := do
  let resolvedOld ← S.resolve c s oldPath false "rename failed"
  let resolvedNew ← S.resolve c s newPath false "rename failed"
  if (S.statRaw s resolvedOld).isNone then fail (-ENOENT) "rename failed"
  else if S.checkDirWrite c s resolvedOld ≠ 0 then fail (S.checkDirWrite c s resolvedOld) "permission denied"
  else if S.checkDirWrite c s resolvedNew ≠ 0 then fail (S.checkDirWrite c s resolvedNew) "permission denied"
  else S.reach₂ resolvedOld resolvedNew Ops.rename "rename failed" "cross-device rename" .rename

/-- `vfs_link` (vfs.c:543). -/
def Sys.vfsLink (c : Cred) (s : σ) (oldPath newPath : Text) : Except Fail Call := do
  let resolvedOld ← S.resolve c s oldPath false "link failed"
  match S.statRaw s resolvedOld with
  | none => fail (-ENOENT) "link failed"
  | some st =>
    if st.type = .dir then fail (-EPERM) "cannot link directories"
    else do
      let resolvedNew ← S.resolveForCreate c s newPath "link failed"
      S.reach₂ resolvedOld resolvedNew Ops.link "link failed" "cross-device link" .link

/-- Running the operation; one the driver does not have returns as it would from `reach`. -/
def Sys.perform (call : Call) (s : σ) : Int × σ :=
  match call.change with
  | .writeFile sub data flags => ((S.ops call.mount).writeFile.elim (-EROFS, s)) fun f => f sub data flags s
  | .create sub directory => ((S.ops call.mount).create.elim (-EROFS, s)) fun f => f sub directory s
  | .unlink sub directory => ((S.ops call.mount).unlink.elim (-EROFS, s)) fun f => f sub directory s
  | .rename oldSub newSub => ((S.ops call.mount).rename.elim (-EROFS, s)) fun f => f oldSub newSub s
  | .link oldSub newSub => ((S.ops call.mount).link.elim (-EROFS, s)) fun f => f oldSub newSub s
  | .symlink target sub => ((S.ops call.mount).symlink.elim (-EROFS, s)) fun f => f target sub s

/-- The end of an entry point: run the operation it reached; a positive code becomes `-EIO`. -/
def Sys.finish (text : String) (s : σ) : Except Fail Call → Except Fail Unit × σ
  | .error e => (.error e, s)
  | .ok call =>
    let (r, s') := S.perform call s
    (if r ≠ 0 then fail (if r < 0 then r else - EIO) text else .ok (), s')

/-- `vfs_chmod` and `vfs_chown` (vfs.c:651): no resolution, no permission check, and in both tables no
operation; `op` picks it. -/
def Sys.literal {β : Type} (op : Ops σ → Option β) (run : β → Text → σ → Int × σ) (s : σ) (path : Text) : Except Fail Int × σ :=
  match S.dispatch path with
  | none => (.error (.errno (-ENOENT) none), s)
  | some (m, sub) =>
    if (((S.ops m).stat).bind fun f => f s sub).isNone then (.error (.errno (-ENOENT) none), s)
    else
      match op (S.ops m) with
      | none => (.error (.errno (-EROFS) none), s)
      | some f => (.ok (run f sub s).1, (run f sub s).2)

def Sys.vfsChmod (s : σ) (path : Text) (mode : UInt16) : Except Fail Int × σ :=
  S.literal Ops.chmod (fun f sub s => f sub mode s) s path

def Sys.vfsChown (s : σ) (path : Text) (uid gid : Nat) : Except Fail Int × σ :=
  S.literal Ops.chown (fun f sub s => f sub uid gid s) s path

end
end PureUnix.Vfs
