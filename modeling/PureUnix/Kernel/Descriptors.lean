import PureUnix.Lib.Machine
import PureUnix.Vfs.Codes
import Mathlib.Data.Fin.Tuple.Basic

/-!
# File descriptors

The file calls of arch/i386/syscall.c: SYS_OPEN, SYS_READ, SYS_WRITE, SYS_LSEEK and SYS_CLOSE on a task's table
of descriptors. A descriptor holds the whole file in a heap buffer; a writable one is written back when it is
closed. Sizes and offsets are `size_t` and wrap at 2^32. Whether `kmalloc` finds a block is given with each
SYS_WRITE; a memory access outside a buffer is the answer `fault`.
-/
namespace PureUnix.Kernel

open Lib Vfs

def MAX_OPEN_FILES : Nat := 16

def EBADF : Int := 9

def O_WRONLY : UInt32 := 0x001
def O_CREAT : UInt32 := 0x100
def O_APPEND : UInt32 := 0x400

def has (flags bit : UInt32) : Bool := flags &&& bit != 0

/-- `fd_entry_t`; `data` is `none` for a null pointer. -/
structure FdEntry where
  used : Bool
  flags : UInt32
  path : Text
  data : Option Text
  size : Nat
  offset : Nat
  deriving DecidableEq, Repr

/-- An entry after `memset(f, 0, sizeof(*f))`. -/
def FdEntry.clear : FdEntry := ⟨false, 0, [], none, 0, 0⟩

/-- The part of `task_t` the file calls use. -/
structure Task where
  fds : Fin MAX_OPEN_FILES → FdEntry
  cred : Cred

/-- What a call returns: a code, the bytes SYS_READ copied out (it returns their number), or a memory access
outside a buffer. -/
inductive Ret
  | code (rc : Int)
  | bytes (out : Text)
  | fault
  deriving DecidableEq, Repr

/-- `kmalloc` (heap.c:55) for `n` bytes: the size of the block, if one is found. -/
def kmalloc (found : Bool) (n : Nat) : Option Nat :=
  if n = 0 ∨ found = false then none else some ((n + 7) % 2 ^ 32 / 8 * 8)

/-- The conversion of a `size_t` or a sum of `int`s to `int`. -/
def toInt (n : Int) : Int := n.bmod (2 ^ 32)

/-! ## Calls on one descriptor -/

/-- The `memcpy` at the end of SYS_WRITE, into a buffer of `size` bytes. -/
def FdEntry.put (f : FdEntry) (data : Text) (size : Nat) (buf : Text) : Ret × FdEntry :=
  match copyAt data f.offset buf with
  | none => (.fault, f)
  | some data => (.code buf.length, { f with data := some data, size := size, offset := (f.offset + buf.length) % 2 ^ 32 })

/-- SYS_WRITE (syscall.c:46) on a descriptor in use; `buf` is `none` for a null pointer. -/
def FdEntry.write (found : Bool) (buf : Option Text) (f : FdEntry) : Ret × FdEntry :=
  if has f.flags O_WRONLY = false then (.code (-EBADF), f)
  else
    match buf with
    | none => (.code (-EINVAL), f)
    | some buf =>
      if buf.length = 0 then (.code 0, f)
      else
        let newEnd := (f.offset + buf.length) % 2 ^ 32
        if f.size < newEnd then
          match kmalloc found newEnd with
          | none => (.code (-ENOSPC), f)
          | some block =>
            -- memset(grown, 0, new_end), then memcpy(grown, f->data, f->size)
            if block < newEnd then (.fault, f)
            else f.put ((f.data.getD []).take f.size ++ List.replicate (newEnd - (f.data.getD []).length) 0) newEnd buf
        else
          match f.data with
          | none => (.fault, f)
          | some data => f.put data f.size buf

/-- SYS_READ (syscall.c:97) on a descriptor in use; `buf` tells whether the pointer is not null. -/
def FdEntry.read (buf : Bool) (len : Nat) (f : FdEntry) : Ret × FdEntry :=
  match f.data with
  | none => (.code (-EBADF), f)
  | some data =>
    if buf = false then (.code (-EINVAL), f)
    else if len = 0 then (.bytes [], f)
    else if f.size ≤ f.offset then (.bytes [], f)
    else
      let available := f.size - f.offset
      let toCopy := if len < available then len else available
      (.bytes ((data.drop f.offset).take toCopy), { f with offset := f.offset + toCopy })

/-- SYS_LSEEK (syscall.c:282) on a descriptor in use. -/
def FdEntry.lseek (offset : Int32) (whence : Int) (f : FdEntry) : Ret × FdEntry :=
  let go (newOffset : Int) : Ret × FdEntry :=
    if newOffset < 0 then (.code (-EINVAL), f) else (.code newOffset, { f with offset := newOffset.toNat })
  if whence = 0 then go offset.toInt
  else if whence = 1 then go (toInt (toInt f.offset + offset.toInt))
  else if whence = 2 then go (toInt (toInt f.size + offset.toInt))
  else (.code (-EINVAL), f)

section
variable {σ : Type} (S : Sys σ)

/-- The code of an entry point that returns nothing else. -/
def codeOf : Except Fail Unit → Ret
  | .ok () => .code 0
  | .error (.errno rc _) => .code rc
  | .error .overrun => .fault

def writeBack (c : Cred) (s : σ) (path : Text) (data : Text) : Except Fail Unit × σ :=
  S.finish "write failed" s (S.vfsWriteFile c s path data 0)

/-- SYS_CLOSE (syscall.c:266) on a descriptor in use. -/
def FdEntry.close (c : Cred) (s : σ) (f : FdEntry) : Ret × FdEntry × σ :=
  if has f.flags O_WRONLY then
    let (r, s') := writeBack S c s f.path ((f.data.getD []).take f.size)
    (codeOf r, .clear, s')
  else (.code 0, .clear, s)

/-! ## SYS_OPEN -/

/-- `vfs_stat` for a writable open, after `vfs_create` if the file is missing (syscall.c:224). -/
def statForWrite (c : Cred) (s : σ) (path : Text) (wantCreat : Bool) : Except Fail Stat × σ :=
  match S.vfsStat c s path with
  | .ok st => (.ok st, s)
  | .error .overrun => (.error .overrun, s)
  | .error (.errno sws text) =>
    if sws ≠ -ENOENT then (.error (.errno sws text), s)
    else if wantCreat = false then (.error (.errno (-ENOENT) text), s)
    else
      match S.finish "create failed" s (S.vfsCreate c s path) with
      | (.error .overrun, s') => (.error .overrun, s')
      | (.error (.errno cr text), s') => if cr ≠ -EEXIST then (.error (.errno cr text), s') else (S.vfsStat c s' path, s')
      | (.ok (), s') => (S.vfsStat c s' path, s')

/-- What SYS_OPEN does once it has a slot: the buffer of the new descriptor, or an error. -/
def openData (c : Cred) (s : σ) (path : Text) (flags : UInt32) : Except Fail (Option Text) × σ :=
  if has flags O_WRONLY = false then
    match S.vfsStat c s path with
    | .error e => (.error e, s)
    | .ok st =>
      if st.type ≠ .file then (.error (.errno (-EISDIR) none), s)
      else if access st c R_OK = false then (.error (.errno (-EACCES) none), s)
      else
        match S.vfsReadFile c s path with
        | .error e => (.error e, s)
        | .ok data => (.ok (some data), s)
  else
    match statForWrite S c s path (has flags O_CREAT) with
    | (.error e, s') => (.error e, s')
    | (.ok st, s') =>
      if st.type ≠ .file then (.error (.errno (-EISDIR) none), s')
      else if access st c W_OK = false then (.error (.errno (-EACCES) none), s')
      -- the result of vfs_read_file is not looked at
      else if has flags O_APPEND then (.ok (S.vfsReadFile c s' path).toOption, s')
      else (.ok none, s')

def FdEntry.opened (path : Text) (flags : UInt32) (data : Option Text) : FdEntry :=
  ⟨true, flags, path.take (PUREUNIX_MAX_PATH - 1), data, (data.getD []).length,
    if has flags O_WRONLY && has flags O_APPEND then (data.getD []).length else 0⟩

/-- The first free entry from 3 on. -/
def freeSlot (fds : Fin MAX_OPEN_FILES → FdEntry) : Option (Fin MAX_OPEN_FILES) :=
  Fin.find? fun i => decide (3 ≤ i.val) && !(fds i).used

def Task.set (t : Task) (i : Fin MAX_OPEN_FILES) (f : FdEntry) : Task := { t with fds := Function.update t.fds i f }

/-- SYS_OPEN (syscall.c:163); `path` is `none` for a null pointer. -/
def sysOpen (t : Task) (s : σ) (path : Option Text) (flags : UInt32) : Ret × Task × σ :=
  match path with
  | none => (.code (-EINVAL), t, s)
  | some path =>
    if S.mounts = [] then (.code (-ENOENT), t, s)
    else
      match freeSlot t.fds with
      | none => (.code (-EMFILE), t, s)
      | some fd =>
        match openData S t.cred s path flags with
        | (.error (.errno rc _), s') => (.code rc, t, s')
        | (.error .overrun, s') => (.fault, t, s')
        | (.ok data, s') => (.code fd.val, t.set fd (.opened path flags data), s')

/-! ## Calls -/

/-- The file calls. SYS_WRITE comes with the luck of its `kmalloc`, SYS_READ with what is typed meanwhile, for
descriptor 0. -/
inductive Syscall
  | open (path : Option Text) (flags : UInt32)
  | read (fd : Int) (buf : Bool) (len : Nat) (typed : Text)
  | write (fd : Int) (buf : Option Text) (found : Bool)
  | lseek (fd : Int) (offset : Int32) (whence : Int)
  | close (fd : Int)

/-- The entry of a descriptor number in 3..15. -/
def slotOf (fd : Int) : Option (Fin MAX_OPEN_FILES) :=
  if h : 3 ≤ fd ∧ fd < MAX_OPEN_FILES then some ⟨fd.toNat, by omega⟩ else none

/-- A call on a descriptor; `-EBADF` if the number is out of range or the entry is not in use. -/
def Task.on (t : Task) (s : σ) (fd : Int) (act : FdEntry → Ret × FdEntry × σ) : Ret × Task × σ :=
  match slotOf fd with
  | none => (.code (-EBADF), t, s)
  | some i =>
    if (t.fds i).used = false then (.code (-EBADF), t, s)
    else ((act (t.fds i)).1, t.set i (act (t.fds i)).2.1, (act (t.fds i)).2.2)

/-- SYS_READ from the keyboard: up to `len` bytes. -/
def readKeys (buf : Bool) (len : Nat) (typed : Text) : Ret :=
  if buf = false then .code (-EINVAL) else .bytes (typed.take len)

/-- `syscall_dispatch` (syscall.c:41) for the file calls. -/
def Task.syscall (t : Task) (s : σ) : Syscall → Ret × Task × σ
  | .open path flags => sysOpen S t s path flags
  | .read fd buf len typed =>
    if fd = 0 then (readKeys buf len typed, t, s)
    else t.on s fd fun f => ((f.read buf len).1, (f.read buf len).2, s)
  | .write fd buf found =>
    -- the screen
    if fd = 1 ∨ fd = 2 then (.code (buf.getD []).length, t, s)
    else t.on s fd fun f => ((f.write found buf).1, (f.write found buf).2, s)
  | .lseek fd offset whence => t.on s fd fun f => ((f.lseek offset whence).1, (f.lseek offset whence).2, s)
  | .close fd => t.on s fd fun f => f.close S t.cred s

end

/-! ## The system -/

structure Machine (σ : Type) where
  tasks : Nat → Task
  fs : σ

/-- A file call of a task, or a change of the file systems by anything else. -/
inductive Event (σ : Type)
  | call (pid : Nat) (c : Syscall)
  | elsewhere (fs : σ)

/-- The machine after a call of task `pid` with the given result. -/
def Machine.after {σ : Type} (k : Machine σ) (pid : Nat) (r : Ret × Task × σ) : Ret × Machine σ :=
  (r.1, ⟨Function.update k.tasks pid r.2.1, r.2.2⟩)

def Machine.step {σ : Type} (S : Sys σ) (k : Machine σ) : Event σ → Ret × Machine σ
  | .elsewhere fs => (.code 0, { k with fs := fs })
  | .call pid c => k.after pid ((k.tasks pid).syscall S k.fs c)

end PureUnix.Kernel
