import PureUnix.Kernel.Descriptors

/-!
# Descriptors as buffered files

What the descriptor layer is for: every open descriptor is a byte array with an offset. `Posix.step` gives
each call its meaning on such arrays, with unbounded numbers and no pointers, and `Machine.step` refines it
as long as every offset plus length stays below 2^31.
-/
namespace PureUnix.Kernel

open Lib Vfs List Nat Option Bool FdEntry Machine
open Function (update_eq_self)

variable {i : Fin MAX_OPEN_FILES} {f : FdEntry} {fd : Int}

/-! ## The abstract machine -/

/-- An open file: its bytes and where the next read or write goes. `readable` tells whether SYS_READ is served,
which for a writable file is so once it has been written or had contents delivered. -/
structure OpenFile where
  writable : Bool
  readable : Bool
  path : Text
  contents : Text
  offset : Nat
  deriving DecidableEq, Repr

namespace OpenFile

/-- A write overlays the bytes at the offset, extends the array and fills a gap with zeros. It needs memory only to
extend the array. -/
def write (found : Bool) (buf : Option Text) (f : OpenFile) : Ret × OpenFile :=
  if f.writable = false then (.code (-EBADF), f)
  else
    match buf with
    | none => (.code (-EINVAL), f)
    | some buf =>
      if buf = [] then (.code 0, f)
      else if f.contents.length < f.offset + buf.length ∧ found = false then (.code (-ENOSPC), f)
      else (.code buf.length,
        { f with readable := true, contents := overlay 0 f.contents f.offset buf, offset := f.offset + buf.length })

/-- A read returns the bytes from the offset on, none at or past the end. -/
def read (buf : Bool) (len : Nat) (f : OpenFile) : Ret × OpenFile :=
  if f.readable = false then (.code (-EBADF), f)
  else if buf = false then (.code (-EINVAL), f)
  else
    let out := (f.contents.drop f.offset).take len
    (.bytes out, { f with offset := f.offset + out.length })

def base (whence : Int) (f : OpenFile) : Option Nat :=
  if whence = 0 then some 0 else if whence = 1 then some f.offset else if whence = 2 then some f.contents.length else none

def lseek (offset : Int) (whence : Int) (f : OpenFile) : Ret × OpenFile :=
  match f.base whence with
  | none => (.code (-EINVAL), f)
  | some b => if b + offset < 0 then (.code (-EINVAL), f) else (.code (b + offset), { f with offset := (b + offset).toNat })

end OpenFile

/-- The open files of every task, and the file systems. -/
structure Posix (σ : Type) where
  files : Nat → Fin MAX_OPEN_FILES → Option OpenFile
  cred : Nat → Cred
  fs : σ

namespace Posix
variable {σ : Type} (S : Sys σ)

def free (a : Posix σ) (pid : Nat) : Option (Fin MAX_OPEN_FILES) :=
  Fin.find? fun i => decide (3 ≤ i.val) && (a.files pid i).isNone

def set (a : Posix σ) (pid : Nat) (i : Fin MAX_OPEN_FILES) (f : Option OpenFile) : Posix σ :=
  { a with files := Function.update a.files pid (Function.update (a.files pid) i f) }

/-- The file SYS_OPEN makes of what the file system delivered. -/
def opened (path : Text) (flags : UInt32) (data : Option Text) : OpenFile :=
  ⟨has flags O_WRONLY, data.isSome, path.take (PUREUNIX_MAX_PATH - 1), data.getD [],
    if has flags O_WRONLY && has flags O_APPEND then (data.getD []).length else 0⟩

def openFile (a : Posix σ) (pid : Nat) (path : Option Text) (flags : UInt32) : Ret × Posix σ :=
  match path with
  | none => (.code (-EINVAL), a)
  | some path =>
    if S.mounts = [] then (.code (-ENOENT), a)
    else
      match a.free pid with
      | none => (.code (-EMFILE), a)
      | some fd =>
        match openData S (a.cred pid) a.fs path flags with
        | (.error (.errno rc _), s') => (.code rc, { a with fs := s' })
        | (.error .overrun, s') => (.fault, { a with fs := s' })
        | (.ok data, s') => (.code fd.val, { a.set pid fd (some (opened path flags data)) with fs := s' })

def on (a : Posix σ) (pid : Nat) (fd : Int) (act : OpenFile → Ret × Option OpenFile × σ) : Ret × Posix σ :=
  match (slotOf fd).bind fun i => (a.files pid i).map fun f => (i, f) with
  | none => (.code (-EBADF), a)
  | some (i, f) => ((act f).1, { a.set pid i (act f).2.1 with fs := (act f).2.2 })

/-- Closing a writable file hands its bytes to `vfs_write_file`. -/
def close (c : Cred) (s : σ) (f : OpenFile) : Ret × Option OpenFile × σ :=
  if f.writable then (codeOf (writeBack S c s f.path f.contents).1, none, (writeBack S c s f.path f.contents).2)
  else (.code 0, none, s)

def step (a : Posix σ) : Event σ → Ret × Posix σ
  | .elsewhere fs => (.code 0, { a with fs := fs })
  | .call pid c =>
    match c with
    | .open path flags => a.openFile S pid path flags
    | .read fd buf len typed =>
      if fd = 0 then (readKeys buf len typed, a)
      else a.on pid fd fun f => ((f.read buf len).1, some (f.read buf len).2, a.fs)
    | .write fd buf found =>
      if fd = 1 ∨ fd = 2 then (.code (buf.getD []).length, a)
      else a.on pid fd fun f => ((f.write found buf).1, some (f.write found buf).2, a.fs)
    | .lseek fd offset whence =>
      a.on pid fd fun f => ((f.lseek offset.toInt whence).1, some (f.lseek offset.toInt whence).2, a.fs)
    | .close fd => a.on pid fd fun f => close S (a.cred pid) a.fs f

def fileAt (a : Posix σ) (pid : Nat) (fd : Int) : Option OpenFile := (slotOf fd).bind (a.files pid)

/-- Every offset plus length the call makes is below 2^31: that of a write, that of a seek, and that of the bytes a
new descriptor gets. -/
def Fits (a : Posix σ) : Event σ → Prop
  | .call pid (.write fd buf _) => ∀ f ∈ a.fileAt pid fd, f.offset + (buf.getD []).length < 2 ^ 31
  | .call pid (.lseek fd offset whence) => ∀ f ∈ a.fileAt pid fd, ∀ b ∈ f.base whence, b + offset.toInt < 2 ^ 31
  | .call pid (.open (some path) flags) => ∀ data ∈ (openData S (a.cred pid) a.fs path flags).1.toOption.join, data.length < 2 ^ 31
  | _ => True

instance (a : Posix σ) (e : Event σ) : Decidable (a.Fits S e) := by
  unfold Fits
  split <;> infer_instance

end Posix

/-! ## The abstraction -/

def FdEntry.view (f : FdEntry) : OpenFile := ⟨has f.flags O_WRONLY, f.data.isSome, f.path, f.data.getD [], f.offset⟩

/-- The open file an entry stands for. -/
def FdEntry.file (f : FdEntry) : Option OpenFile := if f.used then some f.view else none

def Machine.abs {σ : Type} (k : Machine σ) : Posix σ :=
  ⟨fun pid i => ((k.tasks pid).fds i).file, fun pid => (k.tasks pid).cred, k.fs⟩

/-- The buffer has `size` bytes, and the numbers are small. -/
structure FdEntry.Ok (f : FdEntry) : Prop where
  size : (f.data.getD []).length = f.size
  size_lt : f.size < 2 ^ 31
  offset_lt : f.offset < 2 ^ 31

def Machine.Ok {σ : Type} (k : Machine σ) : Prop := ∀ pid i, ((k.tasks pid).fds i).Ok

theorem FdEntry.ok_clear : FdEntry.clear.Ok := ⟨rfl, by decide, by decide⟩

section
variable {f : FdEntry}

theorem FdEntry.file_of_used (h : f.used = true) : f.file = some f.view := by
  rw [FdEntry.file, if_pos h]

theorem FdEntry.file_of_unused (h : f.used = false) : f.file = none := by
  rw [FdEntry.file, h]; rfl

theorem FdEntry.isNone_file : f.file.isNone = !f.used := by
  cases h : f.used with
  | true => rw [file_of_used h]; rfl
  | false => rw [file_of_unused h]; rfl

theorem mod_size {n : Nat} (h : n < 2 ^ 31) : n % 2 ^ 32 = n := mod_eq_of_lt (by omega)

theorem toInt_of_small {n : Int} (h0 : -2 ^ 31 ≤ n) (h1 : n < 2 ^ 31) : toInt n = n := by
  unfold toInt
  rw [Int.bmod_def]
  omega

/-! ## One call on one descriptor -/

/-- The entry's answer is the file's, and the entry goes on standing for the file. -/
structure Tracks (r : Ret × FdEntry) (r' : Ret × OpenFile) : Prop where
  answer : r.1 = r'.1
  ok : r.2.Ok
  file : r.2.file = some r'.2

theorem Tracks.same (h : f.Ok) (hu : f.used = true) (r : Ret) : Tracks (r, f) (r, f.view) :=
  ⟨rfl, h, file_of_used hu⟩

/-- What SYS_WRITE can do. The sum of offset and length has to survive being rounded up. -/
inductive FdEntry.Written (found : Bool) (f : FdEntry) : Option Text → Ret × FdEntry → Prop
  | readOnly {buf : Option Text} : has f.flags O_WRONLY = false → f.Written found buf (.code (-EBADF), f)
  | null : has f.flags O_WRONLY = true → f.Written found none (.code (-EINVAL), f)
  | empty {b : Text} : has f.flags O_WRONLY = true → b.length = 0 → f.Written found (some b) (.code 0, f)
  | full {b : Text} : has f.flags O_WRONLY = true → b.length ≠ 0 → f.size < (f.offset + b.length) % 2 ^ 32 → found = false →
      f.Written found (some b) (.code (-ENOSPC), f)
  | wrote {b : Text} : has f.flags O_WRONLY = true → b.length ≠ 0 → f.offset + b.length ≤ 0xFFFFFFF8 →
      (f.size < f.offset + b.length → found = true) → f.Written found (some b) (.code b.length,
        { f with data := some (overlay 0 (f.data.getD []) f.offset b), size := max f.size (f.offset + b.length)
                 offset := f.offset + b.length })
  | wrapped {b : Text} : has f.flags O_WRONLY = true → b.length ≠ 0 → 0xFFFFFFF8 < f.offset + b.length →
      (f.size < (f.offset + b.length) % 2 ^ 32 → found = true) → f.Written found (some b) (.fault, f)

theorem FdEntry.written (hsize : (f.data.getD []).length = f.size) (hsmall : f.size < 2 ^ 31 ∨ f.size ≤ f.offset) (found : Bool)
    (buf : Option Text) : f.Written found buf (f.write found buf) := by
  unfold FdEntry.write
  split
  · exact .readOnly ‹_›
  next hw =>
  rw [not_eq_false] at hw
  cases buf with
  | none => exact .null hw
  | some b =>
    dsimp only
    split
    · exact .empty hw ‹_›
    next hb =>
    have hfault : ∀ {data : Text} {size : Nat}, data.length < f.offset + b.length → f.put data size b = (.fault, f) := by
      intro data size h
      rw [FdEntry.put, copyAt, if_neg (by omega)]
    by_cases hgrow : f.size < (f.offset + b.length) % 2 ^ 32
    · rw [if_pos hgrow]
      cases found with
      | false =>
        rw [kmalloc, if_pos (.inr rfl)]
        exact .full hw hb hgrow rfl
      | true =>
        rw [kmalloc, if_neg (by rintro (hz | hz) <;> [omega; cases hz])]
        dsimp only
        by_cases hsum : f.offset + b.length ≤ 0xFFFFFFF8
        · have hmod : (f.offset + b.length) % 2 ^ 32 = f.offset + b.length := mod_eq_of_lt (by omega)
          rw [hmod] at hgrow ⊢
          rw [if_neg (by omega), take_of_length_le (by omega), FdEntry.put, copyAt_filled 0 (f.data.getD []) f.offset b (by omega), hmod]
          have hwrote : f.Written true (some b) _ := .wrote hw hb hsum fun _ => rfl
          rwa [max_eq_right (by omega)] at hwrote
        · split
          · exact .wrapped hw hb (by omega) fun _ => rfl
          · rw [hfault (by rw [length_append, length_take, length_replicate]; omega)]
            exact .wrapped hw hb (by omega) fun _ => rfl
    · rw [if_neg hgrow]
      cases hd : f.data with
      | none =>
        -- without a buffer the size is 0, so the sum has wrapped
        have : 0 = f.size := by rw [← hsize, hd]; rfl
        exact .wrapped hw hb (by omega) fun h => absurd h hgrow
      | some data =>
        have : data.length = f.size := by rw [← hsize, hd]; rfl
        dsimp only
        by_cases hsum : f.offset + b.length ≤ 0xFFFFFFF8
        · have hwrote : f.Written found (some b) _ := .wrote hw hb hsum fun h => by omega
          rw [hd, max_eq_left (by omega)] at hwrote
          rwa [FdEntry.put, copyAt_eq_overlay 0 data f.offset b (by omega), mod_eq_of_lt (by omega)]
        · rw [hfault (by omega)]
          exact .wrapped hw hb (by omega) fun h => absurd h hgrow

theorem write_tracks (h : f.Ok) (hu : f.used = true) (found : Bool) {buf : Option Text}
    (hfit : f.offset + (buf.getD []).length < 2 ^ 31) : Tracks (f.write found buf) (f.view.write found buf) := by
  have hr := FdEntry.written h.size (.inl h.size_lt) found buf
  have hlen : f.view.contents.length = f.size := h.size
  have hwritable : has f.flags O_WRONLY = true → ¬ f.view.writable = false := fun hw hc => absurd (hw.symm.trans hc) (by decide)
  have hopen : ∀ b : Text, has f.flags O_WRONLY = true → b.length ≠ 0 → f.view.write found (some b) =
      if f.size < f.offset + b.length ∧ found = false then (.code (-ENOSPC), f.view)
      else (.code b.length, { f.view with
        readable := true, contents := overlay 0 f.view.contents f.offset b, offset := f.offset + b.length }) := by
    intro b hw hb
    rw [OpenFile.write, if_neg (hwritable hw), if_neg (by simpa using hb), hlen]
    rfl
  generalize f.write found buf = r at hr
  cases hr with
  | readOnly hw =>
    rw [OpenFile.write.eq_def, if_pos (by exact hw)]
    exact .same h hu _
  | null hw =>
    rw [OpenFile.write, if_neg (hwritable hw)]
    exact .same h hu _
  | empty hw hb =>
    rw [OpenFile.write, if_neg (hwritable hw), if_pos (length_eq_zero_iff.1 hb)]
    exact .same h hu _
  | full hw hb hgrow hfound =>
    rw [mod_size (by exact hfit)] at hgrow
    rw [hopen _ hw hb, if_pos ⟨hgrow, hfound⟩]
    exact .same h hu _
  | wrote hw hb hsum hgrow =>
    have hlt := h.size_lt
    rw [hopen _ hw hb, if_neg fun hc => by rw [hgrow hc.1] at hc; cases hc.2]
    refine ⟨rfl, ⟨?_, Nat.max_lt.2 ⟨hlt, hfit⟩, hfit⟩, file_of_used hu⟩
    dsimp only [getD_some]
    rw [length_overlay, h.size]
  | wrapped _ _ hsum =>
    dsimp only [getD_some] at hfit
    omega

theorem read_tracks (h : f.Ok) (hu : f.used = true) (buf : Bool) (len : Nat) : Tracks (f.read buf len) (f.view.read buf len) := by
  obtain ⟨used, flags, path, data, size, offset⟩ := f
  cases data with
  | none => exact .same h hu _
  | some data =>
    obtain rfl : data.length = size := h.size
    simp only [FdEntry.read, OpenFile.read, FdEntry.view, isSome_some, getD_some, true_eq_false, if_false]
    by_cases hb : buf = false
    · rw [if_pos hb, if_pos hb]
      exact .same h hu _
    rw [if_neg hb, if_neg hb]
    have hcount : ((data.drop offset).take len).length = min len (data.length - offset) := by
      rw [length_take, length_drop]
    by_cases hl : len = 0
    · subst hl
      exact .same h hu _
    rw [if_neg hl]
    by_cases he : data.length ≤ offset
    · rw [if_pos he, drop_of_length_le he, take_nil]
      exact .same h hu _
    rw [if_neg he]
    have hmin : (if len < data.length - offset then len else data.length - offset) = min len (data.length - offset) := by
      split <;> omega
    have hout : (data.drop offset).take (min len (data.length - offset)) = (data.drop offset).take len := by
      rw [← take_take, take_of_length_le (i := data.length - offset) (by rw [length_drop])]
    rw [hmin, hout, hcount]
    refine ⟨rfl, ⟨rfl, h.size_lt, ?_⟩, file_of_used hu⟩
    have := h.size_lt
    dsimp only at this ⊢
    omega

/-- The seek answers with the sum and goes there if the sum is below 2^31 and not negative, and is refused otherwise. -/
def SeekSound (r : Ret × FdEntry) (f : FdEntry) (offset : Int32) (whence : Int) : Prop :=
  match f.view.base whence with
  | none => r = (.code (-EINVAL), f)
  | some base =>
    if 0 ≤ base + offset.toInt ∧ base + offset.toInt < 2 ^ 31 then
      r = (.code (base + offset.toInt), { f with offset := (base + offset.toInt).toNat })
    else r = (.code (-EINVAL), f)

theorem toInt_wraps {n : Int} (h1 : 2 ^ 31 ≤ n) (h2 : n < 2 ^ 32) : toInt n < 0 := by
  unfold toInt
  rw [Int.bmod_def]
  omega

theorem seek_sound (h : f.Ok) (offset : Int32) (whence : Int) : SeekSound (f.lseek offset whence) f offset whence := by
  have hge := offset.le_toInt
  have hle := offset.toInt_lt
  have hlen : f.view.contents.length = f.size := h.size
  -- what the source makes of a sum
  have hgo : ∀ (base : Nat) (n : Int), base < 2 ^ 31 → n = toInt (base + offset.toInt) →
      if 0 ≤ base + offset.toInt ∧ base + offset.toInt < 2 ^ 31 then
        (if n < 0 then (Ret.code (-EINVAL), f) else (.code n, { f with offset := n.toNat })) =
          (.code (base + offset.toInt), { f with offset := (base + offset.toInt).toNat })
      else (if n < 0 then (Ret.code (-EINVAL), f) else (.code n, { f with offset := n.toNat })) = (.code (-EINVAL), f) := by
    intro base n hbase hn
    split
    · rename_i hin
      rw [toInt_of_small (by omega) hin.2] at hn
      rw [if_neg (by omega), hn]
    rw [if_pos]
    by_cases hneg : base + offset.toInt < 0
    · rw [hn, toInt_of_small (by omega) (by omega)]
      exact hneg
    · rw [hn]
      exact toInt_wraps (by omega) (by omega)
  have hbase : ∀ n : Nat, n < 2 ^ 31 → toInt n = n := fun n hn => toInt_of_small (by omega) (by omega)
  unfold SeekSound FdEntry.lseek OpenFile.base
  by_cases h0 : whence = 0
  · rw [if_pos h0, if_pos h0]
    exact hgo 0 _ (by omega) (by simpa using (toInt_of_small (by omega) (by omega)).symm)
  by_cases h1 : whence = 1
  · rw [if_neg h0, if_pos h1, if_neg h0, if_pos h1]
    exact hgo f.offset _ h.offset_lt (by rw [hbase _ h.offset_lt])
  by_cases h2 : whence = 2
  · rw [if_neg h0, if_neg h1, if_pos h2, if_neg h0, if_neg h1, if_pos h2, hlen]
    exact hgo f.size _ h.size_lt (by rw [hbase _ h.size_lt])
  · rw [if_neg h0, if_neg h1, if_neg h2, if_neg h0, if_neg h1, if_neg h2]

theorem lseek_tracks (h : f.Ok) (hu : f.used = true) (offset : Int32) (whence : Int)
    (hfit : ∀ b ∈ f.view.base whence, b + offset.toInt < 2 ^ 31) :
    Tracks (f.lseek offset whence) (f.view.lseek offset.toInt whence) := by
  have hsound := seek_sound h offset whence
  unfold SeekSound at hsound
  unfold OpenFile.lseek
  cases hbase : f.view.base whence with
  | none =>
    rw [hbase] at hsound
    rw [hsound]
    exact .same h hu _
  | some base =>
    have hlt := hfit base hbase
    rw [hbase] at hsound
    dsimp only at hsound ⊢
    by_cases h0 : base + offset.toInt < 0
    · rw [if_neg (by omega)] at hsound
      rw [hsound, if_pos h0]
      exact .same h hu _
    · rw [if_pos (by omega)] at hsound
      rw [hsound, if_neg h0]
      exact ⟨rfl, ⟨h.size, h.size_lt, by dsimp only; omega⟩, file_of_used hu⟩

end

/-! ## One call -/

section
variable {σ : Type} {S : Sys σ} {k : Machine σ} {pid : Nat}

theorem Machine.Ok.set (h : k.Ok) (hf : f.Ok) (s : σ) : (⟨update k.tasks pid ((k.tasks pid).set i f), s⟩ : Machine σ).Ok := by
  intro p j
  dsimp only
  by_cases hp : p = pid
  · subst hp
    rw [update_self]
    by_cases hj : j = i
    · subst hj
      exact (congrArg FdEntry.Ok (update_self ..)).mpr hf
    · exact (congrArg FdEntry.Ok (update_of_ne hj ..)).mpr (h p j)
  · rw [update_of_ne hp]
    exact h p j

theorem Machine.abs_set (i : Fin MAX_OPEN_FILES) (f : FdEntry) (s : σ) :
    (⟨update k.tasks pid ((k.tasks pid).set i f), s⟩ : Machine σ).abs = { k.abs.set pid i f.file with fs := s } := by
  unfold Machine.abs Posix.set
  congr 1
  · ext p j : 2
    by_cases hp : p = pid
    · subst hp
      by_cases hj : j = i
      · subst hj; simp [Task.set]
      · simp [Task.set, hj]
    · simp [hp]
  · ext p : 1
    by_cases hp : p = pid
    · subst hp; simp [Task.set]
    · simp [hp]

theorem Machine.abs_same (s : σ) : (⟨update k.tasks pid (k.tasks pid), s⟩ : Machine σ).abs = { k.abs with fs := s } := by
  rw [update_eq_self]; rfl

theorem Machine.Ok.same (h : k.Ok) (s : σ) : (⟨update k.tasks pid (k.tasks pid), s⟩ : Machine σ).Ok := by
  rw [update_eq_self]; exact h

/-- A call on a descriptor refines the call on the file, if it does on the entry. -/
theorem on_refines (h : k.Ok) {act : FdEntry → Ret × FdEntry × σ} {act' : OpenFile → Ret × Option OpenFile × σ}
    (hact : ∀ f : FdEntry, f.Ok → f.used = true → f.view ∈ k.abs.fileAt pid fd →
      (act f).1 = (act' f.view).1 ∧ (act f).2.1.Ok ∧ (act f).2.1.file = (act' f.view).2.1 ∧ (act f).2.2 = (act' f.view).2.2) :
    (k.after pid ((k.tasks pid).on k.fs fd act)).2.Ok ∧
    k.abs.on pid fd act' = ((k.after pid ((k.tasks pid).on k.fs fd act)).1, (k.after pid ((k.tasks pid).on k.fs fd act)).2.abs) := by
  unfold Task.on Posix.on Posix.fileAt at *
  cases hi : slotOf fd with
  | none => exact ⟨h.same k.fs, Prod.ext rfl (abs_same k.fs).symm⟩
  | some i =>
    have hfile : k.abs.files pid i = ((k.tasks pid).fds i).file := rfl
    cases hu : ((k.tasks pid).fds i).used with
    | false =>
      rw [bind_some, hfile, file_of_unused hu]
      dsimp only
      rw [if_pos hu]
      exact ⟨h.same k.fs, Prod.ext rfl (abs_same k.fs).symm⟩
    | true =>
      rw [bind_some, hfile, file_of_used hu]
      dsimp only
      rw [if_neg (by simp [hu])]
      obtain ⟨h1, h2, h3, h4⟩ := hact _ (h pid i) hu (by rw [hi, bind_some, hfile, file_of_used hu]; rfl)
      refine ⟨h.set h2 _, Prod.ext h1.symm ?_⟩
      change _ = Machine.abs ⟨update k.tasks pid ((k.tasks pid).set i _), _⟩
      rw [abs_set, h3, h4]
      rfl

/-- So it does when the file systems stay as they are. -/
theorem on_tracks (h : k.Ok) {act : FdEntry → Ret × FdEntry} {act' : OpenFile → Ret × OpenFile}
    (hact : ∀ f : FdEntry, f.Ok → f.used = true → f.view ∈ k.abs.fileAt pid fd → Tracks (act f) (act' f.view)) :
    (k.after pid ((k.tasks pid).on k.fs fd fun f => ((act f).1, (act f).2, k.fs))).2.Ok ∧
    (k.abs.on pid fd fun f => ((act' f).1, some (act' f).2, k.fs)) =
      ((k.after pid ((k.tasks pid).on k.fs fd fun f => ((act f).1, (act f).2, k.fs))).1,
        (k.after pid ((k.tasks pid).on k.fs fd fun f => ((act f).1, (act f).2, k.fs))).2.abs) := by
  refine on_refines h fun f hf hu hat => ?_
  obtain ⟨h1, h2, h3⟩ := hact f hf hu hat
  exact ⟨h1, h2, h3, rfl⟩

theorem close_refines (h : f.Ok) (c : Cred) (s : σ) : (f.close S c s).1 = (Posix.close S c s f.view).1 ∧ (f.close S c s).2.1.Ok ∧
    (f.close S c s).2.1.file = (Posix.close S c s f.view).2.1 ∧ (f.close S c s).2.2 = (Posix.close S c s f.view).2.2 := by
  have hdata := take_of_length_le (le_of_eq h.size)
  unfold FdEntry.close Posix.close
  rw [hdata]
  by_cases hw : has f.flags O_WRONLY = true
  · rw [if_pos hw, if_pos (by exact hw)]
    exact ⟨rfl, ok_clear, rfl, rfl⟩
  · rw [if_neg hw, if_neg (by exact hw)]
    exact ⟨rfl, ok_clear, rfl, rfl⟩

theorem free_abs : k.abs.free pid = freeSlot (k.tasks pid).fds := by
  unfold Posix.free freeSlot
  congr 1
  ext i : 1
  rw [show k.abs.files pid i = ((k.tasks pid).fds i).file from rfl, isNone_file]

theorem FdEntry.ok_opened {path : Text} {flags : UInt32} {data : Option Text} (h : (data.getD []).length < 2 ^ 31) :
    (FdEntry.opened path flags data).Ok := by
  refine ⟨rfl, h, ?_⟩
  dsimp only [FdEntry.opened]
  split <;> omega

theorem open_refines (h : k.Ok) (path : Option Text) (flags : UInt32) (hfit : k.abs.Fits S (.call pid (.open path flags))) :
    (k.after pid (sysOpen S (k.tasks pid) k.fs path flags)).2.Ok ∧
    k.abs.openFile S pid path flags = ((k.after pid (sysOpen S (k.tasks pid) k.fs path flags)).1,
      (k.after pid (sysOpen S (k.tasks pid) k.fs path flags)).2.abs) := by
  have hsame : ∀ (r : Ret) (s : σ), (k.after pid (r, k.tasks pid, s)).2.Ok ∧
      (r, { k.abs with fs := s }) = ((k.after pid (r, k.tasks pid, s)).1, (k.after pid (r, k.tasks pid, s)).2.abs) :=
    fun r s => ⟨h.same s, Prod.ext rfl (abs_same s).symm⟩
  unfold sysOpen Posix.openFile
  cases path with
  | none => exact hsame _ k.fs
  | some path =>
    dsimp only
    by_cases hm : S.mounts = []
    · rw [if_pos hm, if_pos hm]
      exact hsame _ k.fs
    rw [if_neg hm, if_neg hm, free_abs]
    cases freeSlot (k.tasks pid).fds with
    | none => exact hsame _ k.fs
    | some fd =>
      have hcred : k.abs.cred pid = (k.tasks pid).cred := rfl
      have hfs : k.abs.fs = k.fs := rfl
      rw [hcred, hfs]
      simp only [Posix.Fits, hcred, hfs] at hfit
      generalize hop : openData S (k.tasks pid).cred k.fs path flags = r at hfit
      obtain ⟨res, s'⟩ := r
      cases res with
      | error e =>
        cases e with
        | errno rc text => exact hsame _ s'
        | overrun => exact hsame _ s'
      | ok data =>
        have hlen : (data.getD []).length < 2 ^ 31 := by
          cases data with
          | none => decide
          | some data => exact hfit data rfl
        refine ⟨h.set (ok_opened hlen) s', Prod.ext rfl ?_⟩
        change _ = Machine.abs ⟨update k.tasks pid ((k.tasks pid).set fd _), s'⟩
        rw [abs_set]
        rfl

/-- **One event refines its meaning on byte arrays.** -/
theorem step_refines (h : k.Ok) (e : Event σ) (hfit : k.abs.Fits S e) :
    (k.step S e).2.Ok ∧ k.abs.step S e = ((k.step S e).1, (k.step S e).2.abs) := by
  cases e with
  | elsewhere s => exact ⟨h, rfl⟩
  | call pid c =>
    cases c with
    | «open» path flags => exact open_refines h path flags hfit
    | read fd buf len typed =>
      simp only [Machine.step, Posix.step, Task.syscall]
      by_cases h0 : fd = 0
      · rw [if_pos h0, if_pos h0]
        exact ⟨h.same k.fs, Prod.ext rfl (abs_same k.fs).symm⟩
      · rw [if_neg h0, if_neg h0]
        exact on_tracks h fun f hf hu _ => read_tracks hf hu buf len
    | write fd buf found =>
      simp only [Machine.step, Posix.step, Task.syscall]
      by_cases h0 : fd = 1 ∨ fd = 2
      · rw [if_pos h0, if_pos h0]
        exact ⟨h.same k.fs, Prod.ext rfl (abs_same k.fs).symm⟩
      · rw [if_neg h0, if_neg h0]
        exact on_tracks h fun f hf hu hat => write_tracks hf hu found (hfit _ hat)
    | lseek fd offset whence =>
      exact on_tracks h fun f hf hu hat => lseek_tracks hf hu offset whence (hfit _ hat)
    | close fd => exact on_refines h fun f hf _ _ => close_refines hf _ _

/-! ## What the calls promise -/

theorem statForWrite_proper (c : Cred) (s : σ) (path : Text) (wantCreat : Bool) :
    Proper (statForWrite S c s path wantCreat).1 := by
  have hstat := vfsStat_proper c s path (S := S)
  have hcreate := create_proper c s path (S := S)
  unfold statForWrite
  split
  · exact .ok _
  · exact .overrun
  rename_i sws text hs
  split
  · rw [hs] at hstat; exact hstat
  split
  · exact .errno (by decide) _
  split
  · exact .overrun
  · rename_i cr text' s' hc
    rw [hc] at hcreate
    split
    · exact hcreate.cast
    · exact vfsStat_proper c s' path
  · exact vfsStat_proper c _ path

theorem openData_proper (c : Cred) (s : σ) (path : Text) (flags : UInt32) : Proper (openData S c s path flags).1 := by
  have hstat := vfsStat_proper c s path (S := S)
  have hread := vfsReadFile_proper c s path (S := S)
  have hwrite := statForWrite_proper c s path (has flags O_CREAT) (S := S)
  unfold openData
  split
  · split
    · rename_i e he
      rw [he] at hstat
      exact hstat.cast
    split
    · exact .errno (by decide) _
    split
    · exact .errno (by decide) _
    split
    · rename_i e he
      rw [he] at hread
      exact hread.cast
    · exact .ok _
  · split
    · rename_i e s' he
      rw [he] at hwrite
      exact Proper.cast hwrite
    split
    · exact .errno (by decide) _
    split
    · exact .errno (by decide) _
    split
    · exact .ok _
    · exact .ok _

/-- What a descriptor starts with: what `vfs_read_file` delivers, or nothing; with O_APPEND the offset is at the end, and nothing
is there if `vfs_read_file` fails. -/
structure OpenFile.Starts (S : Sys σ) (c : Cred) (s : σ) (path : Text) (flags : UInt32) (f : OpenFile) : Prop where
  writable : f.writable = has flags O_WRONLY
  named : f.path = path.take (PUREUNIX_MAX_PATH - 1)
  readOnly : has flags O_WRONLY = false → S.vfsReadFile c s path = .ok f.contents ∧ f.readable = true ∧ f.offset = 0
  empty : has flags O_WRONLY = true → has flags O_APPEND = false → f.contents = [] ∧ f.offset = 0
  append : has flags O_WRONLY = true → has flags O_APPEND = true →
    f.contents = (S.vfsReadFile c s path).toOption.getD [] ∧ f.offset = f.contents.length

theorem openData_starts {c : Cred} {s s' : σ} {path : Text} {flags : UInt32} {data : Option Text}
    (h : openData S c s path flags = (.ok data, s')) : (FdEntry.opened path flags data).view.Starts S c s' path flags := by
  unfold openData at h
  by_cases hw : has flags O_WRONLY = false
  · rw [if_pos hw] at h
    refine ⟨rfl, rfl, fun _ => ?_, fun hc => absurd (hw.symm.trans hc) (by decide), fun hc => absurd (hw.symm.trans hc) (by decide)⟩
    split at h
    · cases h
    split at h
    · cases h
    split at h
    · cases h
    split at h
    · cases h
    · rename_i bytes hread
      cases h
      exact ⟨hread, rfl, by simp [FdEntry.opened, FdEntry.view, hw]⟩
  · rw [if_neg hw] at h
    rw [not_eq_false] at hw
    refine ⟨rfl, rfl, fun hc => absurd (hw.symm.trans hc) (by decide), fun _ ha => ?_, fun _ ha => ?_⟩ <;>
      simp only [ha, if_true, false_eq_true, if_false] at h
    all_goals
      split at h
      · cases h
      split at h
      · cases h
      split at h
      · cases h
      cases h
      simp [FdEntry.opened, FdEntry.view, hw, ha]

/-- SYS_OPEN fails with `-EMFILE` exactly when every slot is used, and otherwise opens the lowest free slot on what
`vfs_read_file` delivers. -/
theorem open_slot (k : Machine σ) (pid : Nat) (path : Text) (flags : UInt32) (hm : S.mounts ≠ []) :
    let r := k.step S (.call pid (.open (some path) flags))
    (r.1 = .code (-EMFILE) ↔ ∀ i : Fin MAX_OPEN_FILES, 3 ≤ i.val → (k.abs.files pid i).isSome) ∧
    ∀ fd : Nat, r.1 = .code fd → ∃ i : Fin MAX_OPEN_FILES, i.val = fd ∧ 3 ≤ fd ∧
      k.abs.files pid i = none ∧ (∀ j : Fin MAX_OPEN_FILES, 3 ≤ j.val → j < i → (k.abs.files pid j).isSome) ∧
      ∃ f, r.2.abs.files pid i = some f ∧ f.Starts S (k.tasks pid).cred r.2.fs path flags := by
  have hproper := openData_proper (k.tasks pid).cred k.fs path flags (S := S)
  simp only [Machine.step, Task.syscall, sysOpen]
  rw [if_neg hm, ← free_abs]
  cases hfree : k.abs.free pid with
  | none =>
    have hall := Fin.find?_eq_none_iff.1 hfree
    refine ⟨iff_of_true rfl fun i hi => ?_, fun fd he => ?_⟩
    · have := hall i
      simpa [hi, isSome_iff_ne_none] using this
    · simp only [Machine.after, Ret.code.injEq, EMFILE] at he
      omega
  | some i =>
    obtain ⟨hi, hlow⟩ := Fin.find?_eq_some_iff.1 hfree
    simp only [and_eq_true, decide_eq_true_eq, isNone_iff_eq_none] at hi
    have hnot : ¬ ∀ i : Fin MAX_OPEN_FILES, 3 ≤ i.val → (k.abs.files pid i).isSome := by
      intro hall
      have := hall i hi.1
      rw [hi.2] at this
      cases this
    generalize hop : openData S (k.tasks pid).cred k.fs path flags = r at hproper
    obtain ⟨res, s'⟩ := r
    cases res with
    | error e =>
      cases e with
      | errno rc text =>
        obtain ⟨hneg, hne⟩ := hproper rc text rfl
        refine ⟨iff_of_false (fun he => hne (Ret.code.inj he)) hnot, fun fd he => ?_⟩
        have := Ret.code.inj he
        omega
      | overrun => exact ⟨iff_of_false nofun hnot, nofun⟩
    | ok data =>
      refine ⟨iff_of_false (fun he => ?_) hnot, fun fd he => ?_⟩
      · have := Ret.code.inj he
        simp only [EMFILE] at this
        omega
      · have hfd : i.val = fd := by have := Ret.code.inj he; omega
        refine ⟨i, hfd, by omega, hi.2, fun j hj hji => ?_, _, ?_, openData_starts hop⟩
        · have := hlow j hji
          simpa [hj, isSome_iff_ne_none] using this
        · show (Machine.abs ⟨update k.tasks pid ((k.tasks pid).set i _), s'⟩).files pid i = _
          rw [abs_set]
          simp [Posix.set, FdEntry.file, FdEntry.opened]

/-- SYS_CLOSE frees the slot; for a writable file it hands `vfs_write_file` the path and the bytes. -/
theorem close_hands (h : k.Ok) {g : OpenFile} (hg : k.abs.fileAt pid fd = some g) :
    let r := k.step S (.call pid (.close fd))
    let wrote := S.finish "write failed" k.fs (S.vfsWriteFile (k.tasks pid).cred k.fs g.path g.contents 0)
    r.2.abs.fileAt pid fd = none ∧ (r.1, r.2.fs) = if g.writable then (codeOf wrote.1, wrote.2) else (.code 0, k.fs) := by
  intro r wrote
  obtain ⟨-, hstep⟩ := step_refines h (.call pid (.close fd)) trivial
  obtain ⟨i, hi, hfile⟩ := bind_eq_some_iff.1 hg
  have hon : k.abs.step S (.call pid (.close fd)) = ((Posix.close S (k.tasks pid).cred k.fs g).1,
      { k.abs.set pid i (Posix.close S (k.tasks pid).cred k.fs g).2.1 with fs := (Posix.close S (k.tasks pid).cred k.fs g).2.2 }) := by
    simp only [Posix.step, Posix.on, hi, bind_some, hfile, map_some]
    rfl
  rw [hon] at hstep
  have hret : r.1 = _ := (congrArg Prod.fst hstep).symm
  have habs : r.2.abs = _ := (congrArg Prod.snd hstep).symm
  have hfs : r.2.fs = _ := congrArg Posix.fs habs
  rw [hret, hfs, habs, Posix.fileAt, hi]
  unfold Posix.close
  split
  · simp [Posix.set, wrote, writeBack]
  · simp [Posix.set]

def Syscall.fd? : Syscall → Option Int
  | .open .. => none
  | .read fd .. => some fd
  | .write fd .. => some fd
  | .lseek fd .. => some fd
  | .close fd => some fd

def Event.On (pid : Nat) (i : Fin MAX_OPEN_FILES) : Event σ → Prop
  | .call p c => p = pid ∧ c.fd?.bind slotOf = some i
  | .elsewhere _ => False

theorem Posix.set_files_ne {a : Posix σ} {p : Nat} {j : Fin MAX_OPEN_FILES} {f : Option OpenFile} (h : ¬ (p = pid ∧ j = i)) :
    (a.set p j f).files pid i = a.files pid i := by
  unfold Posix.set
  by_cases hp : pid = p
  · subst hp
    have hj : i ≠ j := fun he => h ⟨rfl, he.symm⟩
    simp [hj]
  · simp [hp]

/-- An event leaves every open file alone that it does not name. -/
theorem step_frame (a : Posix σ) (e : Event σ) (i : Fin MAX_OPEN_FILES) {f : OpenFile} (hf : a.files pid i = some f)
    (he : ¬ e.On pid i) : (a.step S e).2.files pid i = some f := by
  have hon : ∀ {p : Nat} {fd : Int} {act : OpenFile → Ret × Option OpenFile × σ}, ¬ (p = pid ∧ slotOf fd = some i) →
      (a.on p fd act).2.files pid i = some f := by
    intro p fd act hne
    unfold Posix.on
    cases hj : slotOf fd with
    | none => exact hf
    | some j =>
      rw [bind_some]
      cases hg : a.files p j with
      | none => exact hf
      | some g =>
        refine (Posix.set_files_ne fun hc => hne ⟨hc.1, ?_⟩).trans hf
        rw [hj, hc.2]
  cases e with
  | elsewhere s => exact hf
  | call p c =>
    cases c with
    | «open» path flags =>
      simp only [Posix.step, Posix.openFile]
      split
      · exact hf
      split
      · exact hf
      split
      · exact hf
      rename_i j hj
      split
      · exact hf
      · exact hf
      · refine (Posix.set_files_ne ?_).trans hf
        rintro ⟨rfl, rfl⟩
        have := (Fin.find?_eq_some_iff.1 hj).1
        simp [hf] at this
    | read fd buf len typed =>
      simp only [Posix.step]
      split
      · exact hf
      · exact hon he
    | write fd buf found =>
      simp only [Posix.step]
      split
      · exact hf
      · exact hon he
    | lseek fd offset whence => exact hon he
    | close fd => exact hon he

/-- **Descriptors are buffered files.** Every run is a run of the machine of byte arrays. SYS_OPEN gives out the lowest free slot
with what `vfs_read_file` delivers, SYS_CLOSE hands the bytes to `vfs_write_file`, and no call changes a file it does not name. -/
theorem descriptors_are_buffered_files (h : k.Ok) (events : List (Event σ))
    (hfit : Along (Posix.step S) (Posix.Fits S) k.abs events) :
    let k' := (runs (Machine.step S) k events).2
    runs (Posix.step S) k.abs events = ((runs (Machine.step S) k events).1, k'.abs) ∧
    (∀ pid path flags, S.mounts ≠ [] →
      let r := k'.step S (.call pid (.open (some path) flags))
      (r.1 = .code (-EMFILE) ↔ ∀ i : Fin MAX_OPEN_FILES, 3 ≤ i.val → (k'.abs.files pid i).isSome) ∧
      ∀ fd : Nat, r.1 = .code fd → ∃ i : Fin MAX_OPEN_FILES, i.val = fd ∧ 3 ≤ fd ∧
        k'.abs.files pid i = none ∧ (∀ j : Fin MAX_OPEN_FILES, 3 ≤ j.val → j < i → (k'.abs.files pid j).isSome) ∧
        ∃ f, r.2.abs.files pid i = some f ∧ f.Starts S (k'.tasks pid).cred r.2.fs path flags) ∧
    (∀ pid fd f, k'.abs.fileAt pid fd = some f →
      let r := k'.step S (.call pid (.close fd))
      let wrote := S.finish "write failed" k'.fs (S.vfsWriteFile (k'.tasks pid).cred k'.fs f.path f.contents 0)
      r.2.abs.fileAt pid fd = none ∧ (r.1, r.2.fs) = if f.writable then (codeOf wrote.1, wrote.2) else (.code 0, k'.fs)) ∧
    ∀ (e : Event σ) pid i f, k'.abs.files pid i = some f → ¬ e.On pid i → (k'.abs.step S e).2.files pid i = some f := by
  have hstep : ∀ (k : Machine σ) (e : Event σ), k.Ok → k.abs.Fits S e →
      (k.step S e).2.Ok ∧ k.abs.step S e = ((k.step S e).1, (k.step S e).2.abs) := fun k e hk he => step_refines hk e he
  obtain ⟨hok, hruns⟩ := runs_refine hstep h hfit
  exact ⟨hruns, fun pid path flags hm => open_slot _ pid path flags hm, fun pid fd f hf => close_hands hok hf,
    fun e pid i f hf he => step_frame _ e i hf he⟩

end

/-- The file "/f", which everybody may use; its driver takes every write. -/
def oneFileSys : Sys Unit := plainSys (fun _ p => if p = [slash] then some (rootOwned .dir 0o40755)
    else if p = [slash, 102] then some (rootOwned .file 0o100666) else none) (by
  intro s st h
  cases h
  decide)

def idle {σ : Type} (c : Cred) (s : σ) : Machine σ := ⟨fun _ => ⟨fun _ => .clear, c⟩, s⟩

theorem idle_ok {σ : Type} (c : Cred) (s : σ) : (idle c s).Ok := fun _ _ => ok_clear

/-- Two bytes, a seek to offset 4 and a third byte: the gap reads as zeros. -/
def gapEvents : List (Event Unit) :=
  [.call 0 (.open (some [slash, 102]) O_WRONLY), .call 0 (.write 3 (some [1, 2]) true), .call 0 (.lseek 3 4 0),
    .call 0 (.write 3 (some [3]) true), .call 0 (.lseek 3 0 0), .call 0 (.read 3 true 9 [])]

theorem descriptors_are_buffered_files_gap :
    (runs (Machine.step oneFileSys) (idle ⟨1000, 1000⟩ ()) gapEvents).1 = [.code 3, .code 2, .code 4, .code 1, .code 0, .bytes [1, 2, 0, 0, 3]] ∧
    runs (Posix.step oneFileSys) (idle ⟨1000, 1000⟩ ()).abs gapEvents =
      ((runs (Machine.step oneFileSys) (idle ⟨1000, 1000⟩ ()) gapEvents).1,
        (runs (Machine.step oneFileSys) (idle ⟨1000, 1000⟩ ()) gapEvents).2.abs) :=
  ⟨by decide +kernel, (descriptors_are_buffered_files (idle_ok _ _) gapEvents (by decide +kernel)).1⟩

end PureUnix.Kernel
