import Mathlib
import PureUnix.Kernel.HeapSizes
import PureUnix.Kernel.Posix

/-!
# Offsets of descriptors

SYS_WRITE adds the offset and the length in 32 bits and hands the sum to `kmalloc`, which rounds it up in 32 bits.
SYS_LSEEK adds `int`s. Offsets stay below 2^31, so a seek cannot wrap unnoticed; a write can.
-/
namespace PureUnix.Kernel

open Lib Vfs List Nat Option

variable {fd : Int}

/-! ## One write -/

/-- The write is refused and the descriptor stays, or the offset grows by the length, up to which the buffer reaches. -/
def WriteSound (r : Ret × FdEntry) (f : FdEntry) (len : Nat) : Prop :=
  (∃ e < 0, r = (.code e, f)) ∨ (r.1 = .code len ∧ r.2.offset = f.offset + len ∧ f.offset + len ≤ r.2.size ∧
    f.offset + len ≤ (r.2.data.getD []).length)

/-- The sum does not wrap, not even when it is rounded up; or it has, and there is no memory for what it has become. -/
def FdEntry.SumFits (found : Bool) (len : Nat) (f : FdEntry) : Prop :=
  f.offset + len ≤ 0xFFFFFFF8 ∨ (f.size < (f.offset + len) % 2 ^ 32 ∧ found = false)

/-- An empty write is not past the end, and any other one has a sum that fits. -/
def FdEntry.WriteFits (found : Bool) (buf : Option Text) (f : FdEntry) : Prop :=
  has f.flags O_WRONLY = true → ∀ b ∈ buf, if b.length = 0 then f.offset ≤ f.size else f.SumFits found b.length

instance (found : Bool) (len : Nat) (f : FdEntry) : Decidable (f.SumFits found len) :=
  inferInstanceAs (Decidable (_ ∨ _))

instance (found : Bool) (buf : Option Text) (f : FdEntry) : Decidable (f.WriteFits found buf) :=
  inferInstanceAs (Decidable (_ → ∀ b ∈ buf, if b.length = 0 then f.offset ≤ f.size else f.SumFits found b.length))

section
variable {f : FdEntry} {found : Bool}

/-- **A write keeps its promise exactly when its sum fits.** -/
theorem write_sound_iff (h : f.Ok) (buf : Option Text) :
    WriteSound (f.write found buf) f (buf.getD []).length ↔ f.WriteFits found buf := by
  have hr := FdEntry.written h.size (.inl h.size_lt) found buf
  have hsize := h.size
  have hfits : ∀ b : Text, has f.flags O_WRONLY = true →
      (f.WriteFits found (some b) ↔ if b.length = 0 then f.offset ≤ f.size else f.SumFits found b.length) := by
    intro b hw
    simp only [FdEntry.WriteFits, hw, mem_some_iff, forall_eq', true_implies]
  generalize f.write found buf = r at hr
  cases hr with
  | readOnly hw => exact iff_of_true (.inl ⟨-EBADF, by decide, rfl⟩) fun h => absurd (hw.symm.trans h) (by decide)
  | null => exact iff_of_true (.inl ⟨-EINVAL, by decide, rfl⟩) fun _ b hb => absurd hb (by simp)
  | empty hw hb =>
    rw [hfits _ hw, if_pos hb, getD_some, hb]
    constructor
    · rintro (⟨e, he, hr⟩ | ⟨-, -, hle, -⟩)
      · cases hr
        exact absurd he (by decide)
      · exact hle
    · intro hle
      exact .inr ⟨rfl, rfl, hle, by dsimp only; omega⟩
  | full hw hb hgrow hfound =>
    rw [hfits _ hw, if_neg hb]
    exact iff_of_true (.inl ⟨-ENOSPC, by decide, rfl⟩) (.inr ⟨hgrow, hfound⟩)
  | wrote hw hb hsum =>
    rw [hfits _ hw, if_neg hb]
    refine iff_of_true (.inr ⟨rfl, rfl, le_max_right .., ?_⟩) (.inl hsum)
    dsimp only [getD_some]
    rw [length_overlay]
    exact le_max_right ..
  | wrapped hw hb hsum hgrow =>
    rw [hfits _ hw, if_neg hb]
    refine iff_of_false ?_ ?_
    · rintro (⟨e, -, he⟩ | ⟨hr, -⟩)
      · cases he
      · cases hr
    · rintro (hle | ⟨hlt, hf⟩)
      · omega
      · rw [hgrow hlt] at hf
        cases hf

/-! ## One seek -/

theorem seek_ok (h : f.Ok) (offset : Int32) (whence : Int) : (f.lseek offset whence).2.Ok := by
  have hsound := seek_sound h offset whence
  unfold SeekSound at hsound
  split at hsound
  · rw [hsound]
    exact h
  split at hsound
  · rw [hsound]
    refine ⟨h.size, h.size_lt, ?_⟩
    dsimp only
    omega
  · rw [hsound]
    exact h

/-- A write keeps the numbers small, as the heap has no block of 2 GiB. -/
theorem write_ok (h : f.Ok) {buf : Option Text}
    (hheap : ∀ block ∈ kmalloc found ((f.offset + (buf.getD []).length) % 2 ^ 32), block ≤ HEAP_SIZE) :
    (f.write found buf).2.Ok := by
  have hr := FdEntry.written h.size (.inl h.size_lt) found buf
  generalize f.write found buf = r at hr
  cases hr with
  | @wrote b _ hb hsum hgrow =>
    have hmax : HEAP_SIZE = 8388608 := rfl
    have hlt := h.size_lt
    rw [getD_some, mod_eq_of_lt (by omega)] at hheap
    have hend : f.offset + b.length < 2 ^ 31 := by
      by_cases hlong : f.size < f.offset + b.length
      · have := hheap _ (if_neg (by rw [hgrow hlong]; simpa using fun _ => hb))
        omega
      · omega
    refine ⟨?_, Nat.max_lt.2 ⟨hlt, hend⟩, hend⟩
    dsimp only [getD_some]
    rw [length_overlay, h.size]
  | _ => exact h

end

/-! ## Every run -/

section
variable {σ : Type} (S : Sys σ)

def Machine.entryAt (k : Machine σ) (pid : Nat) (fd : Int) : Option FdEntry :=
  (slotOf fd).bind fun i => if ((k.tasks pid).fds i).used then some ((k.tasks pid).fds i) else none

/-- Memory comes from the heap: a block that is found lies in it, and so does a file that is delivered. -/
def Machine.Backed (k : Machine σ) : Event σ → Prop
  | .call pid (.write fd buf found) => ∀ f ∈ k.entryAt pid fd,
      ∀ block ∈ kmalloc found ((f.offset + (buf.getD []).length) % 2 ^ 32), block ≤ HEAP_SIZE
  | .call pid (.open (some path) flags) =>
      ∀ data ∈ (openData S (k.tasks pid).cred k.fs path flags).1.toOption.join, data.length ≤ HEAP_SIZE
  | _ => True

/-- In a clean heap the `kmalloc` of the heap finds a block as large as the one of the file calls. -/
theorem heap_backs {start n ptr : Nat} {s : Heap.HeapState} {bs : List Block} (h : Heap.Clean start s bs) {m : Buf}
    (hrun : Heap.kmalloc start n s.memory = some (ptr, m)) :
    ∀ block ∈ kmalloc (decide (ptr ≠ 0)) n, block ≤ Heap.blockSize m (Heap.blockOf ptr) ∧ block ≤ HEAP_SIZE := by
  intro block hblock
  obtain ⟨ptr', m', bs', hrun', hclean, hroom⟩ := h.kmalloc n
  obtain ⟨rfl, rfl⟩ := Prod.mk.inj (Option.some.inj (hrun.symm.trans hrun'))
  unfold kmalloc at hblock
  split at hblock
  · cases hblock
  next hfound =>
  obtain rfl : Heap.align8 n = block := Option.some.inj hblock
  obtain ⟨k, hk, rfl, hle⟩ := hroom (by simpa using fun h0 => hfound (.inr (by simpa using h0)))
  have hsize := hclean.laid.size_le hk
  rw [hclean.laid.blockOf_eq hk, hclean.laid.size_eq hk]
  exact ⟨hle, by omega⟩

/-- A write whose memory is asked of a clean heap is backed. -/
theorem Machine.backed_of_heap {start ptr : Nat} {s : Heap.HeapState} {bs : List Block} (h : Heap.Clean start s bs) {m : Buf}
    {k : Machine σ} {pid : Nat} {buf : Option Text} (hrun : ∀ f ∈ k.entryAt pid fd,
      Heap.kmalloc start ((f.offset + (buf.getD []).length) % 2 ^ 32) s.memory = some (ptr, m)) :
    k.Backed S (.call pid (.write fd buf (decide (ptr ≠ 0)))) :=
  fun f hf block hblock => (heap_backs h (hrun f hf) block hblock).2

/-- Every write has a sum that fits. -/
def Machine.WritesFit (k : Machine σ) : Event σ → Prop
  | .call pid (.write fd buf found) => ∀ f ∈ k.entryAt pid fd, f.WriteFits found buf
  | _ => True

instance (k : Machine σ) (e : Event σ) : Decidable (k.Backed S e) := by
  rcases e with ⟨pid, c⟩ | fs
  · rcases c with ⟨_ | path, flags⟩ | _ <;> dsimp only [Machine.Backed] <;> infer_instance
  · exact instDecidableTrue

instance (k : Machine σ) (e : Event σ) : Decidable (k.WritesFit e) := by
  rcases e with ⟨pid, c⟩ | fs
  · cases c <;> dsimp only [Machine.WritesFit] <;> infer_instance
  · exact instDecidableTrue

variable {S} {k : Machine σ} {pid : Nat}

theorem Machine.entryAt_ok (h : k.Ok) {f : FdEntry} (hf : f ∈ k.entryAt pid fd) : f.Ok := by
  obtain ⟨i, -, hi⟩ := bind_eq_some_iff.1 hf
  split at hi
  · obtain rfl := Option.some.inj hi
    exact h pid i
  · cases hi

/-- A call on a descriptor: refused, or the call on its entry. -/
theorem Machine.on_cases (k : Machine σ) (pid : Nat) (fd : Int) (act : FdEntry → Ret × FdEntry × σ) :
    (k.entryAt pid fd = none ∧ (k.tasks pid).on k.fs fd act = (.code (-EBADF), k.tasks pid, k.fs)) ∨
    ∃ i, slotOf fd = some i ∧ k.entryAt pid fd = some ((k.tasks pid).fds i) ∧ (k.tasks pid).on k.fs fd act =
        ((act ((k.tasks pid).fds i)).1, (k.tasks pid).set i (act ((k.tasks pid).fds i)).2.1, (act ((k.tasks pid).fds i)).2.2) := by
  unfold Task.on Machine.entryAt
  cases hi : slotOf fd with
  | none => exact .inl ⟨rfl, rfl⟩
  | some i =>
    cases hu : ((k.tasks pid).fds i).used with
    | false => exact .inl ⟨by simp [hu], by simp [hu]⟩
    | true => exact .inr ⟨i, rfl, by simp [hu], by simp [hu]⟩

theorem Machine.Ok.on (h : k.Ok) {act : FdEntry → Ret × FdEntry × σ}
    (hact : ∀ f ∈ k.entryAt pid fd, (act f).2.1.Ok) : (k.after pid ((k.tasks pid).on k.fs fd act)).2.Ok := by
  rcases k.on_cases pid fd act with ⟨-, hrun⟩ | ⟨i, -, hi, hrun⟩
  · rw [hrun]
    exact h.same k.fs
  · rw [hrun]
    exact h.set (hact _ hi) _

/-- **One event keeps the numbers small.** -/
theorem step_small (h : k.Ok) (e : Event σ) (hback : k.Backed S e) : (k.step S e).2.Ok := by
  have hmax : HEAP_SIZE = 8388608 := rfl
  cases e with
  | elsewhere s => exact h
  | call pid c =>
    cases c with
    | «open» path flags =>
      refine (step_refines h (.call pid (.open path flags)) ?_).1
      cases path with
      | none => trivial
      | some path =>
        intro data hdata
        have := hback data hdata
        omega
    | read fd buf len typed => exact (step_refines h (.call pid (.read fd buf len typed)) trivial).1
    | write fd buf found =>
      simp only [Machine.step, Task.syscall]
      split
      · exact h.same k.fs
      · exact h.on fun f hf => write_ok (Machine.entryAt_ok h hf) (hback f hf)
    | lseek fd offset whence => exact h.on fun f hf => seek_ok (Machine.entryAt_ok h hf) offset whence
    | close fd => exact (step_refines h (.call pid (.close fd)) trivial).1

/-! ## What the calls promise -/

/-- SYS_WRITE: a negative code and nothing changed, or an entry as `WriteSound` says. -/
def Machine.WriteKeeps (S : Sys σ) (k : Machine σ) (pid : Nat) (fd : Int) (buf : Option Text) (found : Bool) : Prop :=
  let r := (k.tasks pid).syscall S k.fs (.write fd buf found)
  (∃ e < 0, r.1 = .code e ∧ r.2.1 = k.tasks pid) ∨
    ∃ i ∈ slotOf fd, WriteSound (r.1, r.2.1.fds i) ((k.tasks pid).fds i) (buf.getD []).length

/-- SYS_LSEEK on an open descriptor goes as `SeekSound` says. -/
def Machine.SeekKeeps (S : Sys σ) (k : Machine σ) (pid : Nat) (fd : Int) (offset : Int32) (whence : Int) : Prop :=
  let r := (k.tasks pid).syscall S k.fs (.lseek fd offset whence)
  (k.entryAt pid fd = none ∧ r.1 = .code (-EBADF) ∧ r.2.1 = k.tasks pid) ∨
    ∃ i ∈ slotOf fd, SeekSound (r.1, r.2.1.fds i) ((k.tasks pid).fds i) offset whence

theorem Task.set_fds (t : Task) (i : Fin MAX_OPEN_FILES) (f : FdEntry) : (t.set i f).fds i = f := Function.update_self ..

theorem writeKeeps_iff (h : k.Ok) (hfd : 3 ≤ fd) (buf : Option Text) (found : Bool) :
    k.WriteKeeps S pid fd buf found ↔ k.WritesFit (.call pid (.write fd buf found)) := by
  have hscreen : ¬ (fd = 1 ∨ fd = 2) := by omega
  simp only [Machine.WriteKeeps, Machine.WritesFit, Task.syscall, if_neg hscreen]
  rcases k.on_cases pid fd fun f => ((f.write found buf).1, (f.write found buf).2, k.fs) with
    ⟨hnone, hrun⟩ | ⟨i, hslot, hentry, hrun⟩
  · rw [hrun, hnone]
    exact iff_of_true (.inl ⟨-EBADF, by decide, rfl, rfl⟩) fun f hf => absurd hf (by simp)
  rw [hrun, hentry, hslot]
  simp only [mem_some_iff, exists_eq_left', forall_eq', Task.set_fds]
  rw [← write_sound_iff (h pid i)]
  constructor
  · rintro (⟨e, he, hcode, hset⟩ | hsound)
    · have hsame := congrArg (fun t => Task.fds t i) hset
      simp only [Task.set_fds] at hsame
      exact .inl ⟨e, he, Prod.ext hcode hsame⟩
    · exact hsound
  · exact .inr

theorem seekKeeps (h : k.Ok) (fd : Int) (offset : Int32) (whence : Int) : k.SeekKeeps S pid fd offset whence := by
  simp only [Machine.SeekKeeps, Task.syscall]
  rcases k.on_cases pid fd fun f => ((f.lseek offset whence).1, (f.lseek offset whence).2, k.fs) with
    ⟨hnone, hrun⟩ | ⟨i, hslot, hentry, hrun⟩
  · rw [hrun]
    exact .inl ⟨hnone, rfl, rfl⟩
  · rw [hrun, hslot]
    refine .inr ⟨i, rfl, ?_⟩
    simp only [Task.set_fds]
    exact seek_sound (h pid i) offset whence

/-- **A write's offset cannot wrap exactly when its sum fits, and a seek's never does**, in every state reached by calls whose
writes fit. -/
theorem offsets_iff (S : Sys σ) (k : Machine σ) (h : k.Ok) (events : List (Event σ))
    (hrun : Along (Machine.step S) (fun k e => k.Backed S e ∧ k.WritesFit e) k events) (pid : Nat) (fd : Int) (hfd : 3 ≤ fd) :
    let k' := (runs (Machine.step S) k events).2
    (∀ buf found, k'.WriteKeeps S pid fd buf found ↔ k'.WritesFit (.call pid (.write fd buf found))) ∧
    ∀ offset whence, k'.SeekKeeps S pid fd offset whence := by
  have hstep : ∀ (k : Machine σ) (e : Event σ), k.Ok → k.Backed S e ∧ k.WritesFit e → (k.step S e).2.Ok :=
    fun k e hk he => step_small hk e he.1
  have hok := runs_invariant hstep h hrun
  exact ⟨writeKeeps_iff hok hfd, seekKeeps hok fd⟩

end

/-- After the gap has been written, a byte goes to its end, and a seek to 2^31 - 1 and one beyond are answered. -/
theorem offsets_iff_gap :
    let k := (runs (Machine.step oneFileSys) (idle ⟨1000, 1000⟩ ()) gapEvents).2
    k.WriteKeeps oneFileSys 0 3 (some [4]) true ∧ k.SeekKeeps oneFileSys 0 3 0x7FFFFFFF 0 ∧ k.SeekKeeps oneFileSys 0 3 0x7FFFFFFF 1 := by
  obtain ⟨hwrite, hseek⟩ := offsets_iff oneFileSys (idle ⟨1000, 1000⟩ ()) (idle_ok _ _) gapEvents (by decide +kernel) 0 3 (by decide)
  exact ⟨(hwrite _ _).2 (by decide +kernel), hseek _ _, hseek _ _⟩

/-- A file is opened for writing, and its descriptor sent to 2^31 - 1. -/
def farSeek : List (Event Unit) := [.call 0 (.open (some [slash, 102]) O_WRONLY), .call 0 (.lseek 3 0x7FFFFFFF 0)]

/-- Then 2^31 + 1 bytes are written: the sum wraps to 0, no memory is asked for, and the bytes go 2 GiB behind a null pointer.
A write of no bytes is answered with 0, 2 GiB past the end. -/
theorem write_offset_wraps :
    let k := (runs (Machine.step oneFileSys) (idle ⟨1000, 1000⟩ ()) farSeek).2
    ∀ found, (∀ b : Text, b.length = 0x80000001 → ¬ k.WriteKeeps oneFileSys 0 3 (some b) found) ∧
      ¬ k.WriteKeeps oneFileSys 0 3 (some []) found := by
  intro k found
  have hstep : ∀ (k : Machine Unit) (e : Event Unit), k.Ok → k.Backed oneFileSys e → (k.step oneFileSys e).2.Ok :=
    fun k e hk he => step_small hk e he
  have hok : k.Ok := runs_invariant hstep (idle_ok _ _) (show Along _ _ _ farSeek by decide +kernel)
  have hentry : k.entryAt 0 3 = some ⟨true, O_WRONLY, [slash, 102], none, 0, 0x7FFFFFFF⟩ := by decide +kernel
  constructor
  · intro b hb
    rw [writeKeeps_iff hok (by decide)]
    intro hfits
    have hsum := hfits _ hentry rfl b rfl
    rw [FdEntry.SumFits, hb] at hsum
    simp at hsum
  · rw [writeKeeps_iff hok (by decide)]
    intro hfits
    have hend := hfits _ hentry rfl _ rfl
    rw [if_pos length_nil] at hend
    exact absurd hend (by decide)

end PureUnix.Kernel
