import PureUnix.Kernel.Posix

/-!
# Opening for append

SYS_OPEN with O_WRONLY|O_APPEND, any number of SYS_WRITE calls and SYS_CLOSE. The old contents are fetched by a
`vfs_read_file` whose result nobody looks at, and the path the descriptor is written back to is cut to 255 bytes.
`append_keeps_iff` says exactly when the file ends up with the old contents and the new ones behind.
-/
namespace PureUnix.Kernel

open Lib Vfs List Option Function
open Prod (ext fst mk)
open Machine (step)

/-! ## Files -/

/-- What the drivers keep. A regular file has a number, the same under all its names. A successful read delivers
the contents. A successful write leaves as many bytes as it was given, the very bytes where the driver stores
them faithfully (`lossless`), and no other file changes; the file written is a new one unless the name was one of
its names. -/
structure Contents {σ : Type} (S : Sys σ) where
  file : σ → Mount → Text → Option Nat
  contents : σ → Nat → Text
  lossless : σ → Mount → Text → Text → Prop
  read : ∀ {s m sub id f data}, file s m sub = some id → (S.ops m).readFile = some f → f s sub = some data → data = contents s id
  write : ∀ {s m sub data s'}, S.perform ⟨m, .writeFile sub data 0⟩ s = (0, s') → ∃ id, file s' m sub = some id ∧
    (contents s' id).length = data.length ∧ (contents s' id = data ↔ lossless s m sub data) ∧
    (∀ m' sub' id', file s m' sub' = some id' → file s' m' sub' = some id') ∧
    (∀ m' sub', file s m' sub' = some id → file s m sub = some id) ∧
    ∀ m' sub' id', file s m' sub' = some id' → id' ≠ id → contents s' id' = contents s id'

section
variable {σ : Type} {S : Sys σ} {c : Cred} {s : σ} {data w : Text} {found : Bool}

/-- The mount and the path in it that `path` leads to. -/
def target (S : Sys σ) (c : Cred) (s : σ) (path : Text) : Option (Mount × Text) :=
  match resolvePath (S.view s) c path true with
  | some (.ok r) => S.dispatch r
  | _ => none

/-- When `new` ends up behind the contents of file `id`, opened as `path`: if the path as cut still leads to the
file, the old contents were delivered (or there were none) and the driver stores the result; if it leads elsewhere,
there was nothing to append. -/
def Kept (K : Contents S) (c : Cred) (s : σ) (path : Text) (id : Nat) (new : Text) : Prop :=
  ∃ m sub, target S c s (path.take (PUREUNIX_MAX_PATH - 1)) = some (m, sub) ∧
    ((K.file s m sub = some id ∧ ((S.vfsReadFile c s path).toOption.isSome ∨ K.contents s id = []) ∧
        K.lossless s m sub (K.contents s id ++ new)) ∨
      (K.file s m sub ≠ some id ∧ new = []))

theorem Contents.read_file (K : Contents S) {path sub : Text} {m : Mount} {id : Nat}
    (ht : target S c s path = some (m, sub)) (hf : K.file s m sub = some id) (h : S.vfsReadFile c s path = .ok data) :
    data = K.contents s id := by
  obtain ⟨r, hr, h⟩ := except_bind_ok.1 h
  have hres := (Sys.resolve_ok hr).outcome
  unfold target at ht
  rw [hres] at ht
  dsimp only at ht
  split at h
  · cases h
  split at h
  · cases h
  rw [ht] at h
  dsimp only at h
  split at h
  · cases h
  rename_i f hop
  split at h
  · cases h
  rename_i d hd
  cases h
  exact K.read hf hop hd

/-- Writing a file succeeds only through one write of a driver. -/
theorem finish_ok {path : Text} {flags : UInt32} {text : String}
    (h : codeOf (S.finish text s (S.vfsWriteFile c s path data flags)).1 = .code 0) :
    ∃ m sub, target S c s path = some (m, sub) ∧ S.perform ⟨m, .writeFile sub data flags⟩ s =
      (0, (S.finish text s (S.vfsWriteFile c s path data flags)).2) := by
  have hproper := vfsWriteFile_proper c s path data flags (S := S)
  cases hp : S.vfsWriteFile c s path data flags with
  | error e =>
    rw [hp] at h hproper
    cases e with
    | errno rc text =>
      have hneg := (hproper rc text rfl).1
      simp only [Sys.finish, codeOf, Ret.code.injEq] at h
      omega
    | overrun => cases h
  | ok call =>
    have haim : ∃ r, Resolved S c s path true r ∧ Aims S r (.writeFile · data flags) call := by
      have hplan : S.plan c s (.writeFile path data flags) = .ok call := hp
      cases plan_mediated hplan with
      | overwrite hr _ _ ha => exact ⟨_, hr, ha⟩
      | newFile hr _ _ ha => exact ⟨_, hr, ha⟩
    obtain ⟨r, hr, m, hm, rfl⟩ := haim
    refine ⟨m, mountRelative m r, ?_, ?_⟩
    · unfold target Sys.dispatch
      rw [hr.outcome]
      dsimp only
      rw [hm, map_some, take_of_length_le (mountRelative_length m hr.length)]
    · rw [hp] at h
      simp only [Sys.finish] at h ⊢
      refine ext ?_ rfl
      by_contra hne
      rw [if_pos hne] at h
      simp only [Vfs.fail, codeOf, Ret.code.injEq] at h
      split at h
      · omega
      · exact absurd h (by decide)

/-! ## The descriptor while it is appended to -/

/-- A descriptor opened for append, with `bytes` in its buffer and the offset at their end. -/
structure Appending (path : Text) (bytes : Text) (f : FdEntry) : Prop where
  used : f.used = true
  flags : f.flags = O_WRONLY ||| O_APPEND
  path : f.path = path.take (PUREUNIX_MAX_PATH - 1)
  data : f.data.getD [] = bytes
  size : f.size = bytes.length
  offset : f.offset = bytes.length

theorem Appending.opened (path : Text) (data : Option Text) :
    Appending path (data.getD []) (.opened path (O_WRONLY ||| O_APPEND) data) := ⟨rfl, rfl, rfl, rfl, rfl, rfl⟩

theorem Appending.write {path : Text} {bytes : Text} {f f' : FdEntry} (h : Appending path bytes f)
    (hw : f.write found (some w) = (.code w.length, f')) : Appending path (bytes ++ w) f' := by
  have hr := FdEntry.written (by rw [h.data, h.size]) (.inr (h.size.trans h.offset.symm).le) found (some w)
  rw [hw] at hr
  generalize hret : (Ret.code w.length, f') = r at hr
  cases hr with
  | readOnly hflag => exact absurd hflag (by rw [h.flags]; decide)
  | empty _ h0 =>
    obtain ⟨-, rfl⟩ := mk.inj hret
    rw [length_eq_zero_iff.1 h0, append_nil]
    exact h
  | full => cases hret
  | wrote =>
    cases hret
    refine ⟨h.used, h.flags, h.path, ?_, ?_, ?_⟩
    · rw [h.data, h.offset, getD_some, overlay, drop_of_length_le (by omega)]
      simp
    · rw [h.size, h.offset, Nat.max_eq_right (by omega), length_append]
    · rw [h.offset, length_append]
  | wrapped => cases hret

/-- The calls of a list of writes, each with the luck of its `kmalloc`. -/
def writesOf (pid : Nat) (fd : Int) (ws : List (Text × Bool)) : List (Event σ) :=
  ws.map fun w => .call pid (.write fd (some w.1) w.2)

/-- Task `pid` has descriptor `i` open for append on `path`, with `bytes` in it. -/
structure AppendingAt (pid : Nat) (i : Fin MAX_OPEN_FILES) (c : Cred) (s : σ) (path : Text) (bytes : Text) (k : Machine σ) :
    Prop where
  entry : Appending path bytes ((k.tasks pid).fds i)
  cred : (k.tasks pid).cred = c
  fs : k.fs = s

variable {pid : Nat} {i : Fin MAX_OPEN_FILES} {k k' : Machine σ} {path : Text} {bytes : Text}

theorem slotOf_val (h : 3 ≤ i.val) : slotOf i.val = some i := by
  unfold slotOf
  rw [dif_pos ⟨by omega, by omega⟩]
  simp

section
variable (h : AppendingAt pid i c s path bytes k)
include h

theorem AppendingAt.on (hi : 3 ≤ i.val) (act : FdEntry → Ret × FdEntry × σ) :
    (k.tasks pid).on k.fs i.val act = ((act ((k.tasks pid).fds i)).1,
      (k.tasks pid).set i (act ((k.tasks pid).fds i)).2.1, (act ((k.tasks pid).fds i)).2.2) := by
  unfold Task.on
  rw [slotOf_val hi]
  dsimp only
  rw [if_neg (by rw [h.entry.used]; decide)]

theorem AppendingAt.write (hi : 3 ≤ i.val) (hs : k.step S (.call pid (.write i.val (some w) found)) = (.code w.length, k')) :
    AppendingAt pid i c s path (bytes ++ w) k' := by
  simp only [step, Task.syscall] at hs
  rw [if_neg (by omega), h.on hi] at hs
  obtain ⟨hret, rfl⟩ := mk.inj hs
  refine ⟨?_, ?_, h.fs⟩
  · simp only [update_self, Task.set]
    exact h.entry.write (ext hret rfl)
  · simp only [update_self, Task.set]
    exact h.cred

/-- **Every run of writes that return their lengths.** -/
theorem AppendingAt.writes (hi : 3 ≤ i.val) {ws : List (Text × Bool)}
    (hs : runs (step S) k (writesOf pid i.val ws) = (ws.map fun w => .code w.1.length, k')) :
    AppendingAt pid i c s path (bytes ++ (ws.map fst).flatten) k' := by
  induction ws generalizing k bytes with
  | nil =>
    obtain ⟨-, rfl⟩ := mk.inj hs
    simpa using h
  | cons w ws ih =>
    obtain ⟨hans, hlast⟩ := mk.inj hs
    obtain ⟨hret, hrest⟩ := cons.inj hans
    have hstep := h.write hi (ext hret rfl)
    have := ih hstep (ext hrest hlast)
    simpa [append_assoc] using this

end

theorem statForWrite_ok {st : Stat} {s' : σ} (h : statForWrite S c s path false = (.ok st, s')) : s' = s := by
  unfold statForWrite at h
  split at h
  · exact (mk.inj h).2.symm
  · cases (mk.inj h).1
  split at h
  · cases (mk.inj h).1
  · cases (mk.inj h).1

theorem openData_append {data : Option Text} {s' : σ} (h : openData S c s path (O_WRONLY ||| O_APPEND) = (.ok data, s')) :
    s' = s ∧ data = (S.vfsReadFile c s path).toOption := by
  unfold openData at h
  rw [if_neg (by decide)] at h
  split at h
  · cases (mk.inj h).1
  rename_i st s₁ hst
  obtain rfl := statForWrite_ok hst
  split at h
  · cases (mk.inj h).1
  split at h
  · cases (mk.inj h).1
  obtain ⟨hdata, rfl⟩ := mk.inj h
  exact ⟨rfl, (Except.ok.inj hdata).symm⟩

/-- SYS_OPEN for append takes whatever `vfs_read_file` gives and changes nothing. -/
theorem open_append {fd : Nat} (hs : k.step S (.call pid (.open (some path) (O_WRONLY ||| O_APPEND))) = (.code fd, k')) :
    ∃ i : Fin MAX_OPEN_FILES, i.val = fd ∧ 3 ≤ i.val ∧ AppendingAt pid i (k.tasks pid).cred k.fs path
      ((S.vfsReadFile (k.tasks pid).cred k.fs path).toOption.getD []) k' := by
  simp only [step, Task.syscall, sysOpen] at hs
  have hproper := openData_proper (k.tasks pid).cred k.fs path (O_WRONLY ||| O_APPEND) (S := S)
  split at hs
  · have := Ret.code.inj (mk.inj hs).1
    simp only [ENOENT] at this
    omega
  split at hs
  · have := Ret.code.inj (mk.inj hs).1
    simp only [EMFILE] at this
    omega
  rename_i i hfree
  split at hs
  · rename_i rc text s' hop
    rw [hop] at hproper
    have := Ret.code.inj (mk.inj hs).1
    have := (hproper rc text rfl).1
    omega
  · cases (mk.inj hs).1
  rename_i data s' hop
  obtain ⟨hret, rfl⟩ := mk.inj hs
  obtain ⟨rfl, rfl⟩ := openData_append hop
  have hi := (Fin.find?_eq_some_iff.1 hfree).1
  simp only [Bool.and_eq_true, decide_eq_true_eq] at hi
  refine ⟨i, by have := Ret.code.inj hret; omega, hi.1, ?_, ?_, rfl⟩
  · simp only [update_self, Task.set]
    exact .opened path _
  · simp only [update_self, Task.set]

/-- SYS_CLOSE that returns 0 has written the bytes back. -/
theorem AppendingAt.close (h : AppendingAt pid i c s path bytes k) (hi : 3 ≤ i.val)
    (hs : k.step S (.call pid (.close i.val)) = (.code 0, k')) : ∃ m sub,
      target S c s (path.take (PUREUNIX_MAX_PATH - 1)) = some (m, sub) ∧ S.perform ⟨m, .writeFile sub bytes 0⟩ s = (0, k'.fs) := by
  simp only [step, Task.syscall] at hs
  rw [h.on hi, FdEntry.close, if_pos (by rw [h.entry.flags]; decide), h.entry.path, h.entry.data, h.entry.size, h.cred, h.fs,
    take_of_length_le (Nat.le_refl _)] at hs
  obtain ⟨hret, rfl⟩ := mk.inj hs
  exact finish_ok hret

/-- **Opening for append preserves the file exactly when** the old contents were delivered and the path was not cut. -/
theorem append_keeps_iff (K : Contents S) {sub : Text} {m : Mount} {id fd : Nat} {ws : List (Text × Bool)}
    {k₁ k₂ k₃ : Machine σ} (ht : target S (k.tasks pid).cred k.fs path = some (m, sub)) (hf : K.file k.fs m sub = some id)
    (hopen : k.step S (.call pid (.open (some path) (O_WRONLY ||| O_APPEND))) = (.code fd, k₁))
    (hwrites : runs (Machine.step S) k₁ (writesOf pid fd ws) = (ws.map fun w => .code w.1.length, k₂))
    (hclose : k₂.step S (.call pid (.close fd)) = (.code 0, k₃)) :
    K.contents k₃.fs id = K.contents k.fs id ++ (ws.map Prod.fst).flatten ↔
      Kept K (k.tasks pid).cred k.fs path id (ws.map Prod.fst).flatten := by
  obtain ⟨i, rfl, hi, hat⟩ := open_append hopen
  obtain ⟨m', sub', htarget, hperform⟩ := (hat.writes hi hwrites).close hi hclose
  obtain ⟨id', hid', hlen, hless, hnames, hfresh, hothers⟩ := K.write hperform
  generalize (ws.map fst).flatten = new at hperform hless hlen ⊢
  have hkept : Kept K (k.tasks pid).cred k.fs path id new ↔
      (K.file k.fs m' sub' = some id ∧ ((S.vfsReadFile (k.tasks pid).cred k.fs path).toOption.isSome ∨ K.contents k.fs id = []) ∧
        K.lossless k.fs m' sub' (K.contents k.fs id ++ new)) ∨ (K.file k.fs m' sub' ≠ some id ∧ new = []) := by
    unfold Kept
    constructor
    · rintro ⟨m'', sub'', ht'', h⟩
      rw [htarget] at ht''
      cases ht''
      exact h
    · exact fun h => ⟨m', sub', htarget, h⟩
  rw [hkept]
  by_cases hsame : K.file k.fs m' sub' = some id
  · -- written back to the file itself
    have hid : id' = id := by
      have := hnames _ _ _ hsame
      rw [hid'] at this
      exact Option.some.inj this
    subst hid
    simp only [hsame, true_and, ne_eq, not_true_eq_false, false_and, or_false]
    cases hread : S.vfsReadFile (k.tasks pid).cred k.fs path with
    | ok data =>
      obtain rfl := K.read_file ht hf hread
      rw [hread] at hless
      simpa [Except.toOption] using hless
    | error e =>
      rw [hread] at hless hlen
      simp only [Except.toOption, getD_none, nil_append, isSome_none, Bool.false_eq_true, false_or] at hless hlen ⊢
      constructor
      · intro h
        have hnil : K.contents k.fs id' = [] := by
          have := congrArg length h
          rw [hlen, length_append] at this
          exact length_eq_zero_iff.1 (by omega)
        rw [hnil, nil_append] at h ⊢
        exact ⟨rfl, hless.1 h⟩
      · rintro ⟨hnil, hl⟩
        rw [hnil, nil_append] at hl ⊢
        exact hless.2 hl
  · -- written back elsewhere
    have hne : id ≠ id' := by
      rintro rfl
      exact hsame (hfresh m sub hf)
    simp only [hsame, false_and, ne_eq, not_false_eq_true, true_and, false_or]
    rw [hothers m sub id hf hne]
    exact self_eq_append_right

end

/-! ## One file -/

/-- The file "/f" of user 1000, with the given mode. -/
def ownedStat (mode : UInt32) (p : Text) : Option Stat :=
  if p = [slash] then some (rootOwned .dir 0o40755)
  else if p = [slash, 102] then some { rootOwned .file mode with stUid := 1000, stGid := 1000 } else none

/-- A driver that keeps the contents of "/f" and nothing else. -/
def ownedDriver (mode : UInt32) : LinkDriver Text :=
  { plainDriver (fun _ => ownedStat mode) (by intro s st h; cases h; decide) with
    readFile := fun s p => if p = [slash, 102] then some s else none
    writeFile := fun p data _ s => if p = [slash, 102] then (0, data) else (-EINVAL, s) }

def ownedSys (mode : UInt32) : Sys Text := ⟨[⟨[slash], .ext2⟩], ownedDriver mode, (ownedDriver mode).toDriver⟩

def ownedContents (mode : UInt32) : Contents (ownedSys mode) where
  file := fun _ _ sub => if sub = [slash, 102] then some 0 else none
  contents := fun s _ => s
  lossless := fun _ _ _ _ => True
  read := by
    intro s m sub id f data hf hop hd
    obtain ⟨mountpoint, type⟩ := m
    have hop : f = (ownedDriver mode).readFile := by cases type <;> exact (Option.some.inj hop).symm
    subst hop
    simp only [ownedDriver] at hd
    split at hd
    · exact (Option.some.inj hd).symm
    · cases hd
  write := by
    intro s m sub data s' h
    obtain ⟨mountpoint, type⟩ := m
    have h : (ownedDriver mode).writeFile sub data 0 s = (0, s') := by cases type <;> exact h
    simp only [ownedDriver] at h
    by_cases hsub : sub = [slash, 102]
    · rw [if_pos hsub] at h
      obtain ⟨-, rfl⟩ := Prod.mk.inj h
      refine ⟨0, if_pos hsub, rfl, by simp, fun _ _ _ h => h, fun _ _ _ => if_pos hsub, fun m' sub' id' hf hne => ?_⟩
      split at hf
      · exact absurd (Option.some.inj hf).symm hne
      · cases hf
    · rw [if_neg hsub] at h
      cases (Prod.mk.inj h).1

/-- Opening "/f" for append, writing "b" and closing it. -/
def appendEvents : List (Event Text) :=
  [.call 0 (.open (some [slash, 102]) (O_WRONLY ||| O_APPEND)), .call 0 (.write 3 (some [98]) true), .call 0 (.close 3)]

/-- With mode 0600 the file keeps its "a". -/
theorem append_keeps_iff_owned : Kept (ownedContents 0o100600) ⟨1000, 1000⟩ [97] [slash, 102] 0 [98] := by
  let k := idle (⟨1000, 1000⟩) ([97] : Text)
  let k₁ := (k.step (ownedSys 0o100600) (.call 0 (.open (some [slash, 102]) (O_WRONLY ||| O_APPEND)))).2
  let k₂ := (runs (step (ownedSys 0o100600)) k₁ (writesOf 0 3 [([98], true)])).2
  let k₃ := (k₂.step (ownedSys 0o100600) (.call 0 (.close 3))).2
  have ht : target (ownedSys 0o100600) (k.tasks 0).cred k.fs [slash, 102] = some (⟨[slash], .ext2⟩, [slash, 102]) := by
    decide +kernel
  have hopen : k.step (ownedSys 0o100600) (.call 0 (.open (some [slash, 102]) (O_WRONLY ||| O_APPEND))) = (.code (3), k₁) :=
    ext (by decide +kernel) rfl
  have hwrites : runs (step (ownedSys 0o100600)) k₁ (writesOf 0 (3) [([98], true)]) = ([.code 1], k₂) :=
    ext (by decide +kernel) rfl
  have hclose : k₂.step (ownedSys 0o100600) (.call 0 (.close (3))) = (.code 0, k₃) := ext (by decide +kernel) rfl
  have hcontents : k₃.fs = [97, 98] := by decide +kernel
  exact (append_keeps_iff (ownedContents 0o100600) ht rfl hopen hwrites hclose).1 hcontents

/-- With mode 0200 every call succeeds, but the owner may not read the file and its "a" is gone. -/
theorem append_loses_unreadable :
    (runs (Machine.step (ownedSys 0o100200)) (idle ⟨1000, 1000⟩ [97]) appendEvents).1 = [.code 3, .code 1, .code 0] ∧
    (runs (Machine.step (ownedSys 0o100200)) (idle ⟨1000, 1000⟩ [97]) appendEvents).2.fs = [98] := by
  constructor <;> decide +kernel

end PureUnix.Kernel
