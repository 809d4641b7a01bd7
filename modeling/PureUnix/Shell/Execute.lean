import PureUnix.Kernel.Append
import PureUnix.Shell.Parser

/-!
# Running a command line

`shell_execute_line` of `src/shell/sh.c`, with `cat` of `src/shell/builtins.c`. What a command writes goes into
a buffer of 16384 bytes and from there to the next command or into a file. Bytes that do not fit are dropped,
and the status does not show it.
-/

namespace PureUnix.Shell

open List Vfs Kernel Function

def SHELL_OUTPUT_CAP : Nat := 16384
def VFS_O_APPEND : UInt32 := 1
def VFS_O_TRUNC : UInt32 := 2

/-- `shell_out_write` to a stage buffer that holds `out`. -/
def shellOutWrite (out data : Text) : Text := out ++ data.take (SHELL_OUTPUT_CAP - out.length - 1)

def shellOutPuts (out str : Text) : Text := shellOutWrite out (str.takeWhile (· ≠ 0))

def catName : Text := [99, 97, 116]

variable {σ : Type}

/-- `shell_ctx.cwd`, and the file systems. -/
structure State (σ : Type) where
  cwd : Text
  fs : σ

/-- Who runs the shell on which file systems. `other` stands for the other commands: status, output and state.
`memory` says whether `kmalloc` finds room for the input of a command. -/
structure Session (σ : Type) where
  sys : Sys σ
  cred : Cred
  memory : Nat → Bool
  other : Command → Option Text → State σ → Option (Int × Text × State σ)

/-- `vfs_normalize` and `vfs_read_file`; no result if a path overruns its buffer. -/
def Session.readFile (sh : Session σ) (st : State σ) (arg : Text) : Option (Text × Option Text) := do
  let path ← vfsNormalize st.cwd arg
  match sh.sys.vfsReadFile sh.cred st.fs path with
  | .ok data => some (path, some data)
  | .error .overrun => none
  | .error _ => some (path, none)

/-- The loop of `cmd_cat` over the arguments. -/
def Session.catFrom (sh : Session σ) (st : State σ) : List Text → Text → Option (Int × Text)
  | [], out => some (0, out)
  | arg :: args, out => do
    match ← sh.readFile st arg with
    | (path, none) => some (-1, shellOutPuts out (ascii "cat: cannot read " ++ path ++ ascii "\n"))
    | (_, some data) => sh.catFrom st args (shellOutWrite out data)

/-- `run_command` with an empty stage buffer, and `cmd_cat`. -/
def Session.runCommand (sh : Session σ) (cmd : Command) (input : Option Text) (st : State σ) : Option (Int × Text × State σ) :=
  match cmd.args with
  | [] => some (0, [], st)
  | name :: args =>
    if name = catName then
      if args = [] then some (0, shellOutPuts [] (input.getD []), st)
      else (sh.catFrom st args []).map fun r => (r.1, r.2, st)
    else sh.other cmd input st

/-- `read_input_redirection`; the inner `none` is -1. -/
def Session.readInput (sh : Session σ) (st : State σ) (arg : Text) : Option (Option Text) :=
  (sh.readFile st arg).map fun r => r.2.filter fun data => sh.memory (data.length + 1)

/-- The end of the last command: its output goes to a file or to the screen, which is not modelled. -/
def Session.deliver (sh : Session σ) (cmd : Command) (status : Int) (out : Text) (st : State σ) : Option (Int × State σ) :=
  if cmd.output = [] then some (status, st)
  else do
    let path ← vfsNormalize st.cwd cmd.output
    let r := sh.sys.finish "write failed" st.fs
      (sh.sys.vfsWriteFile sh.cred st.fs path out (if cmd.append then VFS_O_APPEND else VFS_O_TRUNC))
    match r.1 with
    | .ok _ => some (status, ⟨st.cwd, r.2⟩)
    | .error .overrun => none
    | .error _ => some (-1, ⟨st.cwd, r.2⟩)

/-- The loop of `shell_execute_line`; `input` is what the command before has written. -/
def Session.stages (sh : Session σ) : List Command → Option Text → State σ → Option (Int × State σ)
  | [], _, st => some (0, st)
  | cmd :: rest, input, st => do
    let input ← if cmd.input = [] then some (some input) else (sh.readInput st cmd.input).map (·.map some)
    match input with
    | none => some (-1, st)
    | some input =>
      let (status, out, st) ← sh.runCommand cmd input st
      if rest = [] then sh.deliver cmd status out st else sh.stages rest (some out) st

/-- `shell_execute_line`: the status and the state left. -/
def Session.executeLine (sh : Session σ) (line : Text) (st : State σ) : Option (Int × State σ) :=
  match shellParse line with
  | .error _ => some (-1, st)
  | .ok cmds => if cmds.head?.any (·.args = []) then some (0, st) else sh.stages cmds none st

/-! ### Copying with `cat f > g` -/

/-- What the files hold. A write that a driver reports as done has stored its bytes, as far as the shell can
hand it that many. -/
structure Holds (S : Sys σ) where
  bytes : σ → Mount → Text → Option Text
  write : ∀ {s m sub data s'}, data.length < SHELL_OUTPUT_CAP →
    S.perform ⟨m, .writeFile sub data VFS_O_TRUNC⟩ s = (0, s') → bytes s' m sub = some data

variable {sh : Session σ} {st st' : State σ} {line f g p q sub data : Text} {m : Mount}

/-- The driver of `g` is given what the stage buffer has of `f`. -/
theorem executeLine_cat (hline : shellParse line = .ok [{ args := [catName, f], output := g }])
    (hg : g ≠ []) (hf : sh.readFile st f = some (p, some data)) (hq : vfsNormalize st.cwd g = some q)
    (hrun : sh.executeLine line st = some (0, st')) :
    ∃ m sub, target sh.sys sh.cred st.fs q = some (m, sub) ∧
      sh.sys.perform ⟨m, .writeFile sub (data.take (SHELL_OUTPUT_CAP - 1)) VFS_O_TRUNC⟩ st.fs = (0, st'.fs) := by
  have hcat : sh.runCommand { args := [catName, f], output := g } none st =
      some (0, shellOutWrite [] data, st) := by
    simp [Session.runCommand, Session.catFrom, hf]
  simp only [Session.executeLine, hline, head?_cons, Option.any_some, Session.stages] at hrun
  simp [hcat, Session.deliver, hg, hq, shellOutWrite] at hrun
  split at hrun
  · next e =>
    obtain rfl := (Prod.mk.inj (Option.some.inj hrun)).2
    exact finish_ok (by rw [e]; rfl)
  · cases hrun
  · cases hrun

/-- Where the command reports success, `g` holds the bytes of `f` exactly if they fit into the stage buffer. -/
theorem cat_copies_iff (H : Holds sh.sys) (hline : shellParse line = .ok [{ args := [catName, f], output := g }])
    (hg : g ≠ []) (hf : sh.readFile st f = some (p, some data)) (hq : vfsNormalize st.cwd g = some q)
    (ht : target sh.sys sh.cred st.fs q = some (m, sub)) (hrun : sh.executeLine line st = some (0, st')) :
    H.bytes st'.fs m sub = some data ↔ data.length < SHELL_OUTPUT_CAP := by
  obtain ⟨m', sub', ht', hp⟩ := executeLine_cat hline hg hf hq hrun
  obtain ⟨rfl, rfl⟩ := Prod.mk.inj (Option.some.inj (ht.symm.trans ht'))
  have hb := H.write (by simp [SHELL_OUTPUT_CAP]) hp
  rw [hb, Option.some.injEq, take_eq_self_iff]
  unfold SHELL_OUTPUT_CAP
  omega

/-! Two files "/f" and "/g", which everybody may read and write. -/

def copyDriver : LinkDriver (Text → Text) :=
  { plainDriver (fun _ p => some (rootOwned (if p = [47] then .dir else .file) 0o777)) (by intro s st h; cases h; decide) with
    readFile := fun s p => some (s p)
    writeFile := fun p data _ s => (0, update s p data) }

def copySession : Session (Text → Text) :=
  ⟨⟨[⟨[47], .ext2⟩], copyDriver, copyDriver.toDriver⟩, ⟨0, 0⟩, fun _ => true, fun _ _ _ => none⟩

def copyHolds : Holds copySession.sys where
  bytes := fun s _ sub => some (s sub)
  write := by
    rintro s ⟨mnt, type⟩ sub data s' - h
    have h : (0, update s sub data) = ((0 : Int), s') := by cases type <;> exact h
    rw [← (Prod.mk.inj h).2, update_self]

/-- `cat f > g`. -/
def catLine : Text := catName ++ [32, 102, 32, 62, 32, 103]

theorem parse_cat : shellParse catLine = .ok [{ args := [catName, [102]], output := [103] }] := by
  decide +kernel

theorem copy_reads (data : Text) : copySession.readFile ⟨[47], fun _ => data⟩ [102] = some ([47, 102], some data) := by
  have hn : vfsNormalize [47] [102] = some [47, 102] := rfl
  have hr : copySession.sys.vfsReadFile copySession.cred (fun _ => data) [47, 102] = .ok data := rfl
  simp [Session.readFile, hn, hr]

theorem copy_run (data : Text) : copySession.executeLine catLine ⟨[47], fun _ => data⟩ =
    some (0, ⟨[47], update (fun _ => data) [47, 103] (data.take 16383)⟩) := by
  have hn : vfsNormalize [47] [103] = some [47, 103] := rfl
  have hw : copySession.sys.vfsWriteFile copySession.cred (fun _ => data) [47, 103] (data.take 16383)
    VFS_O_TRUNC = .ok ⟨⟨[47], .ext2⟩, .writeFile [47, 103] (data.take 16383) VFS_O_TRUNC⟩ := rfl
  simp [Session.executeLine, parse_cat, Session.stages, Session.runCommand, Session.catFrom, copy_reads,
    Session.deliver, hn, shellOutWrite, SHELL_OUTPUT_CAP, hw]
  rfl

/-- One byte is copied. -/
theorem cat_copies_byte : copyHolds.bytes (update (fun _ => [97]) [47, 103] [97]) ⟨[47], .ext2⟩ [47, 103] =
    some [97] :=
  (cat_copies_iff copyHolds parse_cat (by decide) (copy_reads [97]) rfl rfl (copy_run [97])).2 (by decide)

/-- Of 16384 bytes the last one is missing in the copy. -/
theorem cat_cuts : ∃ s, copySession.executeLine catLine ⟨[47], fun _ => replicate 16384 97⟩ =
    some (0, ⟨[47], s⟩) ∧ s [47, 102] = replicate 16384 97 ∧ s [47, 103] = replicate 16383 97 := by
  refine ⟨_, copy_run _, update_of_ne (by decide) _ _, ?_⟩
  rw [take_replicate]
  rfl

end PureUnix.Shell
