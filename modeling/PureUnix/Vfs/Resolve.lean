import PureUnix.Lib.PathText
import PureUnix.Ext2.Write

/-!
# Pathname resolution of the VFS

`resolve_path` (fs/vfs.c:203) with everything it uses: the permission engine, the path builders, and the
loop that rewrites its own input when it meets a symbolic link. The drivers show only what they answer
to `stat` and `readlink`, a `View`. The loop is a step function on (`resolved`, text at the cursor,
`follows`), run with fuel; a string that would not fit its 256-byte buffer ends the run as an overrun.
-/
namespace PureUnix.Vfs

open Lib PathText

def EIO : Int := 5
def EACCES : Int := 13
def EXDEV : Int := 18
def EMFILE : Int := 24
def EROFS : Int := 30
def ELOOP : Int := 40

def MAX_SYMLINK_FOLLOWS : Nat := 40
def RESOLVE_WORK_SIZE : Nat := PUREUNIX_MAX_PATH * 8

/-- `vfs_node_type_t`. -/
inductive NodeType
  | file | dir | symlink
  deriving DecidableEq, Repr

/-- `vfs_stat_t`; `attr` is its legacy field `mode`. -/
structure Stat where
  type : NodeType
  size : Nat
  attr : UInt16
  stMode : UInt32
  stUid : Nat
  stGid : Nat
  stNlink : Nat
  stIno : Nat
  stAtime : Nat
  stMtime : Nat
  stCtime : Nat
  stBlocks : Nat
  stBlksize : Nat
  deriving DecidableEq, Repr

structure Cred where
  uid : Nat
  gid : Nat
  deriving DecidableEq, Repr

/-! ## The permission engine -/

def X_OK : UInt32 := 1
def W_OK : UInt32 := 2
def R_OK : UInt32 := 4

/-- `vfs_access` (vfs.c:609) on a file that is there. -/
def access (st : Stat) (c : Cred) (requested : UInt32) : Bool :=
  if requested = 0 then true
  else if c.uid = 0 then
    -- root may read and write anything, and execute what has an execute bit for someone
    !(requested &&& X_OK != 0 && st.stMode &&& 0o111 == 0)
  else
    let bits :=
      if st.stUid = c.uid then st.stMode >>> 6 &&& 7
      else if st.stGid = c.gid then st.stMode >>> 3 &&& 7
      else st.stMode &&& 7
    let req := (if requested &&& R_OK != 0 then 4 else 0) ||| (if requested &&& W_OK != 0 then 2 else 0) |||
      (if requested &&& X_OK != 0 then 1 else 0)
    bits &&& req == req

/-! ## What the drivers answer -/

/-- `vfs_stat_raw` and `vfs_readlink_raw` with the buffer of `resolve_path`, over one state of the mounted file
systems. A link target has at most as many bytes as were asked for, up to the first NUL. The root of a
mounted file system is no link. -/
structure View where
  stat : Text → Option Stat
  readlink : Text → Option Text
  target_le : ∀ p t, readlink p = some t → t.length < PUREUNIX_MAX_PATH
  root_not_link : ∀ st, stat [slash] = some st → st.type ≠ .symlink

/-! ## `resolve_path` -/

/-- How `resolve_path` ends: with the text in `out`, with an error, or past the end of a buffer. -/
inductive Outcome
  | ok (out : Text)
  | errno (e : Int)
  | overrun
  deriving DecidableEq, Repr

/-- The variables of the loop: `resolved`, the text from `cursor` on, and `follows`. -/
structure Walk where
  resolved : Text
  work : Text
  follows : Nat
  deriving DecidableEq, Repr

/-- `resolved_append` (vfs.c:174) into a buffer of `PUREUNIX_MAX_PATH` bytes; `none` if it does not fit. -/
def resolvedAppend (resolved component : Text) : Option Text :=
  if component = dotName then some resolved
  else if component = dotdotName then some (parent slash resolved)
  else
    let out := append slash resolved component
    if out.length < PUREUNIX_MAX_PATH then some out else none

/-- Following a link: its target in front of the unread rest (vfs.c:264). -/
def splice (w : Walk) (target rest : Text) : Walk :=
  let work := if rest = [] then target else target ++ slash :: rest
  if target.head? = some slash then ⟨[slash], if work.head? = some slash then work.drop 1 else work, w.follows + 1⟩
  else ⟨w.resolved, work, w.follows + 1⟩

/-- What happens at a component other than "." and ".." (vfs.c:241). -/
def visit (V : View) (c : Cred) (followFinal : Bool) (w : Walk) (component rest : Text) : Outcome ⊕ Walk :=
  match V.stat w.resolved with
  | none => .inl (.errno (-ENOENT))
  | some dst =>
    if access dst c X_OK = false then .inl (.errno (-EACCES))
    else
      match resolvedAppend w.resolved component with
      | none => .inl .overrun
      | some candidate =>
        match V.stat candidate with
        | none => if rest = [] then .inl (.ok candidate) else .inl (.errno (-ENOENT))
        | some cst =>
          if cst.type = .symlink ∧ (rest ≠ [] ∨ followFinal = true) then
            if MAX_SYMLINK_FOLLOWS < w.follows + 1 then .inl (.errno (-ELOOP))
            else
              match V.readlink candidate with
              | none => .inl (.errno (-ENOENT))
              | some target =>
                if RESOLVE_WORK_SIZE < target.length + 1 + rest.length + 1 then .inl (.errno (-ENAMETOOLONG))
                else .inr (splice w target rest)
          else .inr ⟨candidate, rest, w.follows⟩

/-- One round of the loop (vfs.c:218). -/
def Walk.step (V : View) (c : Cred) (followFinal : Bool) (w : Walk) : Outcome ⊕ Walk :=
  if w.work = [] then .inl (.ok w.resolved)
  else
    let component := first slash w.work
    let rest := rest slash w.work
    if component = [] then .inr { w with work := rest }
    else if PUREUNIX_MAX_NAME ≤ component.length then .inl (.errno (-ENAMETOOLONG))
    else if component = dotName then .inr { w with work := rest }
    else if component = dotdotName then .inr ⟨parent slash w.resolved, rest, w.follows⟩
    else visit V c followFinal w component rest

/-- The loop, for at most `fuel` rounds. -/
def Walk.run (V : View) (c : Cred) (followFinal : Bool) : Nat → Walk → Option Outcome
  | 0, _ => none
  | fuel + 1, w =>
    match w.step V c followFinal with
    | .inl o => some o
    | .inr w' => w'.run V c followFinal fuel

def Walk.start (path : Text) : Walk := ⟨[slash], path.drop 1, 0⟩

/-- Rounds that are enough for every path: `2048` between two links, `41` times. -/
def roundsEnough : Nat := (MAX_SYMLINK_FOLLOWS + 1) * (RESOLVE_WORK_SIZE + 1)

/-- `resolve_path` (vfs.c:203); `none` would be a loop that goes on. -/
def resolvePath (V : View) (c : Cred) (path : Text) (followFinal : Bool) : Option Outcome :=
  if path.head? ≠ some slash then some (.errno (-ENOENT))
  else if RESOLVE_WORK_SIZE ≤ (path.drop 1).length then some (.errno (-ENAMETOOLONG))
  else (Walk.start path).run V c followFinal roundsEnough

/-! ## What one round can do -/

section
variable (V : View) (c : Cred) (followFinal : Bool) (w : Walk)

/-- The directory the walk stands in may be searched. -/
def Walk.Searchable : Prop := ∃ st, V.stat w.resolved = some st ∧ access st c X_OK = true

/-- The cases of `visit`; the path built is `resolved` with the component appended. -/
inductive Visited (f rest : Text) : Outcome ⊕ Walk → Prop
  | noDir : V.stat w.resolved = none → Visited f rest (.inl (.errno (-ENOENT)))
  | noSearch {d : Stat} : V.stat w.resolved = some d → access d c X_OK = false → Visited f rest (.inl (.errno (-EACCES)))
  | overrun : w.Searchable V c → PUREUNIX_MAX_PATH ≤ (append slash w.resolved f).length → Visited f rest (.inl .overrun)
  | missingFinal : w.Searchable V c → (append slash w.resolved f).length < PUREUNIX_MAX_PATH →
      V.stat (append slash w.resolved f) = none → rest = [] →
      Visited f rest (.inl (.ok (append slash w.resolved f)))
  | missing : w.Searchable V c → (append slash w.resolved f).length < PUREUNIX_MAX_PATH →
      V.stat (append slash w.resolved f) = none → rest ≠ [] → Visited f rest (.inl (.errno (-ENOENT)))
  | linkStop {st : Stat} {e : Int} : w.Searchable V c → (append slash w.resolved f).length < PUREUNIX_MAX_PATH →
      V.stat (append slash w.resolved f) = some st → st.type = .symlink ∧ (rest ≠ [] ∨ followFinal = true) →
      e = -ELOOP ∨ e = -ENOENT ∨ e = -ENAMETOOLONG → Visited f rest (.inl (.errno e))
  | follow {st : Stat} {target : Text} : w.Searchable V c →
      (append slash w.resolved f).length < PUREUNIX_MAX_PATH →
      V.stat (append slash w.resolved f) = some st → st.type = .symlink ∧ (rest ≠ [] ∨ followFinal = true) →
      V.readlink (append slash w.resolved f) = some target → Visited f rest (.inr (splice w target rest))
  | enter {st : Stat} : w.Searchable V c → (append slash w.resolved f).length < PUREUNIX_MAX_PATH →
      V.stat (append slash w.resolved f) = some st → ¬ (st.type = .symlink ∧ (rest ≠ [] ∨ followFinal = true)) →
      Visited f rest (.inr ⟨append slash w.resolved f, rest, w.follows⟩)

/-- The loop stands before a name: a component that is looked up. -/
def Walk.AtName : Prop :=
  w.work ≠ [] ∧ first slash w.work ≠ [] ∧ (first slash w.work).length < PUREUNIX_MAX_NAME ∧
  first slash w.work ≠ dotName ∧ first slash w.work ≠ dotdotName

inductive Stepped : Outcome ⊕ Walk → Prop
  | done : w.work = [] → Stepped (.inl (.ok w.resolved))
  | skip : w.work ≠ [] → first slash w.work = [] ∨ first slash w.work = dotName →
      Stepped (.inr { w with work := rest slash w.work })
  | long : PUREUNIX_MAX_NAME ≤ (first slash w.work).length → Stepped (.inl (.errno (-ENAMETOOLONG)))
  | up : w.work ≠ [] → first slash w.work = dotdotName →
      Stepped (.inr ⟨parent slash w.resolved, rest slash w.work, w.follows⟩)
  | visit {r : Outcome ⊕ Walk} : w.AtName → Visited V c followFinal w (first slash w.work) (rest slash w.work) r →
      Stepped r

end

section
variable {V : View} {c : Cred} {followFinal : Bool} {w : Walk}

theorem resolvedAppend_name {resolved f : Text} (h1 : f ≠ dotName) (h2 : f ≠ dotdotName) : resolvedAppend resolved f =
      if (append slash resolved f).length < PUREUNIX_MAX_PATH then some (append slash resolved f) else none := by
  rw [resolvedAppend, if_neg h1, if_neg h2]

theorem splice_resolved (w : Walk) (target rest : Text) :
    (splice w target rest).resolved = if target.head? = some slash then [slash] else w.resolved := by
  unfold splice
  dsimp only
  split <;> rfl

theorem visit_visited {f rest : Text} (h1 : f ≠ dotName) (h2 : f ≠ dotdotName) :
    Visited V c followFinal w f rest (visit V c followFinal w f rest) := by
  unfold visit
  rw [resolvedAppend_name h1 h2]
  split
  · exact .noDir ‹_›
  rename_i d hd
  split
  · exact .noSearch hd ‹_›
  rename_i hx
  have hs : w.Searchable V c := ⟨d, hd, by simpa using hx⟩
  by_cases hfit : (append slash w.resolved f).length < PUREUNIX_MAX_PATH
  swap
  · rw [if_neg hfit]
    exact .overrun hs (by omega)
  rw [if_pos hfit]
  dsimp only
  split
  · split
    · exact .missingFinal hs hfit ‹_› ‹_›
    · exact .missing hs hfit ‹_› ‹_›
  rename_i st hst
  split
  · rename_i hl
    split
    · exact .linkStop hs hfit hst hl (by simp)
    split
    · exact .linkStop hs hfit hst hl (by simp)
    split
    · exact .linkStop hs hfit hst hl (by simp)
    · exact .follow hs hfit hst hl ‹_›
  · exact .enter hs hfit hst ‹_›

theorem step_stepped : Stepped V c followFinal w (w.step V c followFinal) := by
  unfold Walk.step
  split
  · exact .done ‹_›
  rename_i h0
  dsimp only
  split
  · exact .skip h0 (.inl ‹_›)
  rename_i h1
  split
  · exact .long ‹_›
  split
  · exact .skip h0 (.inr ‹_›)
  rename_i h2
  split
  · exact .up h0 ‹_›
  rename_i h3
  exact .visit ⟨h0, h1, by omega, h2, h3⟩ (visit_visited h2 h3)

theorem Walk.AtName.visited (V : View) (c : Cred) (followFinal : Bool) (hn : w.AtName) :
    Visited V c followFinal w (first slash w.work) (rest slash w.work) (w.step V c followFinal) := by
  have hs := @step_stepped V c followFinal w
  generalize w.step V c followFinal = r at hs ⊢
  obtain ⟨h0, h1, hl, h2, h3⟩ := hn
  cases hs with
  | done h => exact absurd h h0
  | skip _ h => exact absurd h (not_or.2 ⟨h1, h2⟩)
  | long h => omega
  | up _ h => exact absurd h h3
  | visit _ hv => exact hv

/-! ## Runs -/

/-- `Reaches w w'`: the loop gets from `w` to `w'`. -/
inductive Walk.Reaches (V : View) (c : Cred) (followFinal : Bool) : Walk → Walk → Prop
  | refl (w : Walk) : Reaches V c followFinal w w
  | step {w w' w'' : Walk} : w.step V c followFinal = .inr w' → Reaches V c followFinal w' w'' → Reaches V c followFinal w w''

variable {w' : Walk} {o : Outcome} {fuel : Nat}

theorem run_of_reaches (hr : Walk.Reaches V c followFinal w w') {o' : Outcome} (hs : w'.step V c followFinal = .inl o')
    (h : w.run V c followFinal fuel = some o) : o = o' := by
  induction hr generalizing fuel with
  | refl w =>
    cases fuel with
    | zero => cases h
    | succ fuel => rw [Walk.run, hs] at h; exact (Option.some.inj h).symm
  | step hs' _ ih =>
    cases fuel with
    | zero => cases h
    | succ fuel => rw [Walk.run, hs'] at h; exact ih hs h

theorem reaches_of_run (h : w.run V c followFinal fuel = some o) :
    ∃ w', Walk.Reaches V c followFinal w w' ∧ w'.step V c followFinal = .inl o := by
  induction fuel generalizing w with
  | zero => cases h
  | succ fuel ih =>
    rw [Walk.run] at h
    cases hs : w.step V c followFinal with
    | inl o' => rw [hs] at h; cases h; exact ⟨w, .refl w, hs⟩
    | inr w'' =>
      rw [hs] at h
      obtain ⟨w', hr, hw'⟩ := ih h
      exact ⟨w', .step hs hr, hw'⟩

/-- What holds of the root, and with a directory of its parent and of the names looked up there. -/
structure Keeps (V : View) (c : Cred) (Q : Text → Prop) : Prop where
  root : Q [slash]
  up : ∀ {p : Text}, Q p → Q (parent slash p)
  enter : ∀ {w : Walk}, Q w.resolved → w.AtName → w.Searchable V c →
    (append slash w.resolved (first slash w.work)).length < PUREUNIX_MAX_PATH →
    Q (append slash w.resolved (first slash w.work))

namespace Keeps
variable {Q : Text → Prop} (hk : Keeps V c Q)
include hk

theorem step (hw : Q w.resolved) : (∀ w', w.step V c followFinal = .inr w' → Q w'.resolved) ∧
    (∀ out, w.step V c followFinal = .inl (.ok out) → Q out) := by
  have hs := @step_stepped V c followFinal w
  generalize w.step V c followFinal = r at hs
  constructor
  · rintro w' rfl
    cases hs with
    | skip => exact hw
    | up => exact hk.up hw
    | visit hn hv =>
      cases hv with
      | follow =>
        rw [splice_resolved]
        split
        · exact hk.root
        · exact hw
      | enter hs hfit => exact hk.enter hw hn hs hfit
  · rintro out rfl
    cases hs with
    | done => exact hw
    | visit hn hv =>
      cases hv with
      | missingFinal hs hfit => exact hk.enter hw hn hs hfit

theorem reaches (hr : Walk.Reaches V c followFinal w w') (hw : Q w.resolved) : Q w'.resolved := by
  induction hr with
  | refl => exact hw
  | step hs _ ih => exact ih ((hk.step hw).1 _ hs)

theorem resolvePath {path out : Text} (h : resolvePath V c path followFinal = some (.ok out)) : Q out := by
  unfold Vfs.resolvePath at h
  split at h
  · cases h
  split at h
  · cases h
  obtain ⟨w', hr, hs⟩ := reaches_of_run h
  exact (hk.step (hk.reaches hr hk.root)).2 out hs

end Keeps

end
end PureUnix.Vfs
