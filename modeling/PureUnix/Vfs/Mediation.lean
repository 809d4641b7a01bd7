import PureUnix.Vfs.Bounds

/-!
# Complete mediation of writes

Every entry point that changes the file system, seen as a request. `Mediated` sums up what must have been
checked for the driver operation it reaches: `X_OK` on every directory searched while resolving each of
its paths, `W_OK` on the directory whose entries change (or on the file that is written), and that the
driver is handed the mount-relative part of exactly the path that was checked.
-/
namespace PureUnix.Vfs

open Lib Sys List

variable {β : Type} {path resolved : Text} {followFinal : Bool} {text : String} {call : Call}

theorem except_bind_ok {ε α : Type} {x : Except ε α} {f : α → Except ε β} {b : β} :
    (x >>= f) = .ok b ↔ ∃ a, x = .ok a ∧ f a = .ok b := by
  cases x with
  | error e =>
    constructor
    · intro h; cases h
    · rintro ⟨a, h, -⟩; cases h
  | ok a =>
    constructor
    · intro h; exact ⟨a, rfl, h⟩
    · rintro ⟨a', h, hf⟩; cases h; exact hf

/-- The directories in which resolving `path` looks something up. -/
def Searched (V : View) (c : Cred) (followFinal : Bool) (path p : Text) : Prop :=
  ∃ w, Walk.Reaches V c followFinal (Walk.start path) w ∧ w.AtName ∧ w.resolved = p

def MaySearch (V : View) (c : Cred) (p : Text) : Prop := ∃ st, V.stat p = some st ∧ access st c X_OK = true

section
variable {V : View} {c : Cred} {followFinal : Bool} {path out p : Text}

/-- A walk that succeeds has been allowed to search every directory it searched. -/
theorem resolvePath_searched (h : resolvePath V c path followFinal = some (.ok out))
    (hs : Searched V c followFinal path p) : MaySearch V c p := by
  obtain ⟨w, hr, hn, rfl⟩ := hs
  unfold resolvePath at h
  split at h
  · cases h
  split at h
  · cases h
  have hend : ∀ o, w.step V c followFinal = .inl o → Outcome.ok out = o := fun o ho => run_of_reaches hr ho h
  have hv := hn.visited V c followFinal
  generalize w.step V c followFinal = r at hv hend
  cases hv with
  | noDir => cases hend _ rfl
  | noSearch => cases hend _ rfl
  | overrun hs => exact hs
  | missingFinal hs => exact hs
  | missing hs => exact hs
  | linkStop hs => exact hs
  | follow hs => exact hs
  | enter hs => exact hs

end

section
variable {σ : Type} {S : Sys σ} {c : Cred} {s : σ}

/-! ## What the helpers have checked -/

/-- `path` resolves to `resolved`, through directories the credentials may search. -/
structure Resolved (S : Sys σ) (c : Cred) (s : σ) (path : Text) (followFinal : Bool) (resolved : Text) : Prop where
  outcome : resolvePath (S.view s) c path followFinal = some (.ok resolved)
  searched : ∀ p, Searched (S.view s) c followFinal path p → MaySearch (S.view s) c p

/-- The credentials may write the directory that holds the last name of `resolved`. -/
def MayChange (S : Sys σ) (c : Cred) (s : σ) (resolved : Text) : Prop :=
  ∃ st, S.statRaw s (PathText.parent slash resolved) = some st ∧ access st c W_OK = true

theorem Sys.resolve_ok (h : S.resolve c s path followFinal text = .ok resolved) : Resolved S c s path followFinal resolved := by
  unfold Sys.resolve at h
  split at h
  · cases h
    rename_i ho
    exact ⟨ho, fun p => resolvePath_searched ho⟩
  · cases h
  · cases h

theorem Resolved.length (h : Resolved S c s path followFinal resolved) :
    resolved.length < PUREUNIX_MAX_PATH := keeps_length.resolvePath h.outcome

theorem Sys.checkDirWrite_zero (hl : resolved.length < PUREUNIX_MAX_PATH)
    (h : S.checkDirWrite c s resolved = 0) : MayChange S c s resolved := by
  unfold Sys.checkDirWrite parentOf at h
  rw [take_of_length_le (by omega)] at h
  split at h
  · exact absurd h (by decide)
  rename_i st hst
  split at h
  · exact ⟨st, hst, ‹_›⟩
  · exact absurd h (by decide)

theorem Sys.resolveForCreate_ok (h : S.resolveForCreate c s path text = .ok resolved) :
    Resolved S c s path true resolved ∧ MayChange S c s resolved := by
  obtain ⟨r, hr, h⟩ := except_bind_ok.1 h
  have hr := resolve_ok hr
  split at h
  · cases h
  split at h
  · cases h
  · cases h
    exact ⟨hr, checkDirWrite_zero hr.length (not_not.1 ‹_›)⟩

theorem mountRelative_length (m : Mount) (h : path.length < PUREUNIX_MAX_PATH) :
    (mountRelative m path).length ≤ PUREUNIX_MAX_PATH - 1 := by
  have hrest : (if m.mountpoint.length ≤ 1 then path else path.drop m.mountpoint.length).length ≤ path.length := by
    split
    · exact Nat.le_refl _
    · rw [length_drop]; omega
  have hone : [slash].length ≤ PUREUNIX_MAX_PATH - 1 := by decide
  unfold mountRelative
  dsimp only
  generalize (if m.mountpoint.length ≤ 1 then path else path.drop m.mountpoint.length) = rest at hrest ⊢
  split
  · exact hone
  · omega

theorem Sys.dispatch_whole {sub : Text} {m : Mount} (hl : resolved.length < PUREUNIX_MAX_PATH)
    (h : S.dispatch resolved = some (m, sub)) : S.findMount resolved = some m ∧ sub = mountRelative m resolved := by
  unfold Sys.dispatch at h
  cases hm : S.findMount resolved with
  | none => rw [hm] at h; cases h
  | some m' =>
    rw [hm] at h
    cases h
    exact ⟨rfl, take_of_length_le (mountRelative_length _ hl)⟩

/-- The call changes what `resolved` names, through the mount that covers it. -/
def Aims (S : Sys σ) (resolved : Text) (change : Text → Change) (call : Call) : Prop :=
  ∃ m, S.findMount resolved = some m ∧ call = ⟨m, change (mountRelative m resolved)⟩

def Aims₂ (S : Sys σ) (resolvedOld resolvedNew : Text) (change : Text → Text → Change) (call : Call) : Prop :=
  ∃ m, S.findMount resolvedOld = some m ∧ S.findMount resolvedNew = some m ∧
    call = ⟨m, change (mountRelative m resolvedOld) (mountRelative m resolvedNew)⟩

theorem Sys.reach_ok {op : Ops σ → Option β} {change : Text → Change}
    (hl : resolved.length < PUREUNIX_MAX_PATH) (h : S.reach resolved op text change = .ok call) : Aims S resolved change call := by
  unfold Sys.reach at h
  split at h
  · cases h
  split at h
  · cases h
  · cases h
    obtain ⟨hm, rfl⟩ := dispatch_whole hl ‹_›
    exact ⟨_, hm, rfl⟩

theorem Sys.reach₂_ok {resolvedOld resolvedNew : Text} {op : Ops σ → Option β} {cross : String}
    {change : Text → Text → Change} (ho : resolvedOld.length < PUREUNIX_MAX_PATH)
    (hn : resolvedNew.length < PUREUNIX_MAX_PATH) (h : S.reach₂ resolvedOld resolvedNew op text cross change = .ok call) :
    Aims₂ S resolvedOld resolvedNew change call := by
  unfold Sys.reach₂ at h
  split at h
  · rename_i hdo hdn
    split at h
    · cases h
    rename_i hsame
    split at h
    · cases h
    cases h
    obtain rfl := not_not.1 hsame
    obtain ⟨hmo, rfl⟩ := dispatch_whole ho hdo
    obtain ⟨hmn, rfl⟩ := dispatch_whole hn hdn
    exact ⟨_, hmo, hmn, rfl⟩
  · cases h

/-! ## Requests -/

/-- The entry points that change something. -/
inductive WriteRequest
  | create (path : Text)
  | mkdir (path : Text)
  | symlink (target path : Text)
  | link (oldPath newPath : Text)
  | unlink (path : Text)
  | rmdir (path : Text)
  | rename (oldPath newPath : Text)
  | writeFile (path : Text) (data : Text) (flags : UInt32)

/-- The driver operation a request reaches. -/
def Sys.plan (S : Sys σ) (c : Cred) (s : σ) : WriteRequest → Except Fail Call
  | .create path => S.vfsCreate c s path
  | .mkdir path => S.vfsMkdir c s path
  | .symlink target path => S.vfsSymlink c s target path
  | .link oldPath newPath => S.vfsLink c s oldPath newPath
  | .unlink path => S.vfsUnlink c s path
  | .rmdir path => S.vfsRmdir c s path
  | .rename oldPath newPath => S.vfsRename c s oldPath newPath
  | .writeFile path data flags => S.vfsWriteFile c s path data flags

/-- What was checked for a request that reaches `call`. -/
inductive Mediated (S : Sys σ) (c : Cred) (s : σ) : WriteRequest → Call → Prop
  | create {path r : Text} {call : Call} : Resolved S c s path true r → MayChange S c s r →
      Aims S r (.create · false) call → Mediated S c s (.create path) call
  | mkdir {path r : Text} {call : Call} : Resolved S c s path true r → MayChange S c s r →
      Aims S r (.create · true) call → Mediated S c s (.mkdir path) call
  | symlink {target path r : Text} {call : Call} : Resolved S c s path true r → MayChange S c s r →
      Aims S r (.symlink target) call → Mediated S c s (.symlink target path) call
  | link {oldPath newPath ro rn : Text} {call : Call} : Resolved S c s oldPath false ro → Resolved S c s newPath true rn →
      MayChange S c s rn → Aims₂ S ro rn .link call → Mediated S c s (.link oldPath newPath) call
  | unlink {path r : Text} {call : Call} : Resolved S c s path false r → MayChange S c s r →
      Aims S r (.unlink · false) call → Mediated S c s (.unlink path) call
  | rmdir {path r : Text} {call : Call} : Resolved S c s path false r → MayChange S c s r →
      Aims S r (.unlink · true) call → Mediated S c s (.rmdir path) call
  | rename {oldPath newPath ro rn : Text} {call : Call} : Resolved S c s oldPath false ro → Resolved S c s newPath false rn →
      MayChange S c s ro → MayChange S c s rn → Aims₂ S ro rn .rename call → Mediated S c s (.rename oldPath newPath) call
  | overwrite {path r : Text} {data : Text} {flags : UInt32} {st : Stat} {call : Call} : Resolved S c s path true r →
      S.statRaw s r = some st → access st c W_OK = true → Aims S r (.writeFile · data flags) call →
      Mediated S c s (.writeFile path data flags) call
  | newFile {path r : Text} {data : Text} {flags : UInt32} {call : Call} : Resolved S c s path true r →
      S.statRaw s r = none → MayChange S c s r → Aims S r (.writeFile · data flags) call →
      Mediated S c s (.writeFile path data flags) call

/-- Whatever request reaches a driver operation, everything was checked. -/
theorem plan_mediated {req : WriteRequest} (h : S.plan c s req = .ok call) : Mediated S c s req call := by
  cases req with
  | create path =>
    obtain ⟨r, hr, h⟩ := except_bind_ok.1 h
    obtain ⟨hres, hw⟩ := resolveForCreate_ok hr
    exact .create hres hw (reach_ok hres.length h)
  | mkdir path =>
    obtain ⟨r, hr, h⟩ := except_bind_ok.1 h
    obtain ⟨hres, hw⟩ := resolveForCreate_ok hr
    exact .mkdir hres hw (reach_ok hres.length h)
  | symlink target path =>
    obtain ⟨r, hr, h⟩ := except_bind_ok.1 h
    obtain ⟨hres, hw⟩ := resolveForCreate_ok hr
    exact .symlink hres hw (reach_ok hres.length h)
  | link oldPath newPath =>
    obtain ⟨ro, hro, h⟩ := except_bind_ok.1 h
    have hro := resolve_ok hro
    split at h
    · cases h
    split at h
    · cases h
    obtain ⟨rn, hrn, h⟩ := except_bind_ok.1 h
    obtain ⟨hrn, hw⟩ := resolveForCreate_ok hrn
    exact .link hro hrn hw (reach₂_ok hro.length hrn.length h)
  | unlink path =>
    obtain ⟨r, hr, h⟩ := except_bind_ok.1 h
    have hr := resolve_ok hr
    split at h
    · cases h
    split at h
    · cases h
    split at h
    · cases h
    exact .unlink hr (checkDirWrite_zero hr.length (not_not.1 ‹_›)) (reach_ok hr.length h)
  | rmdir path =>
    obtain ⟨r, hr, h⟩ := except_bind_ok.1 h
    have hr := resolve_ok hr
    split at h
    · cases h
    split at h
    · cases h
    split at h
    · cases h
    split at h
    · cases h
    exact .rmdir hr (checkDirWrite_zero hr.length (not_not.1 ‹_›)) (reach_ok hr.length h)
  | rename oldPath newPath =>
    obtain ⟨ro, hro, h⟩ := except_bind_ok.1 h
    obtain ⟨rn, hrn, h⟩ := except_bind_ok.1 h
    have hro := resolve_ok hro
    have hrn := resolve_ok hrn
    split at h
    · cases h
    split at h
    · cases h
    rename_i hwo
    split at h
    · cases h
    rename_i hwn
    exact .rename hro hrn (checkDirWrite_zero hro.length (not_not.1 hwo))
      (checkDirWrite_zero hrn.length (not_not.1 hwn)) (reach₂_ok hro.length hrn.length h)
  | writeFile path data flags =>
    obtain ⟨r, hr, h⟩ := except_bind_ok.1 h
    have hr := resolve_ok hr
    split at h
    · rename_i st hst
      split at h
      · cases h
      · rename_i hw
        exact .overwrite hr hst (by simpa using hw) (reach_ok hr.length h)
    · rename_i hst
      split at h
      · cases h
      · exact .newFile hr hst (checkDirWrite_zero hr.length (not_not.1 ‹_›)) (reach_ok hr.length h)

/-- **Complete mediation**: a request that reaches a driver operation was checked, and that operation is all it does. -/
theorem writes_mediated {req : WriteRequest} {call : Call} (h : S.plan c s req = .ok call) :
    Mediated S c s req call ∧ ∀ text, (S.finish text s (S.plan c s req)).2 = (S.perform call s).2 := by
  refine ⟨plan_mediated h, fun text => ?_⟩
  rw [h]
  rfl

end

/-- A system with an empty root directory that everybody may write. -/
def emptySys : Sys Unit := plainSys (fun _ p => if p = [slash] then some (rootOwned .dir 0o40777) else none) (by
  intro s st h
  cases h
  decide)

/-- A user who creates "/f" there reaches the driver. -/
theorem writes_mediated_create :
    Mediated emptySys ⟨1000, 1000⟩ () (.create [slash, 102]) ⟨⟨[slash], .ext2⟩, .create [slash, 102] false⟩ :=
  (writes_mediated (by rfl)).1

end PureUnix.Vfs
