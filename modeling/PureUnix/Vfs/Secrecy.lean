import PureUnix.Vfs.Mediation

/-!
# What an unsearchable directory hides

Two states that differ only strictly below a directory the credentials may neither read nor search. No
walk gets below it, so resolution runs the same in both (`run_same`), and with it every entry point that
resolves its path. `vfs_chmod` and `vfs_chown` do not: they tell whether the driver finds the literal path.
-/
namespace PureUnix.Vfs

open Lib List PathText Sys

variable {d dir : List Text} {f path r : Text}

def Below (d p : List Text) : Prop := d <+: p ∧ p ≠ d

theorem not_below_root : ¬ Below d [] := fun ⟨h, hne⟩ => hne (prefix_nil.1 h).symm

theorem not_below_up (h : ¬ Below d dir) : ¬ Below d dir.dropLast := by
  rintro ⟨hpre, hne⟩
  have hd : d <+: dir := hpre.trans ( dropLast_prefix dir)
  have he : dir = d := by
    by_contra hc
    exact h ⟨hd, hc⟩
  subst he
  exact hne (( dropLast_prefix dir).eq_of_length_le hpre.length_le)

theorem not_below_concat (h : ¬ Below d dir) (hne : dir ≠ d) : ¬ Below d (dir ++ [f]) := by
  rintro ⟨hpre, hne'⟩
  exact h ⟨prefix_concat_cases hpre fun he => hne' he.symm, hne⟩

/-- A text that names something which is not strictly below `d`. -/
def Outside (d : List Text) (text : Text) : Prop :=
  ∃ names, PathText.Good slash names ∧ text = pathOf names ∧ ¬ Below d names

/-- Two views that agree outside, on a directory that may not be searched. -/
structure SameOutside (V₁ V₂ : View) (c : Cred) (d : List Text) : Prop where
  good : PathText.Good slash d
  closed : ¬ MaySearch V₁ c (pathOf d)
  stat : ∀ p, Outside d p → V₁.stat p = V₂.stat p
  readlink : ∀ p, Outside d p → V₁.readlink p = V₂.readlink p

section
variable {V₁ V₂ : View} {c : Cred} {d : List Text} {followFinal : Bool} {w : Walk}

theorem Outside.root (d : List Text) : Outside d [slash] := ⟨[], good_nil, rfl, not_below_root⟩

theorem Outside.parent {text : Text} (h : Outside d text) : Outside d (parent slash text) := by
  obtain ⟨names, hg, rfl, hb⟩ := h
  exact ⟨names.dropLast, hg.dropLast, parent_render hg, not_below_up hb⟩

section
variable (h : SameOutside V₁ V₂ c d)
include h

theorem Outside.append {text : Text} (ht : Outside d text) (hs : MaySearch V₁ c text)
    (h0 : f ≠ []) (hf : slash ∉ f) : Outside d (append slash text f) := by
  obtain ⟨names, hg, rfl, hb⟩ := ht
  refine ⟨names ++ [f], hg.concat h0 hf, append_render hg f, not_below_concat hb ?_⟩
  rintro rfl
  exact h.closed hs

theorem visit_same (hw : Outside d w.resolved) {rest : Text} (h0 : f ≠ []) (hf : slash ∉ f)
    (h1 : f ≠ dotName) (h2 : f ≠ dotdotName) : visit V₁ c followFinal w f rest = visit V₂ c followFinal w f rest := by
  unfold visit
  rw [← h.stat _ hw, resolvedAppend_name h1 h2]
  cases hd : V₁.stat w.resolved with
  | none => rfl
  | some st =>
    dsimp only
    by_cases hx : access st c X_OK = false
    · rw [if_pos hx, if_pos hx]
    have hout := Outside.append h hw ⟨st, hd, by simpa using hx⟩ h0 hf
    by_cases hfit : (append slash w.resolved f).length < PUREUNIX_MAX_PATH
    · rw [if_pos hfit]
      dsimp only
      rw [h.stat _ hout, h.readlink _ hout]
    · rw [if_neg hfit]

theorem SameOutside.keeps : Keeps V₁ c (Outside d) where
  root := Outside.root d
  up := Outside.parent
  enter := fun hw hn hs _ => Outside.append h hw hs hn.2.1 (first_notMem _)

theorem step_same (hw : Outside d w.resolved) (followFinal : Bool) : w.step V₁ c followFinal = w.step V₂ c followFinal := by
  unfold Walk.step
  split
  · rfl
  dsimp only
  split
  · rfl
  rename_i h0
  split
  · rfl
  split
  · rfl
  split
  · rfl
  exact visit_same h hw h0 (first_notMem _) ‹_› ‹_›

/-- **Resolution runs the same in both views.** -/
theorem run_same (hw : Outside d w.resolved) (fuel : Nat) : w.run V₁ c followFinal fuel = w.run V₂ c followFinal fuel := by
  induction fuel generalizing w with
  | zero => rfl
  | succ fuel ih =>
    rw [Walk.run, Walk.run, ← step_same h hw followFinal]
    cases hs : w.step V₁ c followFinal with
    | inl o => rfl
    | inr w' => exact ih ((h.keeps.step hw).1 w' hs)

theorem resolvePath_same (path : Text) (followFinal : Bool) :
    resolvePath V₁ c path followFinal = resolvePath V₂ c path followFinal := by
  unfold resolvePath
  rw [run_same h (Outside.root d)]

end

end

/-! ## Entry points -/

/-- The public entry points that take a path. -/
inductive Request
  | stat (path : Text)
  | lstat (path : Text)
  | readFile (path : Text)
  | readdir (path : Text) (cb : Dirent → List Dirent → Int × List Dirent) (ctx : List Dirent)
  | readlink (path : Text) (bufsize : Nat)
  | write (req : WriteRequest)
  | chmod (path : Text) (mode : UInt16)
  | chown (path : Text) (uid gid : Nat)

/-- What a caller gets: a failure, or the code and the data put out. -/
inductive Reply
  | failed (f : Fail)
  | stat (st : Stat)
  | data (bytes : Text)
  | entries (ctx : List Dirent)
  | code (rc : Int)

/-- The text a failed driver operation leaves. -/
def WriteRequest.text : WriteRequest → String
  | .create _ => "create failed"
  | .mkdir _ => "mkdir failed"
  | .symlink .. => "symlink failed"
  | .link .. => "link failed"
  | .unlink _ => "unlink failed"
  | .rmdir _ => "rmdir failed"
  | .rename .. => "rename failed"
  | .writeFile .. => "write failed"

def Reply.of {α : Type} (f : α → Reply) : Except Fail α → Reply
  | .error e => .failed e
  | .ok a => f a

section
variable {σ : Type}

def Sys.serve (S : Sys σ) (c : Cred) (s : σ) : Request → Reply × σ
  | .stat path => (.of .stat (S.vfsStat c s path), s)
  | .lstat path => (.of .stat (S.vfsLstat c s path), s)
  | .readFile path => (.of .data (S.vfsReadFile c s path), s)
  | .readdir path cb ctx => (.of .entries (S.vfsReaddir c s path cb ctx), s)
  | .readlink path bufsize => (.of .data (S.vfsReadlink c s path bufsize), s)
  | .write req => (.of (fun _ => .code 0) (S.finish req.text s (S.plan c s req)).1, (S.finish req.text s (S.plan c s req)).2)
  | .chmod path mode => (.of .code (S.vfsChmod s path mode).1, (S.vfsChmod s path mode).2)
  | .chown path uid gid => (.of .code (S.vfsChown s path uid gid).1, (S.vfsChown s path uid gid).2)

/-- The mount-relative path `sub` names something that is not strictly below `d`. -/
def SubOutside (S : Sys σ) (d : List Text) (m : Mount) (sub : Text) : Prop :=
  ∃ p, Outside d p ∧ S.findMount p = some m ∧ sub = mountRelative m p

/-- The call works on such objects only. -/
def CallOutside (S : Sys σ) (d : List Text) (call : Call) : Prop :=
  match call.change with
  | .writeFile sub _ _ => SubOutside S d call.mount sub
  | .create sub _ => SubOutside S d call.mount sub
  | .unlink sub _ => SubOutside S d call.mount sub
  | .symlink _ sub => SubOutside S d call.mount sub
  | .rename oldSub newSub => SubOutside S d call.mount oldSub ∧ SubOutside S d call.mount newSub
  | .link oldSub newSub => SubOutside S d call.mount oldSub ∧ SubOutside S d call.mount newSub

/-- Two states that differ at most strictly below `d`, a directory the credentials may neither read nor search.
Driver operations on anything else, `d` itself included, have the same outcome in both. -/
structure Differ (S : Sys σ) (c : Cred) (d : List Text) (s₁ s₂ : σ) : Prop where
  good : PathText.Good slash d
  closed : ∃ st, S.statRaw s₁ (pathOf d) = some st ∧ access st c R_OK = false ∧ access st c X_OK = false
  stat : ∀ p, Outside d p → S.statRaw s₁ p = S.statRaw s₂ p
  readlink : ∀ p n, Outside d p → S.readlinkRaw s₁ p n = S.readlinkRaw s₂ p n
  readFile : ∀ p m sub f, Outside d p → p ≠ pathOf d → S.dispatch p = some (m, sub) → (S.ops m).readFile = some f →
    f s₁ sub = f s₂ sub
  readdir : ∀ p m sub f, Outside d p → p ≠ pathOf d → S.dispatch p = some (m, sub) → (S.ops m).readdir = some f →
    f s₁ sub = f s₂ sub
  perform : ∀ call, CallOutside S d call → (S.perform call s₁).1 = (S.perform call s₂).1

/-- The request asks a driver about a literal path only where both states give the same answer. -/
def Quiet (S : Sys σ) (s₁ s₂ : σ) : Request → Prop
  | .chmod path _ => (S.statRaw s₁ path).isSome = (S.statRaw s₂ path).isSome
  | .chown path _ _ => (S.statRaw s₁ path).isSome = (S.statRaw s₂ path).isSome
  | _ => True

variable {S : Sys σ} {c : Cred} {d : List Text} {s₁ s₂ : σ}

section
variable (h : Differ S c d s₁ s₂)
include h

theorem Differ.views : SameOutside (S.view s₁) (S.view s₂) c d := by
  refine ⟨h.good, ?_, h.stat, fun p hp => ?_⟩
  · rintro ⟨st, hst, hx⟩
    obtain ⟨st', hst', -, hx'⟩ := h.closed
    rw [show S.statRaw s₁ (pathOf d) = some st from hst] at hst'
    cases hst'
    rw [hx] at hx'
    cases hx'
  · change S.target s₁ p = S.target s₂ p
    unfold Sys.target
    rw [h.readlink p _ hp]

theorem Differ.resolve (path : Text) (followFinal : Bool) (text : String) :
    S.resolve c s₁ path followFinal text = S.resolve c s₂ path followFinal text ∧
    ∀ r, S.resolve c s₁ path followFinal text = .ok r → Outside d r := by
  unfold Sys.resolve
  rw [← resolvePath_same h.views path followFinal]
  refine ⟨rfl, fun r hr => ?_⟩
  split at hr
  · cases hr; exact h.views.keeps.resolvePath ‹_›
  · cases hr
  · cases hr

/-- Two computations that resolve a path first and then go on alike. -/
theorem Differ.bind {α : Type} {followFinal : Bool} {text : String}
    {f₁ f₂ : Text → Except Fail α} (hf : ∀ r, Outside d r → r.length < PUREUNIX_MAX_PATH → f₁ r = f₂ r) :
    (S.resolve c s₁ path followFinal text >>= f₁) = (S.resolve c s₂ path followFinal text >>= f₂) := by
  obtain ⟨he, hout⟩ := h.resolve path followFinal text
  rw [← he]
  cases hr : S.resolve c s₁ path followFinal text with
  | error e => rfl
  | ok r => exact hf r (hout r hr) (resolve_ok hr).length

theorem Differ.checkDirWrite (hr : Outside d r) (hl : r.length < PUREUNIX_MAX_PATH) :
    S.checkDirWrite c s₁ r = S.checkDirWrite c s₂ r := by
  unfold Sys.checkDirWrite parentOf
  rw [take_of_length_le (by omega), h.stat _ hr.parent]

theorem Differ.ne_of_readable {st : Stat} (hst : S.statRaw s₁ r = some st) (hr : access st c R_OK = true) : r ≠ pathOf d := by
  rintro rfl
  obtain ⟨st', hst', hr', -⟩ := h.closed
  rw [hst] at hst'
  cases hst'
  rw [hr] at hr'
  cases hr'

theorem Differ.resolveForCreate (path : Text) (text : String) :
    S.resolveForCreate c s₁ path text = S.resolveForCreate c s₂ path text := by
  refine h.bind fun r hr hl => ?_
  rw [h.stat r hr, h.checkDirWrite hr hl]

/-- Every writing request reaches the same driver operation. -/
theorem Differ.plan (req : WriteRequest) : S.plan c s₁ req = S.plan c s₂ req := by
  cases req with
  | create path =>
    change S.vfsCreate c s₁ path = S.vfsCreate c s₂ path
    unfold Sys.vfsCreate
    rw [h.resolveForCreate]
  | mkdir path =>
    change S.vfsMkdir c s₁ path = S.vfsMkdir c s₂ path
    unfold Sys.vfsMkdir
    rw [h.resolveForCreate]
  | symlink target path =>
    change S.vfsSymlink c s₁ target path = S.vfsSymlink c s₂ target path
    unfold Sys.vfsSymlink
    rw [h.resolveForCreate]
  | link oldPath newPath =>
    refine h.bind fun r hr hl => ?_
    rw [h.stat r hr, h.resolveForCreate]
  | unlink path =>
    refine h.bind fun r hr hl => ?_
    rw [h.stat r hr, h.checkDirWrite hr hl]
  | rmdir path =>
    refine h.bind fun r hr hl => ?_
    rw [h.stat r hr, h.checkDirWrite hr hl]
  | rename oldPath newPath =>
    refine h.bind fun ro hro hlo => ?_
    refine h.bind fun rn hrn hln => ?_
    rw [h.stat ro hro, h.checkDirWrite hro hlo, h.checkDirWrite hrn hln]
  | writeFile path data flags =>
    refine h.bind fun r hr hl => ?_
    rw [h.stat r hr, h.checkDirWrite hr hl]

/-- And that operation works outside. -/
theorem Differ.callOutside {req : WriteRequest} {call : Call} (hp : S.plan c s₁ req = .ok call) : CallOutside S d call := by
  have hout : ∀ {path r : Text} {followFinal : Bool}, Resolved S c s₁ path followFinal r → Outside d r := fun hr =>
    h.views.keeps.resolvePath hr.outcome
  have hone : ∀ {path r : Text} {followFinal : Bool} {m : Mount}, Resolved S c s₁ path followFinal r →
      S.findMount r = some m → SubOutside S d m (mountRelative m r) := fun hr hm => ⟨_, hout hr, hm, rfl⟩
  cases plan_mediated hp with
  | create hr _ ha => obtain ⟨m, hm, rfl⟩ := ha; exact hone hr hm
  | mkdir hr _ ha => obtain ⟨m, hm, rfl⟩ := ha; exact hone hr hm
  | symlink hr _ ha => obtain ⟨m, hm, rfl⟩ := ha; exact hone hr hm
  | link hro hrn _ ha => obtain ⟨m, hmo, hmn, rfl⟩ := ha; exact ⟨hone hro hmo, hone hrn hmn⟩
  | unlink hr _ ha => obtain ⟨m, hm, rfl⟩ := ha; exact hone hr hm
  | rmdir hr _ ha => obtain ⟨m, hm, rfl⟩ := ha; exact hone hr hm
  | rename hro hrn _ _ ha => obtain ⟨m, hmo, hmn, rfl⟩ := ha; exact ⟨hone hro hmo, hone hrn hmn⟩
  | overwrite hr _ _ ha => obtain ⟨m, hm, rfl⟩ := ha; exact hone hr hm
  | newFile hr _ _ ha => obtain ⟨m, hm, rfl⟩ := ha; exact hone hr hm

theorem Differ.finish (req : WriteRequest) :
    (S.finish req.text s₁ (S.plan c s₁ req)).1 = (S.finish req.text s₂ (S.plan c s₂ req)).1 := by
  rw [← h.plan req]
  cases hp : S.plan c s₁ req with
  | error e => rfl
  | ok call =>
    simp only [Sys.finish]
    rw [h.perform call (h.callOutside hp)]

end

theorem Sys.statRaw_of_dispatch {s : σ} {sub : Text} {m : Mount} (h : S.dispatch path = some (m, sub)) :
    S.statRaw s path = (S.ops m).stat.bind fun f => f s sub := by
  unfold Sys.statRaw
  rw [h]
  cases hs : (S.ops m).stat <;> simp [hs]

/-- Both tables lack the operation, so the reply only tells whether the driver finds the path. -/
theorem Sys.literal_eq {β : Type} {op : Ops σ → Option β} (hop : ∀ m, op (S.ops m) = none) (run : β → Text → σ → Int × σ) (s : σ)
    (path : Text) :
    (S.literal op run s path).1 = .error (.errno (if (S.statRaw s path).isSome then -EROFS else -ENOENT) none) := by
  unfold Sys.literal
  cases hd : S.dispatch path with
  | none => simp [Sys.statRaw, hd]
  | some msub =>
    obtain ⟨m, sub⟩ := msub
    rw [statRaw_of_dispatch hd]
    dsimp only
    rw [hop m]
    generalize ((S.ops m).stat.bind fun f => f s sub) = found
    cases found <;> rfl

theorem Sys.chmod_none (S : Sys σ) (m : Mount) : (S.ops m).chmod = none := by unfold Sys.ops; cases m.type <;> rfl

theorem Sys.chown_none (S : Sys σ) (m : Mount) : (S.ops m).chown = none := by unfold Sys.ops; cases m.type <;> rfl

theorem literal_reply_iff {a b : Bool} : Reply.of Reply.code (.error (.errno (if a then -EROFS else -ENOENT) none)) =
      Reply.of Reply.code (.error (.errno (if b then -EROFS else -ENOENT) none)) ↔ a = b := by
  constructor
  · intro h
    cases a <;> cases b <;> simp [Reply.of, EROFS, ENOENT] at h ⊢
  · rintro rfl; rfl

/-- **Searching a directory one may not search reveals nothing about what is in it**, except where a request
hands a driver its path unresolved. -/
theorem unsearchable_hides_iff (h : Differ S c d s₁ s₂) (req : Request) :
    (S.serve c s₁ req).1 = (S.serve c s₂ req).1 ↔ Quiet S s₁ s₂ req := by
  cases req with
  | stat path =>
    refine iff_of_true (congrArg (Reply.of Reply.stat) (h.bind fun r hr _ => ?_)) trivial
    rw [h.stat r hr]
  | lstat path =>
    refine iff_of_true (congrArg (Reply.of Reply.stat) (h.bind fun r hr _ => ?_)) trivial
    rw [h.stat r hr]
  | readFile path =>
    refine iff_of_true (congrArg (Reply.of Reply.data) (h.bind fun r hr _ => ?_)) trivial
    rw [← h.stat r hr]
    cases hst : S.statRaw s₁ r with
    | none => rfl
    | some st =>
      dsimp only
      by_cases hacc : access st c R_OK = false
      · rw [if_pos hacc, if_pos hacc]
      cases hdis : S.dispatch r with
      | none => rfl
      | some msub =>
        obtain ⟨m, sub⟩ := msub
        dsimp only
        cases hop : (S.ops m).readFile with
        | none => rfl
        | some f =>
          dsimp only
          rw [h.readFile r m sub f hr (h.ne_of_readable hst (by simpa using hacc)) hdis hop]
  | readdir path cb ctx =>
    refine iff_of_true (congrArg (Reply.of Reply.entries) (h.bind fun r hr _ => ?_)) trivial
    rw [← h.stat r hr]
    cases hst : S.statRaw s₁ r with
    | none => rfl
    | some st =>
      dsimp only
      by_cases hacc : access st c R_OK = false
      · rw [if_pos hacc, if_pos hacc]
      cases hdis : S.dispatch r with
      | none => rfl
      | some msub =>
        obtain ⟨m, sub⟩ := msub
        dsimp only
        cases hop : (S.ops m).readdir with
        | none => rfl
        | some f =>
          dsimp only
          rw [h.readdir r m sub f hr (h.ne_of_readable hst (by simpa using hacc)) hdis hop]
  | readlink path bufsize =>
    refine iff_of_true (congrArg (Reply.of Reply.data) (h.bind fun r hr _ => ?_)) trivial
    rw [h.stat r hr, h.readlink r bufsize hr]
  | write req =>
    exact iff_of_true (congrArg (Reply.of fun _ => Reply.code 0) (h.finish req)) trivial
  | chmod path mode =>
    simp only [Sys.serve, Quiet, Sys.vfsChmod]
    rw [literal_eq S.chmod_none, literal_eq S.chmod_none]
    exact literal_reply_iff
  | chown path uid gid =>
    simp only [Sys.serve, Quiet, Sys.vfsChown]
    rw [literal_eq S.chown_none, literal_eq S.chown_none]
    exact literal_reply_iff

end

/-- "/d" is a directory that only root may use. It holds the file "x" or the file "y". -/
def secretStat (s : Bool) (p : Text) : Option Stat :=
  if p = [slash] then some (rootOwned .dir 0o40755)
  else if p = [slash, 100] then some (rootOwned .dir 0o40700)
  else if p = [slash, 100, slash, if s then 120 else 121] then some (rootOwned .file 0o100644)
  else none

def secretSys : Sys Bool := plainSys secretStat (by
  intro s st h
  cases h
  decide)

theorem secret_outside {p : Text} (h : Outside [[100]] p) {b : UInt8} (hb : b ≠ slash) :
    p.take (PUREUNIX_MAX_PATH - 1) ≠ [slash, 100, slash, b] := by
  obtain ⟨names, hg, rfl, hbelow⟩ := h
  intro he
  have hlen := congrArg length he
  rw [take_of_length_le (by simp [PUREUNIX_MAX_PATH] at hlen ⊢; omega)] at he
  have hgood : PathText.Good slash [[100], [b]] := by
    intro f hf
    rcases mem_pair.1 hf with rfl | rfl
    · decide
    · exact ⟨by simp, by simpa using Ne.symm hb⟩
  have hn := render_injective hg hgood he
  subst hn
  exact hbelow ⟨⟨[[b]], rfl⟩, by simp⟩

theorem secret_differ : Differ secretSys ⟨1000, 1000⟩ [[100]] true false where
  good := by
    intro f hf
    rcases mem_singleton.1 hf with rfl
    decide
  closed := ⟨rootOwned .dir 0o40700, rfl, rfl, rfl⟩
  stat := by
    intro p hp
    unfold secretSys
    rw [plainSys_statRaw, plainSys_statRaw]
    simp [secretStat, secret_outside hp (show (120 : UInt8) ≠ slash by decide),
      secret_outside hp (show (121 : UInt8) ≠ slash by decide)]
  readlink := by
    intro p n _
    unfold Sys.readlinkRaw
    cases secretSys.dispatch p with
    | none => rfl
    | some msub =>
      obtain ⟨⟨_, type⟩, sub⟩ := msub
      cases type <;> rfl
  readFile := by
    intro p m sub f _ _ _ hf
    unfold secretSys plainSys Sys.ops at hf
    split at hf <;> cases hf <;> rfl
  readdir := by
    intro p m sub f _ _ _ hf
    unfold secretSys plainSys Sys.ops at hf
    split at hf <;> cases hf <;> rfl
  perform := by
    intro call _
    obtain ⟨⟨_, type⟩, change⟩ := call
    cases type <;> cases change <;> rfl

/-- `vfs_stat` of "/d/x" says the same in both. -/
theorem unsearchable_hides_iff_stat : (secretSys.serve ⟨1000, 1000⟩ true (.stat [slash, 100, slash, 120])).1 =
    (secretSys.serve ⟨1000, 1000⟩ false (.stat [slash, 100, slash, 120])).1 :=
  (unsearchable_hides_iff secret_differ _).2 trivial

/-- `vfs_chmod` of "/d/x" fails with `-EROFS` where the file exists and with `-ENOENT` where it does not. -/
theorem chmod_tells : Differ secretSys ⟨1000, 1000⟩ [[100]] true false ∧
    (secretSys.serve ⟨1000, 1000⟩ true (.chmod [slash, 100, slash, 120] 0)).1 = .failed (.errno (-EROFS) none) ∧
    (secretSys.serve ⟨1000, 1000⟩ false (.chmod [slash, 100, slash, 120] 0)).1 = .failed (.errno (-ENOENT) none) :=
  ⟨secret_differ, rfl, rfl⟩

end PureUnix.Vfs
