import PureUnix.Editor.Runs

/-!
# Undo

`save_undo` is called in each of some twenty branches of `handle_normal`. Each calls it before it touches a line or the cursor, and
nothing that follows until the command is over writes to the copy: "u" brings back what there was before the command
(`undo_restores`).
-/
namespace PureUnix.Editor
open Lib CStr List Option

namespace Vim
variable {u v w : Vim} {key : Int} {line : Text} {len r : Nat} {next : Option Vim} {f : Vim → Option Vim}

def texts (v : Vim) : List (Option Text) := v.buf.map cstr

/-- What no edit writes to: the first key of a command, and the copy. -/
def aside (v : Vim) : Option Pending × Bool × List Text × Nat × Nat := (v.pending, v.hasUndo, v.ubuf, v.ucx, v.ucy)

/-- What is the same, too, where only the cursor moves. -/
def core (v : Vim) : List Text × Mode × Option Pending × Bool × List Text × Nat × Nat := (v.buf, v.mode, v.aside)

def Steady (v w : Vim) : Prop := w.core = v.core

theorem Steady.aside (h : Steady v w) : w.aside = v.aside := congrArg (·.2.2) h

/-- `w` has a copy of the lines and the cursor of `v`, and no command is half typed. -/
structure Saved (v w : Vim) : Prop where
  pending : w.pending = none
  hasUndo : w.hasUndo = true
  texts : w.ubuf.map cstr = v.texts
  cx : w.ucx = v.cx
  cy : w.ucy = v.cy

theorem Saved.kept (h : Saved v u) (hk : w.aside = u.aside) : Saved v w := by
  simp only [aside, Prod.mk.injEq] at hk
  obtain ⟨hpending, hhas, hbuf, hcx, hcy⟩ := hk
  exact ⟨hpending.trans h.pending, hhas.trans h.hasUndo, hbuf ▸ h.texts, hcx.trans h.cx, hcy.trans h.cy⟩

/-! ## The copy -/

theorem saveUndo_saved (h : v.Ok) (hp : v.pending = none) : Yields v.saveUndo (Saved v) := by
  refine .bind (P := fun lines => lines.map cstr = v.texts) (fun lines hlines => ?_) fun lines htexts => .pure ⟨hp, rfl, htexts, rfl, rfl⟩
  obtain ⟨lines', hm, hlen, hall⟩ := Ends.mapM fun b hb => by
      obtain ⟨s, hs⟩ := h.doc.lines b hb
      exact .seq hs.strlen ((lalloc_text hs (Nat.zero_le _)).mono fun _ _ => trivial)
  cases hm.symm.trans hlines
  refine ext_getElem? fun i => ?_
  rw [texts, getElem?_map, getElem?_map]
  by_cases hi : i < v.buf.length
  · -- the copy of a line has its text
    have hi' : i < lines.length := by omega
    obtain ⟨s, hs⟩ := h.doc.lines _ (getElem_mem hi)
    obtain ⟨b', hb', ht⟩ := lalloc_text hs (Nat.zero_le _)
    have hcopy := (hall i _ _ (getElem?_eq_getElem hi) (getElem?_eq_getElem hi')).1
    rw [hs.strlen] at hcopy
    cases hb'.symm.trans hcopy
    rw [getElem?_eq_getElem hi, getElem?_eq_getElem hi', map_some, map_some, ht.cstr, hs.cstr]
    rfl
  · rw [getElem?_eq_none (by omega), getElem?_eq_none (by omega)]

/-! ## What leaves it alone -/

theorem clampCx_steady : Yields v.clampCx (Steady v) :=
  .seq fun _ => .seq fun _ => .pure (by split_ifs <;> rfl)

theorem yankLine_steady : Yields (v.yankLine r) (Steady v) := .seq fun _ => .seq fun _ => .pure rfl

theorem moveWordFwd_steady : Yields v.moveWordFwd (Steady v) :=
  .seq fun _ => .seq fun _ => .ite (.seq fun _ => .seq fun _ => .pure rfl) (.pure (by split <;> rfl))

theorem moveWordBack_steady : Yields v.moveWordBack (Steady v) :=
  .ite (.seq fun _ => .seq fun _ => .seq fun _ => .seq fun _ => .pure rfl)
    (.ite (.seq fun _ => .seq fun _ => .pure rfl) (.pure rfl))

theorem searchNextFrom_steady : ∀ is : List Nat, Yields (v.searchNextFrom is) (Steady v)
  | [] => .pure rfl
  | _ :: is => .seq fun _ => .seq fun _ => .ite (searchNextFrom_steady is) (.seq fun r => by
    cases r with
    | none => exact searchNextFrom_steady is
    | some _ => exact .pure rfl)

theorem searchBackFrom_steady : ∀ is : List Nat, Yields (v.searchBackFrom is) (Steady v)
  | [] => .pure rfl
  | _ :: is => .seq fun _ => .seq fun _ => .ite (searchBackFrom_steady is) (.seq fun r => by
    cases r with
    | none => exact searchBackFrom_steady is
    | some _ => exact .pure rfl)

theorem saveFile_steady {fs : Files} : Yields (v.saveFile fs) fun r => Steady v r.2 :=
  .seq fun _ => .ite (.pure rfl) (.ite (.pure rfl) (.pure rfl))

/-- The copy stays, whatever becomes of the lines. -/
def Keeps (v : Vim) (m : Option Vim) : Prop := Yields m fun w => w.aside = v.aside

theorem Keeps.then {m : Option Vim} (h : Keeps v m) (hf : ∀ w, Keeps w (f w)) : Keeps v (m >>= f) :=
  .bind h fun w hw => (hf w).mono fun _ hx => hx.trans hw

theorem openLine_keeps {b : Text} : Keeps v (v.openLine r b) := .ite (.pure rfl) .fail

theorem closeLine_keeps : Keeps v (v.closeLine r) := .ite (.pure rfl) .fail

theorem insertChar_keeps {c : UInt8} : Keeps v (v.insertChar c) :=
  .seq fun _ => .seq fun _ => .ite (.pure rfl) (.seq fun _ => .seq fun _ => .pure rfl)

theorem insertNewline_keeps : Keeps v v.insertNewline :=
  Yields.ite (.pure rfl) (.seq fun _ => .seq fun _ => .seq fun _ => .seq fun _ => Keeps.then openLine_keeps fun _ => .pure rfl)

theorem backspaceChar_keeps : Keeps v v.backspaceChar :=
  .ite (.seq fun _ => .seq fun _ => .seq fun _ => .pure rfl) (.ite (.seq fun _ => .seq fun _ => .seq fun _ => .seq fun _ =>
    .ite (.seq fun _ => Keeps.then closeLine_keeps fun _ => .pure rfl) (.pure rfl)) (.pure rfl))

theorem deleteFwd_keeps : Keeps v v.deleteFwd :=
  .seq fun _ => .seq fun _ => .ite (.seq fun _ => .pure rfl) (.ite (.seq fun _ => .seq fun _ =>
    .ite (.seq fun _ => Keeps.then closeLine_keeps fun _ => .pure rfl) (.pure rfl)) (.pure rfl))

theorem deleteLine_keeps : Keeps v (v.deleteLine r) :=
  Yields.ite (.seq fun _ => .seq fun _ => .pure rfl) (Keeps.then closeLine_keeps fun _ => .pure (by split <;> rfl))

theorem deleteToEol_keeps : Keeps v v.deleteToEol := .seq fun _ => .seq fun _ => .ite (.pure rfl) (.seq fun _ => .pure rfl)

theorem pasteBelow_keeps : Keeps v v.pasteBelow :=
  Yields.ite (.pure rfl) (.seq fun _ => .seq fun _ => Keeps.then openLine_keeps fun _ => .pure rfl)

theorem pasteAbove_keeps : Keeps v v.pasteAbove :=
  Yields.ite (.pure rfl) (.seq fun _ => .seq fun _ => Keeps.then openLine_keeps fun _ => .pure rfl)

theorem insertBlanks_keeps : ∀ (n : Nat) {v : Vim}, Keeps v (insertBlanks n v)
  | 0, _ => .pure rfl
  | n + 1, _ => .then insertChar_keeps fun _ => insertBlanks_keeps n

theorem handleInsert_keeps : Keeps v (v.handleInsert key) := by
  have hclamp : ∀ {w : Vim}, w.aside = v.aside → Keeps v w.clampCx := fun hw => clampCx_steady.mono fun _ hx => hx.aside.trans hw
  refine .ite (hclamp rfl) (.ite insertNewline_keeps (.ite backspaceChar_keeps (.ite deleteFwd_keeps (.ite ?up (.ite ?down
    (.ite (.pure ?left) (.ite ?right (.ite (.pure rfl) (.ite (.seq fun _ => .seq fun _ => .pure rfl) (.ite (insertBlanks_keeps 4)
    (.ite insertChar_keeps (.pure rfl))))))))))))
  case up => exact .ite (hclamp rfl) (.pure rfl)
  case down => exact .ite (hclamp rfl) (.pure rfl)
  case left => split <;> rfl
  case right => exact .seq fun _ => .seq fun _ => .pure (by split <;> rfl)

/-! ## Commands -/

/-- After a key of normal mode there is a copy of what was before it, or the lines are the same; then the mode is not INSERT, and
while the command is half typed the cursor is the same, too. -/
def Took (v w : Vim) : Prop :=
  Saved v w ∨ (w.buf = v.buf ∧ w.mode ≠ .INSERT ∧ (w.pending = none ∨ (w.cx = v.cx ∧ w.cy = v.cy)))

/-- A key is looked at, and no command is half typed. -/
structure Ready (v : Vim) : Prop where
  ok : v.Ok
  mode : v.mode ≠ .INSERT
  pending : v.pending = none

namespace Ready

section
variable (h : v.Ready)
include h

theorem steady {m : Option Vim} (hm : Yields m (Steady v)) : Yields m (Took v) := by
  refine hm.mono fun w hw => .inr ⟨congrArg (·.1) hw, ?_, .inl ((congrArg (·.2.2.1) hw).trans h.pending)⟩
  exact fun hi => h.mode ((congrArg (·.2.1) hw).symm.trans hi)

theorem still (hw : Steady v w) : Yields (some w) (Took v) := h.steady (.pure hw)

theorem save (hf : ∀ w, Keeps w (f w)) : Yields (v.saveUndo >>= f) (Took v) :=
  (saveUndo_saved h.ok h.pending).bind fun w hw => (hf w).mono fun _ hx => .inl (hw.kept hx)

theorem pendingD : Yields (v.pendingD key line len) (Took v) := by
  refine .ite (h.save fun w => ?_) (.ite (h.save fun w => ?_) (.ite (h.save fun w => deleteToEol_keeps) (.ite (h.save fun w => ?_) (h.still rfl))))
  · exact .then (yankLine_steady.mono fun _ => Steady.aside) fun _ => deleteLine_keeps
  · exact .ite (.seq fun _ => .seq fun _ => .seq fun _ => .pure rfl) (.pure rfl)
  · exact .seq fun _ => .pure rfl

theorem pendingC : Yields (v.pendingC key line len) (Took v) := by
  refine .ite (h.save fun w => ?_) (.ite (h.save fun w => ?_) (h.still rfl))
  · exact .then (yankLine_steady.mono fun _ => Steady.aside) fun _ => .seq fun _ => .pure rfl
  · exact .ite (.seq fun _ => .seq fun _ => .pure rfl) (.pure rfl)

theorem pendingKey (p : Pending) : Yields (v.pendingKey p key line len) (Took v) := by
  cases p with
  | d => exact h.pendingD
  | c => exact h.pendingC
  | g => exact h.still (by split <;> rfl)
  | y => exact .ite (h.steady (yankLine_steady.bind fun _ hw => .pure hw)) (h.still rfl)
  | r => exact .ite (h.save fun _ => .seq fun _ => .pure rfl) (h.still rfl)

/-- The first key of a command of two. -/
theorem half {p : Pending} : Yields (some { v with pending := some p }) (Took v) :=
  .pure (.inr ⟨rfl, h.mode, .inr ⟨rfl, rfl⟩⟩)

theorem movement (hnext : Yields next (Took v)) : Yields (v.movement key line len next) (Took v) := by
  have hclamp : ∀ {w : Vim}, Steady v w → Yields w.clampCx (Took v) := fun hw => h.steady (clampCx_steady.mono fun _ hx =>
    hx.trans hw)
  refine .ite (h.still ?left) (.ite (h.still ?right) (.ite ?down (.ite ?up (.ite (h.still rfl) (.ite (h.still rfl)
    (.ite (.seq fun _ => h.still rfl) (.ite (moveWordFwd_steady.bind fun _ => hclamp) (.ite (h.steady moveWordBack_steady)
    (.ite (h.still rfl) (.ite h.half (.ite (hclamp rfl) (.ite (hclamp rfl) hnext))))))))))))
  case left => split <;> rfl
  case right => split <;> rfl
  case down => exact .ite (hclamp rfl) (h.still rfl)
  case up => exact .ite (hclamp rfl) (h.still rfl)

theorem enterInsert (hnext : Yields next (Took v)) : Yields (v.enterInsert key line len next) (Took v) := by
  refine .ite (h.save fun _ => .pure rfl) (.ite (h.save fun _ => .pure rfl) (.ite (h.save fun _ => .pure rfl)
    (.ite (h.save fun _ => .seq fun _ => .pure rfl) (.ite (h.save fun w => ?o) (.ite (h.save fun w => ?O) (.ite (h.save fun w => ?s)
    (.ite (h.save fun w => ?S) hnext)))))))
  case o => exact .ite (.seq fun _ => Keeps.then openLine_keeps fun _ => .pure rfl) (.pure rfl)
  case O => exact .ite (.seq fun _ => Keeps.then openLine_keeps fun _ => .pure rfl) (.pure rfl)
  case s => exact .ite (.seq fun _ => .pure rfl) (.pure rfl)
  case S => exact .then (yankLine_steady.mono fun _ => Steady.aside) fun _ => .seq fun _ => .pure rfl

theorem editing (hu : key ≠ ch 'u') (hnext : Yields next (Took v)) : Yields (v.editing key line len next) (Took v) := by
  have hsame : Yields (some v) (Took v) := h.still rfl
  refine .ite (.ite (h.save fun w => ?x) hsame) (.ite (.ite (h.save fun _ => .seq fun _ => .pure rfl) hsame) (.ite h.half
    (.ite (h.save fun _ => deleteToEol_keeps) (.ite (h.save fun _ => .seq fun _ => .pure rfl) (.ite h.half (.ite h.half
    (.ite (h.save fun _ => pasteBelow_keeps) (.ite (h.save fun _ => pasteAbove_keeps) (.ite h.half (.ite (.ite (h.save fun w => ?J) hsame) ?u))))))))))
  case x => exact .seq fun _ => Keeps.then (clampCx_steady.mono fun _ => Steady.aside) fun _ => .pure rfl
  case J =>
    exact .seq fun _ => .seq fun _ => .ite (.seq fun _ => .seq fun _ => Keeps.then closeLine_keeps fun _ => .pure rfl) (.pure rfl)
  case u =>
    rw [if_neg hu]
    exact hnext

theorem searchAndSave (fs : Files) : Yields (v.searchAndSave key fs) (Took v) := by
  have hmode : ∀ {w : Vim}, w.buf = v.buf → w.mode ≠ .INSERT → w.pending = v.pending → Yields (some w) (Took v) := fun hb hm hp =>
    .pure (.inr ⟨hb, hm, .inl (hp.trans h.pending)⟩)
  refine .ite (.seq fun _ => hmode rfl nofun rfl) (.ite (h.steady ?next) (.ite (h.steady ?back) (.ite (.seq fun _ => hmode rfl nofun rfl)
    (.ite (saveFile_steady.bind fun _ hr => h.still hr) (.ite (h.still ?quit) (h.still rfl))))))
  case next => exact .ite (.pure rfl) (searchNextFrom_steady _)
  case back => exact .ite (.pure rfl) (searchBackFrom_steady _)
  case quit => split <;> rfl

end

end Ready

theorem Took.of (h : Took u w) (hb : u.buf = v.buf) (hx : u.cx = v.cx) (hy : u.cy = v.cy) : Took v w := by
  rcases h with h | ⟨hb', hm, hp⟩
  · exact .inl ⟨h.pending, h.hasUndo, h.texts.trans (congrArg (List.map cstr) hb), h.cx.trans hx, h.cy.trans hy⟩
  · exact .inr ⟨hb'.trans hb, hm, hp.imp_right fun hp => ⟨hp.1.trans hx, hp.2.trans hy⟩⟩

theorem doScroll_eq (v : Vim) : ∃ r c, v.doScroll = { v with rowOff := r, colOff := c } := by
  unfold doScroll
  dsimp only
  split_ifs <;> exact ⟨_, _, rfl⟩

/-- **One key of normal mode**, other than "u". -/
theorem step_took (h : v.Ok) (hm : v.mode = .NORMAL) (hu : v.pending = none → key ≠ ch 'u') (fs : Files) :
    Yields (v.step key fs) (Took v) := by
  obtain ⟨r, c, hs⟩ := v.doScroll_eq
  simp only [step, hs, hm]
  refine .seq fun line => .seq fun len => ?_
  split
  · have hr : Ready { v with rowOff := r, colOff := c, mode := .NORMAL, msg := [], pending := none } := ⟨h, nofun, rfl⟩
    exact (hr.pendingKey _).mono fun _ hw => hw.of rfl rfl rfl
  · rename_i hp
    have hr : Ready { v with rowOff := r, colOff := c, mode := .NORMAL, msg := [] } := ⟨h, nofun, hp⟩
    exact (hr.movement (hr.enterInsert (hr.editing (hu hp) (hr.searchAndSave fs)))).mono fun _ hw => hw.of rfl rfl rfl

/-- The keys of a command behind its first, up to the one that ends it. -/
def finish : List (Int × Files) → Vim → Option Vim
  | [], v => if v.mode = .NORMAL ∧ v.pending = none then some v else none
  | (key, fs) :: rest, v => if v.mode = .INSERT ∨ (v.mode = .NORMAL ∧ v.pending ≠ none) then (v.step key fs).bind (finish rest) else none

theorem finish_took (keys : List (Int × Files)) : ∀ {u : Vim}, u.Ok → Took v u →
    Yields (finish keys u) fun w => (w.Ok ∧ Took v w) ∧ w.mode = .NORMAL ∧ w.pending = none := by
  induction keys with
  | nil =>
    intro u h ht w hw
    obtain ⟨hend, hw⟩ := ite_none_right_eq_some.1 hw
    cases hw
    exact ⟨⟨h, ht⟩, hend⟩
  | cons k keys ih =>
    intro u h ht w hw
    obtain ⟨hbusy, hw⟩ := ite_none_right_eq_some.1 hw
    obtain ⟨x, hx, hw⟩ := bind_eq_some_iff.1 hw
    obtain ⟨_, hx', hok⟩ := step_ends h k.1 k.2
    cases hx.symm.trans hx'
    refine ih hok ?_ w hw
    rcases hbusy with hm | ⟨hm, hp⟩
    · -- in INSERT mode there is a copy, and it stays
      rcases ht with hsaved | ⟨-, hne, -⟩
      · obtain ⟨r, c, hs⟩ := u.doScroll_eq
        simp only [step, hs, hm] at hx
        exact .inl (hsaved.kept ((handleInsert_keeps x hx).trans rfl))
      · exact absurd hm hne
    · rcases ht with hsaved | ⟨hb, -, hp' | ⟨hcx, hcy⟩⟩
      · exact absurd hsaved.pending hp
      · exact absurd hp' hp
      · exact (step_took h hm (fun h0 => absurd h0 hp) k.2 x hx).of hb hcx hcy

theorem step_undo (h : v.Ok) (hm : v.mode = .NORMAL) (hp : v.pending = none) (hu : v.hasUndo = true) (fs : Files) :
    Ends (v.step (ch 'u') fs) fun w => w.buf = v.ubuf ∧ w.cx = v.ucx ∧ w.cy = v.ucy := by
  obtain ⟨line, s, h⟩ := h.at
  obtain ⟨r, c, hs⟩ := v.doScroll_eq
  simp only [step, hs, hm]
  refine .seq h.here (.seq h.text.strlen ?_)
  simp only [hp]
  refine .pure ?_
  rw [doUndo, if_neg (by simp [hu])]
  exact ⟨rfl, rfl, rfl⟩

/-- **One undo takes back one command.** The command is the key, not "u", and those behind it that belong to it: the second one of two,
and all up to the Escape that leaves INSERT mode. -/
theorem undo_restores (h : v.Ok) (hm : v.mode = .NORMAL) (hkey : key ≠ ch 'u') {fs fs' : Files}
    {keys : List (Int × Files)} (hw : (v.step key fs).bind (finish keys) = some w) (hchanged : w.texts ≠ v.texts) :
    ∃ u, w.step (ch 'u') fs' = some u ∧ u.texts = v.texts ∧ u.cx = v.cx ∧ u.cy = v.cy := by
  obtain ⟨x, hx, hw⟩ := bind_eq_some_iff.1 hw
  obtain ⟨_, hx', hok⟩ := step_ends h key fs
  cases hx.symm.trans hx'
  obtain ⟨⟨hok', ht⟩, hm', hp'⟩ := finish_took keys hok (step_took h hm (fun _ => hkey) fs x hx) w hw
  rcases ht with hsaved | ⟨hb, -⟩
  · obtain ⟨u, hu, hbuf, hcx, hcy⟩ := step_undo hok' hm' hp' hsaved.hasUndo fs'
    exact ⟨u, hu, (congrArg (List.map cstr) hbuf).trans hsaved.texts, hcx.trans hsaved.cx, hcy.trans hsaved.cy⟩
  · exact absurd (congrArg (List.map cstr) hb) hchanged

/-- No file system is mounted. -/
def unmounted : Files := ⟨false, fun _ _ => -1⟩

def typeA : List (Int × Files) := [(ch 'a', unmounted), (KEY_ESCAPE, unmounted)]

/-- An "a" is typed into a new file and taken back. -/
theorem undo_restores_typed : ∃ v w u, start [] none = some v ∧ (v.step (ch 'i') unmounted).bind (finish typeA) = some w ∧
    w.texts = [some [97]] ∧ w.step (ch 'u') unmounted = some u ∧ u.texts = [some []] := by
  obtain ⟨v, hv, hok⟩ := start_ends [] none
  have htyped : ((start [] none).bind fun v => (v.step (ch 'i') unmounted).bind (finish typeA)).map texts = some [some [97]] := by
    decide +kernel
  have hmode : (start [] none).map mode = some .NORMAL := by decide +kernel
  have htexts : (start [] none).map texts = some [some []] := by decide +kernel
  rw [hv] at htyped hmode htexts
  obtain ⟨w, hw, htyped⟩ := map_eq_some_iff.1 htyped
  have htexts : v.texts = [some []] := Option.some.inj htexts
  obtain ⟨u, hu, hback, -⟩ := undo_restores hok (Option.some.inj hmode) (by decide) hw (by rw [htyped, htexts]; decide)
  exact ⟨v, w, u, hv, hw, htyped, hu, hback.trans htexts⟩

end Vim
end PureUnix.Editor
