import PureUnix.Editor.Inside

/-!
# Runs of the editor

Every key keeps `Vim.Ok`, in every mode and with every half-typed command, so every run does: one lemma for each group of keys, one for
each mode, one for the loop.
-/
namespace PureUnix.Editor
open Lib CStr List Nat

namespace Vim
variable {v : Vim} {line s : Text} {key : Int} {next : Option Vim}

/-! ## The second key of a command -/

theorem pendingD_ends (h : v.At line s) : Ends (v.pendingD key line s.length) Ok := by
  refine .ite (fun _ => ?dd) fun _ => .ite (fun _ => ?dw) fun _ => .ite (fun _ => ?deol) fun _ =>
    .ite (fun _ => ?d0) fun _ => .pure h.ok
  case dd =>
    apply h.saveUndo
    intro w hw _ _ _
    apply hw.yankLine
    intro u hu _
    exact deleteLine_ends hu.ok
  case dw =>
    apply h.saveUndo
    intro w hw _ _ _
    refine .ite (fun hcx => ?_) fun _ => .pure hw.ok
    refine .bind (wordEnd_ends hw.len_le hcx) fun e he => ?_
    refine .bind (skipWhile_ends hw.len_le he.2) fun e' he' => ?_
    obtain ⟨b, hmove, hok⟩ := hw.remove (Nat.le_trans he.1 he'.1) he'.2
    exact .seq hmove (.pure hok)
  case deol =>
    apply h.saveUndo
    intro w hw _ _ _
    exact deleteToEol_ends hw.ok
  case d0 =>
    apply h.saveUndo
    intro w hw _ _ _
    obtain ⟨b, hput, hok⟩ := hw.cut (Nat.zero_le _)
    exact .seq hput (.pure (hok 0 (Nat.le_refl _)))

/-- The current line is emptied, for "cc" and "S". -/
theorem At.emptied (h : v.At line s) : Ends (do
    let v ← v.yankLine v.cy
    let line ← put line 0 0
    some { v.setLine line with cx := 0, dirty := true, mode := .INSERT }) Ok := by
  apply h.yankLine
  intro w hw _
  obtain ⟨b, hput, hok⟩ := hw.cut (Nat.zero_le _)
  exact .seq hput (.pure (hok 0 (Nat.le_refl _)))

theorem pendingC_ends (h : v.At line s) : Ends (v.pendingC key line s.length) Ok := by
  refine .ite (fun _ => ?cc) fun _ => .ite (fun _ => ?cw) fun _ => .pure h.ok
  case cc =>
    apply h.saveUndo
    intro w hw _ _ _
    exact hw.emptied
  case cw =>
    apply h.saveUndo
    intro w hw _ _ _
    refine .ite (fun hcx => ?_) fun _ => .pure hw.ok
    refine .bind (wordEnd_ends hw.len_le hcx) fun e he => ?_
    obtain ⟨b, hmove, hok⟩ := hw.remove he.1 he.2
    exact .seq hmove (.pure hok)

theorem pendingKey_ends (h : v.At line s) (p : Pending) : Ends (v.pendingKey p key line s.length) Ok := by
  cases p with
  | d => exact pendingD_ends h
  | c => exact pendingC_ends h
  | g =>
    refine .pure ?_
    split
    · exact h.ok.moved (h.doc.home (Nat.lt_of_le_of_lt (Nat.zero_le _) h.lt))
    · exact h.ok
  | y =>
    refine .ite (fun _ => ?_) fun _ => .pure h.ok
    apply h.yankLine
    intro w hw _
    exact .pure hw.ok
  | r =>
    refine .ite (fun hkey => ?_) fun _ => .pure h.ok
    apply h.saveUndo
    intro w hw _ _ hcx
    obtain ⟨b, hput, ht⟩ := hw.text.set (hcx.symm ▸ hkey.2.2) (keyByte_ne_zero ⟨hkey.1, hkey.2.1⟩)
    refine .seq hput (.pure (hw.edit ht ?_))
    rw [length_set]
    exact hw.cx

/-! ## Normal mode -/

theorem movement_ends (h : v.At line s) (hnext : Ends next Ok) : Ends (v.movement key line s.length next) Ok := by
  have hcx := h.cx
  have hlt : v.cy < v.nlines := h.lt
  refine .ite (fun _ => .pure ?left) fun _ => .ite (fun _ => .pure ?right) fun _ => .ite (fun _ => ?down) fun _ =>
    .ite (fun _ => ?up) fun _ => .ite (fun _ => .pure ?home) fun _ => .ite (fun _ => .pure ?eol) fun _ =>
    .ite (fun _ => ?firstWord) fun _ => .ite (fun _ => ?wordFwd) fun _ => .ite (fun _ => moveWordBack_ends h.ok) fun _ =>
    .ite (fun _ => .pure ?lastLine) fun _ => .ite (fun _ => .pure h.ok) fun _ => .ite (fun _ => ?pageUp) fun _ =>
    .ite (fun _ => ?pageDown) fun _ => hnext
  case left =>
    split
    · exact h.column (by omega)
    · exact h.ok
  case right =>
    split
    · exact h.column (by omega)
    · exact h.ok
  case down => exact .ite (fun hn => clampCx_ends h.ok hn) fun _ => .pure h.ok
  case up => exact .ite (fun _ => clampCx_ends h.ok (by omega)) fun _ => .pure h.ok
  case home => exact h.column (zero_le _)
  case eol =>
    refine h.column ?_
    split <;> omega
  case firstWord => exact .bind (skipWhile_ends h.len_le (zero_le _)) fun i hi => .pure (h.column hi.2)
  case wordFwd => exact .bind (moveWordFwd_ends h.ok) fun w hw => clampCx_ends hw hw.doc.lt
  case lastLine => exact h.ok.moved (h.doc.home (Nat.sub_lt h.ok.pos Nat.one_pos))
  case pageUp =>
    refine clampCx_ends h.ok ?_
    split <;> omega
  case pageDown =>
    refine clampCx_ends h.ok ?_
    split <;> omega

/-- An empty line comes in, for "o" and "O". -/
theorem At.opened (h : v.At line s) {r : Nat} (hr : r ≤ v.nlines) (hn : v.nlines < VIM_MAX_LINES) : ∃ nl w,
    lalloc [] 0 0 = some nl ∧ v.openLine r nl = some w ∧ w.cy = v.cy ∧ ∀ mode, Ok { w with cy := r, cx := 0, dirty := true, mode := mode } := by
  obtain ⟨nl, hnl, hend⟩ := lalloc_empty
  obtain ⟨hopen, hin⟩ := h.ok.openLine hr hn hend
  exact ⟨nl, _, hnl, hopen, rfl, fun _ => h.ok.moved hin⟩

theorem enterInsert_ends (h : v.At line s) (hnext : Ends next Ok) : Ends (v.enterInsert key line s.length next) Ok := by
  refine .ite (fun _ => ?i) fun _ => .ite (fun _ => ?a) fun _ => .ite (fun _ => ?A) fun _ => .ite (fun _ => ?I) fun _ =>
    .ite (fun _ => ?o) fun _ => .ite (fun _ => ?O) fun _ => .ite (fun _ => ?s) fun _ => .ite (fun _ => ?S) fun _ => hnext
  case i =>
    apply h.saveUndo
    intro w hw _ _ _
    exact .pure hw.ok
  case a =>
    apply h.saveUndo
    intro w hw _ _ _
    have hcx := hw.cx
    refine .pure (hw.column ?_)
    split <;> omega
  case A =>
    apply h.saveUndo
    intro w hw _ _ _
    exact .pure (hw.column (Nat.le_refl _))
  case I =>
    apply h.saveUndo
    intro w hw _ _ _
    exact .bind (skipWhile_ends hw.len_le (zero_le _)) fun i hi => .pure (hw.column hi.2)
  case o =>
    apply h.saveUndo
    intro w hw _ _ _
    refine .ite (fun hn => ?_) fun _ => .pure hw.ok
    obtain ⟨nl, u, hnl, hopen, hcy, hok⟩ := hw.opened hw.lt hn
    refine .seq hnl (.seq hopen (.pure ?_))
    rw [hcy]
    exact hok _
  case O =>
    apply h.saveUndo
    intro w hw _ _ _
    refine .ite (fun hn => ?_) fun _ => .pure hw.ok
    obtain ⟨nl, u, hnl, hopen, hcy, hok⟩ := hw.opened (Nat.le_of_lt hw.lt) hn
    refine .seq hnl (.seq hopen (.pure ?_))
    have := hok .INSERT
    rwa [← hcy] at this
  case s =>
    apply h.saveUndo
    intro w hw _ _ _
    refine .ite (fun hc => ?_) fun _ => .pure hw.ok
    obtain ⟨b, hmove, hok⟩ := hw.removeHere hc.2
    exact .seq hmove (.pure hok)
  case S =>
    apply h.saveUndo
    intro w hw _ _ _
    exact hw.emptied

theorem editing_ends (h : v.At line s) (hnext : Ends next Ok) : Ends (v.editing key line s.length next) Ok := by
  refine .ite (fun _ => ?x) fun _ => .ite (fun _ => ?X) fun _ => .ite (fun _ => .pure h.ok) fun _ => .ite (fun _ => ?D) fun _ =>
    .ite (fun _ => ?C) fun _ => .ite (fun _ => .pure h.ok) fun _ => .ite (fun _ => .pure h.ok) fun _ =>
    .ite (fun _ => ?p) fun _ => .ite (fun _ => ?P) fun _ => .ite (fun _ => .pure h.ok) fun _ => .ite (fun _ => ?J) fun _ =>
    .ite (fun _ => .pure (doUndo_ok h.ok)) fun _ => hnext
  case x =>
    refine .ite (fun hc => ?_) fun _ => .pure h.ok
    apply h.saveUndo
    intro w hw _ _ hcx
    obtain ⟨b, hmove, hok⟩ := hw.removeHere (hcx.symm ▸ hc.2)
    exact .seq hmove (.bind (clampCx_ends hok hok.doc.lt) fun u hu => .pure hu)
  case X =>
    refine .ite (fun _ => ?_) fun _ => .pure h.ok
    apply h.saveUndo
    intro w hw _ _ _
    obtain ⟨b, hmove, hok⟩ := hw.remove (sub_le w.cx 1) hw.cx
    exact .seq hmove (.pure hok)
  case D =>
    apply h.saveUndo
    intro w hw _ _ _
    exact deleteToEol_ends hw.ok
  case C =>
    apply h.saveUndo
    intro w hw _ _ _
    obtain ⟨b, hput, hok⟩ := hw.cut hw.cx
    exact .seq hput (.pure (hok _ (Nat.le_refl _)))
  case p =>
    apply h.saveUndo
    intro w hw _ _ _
    exact pasteBelow_ends hw.ok
  case P =>
    apply h.saveUndo
    intro w hw _ _ _
    exact pasteAbove_ends hw.ok
  case J =>
    refine .ite (fun hn => ?_) fun _ => .pure h.ok
    apply h.saveUndo
    intro w hw hlines hcy _
    have hn' : w.cy + 1 < w.nlines := by rw [hlines, hcy]; exact hn
    obtain ⟨below, t, hbelow, ht⟩ := hw.ok.lineAt hn'
    refine .seq hbelow (.seq ht.strlen (.ite (fun hfit => ?_) fun _ => .pure hw.ok))
    obtain ⟨b₁, b₂, hput, hcopy, hjoin⟩ := hw.text.join ht (c := 32) (by decide) hfit
    obtain ⟨hclose, hin⟩ := hw.join (i := s.length) hn' hjoin (by simp)
    exact .seq hput (.seq hcopy (.seq hclose (.pure (hw.ok.moved hin))))

/-- The search text ends somewhere, whatever of it is cut off. -/
theorem Ok.cutSearch (h : v.Ok) {i : Nat} (hi : i < 64) : ∃ b, put v.search i 0 = some b ∧ Ended 64 b := by
  obtain ⟨t, ht⟩ := h.search.1
  rw [← ht.size] at hi ⊢
  exact put_zero hi

theorem searchAndSave_ends (h : v.Ok) (fs : Files) : Ends (v.searchAndSave key fs) Ok := by
  refine .ite (fun _ => ?search) fun _ => .ite (fun _ => searchNext_ends h) fun _ => .ite (fun _ => searchBack_ends h) fun _ =>
    .ite (fun _ => ?command) fun _ => .ite (fun _ => ?save) fun _ => .ite (fun _ => .pure ?quit) fun _ => .pure h
  case search =>
    obtain ⟨b, hput, hend⟩ := h.cutSearch (i := 0) (by decide)
    exact .seq hput (.pure ⟨h.doc, h.cmd, h.yank, h.undo, hend, succ_pos 63⟩)
  case command =>
    have hput := put_some (i := 0) (c := 0) (by rw [h.cmd.1]; decide)
    exact .seq hput (.pure ⟨h.doc, ⟨(length_set ..).trans h.cmd.1, succ_pos 79⟩, h.yank, h.undo, h.search⟩)
  case save => exact .bind (saveFile_ends h fs) fun r hr => .pure hr
  case quit =>
    split
    · exact h
    · exact h

theorem handleNormal_ends (h : v.Ok) (key : Int) (fs : Files) : Ends (v.handleNormal key fs) Ok := by
  obtain ⟨line, s, h⟩ := h.at
  refine .seq h.here (.seq h.text.strlen ?_)
  have hmsg : At { v with msg := [] } line s := ⟨h.ok, h.here, h.text, h.cx⟩
  split
  · rename_i p _
    exact pendingKey_ends (v := { v with msg := [], pending := none }) ⟨h.ok, h.here, h.text, h.cx⟩ p
  · exact movement_ends hmsg (enterInsert_ends hmsg (editing_ends hmsg (searchAndSave_ends hmsg.ok fs)))

/-! ## The other modes -/

theorem insertBlanks_ends : ∀ (n : Nat) {v : Vim}, v.Ok → Ends (insertBlanks n v) Ok
  | 0, _, h => .pure h
  | n + 1, _, h => .bind (insertChar_ends h (by decide)) fun _ hw => insertBlanks_ends n hw

theorem handleInsert_ends (h : v.Ok) (key : Int) : Ends (v.handleInsert key) Ok := by
  obtain ⟨line, s, h⟩ := h.at
  have hcx := h.cx
  have hlt : v.cy < v.nlines := h.lt
  refine .ite (fun _ => ?escape) fun _ => .ite (fun _ => insertNewline_ends h.ok) fun _ => .ite (fun _ => backspaceChar_ends h.ok) fun _ =>
    .ite (fun _ => deleteFwd_ends h.ok) fun _ => .ite (fun _ => ?up) fun _ => .ite (fun _ => ?down) fun _ =>
    .ite (fun _ => .pure ?left) fun _ => .ite (fun _ => ?right) fun _ => .ite (fun _ => .pure ?home) fun _ =>
    .ite (fun _ => ?eol) fun _ => .ite (fun _ => insertBlanks_ends 4 h.ok) fun _ => .ite (fun hkey => ?text) fun _ => .pure h.ok
  case escape => exact clampCx_ends (v := { v with mode := .NORMAL }) h.ok hlt
  case up => exact .ite (fun _ => clampCx_ends h.ok (by omega)) fun _ => .pure h.ok
  case down => exact .ite (fun hn => clampCx_ends h.ok hn) fun _ => .pure h.ok
  case left =>
    split
    · exact h.column (by omega)
    · exact h.ok
  case right =>
    refine .seq h.here (.seq h.text.strlen (.pure ?_))
    split
    · exact h.column (by omega)
    · exact h.ok
  case home => exact h.column (Nat.zero_le _)
  case eol => exact .seq h.here (.seq h.text.strlen (.pure (h.column (Nat.le_refl _))))
  case text => exact insertChar_ends h.ok (keyByte_ne_zero hkey)

theorem execNamed_ends (h : v.Ok) (c : Text) (fs : Files) : Ends (v.execNamed c fs) Ok := by
  refine .ite (fun _ => ?write) fun _ => .ite (fun _ => .pure ?quit) fun _ => .ite (fun _ => .pure h) fun _ =>
    .ite (fun _ => ?writeQuit) fun _ => ?number
  case write => exact .bind (saveFile_ends h fs) fun r hr => .pure hr
  case quit =>
    split
    · exact h
    · exact h
  case writeQuit =>
    refine .bind (saveFile_ends h fs) fun r hr => .pure ?_
    split
    · exact hr
    · exact hr
  case number =>
    refine .seq (if_pos (by rw [Nat.zero_add, h.cmd.1]; exact Nat.le_of_lt h.cmd.2)) ?_
    split
    · refine .pure ?_
      split
      · rename_i n _ hn
        exact h.moved (h.doc.home (Nat.lt_of_lt_of_le (Nat.sub_lt hn.2.1 Nat.one_pos) hn.2.2))
      · exact h
    · exact .pure h

theorem execCmd_ends (h : v.Ok) (fs : Files) : Ends (v.execCmd fs) Ok := by
  obtain ⟨hsize, hlen⟩ := h.cmd
  obtain ⟨b, hput, c, hc⟩ := put_zero (b := v.cmd) (i := v.cmdlen) (by omega)
  have hok : Ok { v with cmd := b } := ⟨h.doc, ⟨hc.size.trans hsize, hlen⟩, h.yank, h.undo, h.search⟩
  refine .seq hput (.seq hc.cstr (.bind (execNamed_ends hok c fs) fun w hw => .pure ?_))
  exact ⟨hw.doc, ⟨hw.cmd.1, succ_pos 79⟩, hw.yank, hw.undo, hw.search⟩

theorem handleCommand_ends (h : v.Ok) (key : Int) (fs : Files) : Ends (v.handleCommand key fs) Ok := by
  have hcmd : ∀ n, n < 80 → Ok { v with cmdlen := n } := fun n hn => ⟨h.doc, ⟨h.cmd.1, hn⟩, h.yank, h.undo, h.search⟩
  obtain ⟨hsize, hlen⟩ := h.cmd
  refine .ite (fun _ => .pure (hcmd 0 (by decide))) fun _ => .ite (fun _ => execCmd_ends h fs) fun _ =>
    .ite (fun _ => .pure ?back) fun _ => .ite (fun hkey => ?text) fun _ => .pure h
  case back =>
    split
    · exact hcmd _ (by omega)
    · exact h
  case text =>
    refine .seq (put_some (by omega)) (.pure ⟨h.doc, ⟨?_, hkey.2.2⟩, h.yank, h.undo, h.search⟩)
    rw [length_set, hsize]

theorem handleSearch_ends (h : v.Ok) (key : Int) : Ends (v.handleSearch key) Ok := by
  have hsearch : ∀ b n, Ended 64 b → n < 64 → Ok { v with search := b, searchLen := n } := fun b n hb hn =>
    ⟨h.doc, h.cmd, h.yank, h.undo, hb, hn⟩
  obtain ⟨hend, hlen⟩ := h.search
  refine .ite (fun _ => .pure (hsearch _ 0 hend (by decide))) fun _ => .ite (fun _ => ?enter) fun _ =>
    .ite (fun _ => ?back) fun _ => .ite (fun hkey => ?text) fun _ => .pure h
  case enter =>
    obtain ⟨b, hput, hb⟩ := h.cutSearch hlen
    refine .seq hput (.ite (fun _ => ?_) fun _ => .pure (hsearch b _ hb hlen))
    exact searchFirst_ends (hsearch b _ hb hlen)
  case back =>
    refine .ite (fun _ => ?_) fun _ => .pure h
    obtain ⟨b, hput, hb⟩ := h.cutSearch (i := v.searchLen - 1) (by omega)
    exact .seq hput (.pure (hsearch b _ hb (by omega)))
  case text =>
    -- for a moment there may be no zero byte; the second write brings one
    obtain ⟨t, ht⟩ := hend
    have hput := put_some (c := keyByte key) (by rw [ht.size]; exact hlen)
    have hset : (v.search.set v.searchLen (keyByte key)).length = 64 := (length_set ..).trans ht.size
    obtain ⟨b, hzero, hb⟩ := put_zero (b := v.search.set v.searchLen (keyByte key)) (i := v.searchLen + 1) (by omega)
    rw [hset] at hb
    exact .seq hput (.seq hzero (.pure (hsearch b _ hb hkey.2.2)))

/-! ## Runs -/

theorem step_ends (h : v.Ok) (key : Int) (fs : Files) : Ends (v.step key fs) Ok := by
  have hs := doScroll_ok h
  unfold step
  dsimp only
  split
  · exact handleNormal_ends hs key fs
  · exact handleInsert_ends hs key
  · exact handleCommand_ends hs key fs
  · exact handleSearch_ends hs key

theorem run_ends (keys : List (Int × Files)) : ∀ {v : Vim}, v.Ok → Ends (run keys v) Ok := by
  induction keys with
  | nil => exact fun h => .pure h
  | cons k keys ih => exact fun h => .bind (step_ends h k.1 k.2) fun w hw => ih hw

/-- **The editor never leaves its buffer.** Whatever the file, whatever keys come and whatever the file system answers, no access of the
editor fails, and after them there are 1 to 512 lines of at most 255 characters, the cursor is on one of them and not behind its end,
the command and the search text fit their arrays and, once scrolled, the window shows the cursor. -/
theorem run_stays_inside (path : Text) (file : Option Text) (keys : List (Int × Files)) :
    ∃ v₀ v, start path file = some v₀ ∧ run keys v₀ = some v ∧ 1 ≤ v.nlines ∧ v.nlines ≤ 512 ∧ v.cy < v.nlines ∧
      (∀ r < v.nlines, ∃ line len, v.line r = some line ∧ strlen line = some len ∧ len ≤ 255 ∧ (r = v.cy → v.cx ≤ len)) ∧
      v.cmdlen < 80 ∧ v.searchLen < 64 ∧
      v.doScroll.rowOff ≤ v.cy ∧ v.cy < v.doScroll.rowOff + 23 ∧ v.doScroll.colOff ≤ v.cx ∧ v.cx < v.doScroll.colOff + 80 := by
  obtain ⟨v₀, hstart, h₀⟩ := start_ends path file
  obtain ⟨v, hrun, h⟩ := run_ends keys h₀
  obtain ⟨-, -, hrow, hrow', hcol, hcol'⟩ := doScroll_window v
  refine ⟨v₀, v, hstart, hrun, h.pos, h.doc.few, h.doc.lt, fun r hr => ?_, h.cmd.2, h.search.2, hrow, hrow', hcol, hcol'⟩
  obtain ⟨b, s, hb, hs⟩ := h.lineAt hr
  refine ⟨b, s.length, hb, hs.strlen, le_of_lt_succ hs.lt, ?_⟩
  rintro rfl
  obtain ⟨b', s', hb', hs', hcx⟩ := h.doc.cur
  cases hb.symm.trans hb'
  have hlen := hs.strlen.symm.trans hs'.strlen
  rw [Option.some.injEq] at hlen
  omega

end Vim
end PureUnix.Editor
