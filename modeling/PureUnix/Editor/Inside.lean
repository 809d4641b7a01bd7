import PureUnix.Lib.Ends
import PureUnix.Editor.Keys

/-!
# The editor stays inside its buffer

The invariant `Vim.Ok` of the editor's state, kept by every primitive, every key and so by every run: there are 1 to 512 lines, each
holds a text of at most 255 bytes, the cursor is on one of them and not behind its end, and the same is true of what "u" would bring
back. With it no access fails.
-/
namespace PureUnix.Editor
open Lib CStr List Nat

structure Inside (buf : List Text) (cx cy : Nat) : Prop where
  few : buf.length ≤ VIM_MAX_LINES
  lines : ∀ b ∈ buf, Ended VIM_MAX_COL b
  cur : ∃ b s, buf[cy]? = some b ∧ IsText VIM_MAX_COL b s ∧ cx ≤ s.length

/-- What is to hold of the fields that are used as indices. -/
structure Sound (buf : List Text) (cx cy : Nat) (cmd : Text) (cmdlen : Nat) (yank : Text) (hasUndo : Bool)
    (ubuf : List Text) (ucx ucy : Nat) (search : Text) (searchLen : Nat) : Prop where
  doc : Inside buf cx cy
  cmd : cmd.length = 80 ∧ cmdlen < 80
  yank : Ended VIM_MAX_COL yank
  undo : hasUndo = true → Inside ubuf ucx ucy
  search : Ended 64 search ∧ searchLen < 64

def Vim.Ok (v : Vim) : Prop :=
  Sound v.buf v.cx v.cy v.cmd v.cmdlen v.yank v.hasUndo v.ubuf v.ucx v.ucy v.search v.searchLen

structure Vim.At (v : Vim) (line s : Text) : Prop where
  ok : v.Ok
  here : v.line v.cy = some line
  text : IsText VIM_MAX_COL line s
  cx : v.cx ≤ s.length

/-- Differences of lengths do not wrap. -/
theorem usize_sub {a b : Nat} (h : b ≤ a) (ha : a < VIM_MAX_COL) : usize (a - b) = a - b ∧ usize (a - b + 1) = a - b + 1 := by
  have hc : VIM_MAX_COL = 256 := rfl
  unfold usize
  omega

theorem keyByte_ne_zero {key : Int} (h : 32 ≤ key ∧ key < 127) : keyByte key ≠ 0 := by
  intro h0
  have := congrArg UInt8.toNat h0
  rw [keyByte, UInt8.toNat_ofNat'] at this
  simp only [UInt8.toNat_zero] at this
  omega

/-! ## Lines -/

section
variable {buf : List Text} {b s src : Text} {cx cy i n : Nat}

theorem lalloc_ended {off len : Nat} (h : off + min len (VIM_MAX_COL - 1) ≤ src.length) : Ends (lalloc src off len) (Ended VIM_MAX_COL) := by
  refine .seq (if_pos h) (.pure ?_)
  have hlen : ((src.drop off).take (min len (VIM_MAX_COL - 1))).length < VIM_MAX_COL := by
    rw [length_take]
    have hc : VIM_MAX_COL = 256 := rfl
    omega
  refine Ended.of_mem ?_ ?_
  · rw [length_append, length_replicate]
    omega
  · refine mem_append_right _ (mem_replicate.2 ⟨?_, rfl⟩)
    omega

theorem lalloc_empty : Ends (lalloc [] 0 0) (Ended VIM_MAX_COL) := lalloc_ended (by decide)

theorem lalloc_text (h : IsText VIM_MAX_COL b s) (hi : i ≤ s.length) :
    Ends (lalloc b i (s.length - i)) fun b' => IsText VIM_MAX_COL b' (s.drop i) := by
  have hlt := h.lt
  have hmin : min (s.length - i) (VIM_MAX_COL - 1) = s.length - i := by omega
  have hsl : slice b i (s.length - i) = some (s.drop i) := by
    rw [CStr.slice, if_pos (by rw [h.size]; omega)]
    obtain ⟨junk, rfl⟩ := h.split
    rw [drop_append_of_le_length hi, take_append_of_le_length (Nat.le_of_eq length_drop.symm),
      take_of_length_le (Nat.le_of_eq length_drop)]
  refine .seq (by rw [hmin]; exact hsl) (.pure ⟨?_, fun h0 => h.noZero (mem_of_mem_drop h0), ?_⟩)
  · rw [length_append, length_replicate, length_drop]
    omega
  · refine ⟨replicate (VIM_MAX_COL - (s.drop i).length - 1) 0, ?_⟩
    rw [← replicate_succ]
    congr 2
    rw [length_drop]
    omega

namespace Inside

variable {r : Nat}

section
variable (h : Inside buf cx cy)
include h

theorem lt : cy < buf.length := by
  obtain ⟨b, s, hb, -⟩ := h.cur
  exact (List.getElem?_eq_some_iff.1 hb).1

theorem home (hr : r < buf.length) : Inside buf 0 r := by
  obtain ⟨s, hs⟩ := h.lines buf[r] (getElem_mem hr)
  exact ⟨h.few, h.lines, _, s, getElem?_eq_getElem hr, hs, zero_le _⟩

theorem column (hb : buf[r]? = some b) (hs : IsText VIM_MAX_COL b s) (hi : i ≤ s.length) : Inside buf i r :=
  ⟨h.few, h.lines, b, s, hb, hs, hi⟩

theorem edit (hr : r < buf.length) (hs : IsText VIM_MAX_COL b s) (hi : i ≤ s.length) : Inside (buf.set r b) i r := by
  refine ⟨by rw [length_set]; exact h.few, fun c hc => ?_, b, s, getElem?_set_self hr, hs, hi⟩
  rcases mem_or_eq_of_mem_set hc with hc | rfl
  · exact h.lines c hc
  · exact ⟨s, hs⟩

theorem opened (hr : r ≤ buf.length) (hn : buf.length + 1 ≤ VIM_MAX_LINES) (hb : Ended VIM_MAX_COL b) :
    Inside (buf.take r ++ b :: buf.drop r) 0 r := by
  obtain ⟨s, hs⟩ := hb
  refine ⟨?_, fun c hc => ?_, b, s, ?_, hs, zero_le _⟩
  · rw [length_append, length_cons, length_take, length_drop]
    omega
  · rcases mem_append.1 hc with hc | hc
    · exact h.lines c (mem_of_mem_take hc)
    · rcases mem_cons.1 hc with rfl | hc
      · exact ⟨s, hs⟩
      · exact h.lines c (mem_of_mem_drop hc)
  · rw [getElem?_append_right (by rw [length_take]; omega), length_take, Nat.min_eq_left hr, Nat.sub_self]
    rfl

theorem closed (hr : cy < r) : Inside (buf.eraseIdx r) cx cy := by
  obtain ⟨b, s, hb, hs, hi⟩ := h.cur
  refine ⟨Nat.le_trans (length_eraseIdx_le buf r) h.few, fun c hc => h.lines c (mem_of_mem_eraseIdx hc), b, s, ?_, hs, hi⟩
  rw [getElem?_eraseIdx_of_lt hr]
  exact hb

end

end Inside
end

/-! ## The primitives -/

namespace Vim
variable {v : Vim} {line s b t : Text} {i : Nat} {f : Vim → Option Vim}

theorem Ok.at (h : v.Ok) : ∃ line s, v.At line s := by
  obtain ⟨b, s, hb, hs, hi⟩ := h.doc.cur
  exact ⟨b, s, h, hb, hs, hi⟩

theorem Ok.moved (h : v.Ok) {buf : List Text} {cx cy : Nat} (hd : Inside buf cx cy) : Ok { v with buf := buf, cx := cx, cy := cy } :=
  ⟨hd, h.cmd, h.yank, h.undo, h.search⟩

section
variable (h : v.At line s)
include h

theorem At.doc : Inside v.buf v.cx v.cy := h.ok.doc

theorem At.lt : v.cy < v.buf.length := h.doc.lt

theorem At.len : s.length < VIM_MAX_COL := h.text.lt

theorem At.edit (ht : IsText VIM_MAX_COL b t) (hi : i ≤ t.length) :
    Ok { v.setLine b with cx := i } := h.ok.moved (h.doc.edit h.lt ht hi)

theorem At.column (hi : i ≤ s.length) : Ok { v with cx := i } :=
  h.ok.moved (h.doc.column h.here h.text hi)

end

theorem Ok.lineAt (h : v.Ok) {r : Nat} (hr : r < v.nlines) : ∃ b s, v.line r = some b ∧ IsText VIM_MAX_COL b s := by
  obtain ⟨s, hs⟩ := h.doc.lines v.buf[r] (getElem_mem hr)
  exact ⟨_, s, getElem?_eq_getElem hr, hs⟩

theorem clampCx_ends (h : v.Ok) {cy : Nat} (hcy : cy < v.nlines) : Ends (clampCx { v with cy := cy }) Ok := by
  obtain ⟨b, s, hb, hs⟩ := h.lineAt hcy
  refine .seq hb (.seq hs.strlen (.pure ?_))
  have hcol : ∀ i, i ≤ s.length → Ok { v with cy := cy, cx := i } := fun i hi => h.moved (h.doc.column hb hs hi)
  dsimp only
  generalize hm : (if v.mode = .INSERT then s.length else if 0 < s.length then s.length - 1 else 0) = max
  have hle : max ≤ s.length := by
    rw [← hm]
    split_ifs <;> omega
  split
  · exact hcol max hle
  · exact hcol v.cx (by omega)

/-- **The cursor is in the window** after scrolling. -/
theorem doScroll_window (v : Vim) : v.doScroll.cy = v.cy ∧ v.doScroll.cx = v.cx ∧
    v.doScroll.rowOff ≤ v.cy ∧ v.cy < v.doScroll.rowOff + VIM_ROWS ∧ v.doScroll.colOff ≤ v.cx ∧ v.cx < v.doScroll.colOff + 80 := by
  have hrows : VIM_ROWS = 23 := rfl
  unfold doScroll
  dsimp only
  split_ifs <;> refine ⟨rfl, rfl, ?_⟩ <;> (try dsimp only at *) <;> omega

theorem doScroll_ok (h : v.Ok) : v.doScroll.Ok := by
  unfold doScroll
  dsimp only
  split_ifs <;> exact h

theorem saveUndo_ends (h : v.Ok) : ∃ lines, v.saveUndo = some { v with ubuf := lines, ucx := v.cx, ucy := v.cy, hasUndo := true } ∧
    Inside lines v.cx v.cy := by
  obtain ⟨lines, hm, hlen, hall⟩ := Ends.mapM (R := Ended VIM_MAX_COL) fun b hb => by
      obtain ⟨s, hs⟩ := h.doc.lines b hb
      exact .seq hs.strlen ((lalloc_text hs (zero_le _)).mono fun b' hb' => ⟨_, hb'⟩)
  refine ⟨lines, by rw [saveUndo, hm]; rfl, by rw [hlen]; exact h.doc.few, fun c hc => ?_, ?_⟩
  · obtain ⟨i, hi⟩ := getElem?_of_mem hc
    have hlt : i < v.buf.length := by rw [← hlen]; exact (List.getElem?_eq_some_iff.1 hi).1
    exact (hall i _ c (getElem?_eq_getElem hlt) hi).2
  · -- the copy of the current line has its text
    obtain ⟨b, s, hb, hs, hcx⟩ := h.doc.cur
    have hlt : v.cy < lines.length := by rw [hlen]; exact h.doc.lt
    refine ⟨lines[v.cy], s, getElem?_eq_getElem hlt, ?_, hcx⟩
    have hcopy := (hall v.cy b _ hb (getElem?_eq_getElem hlt)).1
    obtain ⟨b', hb', ht⟩ := lalloc_text hs (zero_le _)
    rw [hs.strlen] at hcopy
    change lalloc b 0 s.length = _ at hcopy
    rw [Nat.sub_zero, hcopy] at hb'
    cases hb'
    exact ht

/-- After `save_undo` the command goes on where it was. -/
theorem At.saveUndo (h : v.At line s)
    (hf : ∀ w, w.At line s → w.nlines = v.nlines → w.cy = v.cy → w.cx = v.cx → Ends (f w) Ok) : Ends (v.saveUndo >>= f) Ok := by
  obtain ⟨lines, hsave, hin⟩ := saveUndo_ends h.ok
  have hok : Ok { v with ubuf := lines, ucx := v.cx, ucy := v.cy, hasUndo := true } :=
    ⟨h.ok.doc, h.ok.cmd, h.ok.yank, fun _ => hin, h.ok.search⟩
  exact .seq hsave (hf _ ⟨hok, h.here, h.text, h.cx⟩ rfl rfl rfl)

theorem doUndo_ok (h : v.Ok) : v.doUndo.Ok := by
  unfold doUndo
  split
  · exact h
  · rename_i hu
    exact ⟨h.undo (by simpa using hu), h.cmd, h.yank, nofun, h.search⟩

/-! ### Edits -/

theorem insertChar_ends (h : v.Ok) {c : UInt8} (hc : c ≠ 0) : Ends (v.insertChar c) Ok := by
  obtain ⟨line, s, h⟩ := h.at
  refine .seq h.here (.seq h.text.strlen (.ite (fun _ => .pure h.ok) fun hfit => ?_))
  obtain ⟨b₁, b, hmove, hput, ht⟩ := h.text.insert h.cx (by omega) hc
  refine .seq (by rw [(usize_sub h.cx h.len).2]; exact hmove) (.seq hput (.pure (h.edit ht ?_)))
  have := h.cx
  simp only [length_append, length_take, length_cons, length_drop]
  omega

theorem Ok.openLine {r : Nat} (h : v.Ok) (hr : r ≤ v.nlines) (hn : v.nlines < VIM_MAX_LINES) (hb : Ended VIM_MAX_COL b) :
    v.openLine r b = some { v with buf := v.buf.take r ++ b :: v.buf.drop r } ∧ Inside (v.buf.take r ++ b :: v.buf.drop r) 0 r :=
  ⟨if_pos ⟨hr, hn⟩, h.doc.opened hr hn hb⟩

theorem insertNewline_ends (h : v.Ok) : Ends v.insertNewline Ok := by
  obtain ⟨line, s, h⟩ := h.at
  refine .ite (fun _ => .pure h.ok) fun hn => ?_
  refine .seq h.here (.seq h.text.strlen ?_)
  rw [(usize_sub h.cx h.len).1]
  refine .bind (lalloc_text h.text h.cx) fun tail htail => ?_
  obtain ⟨b, hput, ht⟩ := h.text.cut h.cx
  refine .seq hput ?_
  have hedit : Ok (v.setLine b) := h.edit ht (by rw [length_take]; have := h.cx; omega)
  have hlen : (v.setLine b).nlines = v.nlines := length_set ..
  obtain ⟨hopen, hin⟩ := hedit.openLine (r := v.cy + 1) (by rw [hlen]; exact h.lt) (by omega) ⟨_, htail⟩
  exact .seq hopen (.pure (hedit.moved hin))

theorem At.remove (h : v.At line s) {e : Nat} (hie : i ≤ e) (he : e ≤ s.length) :
    ∃ b, memmove line i e (usize (s.length - e + 1)) = some b ∧ Ok { v.setLine b with cx := i } := by
  obtain ⟨b, hmove, ht⟩ := h.text.remove hie he
  refine ⟨b, by rw [(usize_sub he h.len).2]; exact hmove, h.edit ht ?_⟩
  rw [length_append, length_take]
  omega

theorem At.removeHere (h : v.At line s) (hlt : v.cx < s.length) :
    ∃ b, memmove line v.cx (v.cx + 1) (usize (s.length - v.cx)) = some b ∧ Ok (v.setLine b) := by
  obtain ⟨b, hmove, hok⟩ := h.remove (le_succ v.cx) hlt
  refine ⟨b, ?_, hok⟩
  rw [← hmove]
  congr 2
  omega

theorem At.cut (h : v.At line s) (hi : i ≤ s.length) : ∃ b, put line i 0 = some b ∧ ∀ j ≤ i, Ok { v.setLine b with cx := j } := by
  obtain ⟨b, hput, ht⟩ := h.text.cut hi
  refine ⟨b, hput, fun j hj => h.edit ht ?_⟩
  rw [length_take]
  omega

theorem backspaceChar_ends (h : v.Ok) : Ends v.backspaceChar Ok := by
  obtain ⟨line, s, h⟩ := h.at
  refine .ite (fun hcx => ?_) fun _ => .ite (fun hcy => ?_) fun _ => .pure h.ok
  · obtain ⟨b, hmove, hok⟩ := h.remove (sub_le v.cx 1) h.cx
    exact .seq h.here (.seq h.text.strlen (.seq hmove (.pure hok)))
  · have hlt := h.lt
    have hprev : v.cy - 1 < v.nlines := Nat.lt_of_le_of_lt (Nat.sub_le _ _) hlt
    obtain ⟨b, t, hb, ht⟩ := h.ok.lineAt hprev
    refine .seq hb (.seq ht.strlen (.seq h.here (.seq h.text.strlen (.ite (fun hfit => ?_) fun _ => .pure h.ok))))
    obtain ⟨b', hcat, ht'⟩ := ht.strcat h.text hfit
    refine .seq hcat (.seq (if_pos (by rw [nlines, length_set]; exact hlt)) (.pure ?_))
    refine h.ok.moved ((h.doc.edit hprev ht' ?_).closed (by omega))
    rw [length_append]
    omega

theorem At.join (h : v.At line s) (hn : v.cy + 1 < v.nlines) (ht : IsText VIM_MAX_COL b t) (hi : i ≤ t.length) :
    (v.setLine b).closeLine (v.cy + 1) = some { v with buf := (v.buf.set v.cy b).eraseIdx (v.cy + 1) } ∧
      Inside ((v.buf.set v.cy b).eraseIdx (v.cy + 1)) i v.cy :=
  ⟨if_pos (by rw [setLine, nlines, length_set]; exact hn), (h.doc.edit h.lt ht hi).closed (lt_succ_self _)⟩

theorem deleteFwd_ends (h : v.Ok) : Ends v.deleteFwd Ok := by
  obtain ⟨line, s, h⟩ := h.at
  refine .seq h.here (.seq h.text.strlen (.ite (fun hcx => ?_) fun hcx => .ite (fun hn => ?_) fun _ => .pure h.ok))
  · obtain ⟨b, hmove, hok⟩ := h.removeHere hcx
    exact .seq hmove (.pure hok)
  · obtain ⟨b, t, hb, ht⟩ := h.ok.lineAt hn
    refine .seq hb (.seq ht.strlen (.ite (fun hfit => ?_) fun _ => .pure h.ok))
    obtain ⟨b', hcat, ht'⟩ := h.text.strcat ht hfit
    obtain ⟨hclose, hin⟩ := h.join (i := v.cx) hn ht' (by rw [length_append]; have := h.cx; omega)
    exact .seq hcat (.seq hclose (.pure (h.ok.moved hin)))

theorem deleteLine_ends (h : v.Ok) : Ends (v.deleteLine v.cy) Ok := by
  obtain ⟨line, s, h⟩ := h.at
  have hlt := h.lt
  refine .ite (fun hone => ?_) fun hmany => ?_
  · have h0 : v.cy = 0 := by
      rw [nlines] at hone
      omega
    obtain ⟨b, hput, ht⟩ := h.text.cut (zero_le _)
    refine .seq (by rw [← h0]; exact h.here) (.seq hput (.pure (h.ok.moved ?_)))
    rw [h0] at hlt ⊢
    exact h.doc.edit hlt ht (zero_le _)
  · refine .seq (if_pos hlt) (.pure ?_)
    have hlen : (v.buf.eraseIdx v.cy).length = v.buf.length - 1 := by rw [length_eraseIdx, if_pos hlt]
    have hpos : 1 < v.buf.length := by
      rw [nlines] at hmany
      omega
    have hin : ∀ r, r < v.buf.length - 1 → Inside (v.buf.eraseIdx v.cy) 0 r := by
      intro r hr
      have hr' : r < (v.buf.eraseIdx v.cy).length := by omega
      obtain ⟨t, ht⟩ := h.doc.lines _ (mem_of_mem_eraseIdx (getElem_mem hr'))
      exact ⟨Nat.le_trans (length_eraseIdx_le ..) h.doc.few, fun c hc => h.doc.lines c (mem_of_mem_eraseIdx hc), _, t,
        getElem?_eq_getElem hr', ht, Nat.zero_le _⟩
    have hn : nlines { v with buf := v.buf.eraseIdx v.cy } = v.buf.length - 1 := hlen
    simp only [hn]
    split
    · exact h.ok.moved (hin (v.buf.length - 1 - 1) (by omega))
    · exact h.ok.moved (hin v.cy (by omega))

theorem deleteToEol_ends (h : v.Ok) : Ends v.deleteToEol Ok := by
  obtain ⟨line, s, h⟩ := h.at
  refine .seq h.here (.seq h.text.strlen (.ite (fun _ => .pure h.ok) fun _ => ?_))
  obtain ⟨b, hput, hok⟩ := h.cut h.cx
  refine .seq hput (.pure (hok _ ?_))
  split <;> omega

theorem At.yankLine (h : v.At line s) (hf : ∀ w, w.At line s → w.cy = v.cy → Ends (f w) Ok) :
    Ends (v.yankLine v.cy >>= f) Ok := by
  refine .bind (P := fun w => w.At line s ∧ w.cy = v.cy) ?_ fun w hw => hf w hw.1 hw.2
  refine .seq h.here (.seq h.text.cstr (.pure ⟨⟨?_, h.here, h.text, h.cx⟩, rfl⟩))
  have hlen := h.len
  refine ⟨h.ok.doc, h.ok.cmd, Ended.of_mem ?_ ?_, h.ok.undo, h.ok.search⟩
  · rw [length_append, length_replicate, length_take]
    omega
  · refine mem_append_right _ (mem_replicate.2 ⟨?_, rfl⟩)
    rw [length_take]
    omega

theorem pasteBelow_ends (h : v.Ok) : Ends v.pasteBelow Ok := by
  refine .ite (fun _ => .pure h) fun hn => ?_
  obtain ⟨t, ht⟩ := h.yank
  refine .seq ht.strlen (.bind (lalloc_text ht (zero_le _)) fun b hb => ?_)
  obtain ⟨hopen, hin⟩ := h.openLine h.doc.lt (by omega) ⟨_, hb⟩
  exact .seq hopen (.pure (h.moved hin))

theorem pasteAbove_ends (h : v.Ok) : Ends v.pasteAbove Ok := by
  refine .ite (fun _ => .pure h) fun hn => ?_
  obtain ⟨t, ht⟩ := h.yank
  refine .seq ht.strlen (.bind (lalloc_text ht (Nat.zero_le _)) fun b hb => ?_)
  obtain ⟨hopen, hin⟩ := h.openLine (Nat.le_of_lt h.doc.lt) (by omega) ⟨_, hb⟩
  exact .seq hopen (.pure (h.moved hin))

end Vim

/-! ### Along a line -/

section
variable {p : UInt8 → Bool} {line s : Text} {len i : Nat}

theorem skipWhile_ends (hlen : len ≤ line.length) (hi : i ≤ len) : Ends (skipWhile p line len i) fun j => i ≤ j ∧ j ≤ len := by
  fun_induction skipWhile p line len i with
  | case1 i hlt ih =>
    refine .seq (getElem?_eq_getElem (by omega)) (.ite (fun _ => ?_) fun _ => .pure ⟨Nat.le_refl _, hi⟩)
    exact (ih hlt).mono fun j hj => ⟨by omega, hj.2⟩
  | case2 i hge => exact .pure ⟨Nat.le_refl _, hi⟩

theorem backOver_ends : ∀ {i : Nat}, i < line.length → Ends (backOver p line i) (· ≤ i)
  | 0, _ => .pure (Nat.le_refl _)
  | i + 1, hi => by
    refine .seq (getElem?_eq_getElem hi) (.ite (fun _ => ?_) fun _ => .pure (Nat.le_refl _))
    exact (backOver_ends (by omega)).mono fun j hj => Nat.le_succ_of_le hj

theorem backWhile_ends : ∀ {i : Nat}, i ≤ line.length → Ends (backWhile p line i) (· ≤ i)
  | 0, _ => .pure (Nat.le_refl _)
  | i + 1, hi => by
    refine .seq (getElem?_eq_getElem hi) (.ite (fun _ => ?_) fun _ => .pure (Nat.le_refl _))
    exact (backWhile_ends (by omega)).mono fun j hj => Nat.le_succ_of_le hj

theorem wordEnd_ends (hlen : len ≤ line.length) (hi : i < len) : Ends (wordEnd line len i) fun j => i ≤ j ∧ j ≤ len :=
  .seq (getElem?_eq_getElem (by omega)) (skipWhile_ends hlen (by omega))

end

namespace Vim
variable {v : Vim} {line s : Text} {buf : List Text}

theorem At.len_le (h : v.At line s) : s.length ≤ line.length := by
  rw [h.text.size]
  exact Nat.le_of_lt h.len

theorem moveWordFwd_ends (h : v.Ok) : Ends v.moveWordFwd Ok := by
  obtain ⟨line, s, h⟩ := h.at
  refine .seq h.here (.seq h.text.strlen (.ite (fun hcx => ?_) fun _ => .pure ?_))
  · refine .bind (wordEnd_ends h.len_le hcx) fun e he => ?_
    exact .bind (skipWhile_ends h.len_le he.2) fun e' he' => .pure (h.column he'.2)
  · split
    · exact h.ok.moved (h.doc.home ‹_›)
    · exact h.ok

theorem moveWordBack_ends (h : v.Ok) : Ends v.moveWordBack Ok := by
  obtain ⟨line, s, h⟩ := h.at
  have hcx := h.cx
  have hlen := h.len
  have hsize := h.text.size
  refine .ite (fun hpos => ?_) fun _ => .ite (fun hcy => ?_) fun _ => .pure h.ok
  · refine .seq h.here (.bind (backOver_ends (by omega)) fun i hi => ?_)
    refine .seq (getElem?_eq_getElem (by omega)) (.bind (backWhile_ends (by omega)) fun j hj => ?_)
    exact .pure (h.column (by omega))
  · obtain ⟨b, t, hb, ht⟩ := h.ok.lineAt (Nat.lt_of_le_of_lt (Nat.sub_le _ _) h.lt)
    refine .seq hb (.seq ht.strlen (.pure (h.ok.moved (h.doc.column hb ht ?_))))
    split <;> omega

/-! ### Search -/

theorem Ok.pos (h : v.Ok) : 0 < v.nlines := Nat.lt_of_le_of_lt (Nat.zero_le _) h.doc.lt

theorem Ok.wrapped (h : v.Ok) (i : Nat) : ∃ b s, v.line (i % v.nlines) = some b ∧ IsText VIM_MAX_COL b s :=
  h.lineAt (mod_lt _ h.pos)

theorem searchNextFrom_ends (h : v.Ok) : ∀ is : List Nat, Ends (v.searchNextFrom is) Ok
  | [] => .pure h
  | i :: is => by
    obtain ⟨b, s, hb, hs⟩ := h.wrapped (v.cy + i)
    obtain ⟨pat, hpat⟩ := h.search.1
    refine .seq hb (.seq hs.strlen (.ite (fun _ => searchNextFrom_ends h is) fun hle => ?_))
    generalize (if i = 0 then v.cx + 1 else 0) = start at hle ⊢
    have hdrop := hs.drop (Nat.le_of_not_lt hle)
    refine .seq (hdrop.strstr hpat) ?_
    cases hfind : indexOf pat (s.drop start) with
    | none => exact searchNextFrom_ends h is
    | some k =>
      have hk := indexOf_le hfind
      rw [length_drop] at hk
      have hcol : start + k ≤ s.length := by omega
      exact .pure (h.moved (h.doc.column hb hs hcol))

theorem searchNext_ends (h : v.Ok) : Ends v.searchNext Ok := .ite (fun _ => .pure h) fun _ => searchNextFrom_ends h _

theorem searchFirstFrom_ends (h : v.Ok) : ∀ is : List Nat, Ends (v.searchFirstFrom is) Ok
  | [] => .pure h
  | i :: is => by
    obtain ⟨b, s, hb, hs⟩ := h.wrapped (v.cy + i)
    obtain ⟨pat, hpat⟩ := h.search.1
    refine .seq hb (.seq (hs.strstr hpat) ?_)
    cases hfind : indexOf pat s with
    | none => exact searchFirstFrom_ends h is
    | some k => exact .pure (h.moved (h.doc.column hb hs (indexOf_le hfind)))

theorem searchFirst_ends (h : v.Ok) : Ends v.searchFirst Ok := .ite (fun _ => .pure h) fun _ => searchFirstFrom_ends h _

theorem patternBefore_ends {b s pat search : Text} {m : Nat} (hs : IsText m b s) (hpat : IsText 64 search pat) :
    ∀ {n : Nat}, n ≤ s.length → Ends (patternBefore b search n) fun r => ∀ col ∈ r, col < n
  | 0, _ => .pure nofun
  | n + 1, hn => by
    have hrest := (patternBefore_ends hs hpat (n := n) (by omega)).mono fun r hr col hc =>
      lt_succ_of_lt (hr col hc)
    refine .seq ((hs.drop (by omega)).strstr hpat) ?_
    split
    · exact .pure fun col hc => by cases hc; exact lt_succ_self n
    · exact hrest

theorem searchBackFrom_ends (h : v.Ok) : ∀ is : List Nat, Ends (v.searchBackFrom is) Ok
  | [] => .pure h
  | i :: is => by
    obtain ⟨b, s, hb, hs⟩ := h.wrapped (v.cy + v.nlines - i)
    obtain ⟨pat, hpat⟩ := h.search.1
    refine .seq hb (.seq hs.strlen (.ite (fun _ => searchBackFrom_ends h is) fun _ => ?_))
    have hn : (if (v.cy + v.nlines - i) % v.nlines = v.cy then v.cx else s.length) ≤ s.length := by
      split
      · rename_i hcy
        obtain ⟨b', s', hb', hs', hcx⟩ := h.doc.cur
        rw [hcy] at hb
        cases hb.symm.trans hb'
        have := hs.strlen.symm.trans hs'.strlen
        rw [Option.some.injEq] at this
        omega
      · exact Nat.le_refl _
    refine .bind (patternBefore_ends hs hpat hn) fun r hr => ?_
    cases r with
    | none => exact searchBackFrom_ends h is
    | some col =>
      have hcol : col ≤ s.length := Nat.le_of_lt (Nat.lt_of_lt_of_le (hr col rfl) hn)
      exact .pure (h.moved (h.doc.column hb hs hcol))

theorem searchBack_ends (h : v.Ok) : Ends v.searchBack Ok := .ite (fun _ => .pure h) fun _ => searchBackFrom_ends h _

/-! ### Files -/

theorem saveFile_ends (h : v.Ok) (fs : Files) : Ends (v.saveFile fs) fun r => r.2.Ok := by
  have hc : Ends v.contents fun _ => True := by
    have htexts : Ends (v.buf.mapM cstr) fun _ => True := by
      refine (Ends.mapM (R := fun _ => True) fun b hb => ?_).mono fun _ _ => trivial
      obtain ⟨s, hs⟩ := h.doc.lines b hb
      exact ⟨s, hs.cstr, trivial⟩
    exact .bind htexts fun _ _ => .pure trivial
  refine .bind hc fun out _ => .ite (fun _ => .pure h) fun _ => .ite (fun _ => .pure h) fun _ => .pure h

theorem loadLines_ends {data : Text} {i start : Nat} (hs : start ≤ i)
    (hbuf : buf.length ≤ VIM_MAX_LINES ∧ ∀ b ∈ buf, Ended VIM_MAX_COL b) :
    Ends (loadLines data i start buf) fun buf' => buf'.length ≤ VIM_MAX_LINES ∧ ∀ b ∈ buf', Ended VIM_MAX_COL b := by
  fun_induction loadLines data i start buf with
  | case1 i start buf hlt hend ih =>
    refine .bind (lalloc_ended (by omega)) fun ln hln => ih ln (Nat.le_refl _) ⟨?_, fun b hb => ?_⟩
    · rw [length_append, length_singleton]
      omega
    · rcases mem_append.1 hb with hb | hb
      · exact hbuf.2 b hb
      · rw [mem_singleton.1 hb]
        exact hln
  | case2 i start buf hlt hend ih => exact ih (by omega) hbuf
  | case3 i start buf hge => exact .pure hbuf

theorem inside_start (hpos : 0 < buf.length) (hfew : buf.length ≤ VIM_MAX_LINES)
    (hlines : ∀ b ∈ buf, Ended VIM_MAX_COL b) : Inside buf 0 0 := by
  obtain ⟨s, hs⟩ := hlines buf[0] (getElem_mem hpos)
  exact ⟨hfew, hlines, _, s, getElem?_eq_getElem hpos, hs, zero_le _⟩

theorem sound_start (hin : Inside buf 0 0) : Sound buf 0 0 Vim.zero.cmd 0 Vim.zero.yank false [] 0 0 Vim.zero.search 0 := by
  have hended : ∀ n, 0 < n → Ended n (replicate n 0) := fun n hn =>
    Ended.of_mem (length_replicate ..) (mem_replicate.2 ⟨by omega, rfl⟩)
  exact ⟨hin, ⟨length_replicate .., by decide⟩, hended _ (by decide), nofun, hended _ (by decide), by decide⟩

theorem emptyLast_ends (data : Text) (hlines : ∀ b ∈ buf, Ended VIM_MAX_COL b) :
    Ends (emptyLast buf data) fun _ => True := by
  refine .ite (fun hc => ?_) fun _ => .pure trivial
  have hlt : buf.length - 1 < buf.length := by omega
  obtain ⟨t, ht⟩ := hlines _ (getElem_mem hlt)
  exact .seq (getElem?_eq_getElem hlt) (.seq ht.strlen (.pure trivial))

theorem start_ends (path : Text) (file : Option Text) : Ends (start path file) Ok := by
  obtain ⟨empty, hempty, hend⟩ := lalloc_empty
  have hone : Inside [empty] 0 0 :=
    inside_start Nat.one_pos (Nat.one_le_two_pow (n := 9)) fun b hb => mem_singleton.1 hb ▸ hend
  cases file with
  | none => exact .seq hempty (.pure (sound_start hone))
  | some data =>
    refine .bind (loadLines_ends (Nat.le_refl 0) ⟨Nat.zero_le _, nofun⟩) fun buf hbuf => ?_
    refine .bind (emptyLast_ends data hbuf.2) fun last _ => .seq hempty (.pure (sound_start ?_))
    have hcut : (if last = true then buf.take (buf.length - 1) else buf).length ≤ VIM_MAX_LINES ∧
        ∀ b ∈ (if last = true then buf.take (buf.length - 1) else buf), Ended VIM_MAX_COL b := by
      split
      · exact ⟨Nat.le_trans (length_take_le' ..) hbuf.1, fun b hb => hbuf.2 b (mem_of_mem_take hb)⟩
      · exact hbuf
    generalize (if last = true then buf.take (buf.length - 1) else buf) = kept at hcut ⊢
    change Inside (if kept.length = 0 then [empty] else kept) 0 0
    split
    · exact hone
    · exact inside_start (by omega) hcut.1 hcut.2

end Vim
end PureUnix.Editor
