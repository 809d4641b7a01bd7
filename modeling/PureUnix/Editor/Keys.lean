import PureUnix.Drivers.Keyboard
import PureUnix.Editor.Vim

/-!
# The keys of the editor

`exec_cmd` and the handlers of the four modes (editor.c:428-751). The `switch` of `handle_normal` is cut into the groups its comments
name; each group hands the keys it does not know to the next.
-/
namespace PureUnix.Editor
open Lib CStr

def ch (c : Char) : Int := c.toNat

/-- `(char)key`. -/
def keyByte (key : Int) : UInt8 := UInt8.ofNat (key % 256).toNat

namespace Vim

/-! ## Commands -/

/-- The digits of a command as a number, unless something else is among them (editor.c:443). -/
def commandNumber : Text → Nat → Option Nat
  | [], n => some n
  | c :: cs, n => if 48 ≤ c ∧ c ≤ 57 then commandNumber cs (usize (n * 10 + (c.toNat - 48 : Nat))) else none

/-- The command `c` itself, by its name (editor.c:432). -/
def execNamed (v : Vim) (c : Text) (fs : Files) : Option Vim := do
  if c = ascii "w" ∨ c = ascii "write" then do
    let (_, v) ← v.saveFile fs
    some v
  else if c = ascii "q" ∨ c = ascii "quit" then
    some (if v.dirty then v.setMsg (ascii "No write since last change (use :q! to override)") else { v with running := false })
  else if c = ascii "q!" then some { v with running := false }
  else if c = ascii "wq" ∨ c = ascii "x" ∨ c = ascii "wq!" then do
    let (r, v) ← v.saveFile fs
    some (if r = 0 then { v with running := false } else v)
  else do
    let digits ← slice v.cmd 0 v.cmdlen
    match commandNumber digits 0 with
    | some n =>
      some (if 0 < v.cmdlen ∧ 1 ≤ n ∧ n ≤ v.nlines then { v with cy := n - 1, cx := 0 }
        else v.setMsg (ascii "Not an editor command: " ++ c))
    | none => some (v.setMsg (ascii "Not an editor command: " ++ c))

/-- `exec_cmd` (editor.c:428). -/
def execCmd (v : Vim) (fs : Files) : Option Vim := do
  let cmd ← put v.cmd v.cmdlen 0
  let c ← cstr cmd
  let v ← ({ v with cmd }).execNamed c fs
  some { v with mode := .NORMAL, cmdlen := 0 }

/-! ## Normal mode -/

/-- "dd", "dw", "d$", "d0" (editor.c:465). -/
def pendingD (v : Vim) (key : Int) (line : Text) (len : Nat) : Option Vim := do
  if key = ch 'd' then do
    let v ← v.saveUndo
    let v ← v.yankLine v.cy
    v.deleteLine v.cy
  else if key = ch 'w' then do
    let v ← v.saveUndo
    if v.cx < len then do
      let e ← wordEnd line len v.cx
      let e ← skipWhile isBlank line len e
      let line ← memmove line v.cx e (usize (len - e + 1))
      some { v.setLine line with dirty := true }
    else some v
  else if key = ch '$' then do
    let v ← v.saveUndo
    v.deleteToEol
  else if key = ch '0' then do
    let v ← v.saveUndo
    let line ← put line 0 0
    some { v.setLine line with cx := 0, dirty := true }
  else some v

/-- "cc", "cw" (editor.c:490). -/
def pendingC (v : Vim) (key : Int) (line : Text) (len : Nat) : Option Vim := do
  if key = ch 'c' then do
    let v ← v.saveUndo
    let v ← v.yankLine v.cy
    let line ← put line 0 0
    some { v.setLine line with cx := 0, dirty := true, mode := .INSERT }
  else if key = ch 'w' then do
    let v ← v.saveUndo
    if v.cx < len then do
      let e ← wordEnd line len v.cx
      let line ← memmove line v.cx e (usize (len - e + 1))
      some { v.setLine line with dirty := true, mode := .INSERT }
    else some { v with mode := .INSERT }
  else some v

/-- The second key of a command (editor.c:462). -/
def pendingKey (v : Vim) (p : Pending) (key : Int) (line : Text) (len : Nat) : Option Vim := do
  match p with
  | .d => v.pendingD key line len
  | .g => some (if key = ch 'g' then { v with cy := 0, cx := 0 } else v)
  | .y =>
    if key = ch 'y' then do
      let v ← v.yankLine v.cy
      some (v.setMsg (ascii "1 line yanked"))
    else some v
  | .r =>
    if 32 ≤ key ∧ key < 127 ∧ v.cx < len then do
      let v ← v.saveUndo
      let line ← put line v.cx (keyByte key)
      some { v.setLine line with dirty := true }
    else some v
  | .c => v.pendingC key line len

/-- "movement". -/
def movement (v : Vim) (key : Int) (line : Text) (len : Nat) (next : Option Vim) : Option Vim := do
  if key = ch 'h' ∨ key = KEY_LEFT then some (if 0 < v.cx then { v with cx := v.cx - 1 } else v)
  else if key = ch 'l' ∨ key = KEY_RIGHT then some (if v.cx + 1 < len then { v with cx := v.cx + 1 } else v)
  else if key = ch 'j' ∨ key = KEY_DOWN then if v.cy + 1 < v.nlines then ({ v with cy := v.cy + 1 }).clampCx else some v
  else if key = ch 'k' ∨ key = KEY_UP then if 0 < v.cy then ({ v with cy := v.cy - 1 }).clampCx else some v
  else if key = ch '0' ∨ key = KEY_HOME then some { v with cx := 0 }
  else if key = ch '$' ∨ key = KEY_END then some { v with cx := if 0 < len then len - 1 else 0 }
  else if key = ch '^' then do
    let i ← skipWhile isBlank line len 0
    some { v with cx := i }
  else if key = ch 'w' then do
    let v ← v.moveWordFwd
    v.clampCx
  else if key = ch 'b' then v.moveWordBack
  else if key = ch 'G' then some { v with cy := v.nlines - 1, cx := 0 }
  else if key = ch 'g' then some { v with pending := some .g }
  else if key = KEY_PAGE_UP then ({ v with cy := if VIM_ROWS ≤ v.cy then v.cy - VIM_ROWS else 0 }).clampCx
  else if key = KEY_PAGE_DOWN then ({ v with cy := if v.cy + VIM_ROWS < v.nlines then v.cy + VIM_ROWS else v.nlines - 1 }).clampCx
  else next

/-- "enter insert mode". -/
def enterInsert (v : Vim) (key : Int) (line : Text) (len : Nat) (next : Option Vim) : Option Vim := do
  if key = ch 'i' then do
    let v ← v.saveUndo
    some { v with mode := .INSERT }
  else if key = ch 'a' then do
    let v ← v.saveUndo
    some { v with cx := if v.cx < len then v.cx + 1 else v.cx, mode := .INSERT }
  else if key = ch 'A' then do
    let v ← v.saveUndo
    some { v with cx := len, mode := .INSERT }
  else if key = ch 'I' then do
    let v ← v.saveUndo
    let i ← skipWhile isBlank line len 0
    some { v with cx := i, mode := .INSERT }
  else if key = ch 'o' then do
    let v ← v.saveUndo
    if v.nlines < VIM_MAX_LINES then do
      let nl ← lalloc [] 0 0
      let v ← v.openLine (v.cy + 1) nl
      some { v with cy := v.cy + 1, cx := 0, dirty := true, mode := .INSERT }
    else some v
  else if key = ch 'O' then do
    let v ← v.saveUndo
    if v.nlines < VIM_MAX_LINES then do
      let nl ← lalloc [] 0 0
      let v ← v.openLine v.cy nl
      some { v with cx := 0, dirty := true, mode := .INSERT }
    else some v
  else if key = ch 's' then do
    let v ← v.saveUndo
    if 0 < len ∧ v.cx < len then do
      let line ← memmove line v.cx (v.cx + 1) (usize (len - v.cx))
      some { v.setLine line with dirty := true, mode := .INSERT }
    else some { v with mode := .INSERT }
  else if key = ch 'S' then do
    let v ← v.saveUndo
    let v ← v.yankLine v.cy
    let line ← put line 0 0
    some { v.setLine line with cx := 0, dirty := true, mode := .INSERT }
  else next

/-- "editing". -/
def editing (v : Vim) (key : Int) (line : Text) (len : Nat) (next : Option Vim) : Option Vim := do
  if key = ch 'x' then
    if 0 < len ∧ v.cx < len then do
      let v ← v.saveUndo
      let line ← memmove line v.cx (v.cx + 1) (usize (len - v.cx))
      let v ← (v.setLine line).clampCx
      some { v with dirty := true }
    else some v
  else if key = ch 'X' then
    if 0 < v.cx then do
      let v ← v.saveUndo
      let line ← memmove line (v.cx - 1) v.cx (usize (len - v.cx + 1))
      some { v.setLine line with cx := v.cx - 1, dirty := true }
    else some v
  else if key = ch 'd' then some { v with pending := some .d }
  else if key = ch 'D' then do
    let v ← v.saveUndo
    v.deleteToEol
  else if key = ch 'C' then do
    let v ← v.saveUndo
    let line ← put line v.cx 0
    some { v.setLine line with dirty := true, mode := .INSERT }
  else if key = ch 'c' then some { v with pending := some .c }
  else if key = ch 'y' then some { v with pending := some .y }
  else if key = ch 'p' then do
    let v ← v.saveUndo
    v.pasteBelow
  else if key = ch 'P' then do
    let v ← v.saveUndo
    v.pasteAbove
  else if key = ch 'r' then some { v with pending := some .r }
  else if key = ch 'J' then
    if v.cy + 1 < v.nlines then do
      let v ← v.saveUndo
      let below ← v.line (v.cy + 1)
      let nlen ← strlen below
      if len + nlen + 1 < VIM_MAX_COL then do
        let line ← put line len 32
        let line ← blit line (len + 1) below 0 (nlen + 1)
        let v ← (v.setLine line).closeLine (v.cy + 1)
        some { v with cx := len, dirty := true }
      else some v
    else some v
  else if key = ch 'u' then some v.doUndo
  else next

/-- "search" and "command / save / quit". -/
def searchAndSave (v : Vim) (key : Int) (fs : Files) : Option Vim := do
  if key = ch '/' then do
    let search ← put v.search 0 0
    some { v with mode := .VSEARCH, searchLen := 0, search }
  else if key = ch 'n' then v.searchNext
  else if key = ch 'N' then v.searchBack
  else if key = ch ':' then do
    let cmd ← put v.cmd 0 0
    some { v with mode := .COMMAND, cmdlen := 0, cmd }
  else if key = KEY_CTRL_S then do
    let (_, v) ← v.saveFile fs
    some v
  else if key = KEY_CTRL_Q then
    some (if v.dirty then v.setMsg (ascii "Unsaved changes! Use :q! to force quit.") else { v with running := false })
  else some v

/-- `handle_normal` (editor.c:456). -/
def handleNormal (v : Vim) (key : Int) (fs : Files) : Option Vim := do
  let v := { v with msg := [] }
  let line ← v.line v.cy
  let len ← strlen line
  match v.pending with
  | some p => ({ v with pending := none }).pendingKey p key line len
  | none => v.movement key line len (v.enterInsert key line len (v.editing key line len (v.searchAndSave key fs)))

/-! ## The other modes -/

/-- `insert_char` as often as a tab is wide. -/
def insertBlanks : Nat → Vim → Option Vim
  | 0, v => some v
  | n + 1, v => do
    let v ← v.insertChar 32
    insertBlanks n v

/-- `handle_insert` (editor.c:674). -/
def handleInsert (v : Vim) (key : Int) : Option Vim := do
  if key = KEY_ESCAPE then ({ v with mode := .NORMAL }).clampCx
  else if key = KEY_ENTER then v.insertNewline
  else if key = KEY_BACKSPACE then v.backspaceChar
  else if key = KEY_DELETE then v.deleteFwd
  else if key = KEY_UP then if 0 < v.cy then ({ v with cy := v.cy - 1 }).clampCx else some v
  else if key = KEY_DOWN then if v.cy + 1 < v.nlines then ({ v with cy := v.cy + 1 }).clampCx else some v
  else if key = KEY_LEFT then some (if 0 < v.cx then { v with cx := v.cx - 1 } else v)
  else if key = KEY_RIGHT then do
    let line ← v.line v.cy
    let len ← strlen line
    some (if v.cx < len then { v with cx := v.cx + 1 } else v)
  else if key = KEY_HOME then some { v with cx := 0 }
  else if key = KEY_END then do
    let line ← v.line v.cy
    let len ← strlen line
    some { v with cx := len }
  else if key = KEY_TAB then insertBlanks 4 v
  else if 32 ≤ key ∧ key < 127 then v.insertChar (keyByte key)
  else some v

/-- `handle_command` (editor.c:712). -/
def handleCommand (v : Vim) (key : Int) (fs : Files) : Option Vim := do
  if key = KEY_ESCAPE then some { v with mode := .NORMAL, cmdlen := 0 }
  else if key = KEY_ENTER then v.execCmd fs
  else if key = KEY_BACKSPACE then some (if 0 < v.cmdlen then { v with cmdlen := v.cmdlen - 1 } else { v with mode := .NORMAL })
  else if 32 ≤ key ∧ key < 127 ∧ v.cmdlen + 1 < 80 then do
    let cmd ← put v.cmd v.cmdlen (keyByte key)
    some { v with cmd, cmdlen := v.cmdlen + 1 }
  else some v

/-- `handle_search` (editor.c:730). -/
def handleSearch (v : Vim) (key : Int) : Option Vim := do
  if key = KEY_ESCAPE then some { v with mode := .NORMAL, searchLen := 0 }
  else if key = KEY_ENTER then do
    let search ← put v.search v.searchLen 0
    let v := { v with search, mode := .NORMAL }
    if 0 < v.searchLen then v.searchFirst else some v
  else if key = KEY_BACKSPACE then
    if 0 < v.searchLen then do
      let search ← put v.search (v.searchLen - 1) 0
      some { v with search, searchLen := v.searchLen - 1 }
    else some { v with mode := .NORMAL }
  else if 32 ≤ key ∧ key < 127 ∧ v.searchLen + 1 < 64 then do
    let search ← put v.search v.searchLen (keyByte key)
    let search ← put search (v.searchLen + 1) 0
    some { v with search, searchLen := v.searchLen + 1 }
  else some v

/-- One round of the loop of `editor_open` (editor.c:763): scroll, then the key in the mode of the moment. -/
def step (v : Vim) (key : Int) (fs : Files) : Option Vim :=
  let v := v.doScroll
  match v.mode with
  | .NORMAL => v.handleNormal key fs
  | .INSERT => v.handleInsert key
  | .COMMAND => v.handleCommand key fs
  | .VSEARCH => v.handleSearch key

/-- The keys in turn; each comes with what the file system would answer. -/
def run : List (Int × Files) → Vim → Option Vim
  | [], v => some v
  | (key, fs) :: rest, v => (v.step key fs).bind (run rest)

/-- `editor_open` up to the loop. -/
def start (path : Text) (file : Option Text) : Option Vim := Vim.zero.loadFile path file

end Vim
end PureUnix.Editor
