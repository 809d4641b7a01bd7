import PureUnix.Lib.CStr

/-!
# The editor's buffer

The state and the edit primitives of `src/editor/editor.c`. A line is the 256 bytes that `lalloc` gives it, `buf` the lines in use
(`nlines` is its length). What the C code does to memory fails (`none`) outside of the array or the allocation it is meant for:
reading a line that is not there, moving bytes over the end of a line, moving line pointers over the end of `buf`. Heap
allocations succeed.
-/
namespace PureUnix.Editor
open Lib CStr

def VIM_MAX_LINES : Nat := 512
def VIM_MAX_COL : Nat := 256
def VIM_ROWS : Nat := 23

/-- `vim_mode_t`. -/
inductive Mode
  | NORMAL | INSERT | COMMAND | VSEARCH
deriving DecidableEq, Repr

/-- The first key of a command of two keys. -/
inductive Pending
  | d | g | y | c | r
deriving DecidableEq, Repr

/-- `vim_t`. The path and the message are kept as their texts. -/
structure Vim where
  path : Text
  buf : List Text
  cx : Nat
  cy : Nat
  rowOff : Nat
  colOff : Nat
  dirty : Bool
  running : Bool
  mode : Mode
  pending : Option Pending
  cmd : Text
  cmdlen : Nat
  yank : Text
  hasYank : Bool
  ubuf : List Text
  ucx : Nat
  ucy : Nat
  hasUndo : Bool
  search : Text
  searchLen : Nat
  msg : Text
deriving DecidableEq, Repr

/-- `memset(&V, 0, sizeof(V))`, then running in normal mode (editor.c:757). -/
def Vim.zero : Vim where
  path := []
  buf := []
  cx := 0
  cy := 0
  rowOff := 0
  colOff := 0
  dirty := false
  running := true
  mode := .NORMAL
  pending := none
  cmd := List.replicate 80 0
  cmdlen := 0
  yank := List.replicate VIM_MAX_COL 0
  hasYank := false
  ubuf := []
  ucx := 0
  ucy := 0
  hasUndo := false
  search := List.replicate 64 0
  searchLen := 0
  msg := []

def Vim.nlines (v : Vim) : Nat := v.buf.length

/-- `%u`. -/
def decimal (n : Nat) : Text := (Nat.toDigits 10 n).map fun c => UInt8.ofNat c.toNat

/-- A `size_t` of 32 bits. -/
def usize (n : Int) : Nat := (n % 4294967296).toNat

/-- `set_msg`, and `snprintf` into `V.msg`: 79 bytes and a zero. -/
def Vim.setMsg (v : Vim) (s : Text) : Vim := { v with msg := s.take 79 }

/-- `lalloc(src + off, len)` (editor.c:42). -/
def lalloc (src : Text) (off len : Nat) : Option Text := do
  let bytes ← slice src off (min len (VIM_MAX_COL - 1))
  some (bytes ++ List.replicate (VIM_MAX_COL - bytes.length) 0)

namespace Vim

/-- `V.buf[r]`. -/
def line (v : Vim) (r : Nat) : Option Text := v.buf[r]?

/-- The current line has been written to. -/
def setLine (v : Vim) (b : Text) : Vim := { v with buf := v.buf.set v.cy b }

/-- `memmove(&V.buf[r + 1], &V.buf[r], (V.nlines - r) * sizeof(char *)); V.buf[r] = b; V.nlines++`. -/
def openLine (v : Vim) (r : Nat) (b : Text) : Option Vim :=
  if r ≤ v.nlines ∧ v.nlines + 1 ≤ VIM_MAX_LINES then some { v with buf := v.buf.take r ++ b :: v.buf.drop r } else none

/-- `kfree(V.buf[r]); memmove(&V.buf[r], &V.buf[r + 1], (V.nlines - r - 1) * sizeof(char *)); V.nlines--`. -/
def closeLine (v : Vim) (r : Nat) : Option Vim := if r < v.nlines then some { v with buf := v.buf.eraseIdx r } else none

/-- `clamp_cx` (editor.c:60). -/
def clampCx (v : Vim) : Option Vim := do
  let line ← v.line v.cy
  let len ← strlen line
  let max := if v.mode = .INSERT then len else if 0 < len then len - 1 else 0
  some (if max < v.cx then { v with cx := max } else v)

/-- `do_scroll` (editor.c:67). -/
def doScroll (v : Vim) : Vim :=
  let v := if v.cy < v.rowOff then { v with rowOff := v.cy } else v
  let v := if v.rowOff + VIM_ROWS ≤ v.cy then { v with rowOff := v.cy - VIM_ROWS + 1 } else v
  let v := if v.cx < v.colOff then { v with colOff := v.cx } else v
  if v.colOff + 80 ≤ v.cx then { v with colOff := v.cx - 79 } else v

/-! ## Undo -/

/-- `save_undo` (editor.c:77). -/
def saveUndo (v : Vim) : Option Vim := do
  let lines ← v.buf.mapM fun b => do
    let len ← strlen b
    lalloc b 0 len
  some { v with ubuf := lines, ucx := v.cx, ucy := v.cy, hasUndo := true }

/-- `do_undo` (editor.c:89). -/
def doUndo (v : Vim) : Vim :=
  if v.hasUndo = false then v.setMsg (ascii "Already at oldest change")
  else
    { v with buf := v.ubuf, cx := v.ucx, cy := v.ucy, ubuf := [], hasUndo := false, dirty := true }.setMsg
      (ascii "1 change; before #1")

/-! ## Files -/

/-- The loop of `load_file` (editor.c:123). -/
def loadLines (data : Text) (i start : Nat) (buf : List Text) : Option (List Text) :=
  if i ≤ data.length ∧ buf.length < VIM_MAX_LINES then
    if i = data.length ∨ data[i]? = some 10 then
      (lalloc data start (i - start)).bind fun ln => loadLines data (i + 1) (i + 1) (buf ++ [ln])
    else loadLines data (i + 1) start buf
  else some buf
termination_by data.length + 1 - i

/-- The empty line behind the last line feed of a file, which `load_file` drops (editor.c:131). -/
def emptyLast (buf : List Text) (data : Text) : Option Bool := do
  if 1 < buf.length ∧ 0 < data.length ∧ data[data.length - 1]? = some 10 then do
    let ln ← buf[buf.length - 1]?
    let len ← strlen ln
    some (decide (len = 0))
  else some false

/-- `load_file` (editor.c:110); `file` is what `vfs_read_file` finds. -/
def loadFile (v : Vim) (path : Text) (file : Option Text) : Option Vim := do
  let v := { v with path := path.take 127 }
  match file with
  | none => do
    let ln ← lalloc [] 0 0
    some ({ v with buf := [ln] }.setMsg (ascii "[New File]"))
  | some data => do
    let buf ← loadLines data 0 0 []
    let last ← emptyLast buf data
    let buf := if last then buf.take (buf.length - 1) else buf
    let empty ← lalloc [] 0 0
    let buf := if buf.length = 0 then [empty] else buf
    some ({ v with buf }.setMsg (ascii "\"" ++ path ++ ascii "\" " ++ decimal buf.length ++ ascii "L"))

/-- What `save_file` asks the file system. -/
structure Files where
  mounted : Bool
  /-- `vfs_write_file(path, data, VFS_O_TRUNC)`. -/
  writeFile : Text → Text → Int

/-- The bytes `save_file` writes: every line with a line feed. -/
def contents (v : Vim) : Option Text := do
  let texts ← v.buf.mapM cstr
  some (texts.flatMap fun s => s ++ [10])

/-- `save_file` (editor.c:142). -/
def saveFile (v : Vim) (fs : Files) : Option (Int × Vim) := do
  let out ← v.contents
  if fs.mounted = false then some (-1, v.setMsg (ascii "Write error: no filesystem"))
  else if fs.writeFile v.path out = 0 then
    some (0, { v with dirty := false }.setMsg (ascii "\"" ++ v.path ++ ascii "\" " ++ decimal v.nlines ++ ascii "L written"))
  else some (fs.writeFile v.path out, v.setMsg (ascii "Write error: " ++ v.path ++ ascii " (see serial)"))

/-! ## Edit primitives -/

/-- `insert_char` (editor.c:233). -/
def insertChar (v : Vim) (c : UInt8) : Option Vim := do
  let line ← v.line v.cy
  let len ← strlen line
  if VIM_MAX_COL ≤ len + 1 then some v
  else do
    let line ← memmove line (v.cx + 1) v.cx (usize (len - v.cx + 1))
    let line ← put line v.cx c
    some { v.setLine line with cx := v.cx + 1, dirty := true }

/-- `insert_newline` (editor.c:243). -/
def insertNewline (v : Vim) : Option Vim := do
  if VIM_MAX_LINES ≤ v.nlines then some v
  else do
    let cur ← v.line v.cy
    let len ← strlen cur
    let tail ← lalloc cur v.cx (usize (len - v.cx))
    let cur ← put cur v.cx 0
    let v ← (v.setLine cur).openLine (v.cy + 1) tail
    some { v with cy := v.cy + 1, cx := 0, dirty := true }

/-- `backspace_char` (editor.c:260). -/
def backspaceChar (v : Vim) : Option Vim := do
  if 0 < v.cx then do
    let line ← v.line v.cy
    let len ← strlen line
    let line ← memmove line (v.cx - 1) v.cx (usize (len - v.cx + 1))
    some { v.setLine line with cx := v.cx - 1, dirty := true }
  else if 0 < v.cy then do
    let prev ← v.line (v.cy - 1)
    let plen ← strlen prev
    let cur ← v.line v.cy
    let clen ← strlen cur
    if plen + clen < VIM_MAX_COL then do
      let prev ← strcat prev cur
      let v ← { v with buf := v.buf.set (v.cy - 1) prev }.closeLine v.cy
      some { v with cy := v.cy - 1, cx := plen, dirty := true }
    else some { v with dirty := true }
  else some { v with dirty := true }

/-- `delete_fwd` (editor.c:283). -/
def deleteFwd (v : Vim) : Option Vim := do
  let line ← v.line v.cy
  let len ← strlen line
  if v.cx < len then do
    let line ← memmove line v.cx (v.cx + 1) (usize (len - v.cx))
    some { v.setLine line with dirty := true }
  else if v.cy + 1 < v.nlines then do
    let next ← v.line (v.cy + 1)
    let nlen ← strlen next
    if len + nlen < VIM_MAX_COL then do
      let line ← strcat line next
      let v ← (v.setLine line).closeLine (v.cy + 1)
      some { v with dirty := true }
    else some v
  else some v

/-- `delete_line` (editor.c:303). -/
def deleteLine (v : Vim) (r : Nat) : Option Vim := do
  if v.nlines = 1 then do
    let first ← v.line 0
    let first ← put first 0 0
    some { v with buf := v.buf.set 0 first, cx := 0, dirty := true }
  else do
    let v ← v.closeLine r
    let v := if v.nlines ≤ v.cy then { v with cy := v.nlines - 1 } else v
    some { v with cx := 0, dirty := true }

/-- `delete_to_eol` (editor.c:314). -/
def deleteToEol (v : Vim) : Option Vim := do
  let line ← v.line v.cy
  let len ← strlen line
  if len ≤ v.cx then some v
  else do
    let line ← put line v.cx 0
    some { v.setLine line with cx := if 0 < v.cx then v.cx - 1 else v.cx, dirty := true }

/-- `yank_line` (editor.c:324). -/
def yankLine (v : Vim) (r : Nat) : Option Vim := do
  let line ← v.line r
  let s ← cstr line
  let s := s.take (VIM_MAX_COL - 1)
  some { v with yank := s ++ List.replicate (VIM_MAX_COL - s.length) 0, hasYank := true }

/-- `paste_below` (editor.c:331). -/
def pasteBelow (v : Vim) : Option Vim := do
  if v.hasYank = false ∨ VIM_MAX_LINES ≤ v.nlines then some v
  else do
    let len ← strlen v.yank
    let nl ← lalloc v.yank 0 len
    let v ← v.openLine (v.cy + 1) nl
    some { v with cy := v.cy + 1, cx := 0, dirty := true }

/-- `paste_above` (editor.c:345). -/
def pasteAbove (v : Vim) : Option Vim := do
  if v.hasYank = false ∨ VIM_MAX_LINES ≤ v.nlines then some v
  else do
    let len ← strlen v.yank
    let nl ← lalloc v.yank 0 len
    let v ← v.openLine v.cy nl
    some { v with cx := 0, dirty := true }

end Vim

/-! ## Moving along a line -/

/-- `is_word_char` (editor.c:360). -/
def isWordChar (c : UInt8) : Bool :=
  (97 ≤ c && c ≤ 122) || (65 ≤ c && c ≤ 90) || (48 ≤ c && c ≤ 57) || c == 95

/-- `while (i < len && p(line[i])) i++`. -/
def skipWhile (p : UInt8 → Bool) (line : Text) (len i : Nat) : Option Nat :=
  if i < len then (line)[i]?.bind fun c => if p c then skipWhile p line len (i + 1) else some i
  else some i
termination_by len - i

/-- `while (i > 0 && p(line[i])) i--`. -/
def backOver (p : UInt8 → Bool) (line : Text) : Nat → Option Nat
  | 0 => some 0
  | i + 1 => (line)[i + 1]?.bind fun c => if p c then backOver p line i else some (i + 1)

/-- `while (i > 0 && p(line[i - 1])) i--`. -/
def backWhile (p : UInt8 → Bool) (line : Text) : Nat → Option Nat
  | 0 => some 0
  | i + 1 => (line)[i]?.bind fun c => if p c then backWhile p line i else some (i + 1)

/-- The end of the run of word characters, or of others, at `i`. -/
def wordEnd (line : Text) (len i : Nat) : Option Nat := do
  let c ← (line)[i]?
  skipWhile (fun x => isWordChar x == isWordChar c) line len i

def isBlank (c : UInt8) : Bool := c == 32

namespace Vim

/-- `move_word_fwd` (editor.c:366). -/
def moveWordFwd (v : Vim) : Option Vim := do
  let line ← v.line v.cy
  let len ← strlen line
  if v.cx < len then do
    let e ← wordEnd line len v.cx
    let e ← skipWhile isBlank line len e
    some { v with cx := e }
  else some (if v.cy + 1 < v.nlines then { v with cy := v.cy + 1, cx := 0 } else v)

/-- `move_word_back` (editor.c:379). -/
def moveWordBack (v : Vim) : Option Vim := do
  if 0 < v.cx then do
    let line ← v.line v.cy
    let i ← backOver isBlank line (v.cx - 1)
    let c ← (line)[i]?
    let i ← backWhile (fun x => isWordChar x == isWordChar c) line i
    some { v with cx := i }
  else if 0 < v.cy then do
    let line ← v.line (v.cy - 1)
    let len ← strlen line
    some { v with cy := v.cy - 1, cx := if 0 < len then len - 1 else 0 }
  else some v

/-! ## Search -/

/-- The loop of `search_next` (editor.c:396), over the line offsets that are left. -/
def searchNextFrom (v : Vim) : List Nat → Option Vim
  | [] => some (v.setMsg (ascii "Pattern not found"))
  | i :: is => do
    let ly := (v.cy + i) % v.nlines
    let start := if i = 0 then v.cx + 1 else 0
    let line ← v.line ly
    let llen ← strlen line
    if llen < start then searchNextFrom v is
    else
      match ← strstr (line.drop start) v.search with
      | some p => some ({ v with cy := ly, cx := start + p }.setMsg [])
      | none => searchNextFrom v is

/-- `search_next` (editor.c:396). -/
def searchNext (v : Vim) : Option Vim :=
  if v.searchLen = 0 then some (v.setMsg (ascii "No previous search pattern"))
  else v.searchNextFrom (List.range (v.nlines + 1))

/-- The loop of `search_first` (editor.c:415). -/
def searchFirstFrom (v : Vim) : List Nat → Option Vim
  | [] => some (v.setMsg (ascii "Pattern not found"))
  | i :: is => do
    let ly := (v.cy + i) % v.nlines
    let line ← v.line ly
    match ← strstr line v.search with
    | some p => some ({ v with cy := ly, cx := p }.setMsg [])
    | none => searchFirstFrom v is

/-- `search_first` (editor.c:415). -/
def searchFirst (v : Vim) : Option Vim :=
  if v.searchLen = 0 then some v else v.searchFirstFrom (List.range v.nlines)

/-- The columns before `n`, from the last to the first (editor.c:650): one where the pattern starts. -/
def patternBefore (line pattern : Text) : Nat → Option (Option Nat)
  | 0 => some none
  | col + 1 => do
    match ← strstr (line.drop col) pattern with
    | some 0 => some (some col)
    | _ => patternBefore line pattern col

/-- The loop of 'N' (editor.c:645). -/
def searchBackFrom (v : Vim) : List Nat → Option Vim
  | [] => some (v.setMsg (ascii "Pattern not found"))
  | i :: is => do
    let ly := (v.cy + v.nlines - i) % v.nlines
    let line ← v.line ly
    let llen ← strlen line
    if llen = 0 then searchBackFrom v is
    else
      match ← patternBefore line v.search (if ly = v.cy then v.cx else llen) with
      | some col => some ({ v with cy := ly, cx := col }.setMsg [])
      | none => searchBackFrom v is

/-- The key 'N' (editor.c:642). -/
def searchBack (v : Vim) : Option Vim :=
  if v.searchLen = 0 then some (v.setMsg (ascii "No previous search pattern"))
  else v.searchBackFrom (List.range' 1 v.nlines)

end Vim
end PureUnix.Editor
