import Mathlib.Logic.Function.Basic
import Mathlib.Data.List.Induction
import PureUnix.Lib.Lists

/-!
# The keyboard driver (`drivers/keyboard.c`)

Interrupts decode scancodes and put keys into a ring buffer; readers take them out. The buffer holds at most 127 keys, and
what arrives then is dropped. `keys_in_order`: whatever the interleaving, nothing else is lost, and nothing is
duplicated or reordered.
-/
namespace PureUnix

/-! ## Key codes (`include/pureunix/keyboard.h`) -/

def KEY_NONE : Nat := 0
def KEY_BACKSPACE : Nat := 8
def KEY_TAB : Nat := 9
def KEY_ENTER : Nat := 10
def KEY_ESCAPE : Nat := 27
def KEY_UP : Nat := 257
def KEY_DOWN : Nat := 258
def KEY_LEFT : Nat := 259
def KEY_RIGHT : Nat := 260
def KEY_HOME : Nat := 261
def KEY_END : Nat := 262
def KEY_PAGE_UP : Nat := 263
def KEY_PAGE_DOWN : Nat := 264
def KEY_DELETE : Nat := 265
def KEY_CTRL_S : Nat := 266
def KEY_CTRL_Q : Nat := 267
def KEY_CTRL_F : Nat := 268
def KEY_CTRL_C : Nat := 269

namespace Drivers

open List Function

def KEYBUF_SIZE : Nat := 128

def codes (s : String) : List Nat := s.toList.map Char.toNat

/-- The letters and signs of the four rows of keys, with the control keys between them. -/
def keyMap (digits upper home lower : String) : List Nat :=
  [0, KEY_ESCAPE] ++ codes digits ++ [KEY_BACKSPACE, KEY_TAB] ++ codes upper ++ [KEY_ENTER, 0] ++ codes home ++ [0] ++
    codes lower ++ [0, 0, 0] ++ codes " "

def normalMap : List Nat := keyMap "1234567890-=" "qwertyuiop[]" "asdfghjkl;'`" "\\zxcvbnm,./"
def shiftMap : List Nat := keyMap "!@#$%^&*()_+" "QWERTYUIOP\x7b\x7d" "ASDFGHJKL:\"~" "|ZXCVBNM<>?"

/-- The flags of the scancode automaton. -/
structure Modifiers where
  shiftDown : Bool := false
  ctrlDown : Bool := false
  altDown : Bool := false
  capsLock : Bool := false
  extended : Bool := false

def extendedKey (scancode : Nat) : Nat :=
  match scancode with
  | 0x48 => KEY_UP
  | 0x50 => KEY_DOWN
  | 0x4B => KEY_LEFT
  | 0x4D => KEY_RIGHT
  | 0x47 => KEY_HOME
  | 0x4F => KEY_END
  | 0x49 => KEY_PAGE_UP
  | 0x51 => KEY_PAGE_DOWN
  | 0x53 => KEY_DELETE
  | _ => KEY_NONE

/-- The character of a pressed key: the table, `caps_lock`, and the four keys that `ctrl` changes. -/
def keyOf (m : Modifiers) (sc : Nat) : Nat :=
  let ch := (if m.shiftDown then shiftMap else normalMap).getD sc 0
  let ch :=
    if 97 ≤ ch ∧ ch ≤ 122 ∧ m.capsLock then ch - 32
    else if 65 ≤ ch ∧ ch ≤ 90 ∧ m.capsLock ∧ !m.shiftDown then ch + 32
    else ch
  if m.ctrlDown then
    if ch = 115 ∨ ch = 83 then KEY_CTRL_S
    else if ch = 113 ∨ ch = 81 then KEY_CTRL_Q
    else if ch = 102 ∨ ch = 70 then KEY_CTRL_F
    else if ch = 99 ∨ ch = 67 then KEY_CTRL_C
    else ch
  else ch

/-- `keyboard_irq` on the byte read from the port: the flags after it, and the key it passes to `push_key`. -/
def keyboardIrq (m : Modifiers) (byte : UInt8) : Modifiers × Option Nat :=
  if byte = 0xE0 then ({ m with extended := true }, none)
  else
    let released := byte.toNat / 128 = 1
    let sc := byte.toNat % 128
    if m.extended then ({ m with extended := false }, if released then none else some (extendedKey sc))
    else if sc = 0x2A ∨ sc = 0x36 then ({ m with shiftDown := !released }, none)
    else if sc = 0x1D then ({ m with ctrlDown := !released }, none)
    else if sc = 0x38 then ({ m with altDown := !released }, none)
    else if released then (m, none)
    else if sc = 0x3A then ({ m with capsLock := !m.capsLock }, none)
    else (m, if keyOf m sc = 0 then none else some (keyOf m sc))

structure KeyBuffer where
  keybuf : Nat → Nat := fun _ => 0
  head : Nat := 0
  tail : Nat := 0

def pushKey (b : KeyBuffer) (key : Nat) : KeyBuffer :=
  let next := (b.head + 1) % KEYBUF_SIZE
  if next ≠ b.tail then { b with keybuf := update b.keybuf b.head key, head := next } else b

def keyboardTryGetkey (b : KeyBuffer) : Nat × KeyBuffer :=
  if b.head = b.tail then (KEY_NONE, b)
  else (b.keybuf b.tail, { b with tail := (b.tail + 1) % KEYBUF_SIZE })

/-! ### Runs -/

/-- A scancode arrives, or a reader asks for a key. -/
inductive Event
  | irq (byte : UInt8)
  | tryGetkey

/-- The driver, what readers got so far, and what was passed to `push_key`, with the number of keys that were pending. -/
structure Session where
  flags : Modifiers := {}
  buffer : KeyBuffer := {}
  returned : List Nat := []
  passed : List (Nat × Nat) := []

/-- The keys in the buffer, oldest first. -/
def KeyBuffer.pending (b : KeyBuffer) : List Nat :=
  (range ((b.head + KEYBUF_SIZE - b.tail) % KEYBUF_SIZE)).map fun i => b.keybuf ((b.tail + i) % KEYBUF_SIZE)

def Session.step (s : Session) : Event → Session
  | .irq byte =>
    match keyboardIrq s.flags byte with
    | (m, none) => { s with flags := m }
    | (m, some key) => { s with
      flags := m
      buffer := pushKey s.buffer key
      passed := s.passed ++ [(key, s.buffer.pending.length)] }
  | .tryGetkey =>
    let r := keyboardTryGetkey s.buffer
    { s with returned := s.returned ++ [r.1], buffer := r.2 }

def Session.run (events : List Event) : Session := events.foldl Session.step {}

/-- The keys in a sequence: all entries but `KEY_NONE`. -/
def keys (l : List Nat) : List Nat := l.filter (· ≠ KEY_NONE)

theorem keys_append (l m : List Nat) : keys (l ++ m) = keys l ++ keys m := filter_append ..

/-! ### The buffer as a queue -/

section
variable {b : KeyBuffer} (h : b.head < 128 ∧ b.tail < 128)
include h

theorem pending_pushKey (key : Nat) : (pushKey b key).pending =
    if b.pending.length = 127 then b.pending else b.pending ++ [key] := by
  have hl : b.pending.length = (b.head + 128 - b.tail) % 128 := by simp [KeyBuffer.pending, KEYBUF_SIZE]
  rw [hl, pushKey, KEYBUF_SIZE]
  by_cases hf : (b.head + 1) % 128 = b.tail
  · rw [if_neg (not_not.2 hf), if_pos (by omega)]
  have hn : ((b.head + 1) % 128 + 128 - b.tail) % 128 = (b.head + 128 - b.tail) % 128 + 1 := by omega
  have hlast : (b.tail + (b.head + 128 - b.tail) % 128) % 128 = b.head := by omega
  rw [if_pos hf, if_neg (by omega)]
  simp only [KeyBuffer.pending, KEYBUF_SIZE, hn, range_succ, map_append, map_cons, map_nil, hlast, update_self]
  congr 1
  refine map_congr_left fun i hi => update_of_ne ?_ _ _
  rw [mem_range] at hi
  omega

theorem pending_get (hne : b.head ≠ b.tail) : b.pending = (keyboardTryGetkey b).1 :: (keyboardTryGetkey b).2.pending := by
  have hn : (b.head + 128 - b.tail) % 128 = (b.head + 128 - (b.tail + 1) % 128) % 128 + 1 := by omega
  have ht : (b.tail + 0) % 128 = b.tail := by omega
  simp only [keyboardTryGetkey, if_neg hne, KeyBuffer.pending, KEYBUF_SIZE, hn, range_succ_eq_map, map_cons, map_map, ht]
  congr 1
  refine map_congr_left fun i _ => congrArg b.keybuf ?_
  omega

end

/-- What has been read and what is pending is what was accepted. -/
structure Session.Ok (s : Session) : Prop where
  inside : s.buffer.head < 128 ∧ s.buffer.tail < 128
  order : keys s.returned ++ keys s.buffer.pending = keys ((s.passed.filter (·.2 ≠ 127)).map Prod.fst)

theorem Session.Ok.step {s : Session} (h : s.Ok) (e : Event) : (s.step e).Ok := by
  obtain ⟨hi, ho⟩ := h
  cases e with
  | irq byte =>
    rw [Session.step]
    split
    · exact ⟨hi, ho⟩
    next key _ =>
    refine ⟨?_, ?_⟩
    · dsimp only [pushKey, KEYBUF_SIZE]
      by_cases hf : (s.buffer.head + 1) % 128 = s.buffer.tail <;> simp [hf] <;> omega
    · rw [pending_pushKey hi, filter_append, map_append, keys_append, ← ho]
      by_cases hl : s.buffer.pending.length = 127 <;> simp [hl, keys_append]
      rfl
  | tryGetkey =>
    by_cases hne : s.buffer.head = s.buffer.tail
    · have hstep : s.step .tryGetkey = { s with returned := s.returned ++ [KEY_NONE] } := by
        simp [Session.step, keyboardTryGetkey, hne]
      rw [hstep]
      exact ⟨hi, by rw [keys_append, append_assoc]; exact ho⟩
    · refine ⟨?_, ?_⟩
      · simp only [Session.step, keyboardTryGetkey, if_neg hne, KEYBUF_SIZE]
        omega
      · rw [pending_get hi hne, ← singleton_append, keys_append, ← append_assoc] at ho
        rwa [Session.step, keys_append]

theorem Session.run_ok (events : List Event) : (Session.run events).Ok := by
  suffices ∀ s : Session, s.Ok → (events.foldl Session.step s).Ok from this {} ⟨by decide, rfl⟩
  induction events with
  | nil => exact fun s h => h
  | cons e events ih => exact fun s h => ih _ (h.step e)

/-- **Keys are delivered in order, once.** -/
theorem keys_in_order (events : List Event) : keys (Session.run events).returned ++ keys (Session.run events).buffer.pending =
    keys (((Session.run events).passed.filter (·.2 ≠ 127)).map Prod.fst) :=
  (Session.run_ok events).order

/-! ### Halting -/

/-- A turn of `keyboard_getkey` halts the CPU. -/
def getkeyHalts (b : KeyBuffer) : Prop := (keyboardTryGetkey b).1 = KEY_NONE

def irqBytes (events : List Event) : Text :=
  events.filterMap fun
    | .irq byte => some byte
    | .tryGetkey => none

theorem irqBytes_append (events more : List Event) : irqBytes (events ++ more) = irqBytes events ++ irqBytes more :=
  filterMap_append

/-- A key is pressed whose extended code `extended_key` does not know. -/
def PressesUnknown (bytes : Text) : Prop :=
  ∃ before byte behind, bytes = before ++ 0xE0 :: byte :: behind ∧ byte < 0x80 ∧
    byte ∉ [0x47, 0x48, 0x49, 0x4B, 0x4D, 0x4F, 0x50, 0x51, 0x53]

theorem extendedKey_eq_none {byte : UInt8} (h : byte < 0x80) : extendedKey (byte.toNat % 128) = KEY_NONE ↔
    byte ∉ [0x47, 0x48, 0x49, 0x4B, 0x4D, 0x4F, 0x50, 0x51, 0x53] := by
  have hlt : byte.toNat < 128 := h
  rw [Nat.mod_eq_of_lt hlt]
  simp only [mem_cons, not_mem_nil, or_false, ← UInt8.toNat_inj]
  unfold extendedKey
  split <;> simp_all [KEY_NONE, KEY_UP, KEY_DOWN, KEY_LEFT, KEY_RIGHT, KEY_HOME, KEY_END, KEY_PAGE_UP, KEY_PAGE_DOWN, KEY_DELETE]

theorem irq_extended (m : Modifiers) (byte : UInt8) : (keyboardIrq m byte).1.extended = decide (byte = 0xE0) := by
  unfold keyboardIrq
  dsimp only
  split_ifs <;> simp_all

/-- Only an unknown extended code passes `KEY_NONE` to `push_key`. -/
theorem irq_none {m : Modifiers} {byte : UInt8} (h : (keyboardIrq m byte).2 = some KEY_NONE) :
    m.extended = true ∧ byte < 0x80 ∧ extendedKey (byte.toNat % 128) = KEY_NONE := by
  have hb := byte.toNat_lt
  unfold keyboardIrq at h
  dsimp only at h
  split_ifs at h with _ he hr
  all_goals simp only [Option.some.injEq] at h
  · exact ⟨he, UInt8.lt_iff_toNat_lt.2 (by change byte.toNat < 128; omega), h⟩
  · contradiction

theorem step_irq_flags (s : Session) (byte : UInt8) : (s.step (.irq byte)).flags = (keyboardIrq s.flags byte).1 := by
  rw [Session.step]
  split <;> simp_all

theorem mem_step_irq {s : Session} (h : s.buffer.head < 128 ∧ s.buffer.tail < 128) {byte : UInt8} {k : Nat}
    (hk : k ∈ (s.step (.irq byte)).buffer.pending) : k ∈ s.buffer.pending ∨ (keyboardIrq s.flags byte).2 = some k := by
  rw [Session.step] at hk
  split at hk
  · exact .inl hk
  next key heq =>
  rw [pending_pushKey h] at hk
  split at hk
  · exact .inl hk
  · simpa [heq, eq_comm] using hk

theorem Session.run_snoc (events : List Event) (e : Event) : Session.run (events ++ [e]) = (Session.run events).step e :=
  foldl_append ..

/-- Where no unknown key is pressed, no `KEY_NONE` is in the buffer, and `extended` is set behind 0xE0 only. -/
theorem quiet {bytes : Text} (hn : ¬ PressesUnknown bytes) (events : List Event) (h : irqBytes events <+: bytes) :
    KEY_NONE ∉ (Session.run events).buffer.pending ∧
      ((Session.run events).flags.extended = true → ∃ before, irqBytes events = before ++ [0xE0]) := by
  induction events using List.reverseRecOn with
  | nil => exact ⟨by decide, nofun⟩
  | append_singleton events e ih =>
    rw [irqBytes_append] at h
    obtain ⟨hnone, hext⟩ := ih ((prefix_append _ _).trans h)
    have hok := (Session.run_ok events).inside
    rw [Session.run_snoc, irqBytes_append]
    cases e with
    | irq byte =>
      refine ⟨fun hmem => ?_, fun hx => ⟨irqBytes events, ?_⟩⟩
      -- a `KEY_NONE` that was not there is the one just pushed, and then an unknown key was pressed
      · obtain hmem | hpushed := mem_step_irq hok hmem
        · exact hnone hmem
        · obtain ⟨hx, hlt, hunknown⟩ := irq_none hpushed
          obtain ⟨before, hbefore⟩ := hext hx
          obtain ⟨behind, hbytes⟩ := h
          rw [hbefore, append_assoc, append_assoc] at hbytes
          exact hn ⟨before, byte, behind, hbytes.symm, hlt, (extendedKey_eq_none hlt).1 hunknown⟩
      · rw [step_irq_flags, irq_extended] at hx
        rw [of_decide_eq_true hx]
        rfl
    | tryGetkey =>
      refine ⟨fun hmem => hnone ?_, by simpa [Session.step, irqBytes] using hext⟩
      by_cases hne : (Session.run events).buffer.head = (Session.run events).buffer.tail
      · rwa [Session.step, keyboardTryGetkey, if_pos hne] at hmem
      · rw [pending_get hok hne]
        exact mem_cons_of_mem _ hmem

/-- Each byte followed by a read. -/
def drained (bytes : Text) : List Event := bytes.flatMap fun byte => [.irq byte, .tryGetkey]

theorem irqBytes_drained (bytes : Text) : irqBytes (drained bytes) = bytes := by
  induction bytes with
  | nil => rfl
  | cons byte bytes ih => exact congrArg (byte :: ·) ih

theorem run_drained (bytes : Text) : (Session.run (drained bytes)).buffer.head = (Session.run (drained bytes)).buffer.tail := by
  suffices ∀ s : Session, s.buffer.head < 128 → s.buffer.head = s.buffer.tail →
      ((drained bytes).foldl Session.step s).buffer.head = ((drained bytes).foldl Session.step s).buffer.tail from
    this {} (by decide) rfl
  induction bytes with
  | nil => exact fun s _ h => h
  | cons byte bytes ih =>
    intro s hlt h
    have hnext : (s.buffer.tail + 1) % 128 ≠ s.buffer.tail := by omega
    refine ih ((s.step (.irq byte)).step .tryGetkey) ?_ ?_
    all_goals
      simp only [Session.step]
      split <;> simp only [keyboardTryGetkey, pushKey, KEYBUF_SIZE, h, hnext, ne_eq, not_false_eq_true, if_true, if_false]
    all_goals omega

/-- **When the CPU is halted, no key waits**, unless a key is pressed whose extended code is unknown. -/
theorem getkey_halts_iff (bytes : Text) :
    (∀ events, irqBytes events <+: bytes → getkeyHalts (Session.run events).buffer →
      (Session.run events).buffer.head = (Session.run events).buffer.tail) ↔ ¬ PressesUnknown bytes := by
  constructor
  · rintro h ⟨before, byte, behind, rfl, hlt, hnine⟩
    have hbytes := irqBytes_drained before
    have hempty := run_drained before
    have hin := (Session.run_ok (drained before)).inside
    set s := Session.run (drained before) with hs
    have hrun : Session.run (drained before ++ [.irq 0xE0, .irq byte]) = (s.step (.irq 0xE0)).step (.irq byte) := by
      rw [hs, Session.run, foldl_append]
      rfl
    have hne : byte ≠ 0xE0 := by
      rintro rfl
      exact absurd hlt (by decide)
    have hmake : ¬ byte.toNat / 128 = 1 := by
      have : byte.toNat < 128 := hlt
      omega
    have hbuf : ((s.step (.irq 0xE0)).step (.irq byte)).buffer = pushKey s.buffer KEY_NONE := by
      simp [Session.step, keyboardIrq, hne, hmake, (extendedKey_eq_none hlt).2 hnine]
    have hall := h (drained before ++ [.irq 0xE0, .irq byte])
    rw [hrun, hbuf] at hall
    have hnext : (s.buffer.tail + 1) % 128 ≠ s.buffer.tail := by omega
    have hpush : pushKey s.buffer KEY_NONE = { s.buffer with
        keybuf := update s.buffer.keybuf s.buffer.tail KEY_NONE, head := (s.buffer.tail + 1) % 128 } := by
      rw [pushKey, KEYBUF_SIZE, hempty, if_pos hnext]
    rw [hpush] at hall
    refine hnext (hall ?_ ?_)
    · exact ⟨behind, by rw [irqBytes_append, hbytes]; simp [irqBytes]⟩
    · simp [getkeyHalts, keyboardTryGetkey, hnext]
  · intro hn events hpre hhalt
    by_contra hne
    refine (quiet hn events hpre).1 ?_
    rw [pending_get (Session.run_ok events).inside hne, show (keyboardTryGetkey _).1 = KEY_NONE from hhalt]
    exact mem_cons_self

/-- The left Windows key: `KEY_NONE` waits in the buffer and the reader goes to sleep on it. -/
theorem getkey_halts_gui : irqBytes [.irq 0xE0, .irq 0x5B] = [0xE0, 0x5B] ∧
    getkeyHalts (Session.run [.irq 0xE0, .irq 0x5B]).buffer ∧
    (Session.run [.irq 0xE0, .irq 0x5B]).buffer.head ≠ (Session.run [.irq 0xE0, .irq 0x5B]).buffer.tail :=
  ⟨rfl, rfl, by decide⟩

end Drivers
end PureUnix
