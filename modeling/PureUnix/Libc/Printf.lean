import PureUnix.Lib.Lists

/-!
# Formatted output (`libc/printf.c`)

`vsnprintf` and `vprintf` run the same directive loop on two kinds of output. A format that ends behind `%` or `%l` makes the loop
step over the terminator. Otherwise the buffer is a truncated copy of what the terminal shows (`printf_consistent_iff`).
-/
namespace PureUnix.Libc

open List

/-- `outbuf_t`: the stores into `buf` in order, and the characters passed to `vga_putc`. -/
structure OutBuf where
  buf : Bool := false
  size : Nat := 0
  pos : Nat := 0
  total : Nat := 0
  terminal : Bool := false
  stores : List (UInt8 × Nat) := []
  shown : Text := []

def emit (out : OutBuf) (c : UInt8) : OutBuf :=
  let out := { out with total := out.total + 1 }
  if out.terminal then { out with shown := out.shown ++ [c] }
  else if out.buf ∧ 0 < out.size ∧ out.pos + 1 < out.size then
    { out with stores := out.stores ++ [(c, out.pos)], pos := out.pos + 1 }
  else out

/-- What `emit_str` emits; NULL is "(null)". -/
def strText (s : Option Text) : Text := (s.getD [40, 110, 117, 108, 108, 41]).takeWhile (· ≠ 0)

/-- The entries of `tmp` that the digit loop fills. -/
def tmpDigits (upper : Bool) (base : Nat) : Nat → Nat → Text
  | 0, _ => []
  | n + 1, value =>
    if value = 0 then []
    else
      let d := value % base
      UInt8.ofNat (if d < 10 then 48 + d else (if upper then 55 else 87) + d) :: tmpDigits upper base n (value / base)

/-- What `emit_number` emits. -/
def numberText (value : UInt32) (base : Nat) (sign upper : Bool) : Text :=
  let negative := sign ∧ 2147483648 ≤ value.toNat
  let value := if negative then (-value).toNat else value.toNat
  (if negative then [45] else []) ++ if value = 0 then [48] else (tmpDigits upper base 32 value).reverse

inductive Arg
  | word (v : UInt32)
  | str (s : Option Text)

/-- The `switch` on the character of a directive: what it emits, and the arguments left. Nothing where the next argument is
missing or of another kind. -/
def directive (c : UInt8) (args : List Arg) : Option (Text × List Arg) :=
  if c = 37 then some ([37], args)
  else if c = 115 then
    match args with
    | .str s :: args => some (strText s, args)
    | _ => none
  else if c ∈ [99, 100, 105, 117, 120, 88, 112] then
    match args with
    | .word v :: args =>
      some (if c = 99 then [v.toUInt8] else if c = 100 ∨ c = 105 then numberText v 10 true false
        else if c = 117 then numberText v 10 false false else if c = 120 then numberText v 16 false false
        else if c = 88 then numberText v 16 false true else [48, 120] ++ numberText v 16 false false, args)
    | _ => none
  else some ([37, c], args)

inductive Fault
  | overrun
  | badArg

/-- The loop over the format; `[]` is its terminator. Behind `%` or `%l` the terminator is taken for a directive, and `++p` steps over it. -/
def formatLoop (out : OutBuf) : Text → List Arg → Except Fault OutBuf
  | [], _ => .ok out
  | [37], _ | [37, 108], _ => .error .overrun
  | 37 :: 108 :: c :: p, args | 37 :: c :: p, args =>
    match directive c args with
    | none => .error .badArg
    | some (text, args) => formatLoop (text.foldl emit out) p args
  | c :: p, args => formatLoop (emit out c) p args

/-- `vprintf`: the characters it emits and the total it returns. -/
def vprintf (fmt : Text) (args : List Arg) : Except Fault (Text × Nat) := do
  let out ← formatLoop { terminal := true } fmt args
  pure (out.shown, out.total)

/-- `vsnprintf`: its stores into `buf` and the total it returns. -/
def vsnprintf (size : Nat) (fmt : Text) (args : List Arg) : Except Fault (List (UInt8 × Nat) × Nat) := do
  let out ← formatLoop { buf := true, size } fmt args
  pure (if 0 < size then out.stores ++ [(0, if out.pos < size then out.pos else size - 1)] else out.stores, out.total)

/-- The format ends inside a directive. -/
def EndsInside : Text → Prop
  | [] => False
  | [37] | [37, 108] => True
  | 37 :: 108 :: _ :: p | 37 :: _ :: p => EndsInside p
  | _ :: p => EndsInside p

/-- The arguments are those the directives ask for. -/
def Matches : Text → List Arg → Prop
  | [], _ | [37], _ | [37, 108], _ => True
  | 37 :: 108 :: c :: p, args | 37 :: c :: p, args => ∃ r ∈ directive c args, Matches p r.2
  | _ :: p, args => Matches p args

/-! ### The two outputs -/

/-- The buffer `o` has what the terminal `t` has shown, as far as it fits. -/
structure Follows (size : Nat) (t o : OutBuf) : Prop where
  terminal : t.terminal = true ∧ o.terminal = false
  buffer : o.buf = true ∧ o.size = size
  total : o.total = t.total
  pos : o.pos = min t.shown.length (size - 1)
  stores : o.stores = (t.shown.take (size - 1)).zipIdx

variable {size : Nat} {t o : OutBuf} {fmt : Text} {args : List Arg}

theorem Follows.emit (h : Follows size t o) (c : UInt8) : Follows size (emit t c) (emit o c) := by
  obtain ⟨⟨h1, h2⟩, ⟨h3, h4⟩, h5, h6, h7⟩ := h
  unfold Libc.emit
  simp only [h1, h2, h3, h4, h6, if_true, true_and, Bool.false_eq_true, if_false]
  by_cases hfit : 0 < size ∧ min t.shown.length (size - 1) + 1 < size
  · have hlen : t.shown.length + 1 ≤ size - 1 := by omega
    rw [if_pos hfit]
    refine ⟨⟨rfl, rfl⟩, ⟨rfl, rfl⟩, by simp [h5], by simp; omega, ?_⟩
    rw [h7, take_of_length_le (by omega), take_of_length_le (by simpa using hlen), zipIdx_append, Nat.min_eq_left (by omega)]
    simp
  · rw [if_neg hfit]
    refine ⟨⟨rfl, rfl⟩, ⟨rfl, rfl⟩, by simp [h5], by simp; omega, ?_⟩
    rw [h7, take_append_of_le_length (by omega)]

theorem Follows.emits (text : Text) (h : Follows size t o) : Follows size (text.foldl Libc.emit t) (text.foldl Libc.emit o) := by
  induction text generalizing t o with
  | nil => exact h
  | cons c text ih => exact ih (h.emit c)

theorem Follows.formatLoop (h : Follows size t o) (ha : Matches fmt args) :
    (EndsInside fmt ∧ formatLoop t fmt args = .error .overrun) ∨
      ¬ EndsInside fmt ∧ ∃ t' o', Libc.formatLoop t fmt args = .ok t' ∧ Libc.formatLoop o fmt args = .ok o' ∧ Follows size t' o' := by
  fun_induction Matches fmt args generalizing t o with
  | case1 => exact .inr ⟨id, t, o, rfl, rfl, h⟩
  | case2 => exact .inl ⟨trivial, rfl⟩
  | case3 => exact .inl ⟨trivial, rfl⟩
  | case4 c p args ih =>
    obtain ⟨⟨text, rest⟩, hd, ha⟩ := ha
    rw [Option.mem_def] at hd
    simpa only [Libc.formatLoop, EndsInside, hd] using ih _ (h.emits text) ha
  | case5 c p args _ _ ih =>
    obtain ⟨⟨text, rest⟩, hd, ha⟩ := ha
    rw [Option.mem_def] at hd
    simpa only [Libc.formatLoop, EndsInside, hd] using ih _ (h.emits text) ha
  | case6 c p args _ _ _ _ ih =>
    simpa only [Libc.formatLoop, EndsInside] using ih (h.emit c) ha

/-- **Formatted output is consistent.** Unless the format ends inside a directive, the loop stays inside it, and `vsnprintf` stores what
`vprintf` emits, cut to `size - 1` characters, and a NUL, each in the next place of the buffer. -/
theorem printf_consistent_iff (size : Nat) (ha : Matches fmt args) : (∃ text total, vprintf fmt args = .ok (text, total) ∧
      vsnprintf size fmt args = .ok (if 0 < size then (text.take (size - 1) ++ [0]).zipIdx else [], total)) ↔ ¬ EndsInside fmt := by
  have h0 : Follows size { terminal := true } { buf := true, size } := ⟨⟨rfl, rfl⟩, ⟨rfl, rfl⟩, rfl, by simp, by simp⟩
  rcases h0.formatLoop ha with ⟨he, hr⟩ | ⟨he, t, o, ht, ho, h⟩
  · refine iff_of_false ?_ (not_not.2 he)
    rintro ⟨text, total, hv, -⟩
    rw [vprintf, hr] at hv
    cases hv
  · refine iff_of_true ⟨t.shown, t.total, by rw [vprintf, ht]; rfl, ?_⟩ he
    rw [vsnprintf, ho]
    refine congrArg Except.ok (Prod.ext ?_ h.total)
    have hp := h.pos
    dsimp only
    split
    · rw [if_pos (by omega), h.stores, zipIdx_append, length_take, hp, Nat.min_comm]
      simp
    · rw [h.stores, show size = 0 by omega]
      rfl

/-- `"%s!"` with "ab" into three bytes. -/
theorem printf_consistent_cut : vsnprintf 3 [37, 115, 33] [.str (some [97, 98])] = .ok ([(97, 0), (98, 1), (0, 2)], 3) := by
  have ha : Matches [37, 115, 33] [.str (some [97, 98])] := ⟨_, rfl, trivial⟩
  obtain ⟨text, total, h1, h2⟩ := (printf_consistent_iff 3 ha).2 (by simp [EndsInside])
  rw [h2]
  cases h1
  rfl

/-- The format "%". -/
theorem printf_overrun : Matches [37] [] ∧ vprintf [37] [] = .error .overrun ∧ ∀ size, vsnprintf size [37] [] = .error .overrun :=
  ⟨trivial, rfl, fun _ => rfl⟩

end PureUnix.Libc
