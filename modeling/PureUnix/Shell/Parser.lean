import Mathlib
import PureUnix.Lib.Lists

/-!
# The shell's command line parser

`src/shell/parser.c`. A line and its tokens are C strings, kept without the closing zero byte. The
tokenizer drops the quotes before `shell_parse` compares a token with the operators, so an argument
in quotes is safe exactly when its text is not that of an operator.
-/

namespace PureUnix.Shell

open List

def SHELL_MAX_ARGS : Nat := 16
def SHELL_MAX_ARG_LEN : Nat := 96
def SHELL_MAX_COMMANDS : Nat := 4

/-- `shell_command_t`: `argc` is the number of `args`, and `argv` points at them with a NULL behind. -/
structure Command where
  args : List Text := []
  input : Text := []
  output : Text := []
  append : Bool := false
deriving DecidableEq, Repr

def isBlank (c : UInt8) : Bool := c = 32 || c = 9

/-- `is_meta`: `|`, `<` and `>`. -/
def isMeta (c : UInt8) : Bool := c = 124 || c = 60 || c = 62

/-- The bytes a copying loop of `next_token` puts into its buffer. -/
def fill (p : UInt8 → Bool) (s : Text) : Text := (s.takeWhile p).take (SHELL_MAX_ARG_LEN - 1)

def isWordByte (c : UInt8) : Bool := !isBlank c && !isMeta c

/-- `next_token`: the token and where the cursor stands behind it. -/
def nextToken (cursor : Text) : Option (Text × Text) :=
  match cursor.dropWhile isBlank with
  | [] => none
  | c :: p =>
    if isMeta c then
      if c = 62 ∧ p.head? = some 62 then some ([c, 62], p.tail) else some ([c], p)
    else if c = 39 ∨ c = 34 then
      let token := fill (· ≠ c) p
      let rest := p.drop token.length
      some (token, if rest.head? = some c then rest.tail else rest)
    else
      let token := fill isWordByte (c :: p)
      some (token, (c :: p).drop token.length)

variable {s t r : Text} {pre : List Command} {ts : List Text} {cmd : Command}

theorem nextToken_lt (h : nextToken s = some (t, r)) : r.length < s.length := by
  have hs : (s.dropWhile isBlank).length ≤ s.length := (dropWhile_sublist _).length_le
  have hb := head?_dropWhile_not isBlank s
  unfold nextToken at h
  split at h
  · simp at h
  next c p e =>
  rw [e] at hs hb
  simp only [length_cons, head?_cons] at hs hb
  split_ifs at h with hm hg hq
  · grind
  · grind
  · grind
  · have : 0 < (fill isWordByte (c :: p)).length := by
      simp [fill, isWordByte, SHELL_MAX_ARG_LEN, hm, hb]
    grind

/-- The tokens that the calls of `next_token` on a line deliver one after the other. -/
def tokens (cursor : Text) : List Text :=
  match _h : nextToken cursor with
  | none => []
  | some (token, rest) => token :: tokens rest
termination_by cursor.length
decreasing_by exact nextToken_lt _h

/-- `|`, `<`, `>` and `>>` as the strings `shell_parse` compares a token with. -/
def pipe : Text := [124]
def less : Text := [60]
def great : Text := [62]
def dgreat : Text := [62, 62]

def Command.redirect (cmd : Command) (op name : Text) : Command :=
  if op = less then { cmd with input := name }
  else { cmd with output := name, append := op = dgreat }

/-- The loop of `shell_parse`: `cmd` is being filled, and the commands in `pre` are complete. -/
def assemble (pre : List Command) (cmd : Command) : List Text → Except String (List Command)
  | [] =>
    if cmd.args = [] ∧ pre ≠ [] then .error "empty command at end of pipeline"
    else .ok (pre ++ [cmd])
  | tok :: rest =>
    if tok = pipe then
      if cmd.args = [] then .error "syntax error near '|'"
      else if SHELL_MAX_COMMANDS ≤ pre.length + 1 then .error "pipeline too long"
      else assemble (pre ++ [cmd]) {} rest
    else if tok = less ∨ tok = great ∨ tok = dgreat then
      match rest with
      | [] => .error "redirection missing filename"
      | name :: rest => assemble pre (cmd.redirect tok name) rest
    else if SHELL_MAX_ARGS ≤ cmd.args.length then .error "too many arguments"
    else assemble pre { cmd with args := cmd.args ++ [tok] } rest

/-- `shell_parse`: the commands of the pipeline, or the text it writes to the error stream. -/
def shellParse (line : Text) : Except String (List Command) := assemble [] {} (tokens line)

/-! ### Arguments in quotes -/

def Operator (tok : Text) : Prop := tok = pipe ∨ tok = less ∨ tok = great ∨ tok = dgreat

instance : DecidablePred Operator := fun _ => inferInstanceAs (Decidable (_ ∨ _))

/-- Each argument between two quotes `q`, with the blanks that stand before it. -/
def quoted (q : UInt8) : List (Text × Text) → Text
  | [] => []
  | (blanks, arg) :: rest => blanks ++ q :: (arg ++ q :: quoted q rest)

variable {q : UInt8} {l : List (Text × Text)}

theorem nextToken_quoted {blanks arg : Text} (hq : q = 39 ∨ q = 34) (hb : ∀ c ∈ blanks, isBlank c)
    (ha : q ∉ arg) (hl : arg.length ≤ 95) :
    nextToken (blanks ++ q :: (arg ++ q :: r)) = some (arg, r) := by
  have hd : (q :: (arg ++ q :: r)).dropWhile isBlank = q :: (arg ++ q :: r) := by
    rcases hq with rfl | rfl <;> rfl
  have hm : isMeta q = false := by
    rcases hq with rfl | rfl <;> rfl
  have hf : fill (· ≠ q) (arg ++ q :: r) = arg := by
    rw [fill, takeWhile_append_of_pos (by grind)]
    simpa [SHELL_MAX_ARG_LEN] using take_of_length_le hl
  rw [nextToken, dropWhile_append_of_pos hb, hd]
  simp only [hm, hq, hf, drop_left]
  simp

theorem tokens_blank (h : ∀ c ∈ s, isBlank c) : tokens s = [] := by
  have hn : nextToken s = none := by rw [nextToken, dropWhile_eq_nil_iff.2 h]
  rw [tokens]
  split
  · rfl
  · simp_all

theorem tokens_cons (h : nextToken s = some (t, r)) : tokens s = t :: tokens r := by
  rw [tokens]
  split <;> simp_all

theorem tokens_quoted (hq : q = 39 ∨ q = 34) (ht : ∀ c ∈ t, isBlank c)
    (h : ∀ x ∈ l, (∀ c ∈ x.1, isBlank c) ∧ q ∉ x.2 ∧ x.2.length ≤ 95) :
    tokens (quoted q l ++ t) = l.map Prod.snd := by
  induction l with
  | nil => exact tokens_blank ht
  | cons x l ih =>
    obtain ⟨hb, ha, hl⟩ := h x (mem_cons_self ..)
    have hn := nextToken_quoted (r := quoted q l ++ t) hq hb ha hl
    rw [quoted, append_assoc, cons_append, append_assoc, cons_append, tokens_cons hn,
      ih fun y hy => h y (mem_cons_of_mem _ hy), map_cons]

theorem assemble_word (ht : ¬ Operator t) (hl : cmd.args.length < SHELL_MAX_ARGS) :
    assemble pre cmd (t :: ts) = assemble pre { cmd with args := cmd.args ++ [t] } ts := by
  simp only [Operator, not_or] at ht
  rw [assemble.eq_def]
  simp [ht, Nat.not_le.2 hl]

/-- Words are collected in order, up to the limit. -/
theorem assemble_words : ∀ {cmd : Command}, (∀ t ∈ ts, ¬ Operator t) → cmd.args.length + ts.length ≤ 16 → cmd.args ++ ts ≠ [] →
      assemble pre cmd ts = .ok (pre ++ [{ cmd with args := cmd.args ++ ts }]) := by
  induction ts with
  | nil =>
    simp_all [assemble]
  | cons t ts ih =>
    intro cmd ht hl _
    simp only [length_cons] at hl
    rw [assemble_word (ht t (mem_cons_self ..)) (by unfold SHELL_MAX_ARGS; omega),
      ih (fun x hx => ht x (mem_cons_of_mem _ hx)) (by simp; omega) (by simp)]
    simp

def wordCount (cs : List Command) : Nat := (cs.map (·.args.length)).sum

@[simp] theorem redirect_args (cmd : Command) (op name : Text) : (cmd.redirect op name).args = cmd.args := by
  unfold Command.redirect
  split <;> rfl

/-- No operator becomes a word. -/
theorem assemble_wordCount {cs : List Command} (h : assemble pre cmd ts = .ok cs) :
    wordCount cs + ts.countP (Operator ·) ≤ wordCount pre + cmd.args.length + ts.length := by
  fun_induction assemble pre cmd ts with
  | case2 pre cmd =>
    cases h
    simp [wordCount]
  | case5 pre cmd rest _ _ ih =>
    have := ih h
    simp [wordCount, Operator] at this ⊢
    omega
  | case7 pre cmd tok _ _ name rest ih =>
    have := ih h
    simp only [redirect_args, countP_cons, length_cons] at this ⊢
    split_ifs <;> omega
  | case9 pre cmd tok rest _ _ _ ih =>
    have : ¬ Operator tok := by simp_all [Operator]
    simp_all
    omega
  | _ => cases h

/-- Arguments in quotes `q`, with blanks `t` at the end of the line: they arrive as they are, in one
command without redirections, unless one of them spells an operator. -/
theorem shellParse_quoted (hq : q = 39 ∨ q = 34) (ht : ∀ c ∈ t, isBlank c)
    (h : ∀ x ∈ l, (∀ c ∈ x.1, isBlank c) ∧ q ∉ x.2 ∧ x.2.length ≤ 95)
    (h0 : 1 ≤ l.length) (h1 : l.length ≤ 16) :
    shellParse (quoted q l ++ t) = .ok [{ args := l.map Prod.snd }] ↔ ∀ x ∈ l, ¬ Operator x.2 := by
  rw [shellParse, tokens_quoted hq ht h]
  constructor
  · intro e
    have hc := assemble_wordCount e
    simp only [wordCount, map_cons, map_nil, sum_cons, sum_nil, length_nil, length_map] at hc
    have hz : (l.map Prod.snd).countP (Operator ·) = 0 := by omega
    intro x hx
    simpa using countP_eq_zero.1 hz x.2 (mem_map_of_mem hx)
  · intro ho
    have hm : ∀ a ∈ l.map Prod.snd, ¬ Operator a := forall_mem_map.2 ho
    rw [assemble_words hm (by simpa using h1) (by simpa using length_pos_iff.1 h0)]
    rfl

/-- `'echo' '->'`. -/
theorem shellParse_quoted_echo : shellParse (quoted 39 [([], [101, 99, 104, 111]), ([32], [45, 62])] ++ []) =
      .ok [{ args := [[101, 99, 104, 111], [45, 62]] }] :=
  (shellParse_quoted (.inl rfl) (by simp) (by decide +kernel) (by decide) (by decide)).2 (by decide)

/-- `'echo' '|'`. -/
theorem shellParse_quoted_pipe : shellParse (quoted 39 [([], [101, 99, 104, 111]), ([32], [124])]) =
      .error "empty command at end of pipeline" := by
  have e := tokens_quoted (l := [([], [101, 99, 104, 111]), ([32], [124])]) (t := []) (.inl rfl) (by simp) (by decide +kernel)
  rw [append_nil] at e
  rw [shellParse, e]
  rfl

end PureUnix.Shell
