import PureUnix.Lib.Bytes

/-!
# Buffers tiled by variable-length records

A record starts with a header that holds its own length, and the next record follows at once. A
`Format` says how a record is read at an offset; its `isLocal` field is the one fact the rest needs,
that an acceptable record depends on its own bytes only.

`Chain F b rs off stop`: from `off` to `stop` the buffer is exactly tiled by the records `rs`.
`Chain.splice` replaces the records of a middle piece, `walk` is the loop such buffers are
scanned with, and `walk_none`/`walk_some` say what a scan over a chain finds.
-/
namespace PureUnix.Lib

open List Nat

variable {prev : Option Nat} {fuel : Nat}

structure Format (R : Type) where
  read : Buf → Nat → R
  len : R → Nat
  Ok : R → Prop
  header : Nat
  header_pos : 0 < header
  header_le : ∀ r, Ok r → header ≤ len r
  isLocal : ∀ b b' off, Ok (read b off) → Same off (off + len (read b off)) b b' → read b' off = read b off

namespace Format
variable {R : Type} (F : Format R)

def span : List R → Nat
  | [] => 0
  | r :: rs => F.len r + span rs

/-- The records `rs` tile `[off, stop)`. -/
def Chain (b : Buf) : List R → Nat → Nat → Prop
  | [], off, stop => off = stop
  | r :: rs, off, stop => F.read b off = r ∧ F.Ok r ∧ Chain b rs (off + F.len r) stop

instance [DecidableEq R] [DecidablePred F.Ok] (b : Buf) : ∀ (rs : List R) (off stop : Nat), Decidable (F.Chain b rs off stop)
  | [], off, stop => inferInstanceAs (Decidable (off = stop))
  | r :: rs, off, stop =>
    have := instDecidableChainOfDecidableEqOfDecidablePredOk b rs (off + F.len r) stop
    inferInstanceAs (Decidable (_ ∧ _ ∧ _))

/-- Collect records until fewer than `header` bytes are left before `n`, or a length is zero. -/
def records (n : Nat) (b : Buf) : Nat → Nat → List R
  | 0, _ => []
  | fuel + 1, off =>
    if n < off + F.header then []
    else if F.len (F.read b off) = 0 then []
    else F.read b off :: records n b fuel (off + F.len (F.read b off))

/-- Scan records until `body` answers; `body` sees the offset of the record before, if any. -/
def walk {β : Type} (n : Nat) (b : Buf) (body : Option Nat → Nat → Option β) : Nat → Option Nat → Nat → Option β
  | 0, _, _ => none
  | fuel + 1, prev, off =>
    if n < off + F.header then none
    else if F.len (F.read b off) = 0 then none
    else match body prev off with
      | some x => some x
      | none => walk n b body fuel (some off) (off + F.len (F.read b off))

variable {F}
variable {b b' : Buf} {rs xs ys : List R} {off stop n : Nat}

@[simp] theorem span_append : F.span (xs ++ ys) = F.span xs + F.span ys := by
  induction xs with
  | nil => simp [span]
  | cons x xs ih => simp only [cons_append, span, ih]; omega

theorem Chain.stop_eq : ∀ {rs : List R} {off : Nat}, F.Chain b rs off stop → stop = off + F.span rs
  | [], _, h => by simp only [Chain] at h; simp only [span]; omega
  | r :: rs, off, h => by
    have := Chain.stop_eq h.2.2
    simp only [span]; omega

theorem chain_append : ∀ {xs : List R} {off : Nat}, F.Chain b (xs ++ ys) off stop ↔
    F.Chain b xs off (off + F.span xs) ∧ F.Chain b ys (off + F.span xs) stop
  | [], off => by simp [Chain, span]
  | x :: xs, off => by
    have ih : F.Chain b (xs ++ ys) (off + F.len x) stop ↔ _ := chain_append
    simp only [cons_append, Chain, span, ih, and_assoc, add_assoc]

theorem Chain.congr : ∀ {rs : List R} {off : Nat}, F.Chain b rs off stop → Same off stop b b' → F.Chain b' rs off stop
  | [], _, h, _ => h
  | r :: rs, off, h, hs => by
    obtain ⟨rfl, hok, hrest⟩ := h
    have hstop := hrest.stop_eq
    refine ⟨F.isLocal b b' off hok (hs.mono (le_refl _) (by omega)), hok, ?_⟩
    exact .congr hrest (hs.mono (by omega) (le_refl _))

/-- Replace the records of a middle piece by others that cover the same bytes. -/
theorem Chain.splice {pre m m' post : List R} (h : F.Chain b (pre ++ m ++ post) off stop) (hspan : F.span m' = F.span m)
    (hmid : F.Chain b' m' (off + F.span pre) (off + F.span pre + F.span m))
    (hl : Same off (off + F.span pre) b b') (hr : Same (off + F.span pre + F.span m) stop b b') :
    F.Chain b' (pre ++ m' ++ post) off stop := by
  rw [chain_append, chain_append] at h
  obtain ⟨⟨h1, h2⟩, h3⟩ := h
  rw [span_append, ← add_assoc] at h3
  rw [chain_append, chain_append, span_append, hspan, ← add_assoc]
  exact ⟨⟨h1.congr hl, hmid⟩, h3.congr hr⟩

theorem Chain.length_le (h : F.Chain b rs off stop) : rs.length ≤ stop := by
  have key : ∀ {rs : List R} {off : Nat}, F.Chain b rs off stop → off + rs.length ≤ stop := by
    intro rs
    induction rs with
    | nil => intro off h; simp only [Chain] at h; simp only [length_nil]; omega
    | cons r rs ih =>
      intro off h
      have h1 := F.header_le r h.2.1
      have h2 := F.header_pos
      have h3 := ih h.2.2
      simp only [length_cons]; omega
  have := key h
  omega

theorem Chain.records_eq (h : F.Chain b rs off n) : ∀ {fuel : Nat}, rs.length ≤ fuel → F.records n b fuel off = rs := by
  induction rs generalizing off with
  | nil =>
    intro fuel _
    simp only [Chain] at h
    have := F.header_pos
    cases fuel with
    | zero => rfl
    | succ fuel => rw [records, if_pos (by omega)]
  | cons r rs ih =>
    intro fuel hf
    obtain ⟨rfl, hok, hrest⟩ := h
    have h1 := F.header_le _ hok
    have h2 := F.header_pos
    have h3 := hrest.stop_eq
    cases fuel with
    | zero => exact absurd hf (by simp)
    | succ fuel =>
      rw [records, if_neg (by omega), if_neg (by omega), ih hrest (by simpa using hf)]

/-! ## What a scan finds -/

/-- The offset before the first record behind `pre`. -/
def prevOff (F : Format R) (prev : Option Nat) (off : Nat) (pre : List R) : Option Nat :=
  if pre = [] then prev else some (off + F.span pre.dropLast)

theorem prevOff_cons {x : R} {pre : List R} : F.prevOff prev off (x :: pre) = F.prevOff (some off) (off + F.len x) pre := by
  cases pre with
  | nil => simp [prevOff, span]
  | cons y ys => simp [prevOff, span, add_assoc]

section
variable {β : Type} {body : Option Nat → Nat → Option β}

theorem walk_cons {r : R} (h : F.Chain b (r :: rs) off n) : F.walk n b body (fuel + 1) prev off =
      match body prev off with
      | some x => some x
      | none => F.walk n b body fuel (some off) (off + F.len r) := by
  obtain ⟨rfl, hok, hrest⟩ := h
  have h1 := F.header_le _ hok
  have h2 := F.header_pos
  have h3 := hrest.stop_eq
  rw [walk, if_neg (by omega), if_neg (by omega)]

theorem walk_nil (h : F.Chain b [] off n) : F.walk n b body fuel prev off = none := by
  have h2 := F.header_pos
  simp only [Chain] at h
  cases fuel with
  | zero => rfl
  | succ fuel => rw [walk, if_pos (by omega)]

/-- **A scan that finds nothing** has asked `body` at every record. -/
theorem walk_none : ∀ {rs : List R} {prev : Option Nat} {off fuel : Nat}, F.Chain b rs off n →
    rs.length ≤ fuel → F.walk n b body fuel prev off = none →
    ∀ pre r post, rs = pre ++ r :: post → body (F.prevOff prev off pre) (off + F.span pre) = none := by
  intro rs
  induction rs with
  | nil => intro _ _ _ _ _ _ pre r post he; simp at he
  | cons x rs ih =>
    intro prev off fuel h hf hw pre r post he
    cases fuel with
    | zero => exact absurd hf (by simp)
    | succ fuel =>
      rw [walk_cons h] at hw
      cases hb : body prev off with
      | some y => rw [hb] at hw; cases hw
      | none =>
        rw [hb] at hw
        cases pre with
        | nil => exact hb
        | cons y pre =>
          obtain ⟨rfl, he'⟩ := cons.inj (he : x :: rs = y :: (pre ++ r :: post))
          have := ih h.2.2 (by simpa using hf) hw pre r post he'
          rw [prevOff_cons, span, ← add_assoc]
          exact this

/-- **A scan that finds something** stops at the first record where `body` answers. -/
theorem walk_some {y : β} : ∀ {rs : List R} {prev : Option Nat} {off fuel : Nat}, F.Chain b rs off n →
    F.walk n b body fuel prev off = some y →
    ∃ pre r post, rs = pre ++ r :: post ∧ body (F.prevOff prev off pre) (off + F.span pre) = some y ∧
      ∀ p x q, pre = p ++ x :: q → body (F.prevOff prev off p) (off + F.span p) = none := by
  intro rs
  induction rs with
  | nil => intro prev off fuel h hw; rw [walk_nil h] at hw; cases hw
  | cons x rs ih =>
    intro prev off fuel h hw
    cases fuel with
    | zero => cases hw
    | succ fuel =>
      rw [walk_cons h] at hw
      cases hb : body prev off with
      | some z =>
        rw [hb] at hw
        exact ⟨[], x, rs, rfl, hb.trans hw, by simp⟩
      | none =>
        rw [hb] at hw
        obtain ⟨pre, r, post, rfl, hy, hn⟩ := ih h.2.2 hw
        refine ⟨x :: pre, r, post, rfl, ?_, ?_⟩
        · rw [prevOff_cons, span, ← add_assoc]; exact hy
        · intro p z q he
          cases p with
          | nil => exact hb
          | cons w p =>
            obtain ⟨rfl, he'⟩ := cons.inj (he : x :: pre = w :: (p ++ z :: q))
            rw [prevOff_cons, span, ← add_assoc]
            exact hn p z q he'

end
end Format
end PureUnix.Lib
