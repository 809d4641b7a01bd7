import PureUnix.Ext2.DirTouch

/-!
# Directory scans on arbitrary blocks

Every record loop of `dir.c` ends, whatever the block holds, and `reached` lists the records it looks at. A function stays
inside its buffers exactly if each record it reaches keeps inside the block what the function examines or writes there.
-/
namespace PureUnix.Ext2.Traced
open Lib Lib.OnBuf List Nat
open Option

variable {β γ S : Type} {bs : Nat} {fits : Buf → Nat → Prop}

/-! ## Records reached -/

/-- The records a loop reaches from `off` on: up to the first that `stops` it. -/
def reached (bs : Nat) (b : Buf) (stops : Nat → Bool) : Nat → Nat → List Nat
  | 0, _ => []
  | fuel + 1, off =>
    if bs < off + 8 ∨ deRecLen b off = 0 then []
    else off :: if stops off then [] else reached bs b stops fuel (off + deRecLen b off)

/-- What a record loop asks at one record: the answer as `Ext2` has it, and how far the body reaches. -/
structure BodySpec (bs : Nat) (body : Option Nat → Nat → OnBuf (Option β)) (plain : Buf → Option Nat → Nat → Option γ)
    (out : β → Buf → γ) (fits : Buf → Nat → Prop) : Prop where
  stops : ∀ b prev off, (plain b prev off).isSome = (plain b none off).isSome
  run : ∀ b prev off mark, off + 8 ≤ bs → (∀ p ∈ prev, p + 8 ≤ bs) →
    ∃ a b' mark', Prog.run touch (body prev off) ⟨b, mark⟩ = (a, ⟨b', mark'⟩) ∧ (a.map fun x => out x b') = plain b prev off ∧
      (a = none → b' = b) ∧ (mark' ≤ bs ↔ mark ≤ bs ∧ fits b off)

section
variable {bs : Nat} {body : Option Nat → Nat → OnBuf (Option β)} {plain : Buf → Option Nat → Nat → Option γ}
  {out : β → Buf → γ} {fits : Buf → Nat → Prop} {b : Buf}

/-- A loop ends, with the answer of the plain one, and stays inside if the records it reaches do. -/
theorem run_recordLoop (h : BodySpec bs body plain out fits) (b : Buf) : ∀ (fuel : Nat) (prev : Option Nat) (off mark : Nat),
    bs < off + 7 + fuel → 0 < fuel → (∀ p ∈ prev, p + 8 ≤ bs) →
    ∃ a b' mark', run touch (recordLoop bs body fuel prev off) ⟨b, mark⟩ = (some a, ⟨b', mark'⟩) ∧
      (a.map fun x => out x b') = direntFormat.walk bs b (plain b) fuel prev off ∧
      (mark' ≤ bs ↔ mark ≤ bs ∧ ∀ r ∈ reached bs b (fun off => (plain b none off).isSome) fuel off, fits b r) := by
  intro fuel
  induction fuel with
  | zero => exact fun _ _ _ _ h0 => absurd h0 (lt_irrefl 0)
  | succ fuel ih =>
    intro prev off mark hf _ hprev
    have hhead : direntFormat.header = 8 := rfl
    rw [recordLoop, Format.walk, reached, hhead]
    by_cases hend : bs < off + 8
    · rw [if_pos hend, if_pos hend, if_pos (.inl hend)]
      exact ⟨none, b, mark, rfl, rfl, by simp⟩
    rw [if_neg hend, if_neg hend, run_bind, run_load16]
    change ∃ a b' mark', run touch (if deRecLen b off = 0 then _ else _) _ = _ ∧ _ = (if deRecLen b off = 0 then _ else _) ∧ _
    by_cases hz : deRecLen b off = 0
    · rw [if_pos hz, if_pos hz, if_pos (.inr hz)]
      refine ⟨none, b, max mark (off + 4 + 2), rfl, rfl, ?_⟩
      simp only [not_mem_nil, false_imp_iff, implies_true, and_true]
      omega
    rw [if_neg hz, if_neg hz, if_neg (not_or.2 ⟨hend, hz⟩), run_bind]
    obtain ⟨a, b', mark', hrun, hans, hsame, hmark⟩ := h.run b prev off (max mark (off + 4 + 2)) (by omega) hprev
    have hmark₀ : mark' ≤ bs ↔ mark ≤ bs ∧ fits b off := by
      rw [hmark]
      constructor <;> exact fun hm => ⟨by omega, hm.2⟩
    change run touch (body prev off) (.upTo ⟨b, mark⟩ (off + 4 + 2)) = _ at hrun
    rw [hrun]
    cases a with
    | some x =>
      refine ⟨some x, b', mark', rfl, ?_, ?_⟩
      · rw [← hans]
        rfl
      · have hs : (plain b none off).isSome = true := by rw [← h.stops b prev off, ← hans]; rfl
        rw [hs, if_pos rfl, hmark₀]
        simp
    | none =>
      obtain rfl := hsame rfl
      have hs : (plain b' none off).isSome = false := by rw [← h.stops b' prev off, ← hans]; rfl
      obtain ⟨a, b₂, mark₂, hrun₂, hans₂, hmark₂⟩ := ih (some off) (off + deRecLen b' off) (max mark' (off + 4 + 2)) (by omega) (by omega)
        (by rintro p ⟨⟩; omega)
      refine ⟨a, b₂, mark₂, ?_, ?_, ?_⟩
      · exact hrun₂
      · rw [hans₂, ← hans]
        rfl
      · rw [hmark₂, hs, if_neg Bool.false_ne_true, forall_mem_cons, ← and_assoc, ← hmark₀]
        refine and_congr_left fun _ => ?_
        omega

theorem scanBlock_spec (h : BodySpec bs body plain out fits) (h8 : 8 ≤ bs) (b : Buf) :
    ((scanBlock bs body b).1.1.map fun x => out x (scanBlock bs body b).1.2) = direntFormat.walk bs b (plain b) bs none 0 ∧
      (scanBlock bs body b).2.Within bs (∀ r ∈ reached bs b (fun off => (plain b none off).isSome) bs 0, fits b r) := by
  obtain ⟨a, b', mark', hrun, hans, hmark⟩ := run_recordLoop h b bs none 0 0 (by omega) (by omega) (by simp)
  unfold scanBlock
  rw [hrun]
  refine ⟨hans, rfl, ?_⟩
  rw [hmark]
  simp only [zero_le, true_and]

/-- A loop finds something exactly if it reaches a record that stops it. -/
theorem isSome_walk (hstops : ∀ prev off, (plain b prev off).isSome = (plain b none off).isSome) : ∀ (fuel : Nat) (prev : Option Nat) (off : Nat),
    (direntFormat.walk bs b (plain b) fuel prev off).isSome =
      (reached bs b (fun off => (plain b none off).isSome) fuel off).any fun off => (plain b none off).isSome := by
  intro fuel
  induction fuel with
  | zero => exact fun _ _ => rfl
  | succ fuel ih =>
    intro prev off
    have hhead : direntFormat.header = 8 := rfl
    rw [Format.walk, reached, hhead]
    by_cases hend : bs < off + 8
    · rw [if_pos hend, if_pos (.inl hend)]
      rfl
    change Option.isSome (if _ then none else if deRecLen b off = 0 then none else _) = _
    by_cases hz : deRecLen b off = 0
    · rw [if_neg hend, if_pos hz, if_pos (.inr hz)]
      rfl
    rw [if_neg hend, if_neg hz, if_neg (not_or.2 ⟨hend, hz⟩), any_cons, ← hstops prev off]
    cases hb : plain b prev off with
    | some x => rfl
    | none => exact ih (some off) _

end

/-- What a loop over one block does: its answer, and the records it reaches. -/
structure BlockSpec (bs : Nat) (body : Buf → Option γ × Trace) (plain : Buf → Option γ) (stops : Buf → Nat → Bool) (fits : Buf → Nat → Prop) :
    Prop where
  answer : ∀ b, (body b).1 = plain b
  within : ∀ b, (body b).2.Within bs (∀ r ∈ reached bs b (stops b) bs 0, fits b r)
  found : ∀ b, (plain b).isSome = (reached bs b (stops b) bs 0).any (stops b)

theorem BodySpec.ask {body : Option Nat → Nat → OnBuf (Option γ)} {plain : Buf → Option Nat → Nat → Option γ}
    (h : BodySpec bs body plain (fun x _ => x) fits) (h8 : 8 ≤ bs) :
    BlockSpec bs (askBlock bs body) (fun b => direntFormat.walk bs b (plain b) bs none 0) (fun b off => (plain b none off).isSome) fits where
  answer := fun b => by rw [← (scanBlock_spec h h8 b).1, Option.map_id']; rfl
  within := fun b => (scanBlock_spec h h8 b).2
  found := fun b => isSome_walk (h.stops b) bs none 0

theorem BodySpec.edit {body : Option Nat → Nat → OnBuf (Option Unit)} {plain : Buf → Option Nat → Nat → Option Buf}
    (h : BodySpec bs body plain (fun _ b => b) fits) (h8 : 8 ≤ bs) :
    BlockSpec bs (editBlock bs body) (fun b => direntFormat.walk bs b (plain b) bs none 0) (fun b off => (plain b none off).isSome) fits where
  answer := fun b => (scanBlock_spec h h8 b).1
  within := fun b => (scanBlock_spec h h8 b).2
  found := fun b => isSome_walk (h.stops b) bs none 0

/-! ## What each function looks at -/

/-- A record that may hold `name` can be compared with it inside the block. -/
def NameWithin (bs : Nat) (name : Text) (b : Buf) (off : Nat) : Prop :=
  deInode b off ≠ 0 → deNameLen b off = name.length % 256 → ComparedWithin b bs (off + 8) name

instance (bs : Nat) (name : Text) (b : Buf) (off : Nat) : Decidable (NameWithin bs name b off) :=
  inferInstanceAs (Decidable (_ → _ → _))

/-- The part of a name that `readdir_block` copies lies inside the block. -/
def ReportWithin (bs : Nat) (b : Buf) (off : Nat) : Prop :=
  deInode b off ≠ 0 → 0 < deNameLen b off → off + 8 + min (deNameLen b off) (PUREUNIX_MAX_NAME - 1) ≤ bs

/-- Where the record at `off` takes a new entry, if its length says that it has room. -/
def entryPlace (name : Text) (b : Buf) (off : Nat) : Option Nat :=
  if deInode b off = 0 then
    if align4 (8 + name.length) ≤ deRecLen b off then some off else none
  else if align4 (8 + name.length) ≤ u32 (deRecLen b off + 4294967296 - align4 (8 + deNameLen b off)) then
    some (off + align4 (8 + deNameLen b off))
  else none

/-- A new entry that the record takes ends inside the block. -/
def EntryWithin (bs : Nat) (name : Text) (b : Buf) (off : Nat) : Prop :=
  ∀ p ∈ entryPlace name b off, p + 8 + name.length ≤ bs

instance (bs : Nat) (name : Text) (b : Buf) (off : Nat) : Decidable (EntryWithin bs name b off) :=
  inferInstanceAs (Decidable (∀ p ∈ entryPlace name b off, _))

section
variable {bs off : Nat} {name : Text}

section
variable {α : Type} (b : Buf) (mark off : Nat)

theorem run_inode (f : Nat → OnBuf α) : run touch (load32 off >>= f) ⟨b, mark⟩ = run touch (f (deInode b off)) ⟨b, max mark (off + 4)⟩ := rfl

theorem run_recLen (f : Nat → OnBuf α) :
    run touch (load16 (off + 4) >>= f) ⟨b, mark⟩ = run touch (f (deRecLen b off)) ⟨b, max mark (off + 6)⟩ := rfl

theorem run_nameLen (f : UInt8 → OnBuf α) :
    run touch (load8 (off + 6) >>= f) ⟨b, mark⟩ = run touch (f (b (off + 6))) ⟨b, max mark (off + 7)⟩ := rfl

end

theorem run_deMatches (b : Buf) (mark : Nat) (name : Text) (hoff : off + 8 ≤ bs) :
    ∃ mark', run touch (deMatches name off) ⟨b, mark⟩ = (Ext2.deMatches b name off, ⟨b, mark'⟩) ∧
      (mark' ≤ bs ↔ mark ≤ bs ∧ NameWithin bs name b off) := by
  unfold deMatches Ext2.deMatches NameWithin
  rw [run_inode]
  by_cases h0 : deInode b off = 0
  · refine ⟨max mark (off + 4), ?_, ?_⟩
    · rw [if_neg (not_not.2 h0), h0]
      rfl
    · omega
  rw [if_pos h0, run_nameLen, ← deNameLen]
  by_cases hl : deNameLen b off = name.length % 256
  · refine ⟨max (max (max mark (off + 4)) (off + 7)) (compared b (off + 8) name), ?_, ?_⟩
    · rw [if_pos hl, run_strncmp, bne_iff_ne.2 h0, beq_iff_eq.2 hl]
      rfl
    · rw [Nat.max_le, compared_le hoff]
      constructor
      · exact fun h => ⟨by omega, fun _ _ => h.2⟩
      · exact fun h => ⟨by omega, h.2 h0 hl⟩
  · refine ⟨max (max mark (off + 4)) (off + 7), ?_, ?_⟩
    · rw [if_neg hl, beq_eq_false_iff_ne.2 hl, Bool.and_false, Bool.false_and]
      rfl
    · omega

theorem lookupBody_spec (bs : Nat) (name : Text) :
    BodySpec bs (lookupBody name) (fun b => Ext2.lookupBody b name) (fun x _ => x) (NameWithin bs name) where
  stops := fun _ _ _ => rfl
  run := by
    intro b prev off mark hoff _
    obtain ⟨mark', hrun, hmark⟩ := run_deMatches b mark name hoff
    unfold lookupBody Ext2.lookupBody
    rw [run_bind, hrun]
    by_cases hm : Ext2.deMatches b name off = true
    · rw [hm, if_pos rfl]
      refine ⟨some (deInode b off), b, max mark' (off + 4), rfl, rfl, fun h => (by cases h), ?_⟩
      rw [← hmark]
      omega
    · rw [Bool.not_eq_true] at hm
      rw [hm]
      exact ⟨none, b, mark', rfl, rfl, fun _ => rfl, hmark⟩

theorem removeBody_spec (bs : Nat) (name : Text) :
    BodySpec bs (removeBody name) (fun b => Ext2.removeBody b name) (fun _ b => b) (NameWithin bs name) where
  stops := by
    intro b prev off
    unfold Ext2.removeBody
    split
    · cases prev <;> rfl
    · rfl
  run := by
    intro b prev off mark hoff hprev
    obtain ⟨mark', hrun, hmark⟩ := run_deMatches b mark name hoff
    unfold removeBody Ext2.removeBody
    rw [run_bind, hrun]
    by_cases hm : Ext2.deMatches b name off = true
    · rw [hm, if_pos rfl]
      cases prev with
      | none =>
        refine ⟨some (), put32 b off 0, max mark' (off + 4), rfl, rfl, fun h => (by cases h), ?_⟩
        rw [← hmark]
        omega
      | some p =>
        have hp := hprev p rfl
        refine ⟨some (), put16 b (p + 4) (deRecLen b p + deRecLen b off), max (max (max mark' (p + 4 + 2)) (off + 4 + 2)) (p + 4 + 2),
          rfl, rfl, fun h => (by cases h), ?_⟩
        rw [← hmark]
        omega
    · rw [Bool.not_eq_true] at hm
      rw [hm]
      exact ⟨none, b, mark', rfl, rfl, fun _ => rfl, hmark⟩

theorem run_storeEntry (b : Buf) (mark p : Nat) (fileType : UInt8) (hn : name ≠ []) :
    run touch (storeEntry p name fileType) ⟨b, mark⟩ =
      ((), ⟨copy (put8 (put8 b (p + 6) (UInt8.ofNat name.length)) (p + 7) fileType) (p + 8) (ofList name) name.length,
        max mark (p + 8 + name.length)⟩) := by
  rw [storeEntry, run_bind, run_store8, run_bind, run_store8, run_memcpyTo _ _ _ hn]
  simp only [Prod.mk.injEq, Marked.mk.injEq, true_and]
  omega

theorem put32_put16_comm (b : Buf) {o p : Nat} (x y : Nat) (h : o + 4 ≤ p ∨ p + 2 ≤ o) :
    put32 (put16 b p y) o x = put16 (put32 b o x) p y := by
  funext i
  simp only [put32, put16]
  by_cases h1 : o ≤ i ∧ i < o + 4
  · rw [if_pos h1, if_neg (by omega), if_pos h1]
  · rw [if_neg h1, if_neg h1]

theorem run_reuseSlot (b : Buf) (mark off ino : Nat) (fileType : UInt8) (hn : name ≠ []) :
    run touch (reuseSlot off ino name fileType) ⟨b, mark⟩ =
      ((), ⟨putEntry b off ino name fileType, max mark (off + 8 + name.length)⟩) := by
  rw [reuseSlot, run_bind, run_store32, run_storeEntry _ _ _ _ hn, putEntry]
  simp only [Prod.mk.injEq, Marked.mk.injEq, true_and]
  omega

theorem run_splitRecord (b : Buf) (mark off recLen ino : Nat) {actual : Nat} (fileType : UInt8) (h8 : 8 ≤ actual)
    (hn : name ≠ []) : run touch (splitRecord off actual recLen ino name fileType) ⟨b, mark⟩ =
      ((), ⟨putEntry (put16 (put16 b (off + 4) actual) (off + actual + 4) (recLen + 65536 - actual)) (off + actual) ino name fileType,
        max mark (off + actual + 8 + name.length)⟩) := by
  rw [splitRecord, run_bind, run_store16, run_bind, run_store32, run_bind, run_store16, run_storeEntry _ _ _ _ hn, putEntry,
    put32_put16_comm (put16 b (off + 4) actual) _ _ (by omega)]
  simp only [Prod.mk.injEq, Marked.mk.injEq, true_and]
  omega

theorem isSome_insertBody (name : Text) (ino : Nat) (fileType : UInt8) (b : Buf) (prev : Option Nat) (off : Nat) :
    (Ext2.insertBody b name ino fileType prev off).isSome = (entryPlace name b off).isSome := by
  unfold Ext2.insertBody entryPlace
  dsimp only
  repeat' split
  all_goals rfl

theorem insertBody_spec (bs : Nat) (ino : Nat) (fileType : UInt8) (hn : name ≠ []) :
    BodySpec bs (insertBody name ino fileType) (fun b => Ext2.insertBody b name ino fileType) (fun _ b => b) (EntryWithin bs name) where
  stops := fun b prev off => by rw [isSome_insertBody, isSome_insertBody]
  run := by
    intro b prev off mark hoff _
    unfold insertBody Ext2.insertBody EntryWithin entryPlace
    rw [run_inode, run_recLen]
    by_cases h0 : deInode b off = 0
    · -- a free slot
      rw [if_pos h0, if_pos h0, if_pos h0]
      by_cases hroom : align4 (8 + name.length) ≤ deRecLen b off
      · rw [if_pos hroom, if_pos hroom, if_pos hroom, run_bind, run_reuseSlot _ _ _ _ _ hn]
        refine ⟨some (), _, _, rfl, rfl, fun h => (by cases h), ?_⟩
        simp only [mem_def, some.injEq, forall_eq']
        omega
      · rw [if_neg hroom, if_neg hroom, if_neg hroom]
        refine ⟨none, _, _, rfl, rfl, fun _ => rfl, ?_⟩
        simp only [mem_def, reduceCtorEq, false_imp_iff, implies_true, and_true]
        omega
    · -- the slack behind a live entry
      rw [if_neg h0, if_neg h0, if_neg h0, run_nameLen, ← deNameLen]
      have h8 := le_align4 (8 + deNameLen b off)
      by_cases hroom : align4 (8 + name.length) ≤ u32 (deRecLen b off + 4294967296 - align4 (8 + deNameLen b off))
      · rw [if_pos hroom, if_pos hroom, if_pos hroom, run_bind, run_splitRecord _ _ _ _ _ _ (by omega) hn]
        refine ⟨some (), _, _, rfl, rfl, fun h => (by cases h), ?_⟩
        simp only [mem_def, some.injEq, forall_eq']
        omega
      · rw [if_neg hroom, if_neg hroom, if_neg hroom]
        refine ⟨none, _, _, rfl, rfl, fun _ => rfl, ?_⟩
        simp only [mem_def, reduceCtorEq, false_imp_iff, implies_true, and_true]
        omega

/-- `n[0] == '.' && n[1] == '.'` is a comparison with "..". -/
theorem run_isDotDot (m : Marked) (off : Nat) : run touch (isDotDot off) m = run touch (strncmp (off + 8) dotdotName) m := by
  unfold isDotDot dotdotName strncmp strncmp strncmp
  rw [run_bind, run_bind, run_ite, run_ite]
  congr 1
  rw [run_bind, run_bind, run_ite, run_pure, run_pure, run_pure]
  split
  · next h => rw [beq_iff_eq.2 h]
  · next h => rw [beq_eq_false_iff_ne.2 h]

theorem slice_dotdot (b : Buf) (off : Nat) :
    (slice b (off + 8) dotdotName.length == dotdotName) = (b (off + 8) == 46 && b (off + 9) == 46) := by
  have hs : slice b (off + 8) dotdotName.length = [b (off + 8), b (off + 9)] := rfl
  rw [hs, dotdotName]
  simp

theorem otherBody_spec (bs : Nat) :
    BodySpec bs otherBody Ext2.otherBody (fun x _ => x) (fun b off => NameWithin bs dotName b off ∧ NameWithin bs dotdotName b off) where
  stops := fun _ _ _ => rfl
  run := by
    intro b prev off mark hoff _
    have hone : ComparedWithin b bs (off + 8) dotName ↔ off + 8 < bs := by
      rw [dotName, comparedWithin_cons hoff]
      exact ⟨fun h => h.1, fun h => ⟨h, fun _ => ComparedWithin.nil h⟩⟩
    have l1 : dotName.length % 256 = 1 := rfl
    have l2 : dotdotName.length % 256 = 2 := rfl
    unfold otherBody Ext2.otherBody NameWithin
    rw [hone, l1, l2, run_inode]
    by_cases h0 : deInode b off = 0
    · rw [if_neg (not_not.2 h0), if_neg (not_not.2 h0)]
      refine ⟨none, _, _, rfl, rfl, fun _ => rfl, ?_⟩
      omega
    rw [if_pos h0, if_pos h0, run_nameLen, ← deNameLen]
    by_cases h1 : deNameLen b off = 1
    · rw [if_pos h1, run_bind, run_load8, run_pure]
      refine ⟨_, _, _, rfl, ?_, fun _ => rfl, ?_⟩
      · simp only [h1, beq_self_eq_true, Bool.true_and, Option.map_id']
        by_cases hc : b (off + 8) = 46 <;> simp [hc]
      · dsimp only
        constructor
        · exact fun h => ⟨by omega, fun _ _ => by omega, fun _ h2 => by omega⟩
        · omega
    rw [if_neg h1]
    by_cases h2 : deNameLen b off = 2
    · rw [if_pos h2, run_bind, run_isDotDot, run_strncmp, slice_dotdot, run_pure]
      refine ⟨_, _, _, rfl, ?_, fun _ => rfl, ?_⟩
      · rw [h2]
        cases h : b (off + 8) == 46 && b (off + 9) == 46 <;> simp [h]
      · rw [Nat.max_le, compared_le hoff]
        dsimp only
        constructor
        · exact fun h => ⟨by omega, fun _ h' => absurd h' h1, fun _ _ => h.2⟩
        · exact fun h => ⟨by omega, h.2.2 h0 h2⟩
    · rw [if_neg h2]
      refine ⟨some (), _, _, rfl, ?_, fun _ => rfl, ?_⟩
      · simp [h1, h2]
      · constructor
        · exact fun h => ⟨by omega, fun _ h' => absurd h' h1, fun _ h' => absurd h' h2⟩
        · exact fun h => by omega

theorem setParentBody_spec (bs newParent : Nat) :
    BodySpec bs (setParentBody newParent) (fun b => Ext2.setParentBody b newParent) (fun _ b => b) (NameWithin bs dotdotName) where
  stops := fun _ _ _ => rfl
  run := by
    intro b prev off mark hoff _
    have l2 : dotdotName.length % 256 = 2 := rfl
    unfold setParentBody Ext2.setParentBody NameWithin
    rw [l2, run_inode]
    by_cases h0 : deInode b off = 0
    · rw [if_neg (not_not.2 h0), if_neg fun h => h.1 h0]
      refine ⟨none, _, _, rfl, rfl, fun _ => rfl, ?_⟩
      omega
    rw [if_pos h0, run_nameLen, ← deNameLen]
    by_cases h2 : deNameLen b off = 2
    · rw [if_pos h2, run_bind, run_isDotDot, run_strncmp, slice_dotdot, run_ite]
      have hmark : ∀ {k}, k ≤ bs → (max (max (max (max mark (off + 4)) (off + 7)) (compared b (off + 8) dotdotName)) k ≤ bs ↔
          mark ≤ bs ∧ (deInode b off ≠ 0 → deNameLen b off = 2 → ComparedWithin b bs (off + 8) dotdotName)) := by
        intro k hk
        rw [Nat.max_le, Nat.max_le, compared_le hoff]
        constructor
        · exact fun h => ⟨by omega, fun _ _ => h.1.2⟩
        · exact fun h => ⟨⟨by omega, h.2 h0 h2⟩, hk⟩
      by_cases hdd : b (off + 8) = 46 ∧ b (off + 9) = 46
      · rw [if_pos (by simp [hdd]), if_pos ⟨h0, h2, hdd⟩]
        exact ⟨some (), _, _, rfl, rfl, fun h => (by cases h), hmark (by omega)⟩
      · rw [if_neg (by simpa using hdd), if_neg fun h => hdd h.2.2]
        refine ⟨none, _, _, rfl, rfl, fun _ => rfl, ?_⟩
        rw [← hmark (zero_le bs), max_zero]
    · rw [if_neg h2, if_neg fun h => h2 h.2.1]
      refine ⟨none, _, _, rfl, rfl, fun _ => rfl, ?_⟩
      constructor
      · exact fun h => ⟨by omega, fun _ h' => absurd h' h2⟩
      · exact fun h => by omega

end

/-! ## Whole directories -/

/-- The records a scan over the blocks `bufs` reaches. -/
def reachedIn (bs : Nat) (stops : Buf → Nat → Bool) : List Buf → List (Buf × Nat)
  | [] => []
  | b :: bufs =>
    (reached bs b (stops b) bs 0).map (fun off => (b, off)) ++
      if (reached bs b (stops b) bs 0).any (stops b) then [] else reachedIn bs stops bufs

/-- The contents of the blocks `blks`; 0 is a hole. -/
def bufsOf (v : Store) (blks : List Nat) : List Buf := (blks.filter (· ≠ 0)).map v.data

section
variable {L : Layout} {v : Store} {i : Inode} {bs : Nat} {body : Buf → Option γ × Trace} {plain : Buf → Option γ}
  {stops : Buf → Nat → Bool} {fits : Buf → Nat → Prop}

theorem forall_reachedIn_cons {b : Buf} {bufs : List Buf} :
    (∀ x ∈ reachedIn bs stops (b :: bufs), fits x.1 x.2) ↔ (∀ r ∈ reached bs b (stops b) bs 0, fits b r) ∧
      ((reached bs b (stops b) bs 0).any (stops b) = false → ∀ x ∈ reachedIn bs stops bufs, fits x.1 x.2) := by
  rw [reachedIn, forall_mem_append]
  cases (reached bs b (stops b) bs 0).any (stops b) <;> simp

theorem bufsOf_hole (v : Store) (blks : List Nat) : bufsOf v (0 :: blks) = bufsOf v blks := rfl

theorem bufsOf_cons (v : Store) {b : Nat} (h0 : b ≠ 0) (blks : List Nat) : bufsOf v (b :: blks) = v.data b :: bufsOf v blks := by
  rw [bufsOf, filter_cons_of_pos (by simpa using h0)]
  rfl

/-- A scan by block index: the plain one's outcome, and the records reached in the blocks of the directory. -/
theorem run_scanDir (hs : BlockSpec L.blockSize body plain stops fits) (hmap : ∀ b ∈ i.blockRefs L.blockSize v.data, L.Data b) :
    ∀ (n k : Nat) (t : Trace) (P : Prop), t.Within L.blockSize P →
    ∃ (r : Scan γ) (t' : Trace), run (Store.step L) (scanDir L.fs i body n k t) v = ((r, t'), v) ∧
      run (Store.step L) (Ext2.scanDir L.fs i plain n k) v = (r, v) ∧
      t'.Within L.blockSize (P ∧ ∀ x ∈ reachedIn L.blockSize stops
        (bufsOf v ((range' k n).map (i.blockAt L.blockSize v.data))), fits x.1 x.2) := by
  intro n
  induction n with
  | zero => exact fun k t P ht => ⟨.missing, t, rfl, rfl, ht.congr (by simp [bufsOf, reachedIn])⟩
  | succ n ih =>
    intro k t P ht
    have hat := run_inodeBlockAt (v := v) (fun h0 => hmap _ (Inode.indirect_mem_refs h0)) k
    rw [scanDir, Ext2.scanDir, run_bind, run_bind, hat, range'_succ, map_cons]
    by_cases h0 : i.blockAt L.blockSize v.data k = 0
    · rw [if_pos h0, if_pos h0, h0, bufsOf_hole]
      exact ih (k + 1) t P ht
    rw [if_neg h0, if_neg h0, run_bind, run_bind, Drv.run_readBlock h0 (hmap _ (Inode.blockAt_mem_refs h0)), bufsOf_cons v h0]
    dsimp only
    generalize v.data (i.blockAt L.blockSize v.data k) = b
    have ht' := ht.also (hs.within b)
    rw [hs.answer b]
    cases hp : plain b with
    | some x =>
      have hany : (reached L.blockSize b (stops b) L.blockSize 0).any (stops b) = true := by rw [← hs.found, hp]; rfl
      refine ⟨_, _, rfl, rfl, ht'.congr (and_congr_right fun _ => ?_)⟩
      rw [forall_reachedIn_cons, hany]
      simp
    | none =>
      have hany : (reached L.blockSize b (stops b) L.blockSize 0).any (stops b) = false := by rw [← hs.found, hp]; rfl
      obtain ⟨r, t'', hr, hr', hw⟩ := ih (k + 1) _ _ ht'
      refine ⟨r, t'', hr, hr', hw.congr ?_⟩
      rw [forall_reachedIn_cons, hany, and_assoc]
      simp

end

end PureUnix.Ext2.Traced
