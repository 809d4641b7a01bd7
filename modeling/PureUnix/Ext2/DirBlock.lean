import PureUnix.Lib.Lists
import PureUnix.Lib.Records
import PureUnix.Ext2.Layout

/-!
# One directory block (`ext2_dirent_t`, the record loops of `fs/ext2/dir.c`)

A directory block is tiled by records: inode number, record length, name length, file type, name. A
record whose inode number is 0 is a free slot. `direntFormat` makes this an instance of
`Lib/Records.lean`, and `Tiled` is the well-formedness the driver relies on.

Every function of `dir.c` runs its own copy of one loop over such a block. The bodies of these loops
are `lookupBody`, `insertBody`, `removeBody`, `otherBody` and `setParentBody`. For each there is one
specification in terms of the live entries, in order: looking a name up, inserting at some place,
dropping the first entry of a name, and so on.
-/
namespace PureUnix.Ext2
open Lib List Option
open Nat

variable {ino newParent : Nat} {ft : UInt8} {β : Type} {body : Option Nat → Nat → Option β} {name : Text} {b' : Buf}

/-- `(n + 3u) & ~3u`. -/
def align4 (n : Nat) : Nat := (n + 3) / 4 * 4

/-- A live directory entry. -/
structure Dent where
  name : Text
  ino : Nat
  fileType : UInt8
deriving DecidableEq, Repr

/-- A record: its length, and its entry unless it is a free slot. -/
structure Rec where
  len : Nat
  dent : Option Dent
deriving DecidableEq, Repr

/-! ## Raw fields of the record at `off` -/

def deInode (b : Buf) (off : Nat) : Nat := get32 b off
def deRecLen (b : Buf) (off : Nat) : Nat := get16 b (off + 4)
def deNameLen (b : Buf) (off : Nat) : Nat := (b (off + 6)).toNat
def deFileType (b : Buf) (off : Nat) : UInt8 := b (off + 7)

def recAt (b : Buf) (off : Nat) : Rec :=
  ⟨deRecLen b off, if deInode b off = 0 then none
    else some ⟨slice b (off + 8) (deNameLen b off), deInode b off, deFileType b off⟩⟩

namespace Rec

/-- `rec_len` is a multiple of 4, at least 8, and covers the name of a live record. -/
def Ok (r : Rec) : Prop :=
  r.len % 4 = 0 ∧ 8 ≤ r.len ∧ ∀ d ∈ r.dent, align4 (8 + d.name.length) ≤ r.len

instance (r : Rec) : Decidable r.Ok :=
  inferInstanceAs (Decidable (_ ∧ _ ∧ ∀ d ∈ r.dent, _))

/-- The record can take an entry of `need` bytes, as a free slot or behind its own entry. -/
def Room (r : Rec) (need : Nat) : Prop :=
  match r.dent with
  | none => need ≤ r.len
  | some d => need + align4 (8 + d.name.length) ≤ r.len

instance (r : Rec) (need : Nat) : Decidable (r.Room need) := by
  unfold Room; cases r.dent <;> exact Nat.decLe _ _

end Rec

variable {b : Buf} {off : Nat} {r : Rec} {d : Dent} {name : Text}

theorem le_align4 (n : Nat) : n ≤ align4 n := by unfold align4; omega

/-- Name and file type are read from the bytes behind the length. -/
theorem recAt_eq {a : Buf} (h : Same (off + 6) (off + 8 + deNameLen a off) a b) : recAt b off =
    ⟨deRecLen b off, if deInode b off = 0 then none else some ⟨slice a (off + 8) (deNameLen a off), deInode b off, deFileType a off⟩⟩ := by
  have e6 : deNameLen b off = deNameLen a off := congrArg UInt8.toNat (h _ (by omega) (by omega)).symm
  have e7 : deFileType b off = deFileType a off := (h (off + 7) (by omega) (by omega)).symm
  have es : slice b (off + 8) (deNameLen a off) = slice a (off + 8) (deNameLen a off) := slice_congr (h.symm.mono (by omega) le_rfl)
  simp only [recAt, e6, e7, es]

theorem recAt_congr {a : Buf} (hok : (recAt a off).Ok)
    (h : Same off (off + (recAt a off).len) a b) : recAt b off = recAt a off := by
  obtain ⟨-, h8, hn⟩ := hok
  have e0 : deInode b off = deInode a off := get32_congr (h.symm.mono (by omega) (by omega))
  have e4 : deRecLen b off = deRecLen a off := get16_congr (h.symm.mono (by omega) (by omega))
  by_cases hz : deInode a off = 0
  · simp only [recAt, e0, e4, hz, if_true]
  have hle := hn _ (by rw [recAt, if_neg hz]; rfl)
  have h1 := le_align4 (8 + (slice a (off + 8) (deNameLen a off)).length)
  simp only [length_slice] at hle h1
  rw [recAt_eq (h.mono (by omega) (by omega)), e0, e4]
  rfl

/-- `ext2_dirent_t` records. -/
def direntFormat : Format Rec where
  read := recAt
  len := Rec.len
  Ok := Rec.Ok
  header := 8
  header_pos := by decide
  header_le r h := h.2.1
  isLocal _ _ _ hok h := recAt_congr hok h

instance : DecidablePred direntFormat.Ok := inferInstanceAs (DecidablePred Rec.Ok)

/-- The records of a block of `bs` bytes. -/
def recs (bs : Nat) (b : Buf) : List Rec := direntFormat.records bs b bs 0

/-- The block is exactly tiled by acceptable records. -/
def Tiled (bs : Nat) (b : Buf) : Prop := direntFormat.Chain b (recs bs b) 0 bs

instance (bs : Nat) (b : Buf) : Decidable (Tiled bs b) :=
  inferInstanceAs (Decidable (direntFormat.Chain b (recs bs b) 0 bs))

/-- The entries of a list of records, in order. -/
def live (rs : List Rec) : List Dent := rs.filterMap Rec.dent

def entries (bs : Nat) (b : Buf) : List Dent := live (recs bs b)

/-! ## The loops -/

/-- `de->inode != 0 && de->name_len == (uint8_t)name_len && strncmp(name(de), name, name_len) == 0`. -/
def deMatches (b : Buf) (name : Text) (off : Nat) : Bool :=
  deInode b off != 0 && deNameLen b off == name.length % 256 && slice b (off + 8) name.length == name

/-- The loop body of `lookup_in_block` (dir.c:47). -/
def lookupBody (b : Buf) (name : Text) (_ : Option Nat) (off : Nat) : Option Nat :=
  if deMatches b name off then some (deInode b off) else none

def lookupBlock (bs : Nat) (b : Buf) (name : Text) : Option Nat :=
  direntFormat.walk bs b (lookupBody b name) bs none 0

/-- Inode number, name length, file type and name of a record; `rec_len` is left as it is. -/
def putEntry (b : Buf) (off ino : Nat) (name : Text) (fileType : UInt8) : Buf :=
  copy (put8 (put8 (put32 b off ino) (off + 6) (UInt8.ofNat name.length)) (off + 7) fileType) (off + 8) (ofList name) name.length

/-- The loop body of `ext2_dir_insert` (dir.c:235): reuse a free slot outright, or split the slack off
a live record. `slack` is a `uint32_t` and the new `rec_len` a `uint16_t`: both wrap where `rec_len` does not cover the name. -/
def insertBody (b : Buf) (name : Text) (ino : Nat) (fileType : UInt8) (_ : Option Nat) (off : Nat) : Option Buf :=
  let needed := align4 (8 + name.length)
  if deInode b off = 0 then
    if needed ≤ deRecLen b off then some (putEntry b off ino name fileType) else none
  else
    let actual := align4 (8 + deNameLen b off)
    if needed ≤ u32 (deRecLen b off + 4294967296 - actual) then
      let b' := put16 (put16 b (off + 4) actual) (off + actual + 4) (deRecLen b off + 65536 - actual)
      some (putEntry b' (off + actual) ino name fileType)
    else none

def insertBlock (bs : Nat) (b : Buf) (name : Text) (ino : Nat) (fileType : UInt8) : Option Buf :=
  direntFormat.walk bs b (insertBody b name ino fileType) bs none 0

/-- The loop body of `ext2_dir_remove` (dir.c:316): merge into the record before, or leave the first
record of the block as a free slot. -/
def removeBody (b : Buf) (name : Text) (prev : Option Nat) (off : Nat) : Option Buf :=
  if deMatches b name off then
    match prev with
    | some p => some (put16 b (p + 4) (deRecLen b p + deRecLen b off))
    | none => some (put32 b off 0)
  else none

def removeBlock (bs : Nat) (b : Buf) (name : Text) : Option Buf :=
  direntFormat.walk bs b (removeBody b name) bs none 0

def dotName : Text := [46]
def dotdotName : Text := [46, 46]

/-- The loop body of `ext2_dir_is_empty` (dir.c:353): answers at a live name other than "." and "..". -/
def otherBody (b : Buf) (_ : Option Nat) (off : Nat) : Option Unit :=
  if deInode b off ≠ 0 then
    let dot := deNameLen b off == 1 && b (off + 8) == 46
    let dotdot := deNameLen b off == 2 && b (off + 8) == 46 && b (off + 9) == 46
    if !dot && !dotdot then some () else none
  else none

def otherBlock (bs : Nat) (b : Buf) : Option Unit :=
  direntFormat.walk bs b (otherBody b) bs none 0

/-- The loop body of `ext2_dir_set_parent` (dir.c:384). -/
def setParentBody (b : Buf) (newParent : Nat) (_ : Option Nat) (off : Nat) : Option Buf :=
  if deInode b off ≠ 0 ∧ deNameLen b off = 2 ∧ b (off + 8) = 46 ∧ b (off + 9) = 46 then
    some (put32 b off newParent)
  else none

def setParentBlock (bs : Nat) (b : Buf) (newParent : Nat) : Option Buf :=
  direntFormat.walk bs b (setParentBody b newParent) bs none 0

/-! ## Edits of one record -/

theorem recAt_put16 (b : Buf) (off n : Nat) : recAt (put16 b (off + 4) n) off = ⟨n % 65536, (recAt b off).dent⟩ := by
  have e0 : deInode (put16 b (off + 4) n) off = deInode b off := get32_put16_ne (by omega)
  rw [recAt_eq (put16_same (by omega)).symm, e0, deRecLen, get16_put16]
  rfl

theorem recAt_put32_zero (b : Buf) (off : Nat) : recAt (put32 b off 0) off = ⟨deRecLen b off, none⟩ := by
  have e0 : deInode (put32 b off 0) off = 0 := get32_put32 _ _ _
  have e4 : deRecLen (put32 b off 0) off = deRecLen b off := get16_put32_ne (by omega)
  simp only [recAt, e0, e4, if_true]

theorem recAt_dent (h : (recAt b off).dent = some d) :
    deInode b off ≠ 0 ∧ d = ⟨slice b (off + 8) (deNameLen b off), deInode b off, deFileType b off⟩ := by
  unfold recAt at h
  split at h
  · cases h
  · cases h; exact ⟨‹_›, rfl⟩

theorem recAt_free (h : (recAt b off).dent = none) : deInode b off = 0 := by
  unfold recAt at h
  split at h
  · assumption
  · cases h

theorem recAt_put32 {n : Nat} (hn : n ≠ 0 ∧ n < 4294967296)
    (hd : (recAt b off).dent = some d) : recAt (put32 b off n) off = ⟨deRecLen b off, some { d with ino := n }⟩ := by
  obtain ⟨-, rfl⟩ := recAt_dent hd
  have e0 : deInode (put32 b off n) off = n := by rw [deInode, get32_put32, mod_eq_of_lt hn.2]
  rw [recAt_eq (put32_same (by omega)).symm, e0, if_neg hn.1, deRecLen, get16_put32_ne (by omega)]
  rfl

theorem putEntry_same {lo hi : Nat} (h : hi ≤ off ∨ off + 8 + name.length ≤ lo) : Same lo hi (putEntry b off ino name ft) b :=
  (copy_same (by omega)).trans ((put8_same (by omega)).trans ((put8_same (by omega)).trans (put32_same (by omega))))

theorem recAt_putEntry (hi : ino ≠ 0 ∧ ino < 4294967296)
    (hn : name.length < 256) : recAt (putEntry b off ino name ft) off = ⟨deRecLen b off, some ⟨name, ino, ft⟩⟩ := by
  have e0 : deInode (putEntry b off ino name ft) off = ino := by
    unfold deInode putEntry
    rw [get32_copy_ne (by omega), get32_congr (put8_same (by omega)), get32_congr (put8_same (by omega)),
      get32_put32, mod_eq_of_lt hi.2]
  have e4 : deRecLen (putEntry b off ino name ft) off = deRecLen b off := by
    unfold deRecLen putEntry
    rw [get16_copy_ne (by omega), get16_congr (put8_same (by omega)), get16_congr (put8_same (by omega)),
      get16_put32_ne (by omega)]
  have e6 : deNameLen (putEntry b off ino name ft) off = name.length := by
    unfold deNameLen putEntry
    rw [copy_same (l := off + 6) (u := off + 7) (by omega) _ (by omega) (by omega),
      put8_same (l := off + 6) (u := off + 7) (by omega) _ (by omega) (by omega), put8, if_pos rfl,
      UInt8.toNat_ofNat', mod_eq_of_lt hn]
  have e7 : deFileType (putEntry b off ino name ft) off = ft := by
    unfold deFileType putEntry
    rw [copy_same (l := off + 7) (u := off + 8) (by omega) _ (by omega) (by omega), put8, if_pos rfl]
  have es : slice (putEntry b off ino name ft) (off + 8) name.length = name := slice_copy _ _ _
  simp only [recAt, e0, e4, e6, e7, es, if_neg hi.1]

/-! ## What the loops find in a tiled block -/

@[simp] theorem live_append (xs ys : List Rec) : live (xs ++ ys) = live xs ++ live ys := filterMap_append

theorem live_cons_some (h : r.dent = some d) (rs : List Rec) : live (r :: rs) = d :: live rs :=
  filterMap_cons_some h

theorem live_cons_none (h : r.dent = none) (rs : List Rec) : live (r :: rs) = live rs :=
  filterMap_cons_none h

theorem mem_live {rs : List Rec} : d ∈ live rs ↔ ∃ r ∈ rs, r.dent = some d := mem_filterMap

section
variable {bs off : Nat} {b : Buf} {rs pre post : List Rec} {d : Dent} {name : Text} {prev : Option Nat} {P : Dent → Prop}

theorem Tiled.of_chain (h : direntFormat.Chain b rs 0 bs) : Tiled bs b ∧ recs bs b = rs := by
  have e : recs bs b = rs := h.records_eq h.length_le
  exact ⟨by rw [Tiled, e]; exact h, e⟩

theorem chain_at (h : direntFormat.Chain b (pre ++ r :: post) 0 bs) :
    recAt b (direntFormat.span pre) = r ∧ r.Ok ∧ direntFormat.span pre + r.len ≤ bs := by
  obtain ⟨-, h2⟩ := Format.chain_append.1 h
  rw [zero_add] at h2
  have h3 := h2.2.2.stop_eq
  exact ⟨h2.1, h2.2.1, by change bs = direntFormat.span pre + r.len + _ at h3; omega⟩

theorem deMatches_iff (hn : name.length < 256) :
    deMatches b name off = true ↔ ∃ d, (recAt b off).dent = some d ∧ d.name = name := by
  simp only [deMatches, Bool.and_eq_true, bne_iff_ne, beq_iff_eq, mod_eq_of_lt hn, and_assoc]
  constructor
  · rintro ⟨h0, hl, hs⟩
    exact ⟨_, by rw [recAt, if_neg h0], by simp only [hl, hs]⟩
  · rintro ⟨d, hd, rfl⟩
    obtain ⟨h0, rfl⟩ := recAt_dent hd
    exact ⟨h0, (length_slice _ _ _).symm, by simp only [length_slice]⟩

variable (h : direntFormat.Chain b rs 0 bs)
include h

omit h in
/-- The body answers at the records whose entry has `P`. -/
def Answers (b : Buf) (body : Option Nat → Nat → Option β) (P : Dent → Prop) : Prop :=
  ∀ prev off, body prev off = none ↔ ¬ ∃ d, (recAt b off).dent = some d ∧ P d

/-- A scan whose body never answers has seen every live entry. -/
theorem Answers.of_none (ha : Answers b body P) (hw : direntFormat.walk bs b body bs none 0 = none) : ∀ d ∈ live rs, ¬ P d := by
  intro d hd hp
  obtain ⟨r, hr, hrd⟩ := mem_live.1 hd
  obtain ⟨pre, post, rfl⟩ := append_of_mem hr
  have hb := Format.walk_none h h.length_le hw pre r post rfl
  rw [zero_add, ha, (chain_at h).1] at hb
  exact hb ⟨d, hrd, hp⟩

/-- A scan that is answered stops at the first entry with `P`. -/
theorem Answers.of_some {y : β} (ha : Answers b body P) (hw : direntFormat.walk bs b body bs none 0 = some y) :
    ∃ pre r post d, rs = pre ++ r :: post ∧ recAt b (direntFormat.span pre) = r ∧ r.Ok ∧ direntFormat.span pre + r.len ≤ bs ∧
      body (direntFormat.prevOff none 0 pre) (direntFormat.span pre) = some y ∧ r.dent = some d ∧ P d ∧ ∀ x ∈ live pre, ¬ P x := by
  obtain ⟨pre, r, post, rfl, hb, hn⟩ := Format.walk_some h hw
  obtain ⟨rfl, hok, hend⟩ := chain_at h
  rw [zero_add] at hb
  obtain ⟨d, hd, hp⟩ := not_not.1 (mt (ha _ _).2 (by rw [hb]; simp))
  refine ⟨pre, _, post, d, rfl, rfl, hok, hend, hb, hd, hp, fun x hx hpx => ?_⟩
  obtain ⟨r, hr, hrx⟩ := mem_live.1 hx
  obtain ⟨p, q, rfl⟩ := append_of_mem hr
  have hnone := hn p r q rfl
  rw [append_assoc] at h
  rw [zero_add, ha, (chain_at h).1] at hnone
  exact hnone ⟨x, hrx, hpx⟩

theorem lookupBlock_eq (hn : name.length < 256) :
    lookupBlock bs b name = ((live rs).find? fun d => d.name = name).map Dent.ino := by
  have ha : Answers b (lookupBody b name) (·.name = name) := fun prev off => by simp [← deMatches_iff hn, lookupBody]
  cases hw : lookupBlock bs b name with
  | none => rw [find?_eq_none.2 (by simpa using ha.of_none h hw), map_none]
  | some n =>
    obtain ⟨pre, r, post, d, rfl, rfl, -, -, hb, hd, hdn, hpre⟩ := ha.of_some h hw
    have hnone : (live pre).find? (fun d => decide (d.name = name)) = none := find?_eq_none.2 (by simpa using hpre)
    rw [lookupBody, if_pos ((deMatches_iff hn).2 ⟨d, hd, hdn⟩)] at hb
    rw [live_append, live_cons_some hd, find?_append, hnone, none_or, find?_cons_of_pos (by simp [hdn]), map_some, ← hb,
      (recAt_dent hd).2]

/-! ### Insertion -/

omit h in
/-- The records `mid` take the place of `r`. -/
theorem chain_replace {mid : List Rec} (h : direntFormat.Chain b (pre ++ r :: post) 0 bs)
    (hm : direntFormat.Chain b' mid (direntFormat.span pre) (direntFormat.span pre + r.len))
    (hl : Same 0 (direntFormat.span pre) b b') (hr : Same (direntFormat.span pre + r.len) bs b b') :
    direntFormat.Chain b' (pre ++ mid ++ post) 0 bs := by
  have hs : direntFormat.span [r] = r.len := by simp [Format.span, direntFormat]
  have hspan := hm.stop_eq
  refine Format.Chain.splice (m := [r]) (by simpa using h) (by omega) ?_ ?_ ?_
  · rw [zero_add, hs]; exact hm
  · rw [zero_add]; exact hl
  · rw [zero_add, hs]; exact hr

omit h in
theorem slack_eq {len actual : Nat} (h : actual ≤ len) (hl : len < 65536) : u32 (len + 4294967296 - actual) = len - actual := by
  unfold u32; omega

omit h in
theorem insertBody_none (hok : (recAt b off).Ok) : insertBody b name ino ft prev off = none ↔
    ¬ (recAt b off).Room (align4 (8 + name.length)) := by
  have hlen : (recAt b off).len = deRecLen b off := rfl
  have h16 : deRecLen b off < 65536 := get16_lt _ _
  unfold insertBody Rec.Room
  cases hd : (recAt b off).dent with
  | none => simp [recAt_free hd, hlen]
  | some d =>
    obtain ⟨h0, rfl⟩ := recAt_dent hd
    have hle := hok.2.2 _ hd
    simp only [length_slice, hlen] at hle ⊢
    simp only [h0, slack_eq hle h16, if_false]
    split <;> simp <;> omega

theorem insertBlock_none (hw : insertBlock bs b name ino ft = none) : ∀ r ∈ rs, ¬ r.Room (align4 (8 + name.length)) := by
  intro r hr
  obtain ⟨pre, post, rfl⟩ := append_of_mem hr
  have hb := Format.walk_none h h.length_le hw pre r post rfl
  obtain ⟨h1, h2, -⟩ := chain_at h
  rw [zero_add] at hb
  rw [← h1] at h2 ⊢
  exact (insertBody_none h2).1 hb

theorem insertBlock_room (hw : insertBlock bs b name ino ft = some b') : ¬ ∀ r ∈ rs, ¬ r.Room (align4 (8 + name.length)) := by
  obtain ⟨pre, r, post, rfl, hb, -⟩ := Format.walk_some h hw
  obtain ⟨rfl, hok, -⟩ := chain_at h
  intro hall
  rw [zero_add, (insertBody_none hok).2 (hall _ (by simp))] at hb
  cases hb

/-- **Insertion into a block** keeps it tiled and adds exactly the new entry. -/
theorem insertBlock_some (hbs : bs ≤ 4096)
    (hi : ino ≠ 0 ∧ ino < 4294967296) (hn : name.length < 256) (hw : insertBlock bs b name ino ft = some b') :
    ∃ rs', direntFormat.Chain b' rs' 0 bs ∧ Inserted ⟨name, ino, ft⟩ (live rs) (live rs') := by
  obtain ⟨pre, r, post, rfl, hb, -⟩ := Format.walk_some h hw
  obtain ⟨hro, hok, hend⟩ := chain_at h
  rw [zero_add] at hb
  generalize hoff : direntFormat.span pre = off at *
  have hlen : r.len = deRecLen b off := by rw [← hro]; rfl
  have hneed := le_align4 (8 + name.length)
  unfold insertBody at hb
  cases hd : r.dent with
  | none =>
    -- a free slot is reused and keeps its length
    rw [if_pos (recAt_free (by rw [hro]; exact hd))] at hb
    split at hb
    · rename_i hroom
      cases hb
      refine ⟨pre ++ [⟨r.len, some ⟨name, ino, ft⟩⟩] ++ post, chain_replace h ?_ ?_ ?_, ?_⟩
      · rw [hoff]
        refine ⟨?_, ⟨hok.1, hok.2.1, ?_⟩, rfl⟩
        · exact (recAt_putEntry hi hn).trans (by rw [hlen])
        · rintro d ⟨⟩; exact hlen ▸ hroom
      · rw [hoff]; exact (putEntry_same (by omega)).symm
      · rw [hoff]; exact (putEntry_same (by omega)).symm
      · rw [live_append, live_append, live_append, live_cons_none hd]
        exact ⟨live pre, live post, rfl, by simp [live]⟩
    · cases hb
  | some d =>
    -- a live record gives up what lies behind its own entry
    obtain ⟨h0, rfl⟩ := recAt_dent (by rw [hro]; exact hd)
    have hle := hok.2.2 _ hd
    rw [if_neg h0] at hb
    simp only [length_slice] at hle
    have h8 := le_align4 (8 + deNameLen b off)
    have h4 : align4 (8 + deNameLen b off) % 4 = 0 := by unfold align4; omega
    have h16 : r.len < 65536 := by omega
    simp only [← hlen, slack_eq hle h16] at hb
    generalize hact : align4 (8 + deNameLen b off) = actual at *
    split at hb
    · cases hb
      rw [show r.len + 65536 - actual = r.len - actual + 65536 by omega, put16_wrap]
      have h4r := hok.1
      generalize hb1 : put16 (put16 b (off + 4) actual) (off + actual + 4) (r.len - actual) = b₁
      have hsame : ∀ {lo hi : Nat}, hi ≤ off + 4 ∨ off + 6 ≤ lo ∧ hi ≤ off + actual ∨ off + r.len ≤ lo →
          Same lo hi b (putEntry b₁ (off + actual) ino name ft) := by
        intro lo hi hc
        rw [← hb1]
        refine (Same.trans (putEntry_same ?_) ((put16_same ?_).trans (put16_same ?_))).symm <;> omega
      refine ⟨pre ++ [⟨actual, r.dent⟩, ⟨r.len - actual, some ⟨name, ino, ft⟩⟩] ++ post, chain_replace h ?_ ?_ ?_, ?_⟩
      · rw [hoff]
        refine ⟨?_, ⟨h4, by change 8 ≤ actual; omega, ?_⟩, ?_, ⟨?_, ?_, ?_⟩, ?_⟩
        · -- the record in front keeps its entry, with the shorter length
          have e := recAt_put16 b off actual
          have hok' : (recAt (put16 b (off + 4) actual) off).Ok := by
            rw [e]
            refine ⟨?_, ?_, ?_⟩ <;> simp only [mod_eq_of_lt (show actual < 65536 by omega)]
            · exact h4
            · omega
            · rw [hro, hd]; rintro d ⟨⟩; simp only [length_slice, hact]; exact Nat.le_refl _
          have e' := recAt_congr (b := putEntry b₁ (off + actual) ino name ft) hok' ?_
          · exact e'.trans (by rw [e, hro, mod_eq_of_lt (by omega)])
          · rw [e, ← hb1]
            simp only [mod_eq_of_lt (show actual < 65536 by omega)]
            exact ((putEntry_same (by omega)).trans (put16_same (by omega))).symm
        · rw [hd]; rintro d ⟨⟩
          simp only [length_slice, hact]; exact Nat.le_refl _
        · refine (recAt_putEntry hi hn).trans ?_
          rw [← hb1, deRecLen, get16_put16, mod_eq_of_lt (by omega)]
        · change (r.len - actual) % 4 = 0; omega
        · change 8 ≤ r.len - actual; omega
        · rintro d ⟨⟩
          change align4 (8 + name.length) ≤ r.len - actual; omega
        · change off + actual + (r.len - actual) = off + r.len; omega
      · rw [hoff]; exact hsame (.inl (by omega))
      · rw [hoff]; exact hsame (.inr (.inr (by omega)))
      · rw [live_append, live_cons_some hd]
        exact ⟨live pre ++ [⟨slice b (off + 8) (deNameLen b off), deInode b off, deFileType b off⟩], live post,
          by simp, by simp [live, hd]⟩
    · cases hb

/-! ### Removal -/

omit h in
theorem removeBody_answers (hn : name.length < 256) : Answers b (removeBody b name) (·.name = name) := fun prev off => by
  rw [← deMatches_iff hn]
  cases prev <;> simp [removeBody]

theorem removeBlock_none (hn : name.length < 256) (hw : removeBlock bs b name = none) : ∀ d ∈ live rs, d.name ≠ name :=
  (removeBody_answers hn).of_none h hw

/-- **Removal from a block** keeps it tiled and drops exactly the first entry of the name. -/
theorem removeBlock_some (hbs : bs ≤ 4096) (hn : name.length < 256) (hw : removeBlock bs b name = some b') :
    (∃ d ∈ live rs, d.name = name) ∧
    ∃ rs', direntFormat.Chain b' rs' 0 bs ∧ live rs' = ((live rs).eraseP fun d => d.name = name) ∧
      ∃ r ∈ rs', r.Room (align4 (8 + name.length)) := by
  obtain ⟨pre, r, post, d, rfl, hro, hok, hend, hb, hd, hdn, hpre⟩ := (removeBody_answers hn).of_some h hw
  unfold removeBody at hb
  rw [if_pos ((deMatches_iff hn).2 ⟨d, hro ▸ hd, hdn⟩)] at hb
  have hnone : ∀ x ∈ live pre, ¬ decide (x.name = name) = true := by simpa using hpre
  have herase : (live (pre ++ r :: post)).eraseP (fun d => d.name = name) = live pre ++ live post := by
    rw [live_append, live_cons_some hd, eraseP_append_right _ hnone, eraseP_cons_of_pos (by simpa using hdn)]
  have hfit : align4 (8 + name.length) ≤ r.len := by
    have := hok.2.2 d hd
    rwa [hdn] at this
  refine ⟨⟨d, by rw [live_append, live_cons_some hd]; simp, hdn⟩, ?_⟩
  rw [herase]
  rcases eq_nil_or_concat pre with rfl | ⟨p, x, rfl⟩
  · -- first in the block: the record becomes a free slot
    simp only [Format.prevOff, if_true, Option.some.injEq] at hb
    subst hb
    refine ⟨[] ++ [⟨r.len, none⟩] ++ post, chain_replace h ?_ ?_ ?_, by simp [live], ⟨r.len, none⟩, by simp, hfit⟩
    · refine ⟨?_, ⟨hok.1, hok.2.1, by rintro d ⟨⟩⟩, rfl⟩
      exact (recAt_put32_zero _ _).trans (by rw [← hro]; rfl)
    · exact (put32_same (by simp only [Format.span]; omega)).symm
    · have := hok.2.1
      exact (put32_same (by simp only [Format.span]; omega)).symm
  · -- otherwise its bytes go to the record before
    have hx := chain_at (show direntFormat.Chain b (p ++ x :: r :: post) 0 bs by simpa using h)
    have hsp : direntFormat.span (p.concat x) = direntFormat.span p + x.len := by
      simp [Format.span, direntFormat]
    simp only [Format.prevOff, concat_eq_append, append_eq_nil_iff, cons_ne_self, and_false, if_false,
      dropLast_concat, zero_add, Option.some.injEq] at hb
    rw [hsp] at hend hro
    have hxlen : deRecLen b (direntFormat.span p) = x.len := by rw [← hx.1]; rfl
    have hrlen : deRecLen b (direntFormat.span p + x.len) = r.len := by rw [← hro]; rfl
    have hsp' : direntFormat.span (p ++ [x]) = direntFormat.span p + x.len := by simpa using hsp
    simp only [hsp', hxlen, hrlen] at hb
    subst hb
    have hmid : direntFormat.span [x, r] = x.len + r.len := by simp [Format.span, direntFormat]
    have h8 := hx.2.1.2.1
    refine ⟨p ++ [⟨x.len + r.len, x.dent⟩] ++ post,
      Format.Chain.splice (m := [x, r]) (by simpa using h) ?_ ?_ ?_ ?_, ?_, ⟨x.len + r.len, x.dent⟩, by simp, ?_⟩
    · simp [Format.span, direntFormat]
    · rw [zero_add, hmid]
      refine ⟨(recAt_put16 _ _ _).trans ?_, ⟨?_, ?_, ?_⟩, rfl⟩
      · rw [hx.1, mod_eq_of_lt (by omega)]
      · have := hx.2.1.1
        have := hok.1
        change (x.len + r.len) % 4 = 0; omega
      · change 8 ≤ x.len + r.len; omega
      · intro y hy
        have := hx.2.1.2.2 y hy
        change _ ≤ x.len + r.len; omega
    · rw [zero_add]; exact (put16_same (by omega)).symm
    · rw [zero_add, hmid]; exact (put16_same (by omega)).symm
    · cases hxd : x.dent with
      | none => simp [live, hxd]
      | some y => simp [live, hxd]
    · cases hxd : x.dent with
      | none =>
        change align4 (8 + name.length) ≤ x.len + r.len
        omega
      | some y =>
        have := hx.2.1.2.2 y hxd
        change align4 (8 + name.length) + align4 (8 + y.name.length) ≤ x.len + r.len
        omega

/-! ### Other names, and ".." -/

omit h in
theorem slice_two {b : Buf} : slice b off 2 = [b off, b (off + 1)] := rfl

omit h in
theorem otherBody_none (hd : (recAt b off).dent = some d) :
    otherBody b prev off = none ↔ d.name = dotName ∨ d.name = dotdotName := by
  obtain ⟨h0, rfl⟩ := recAt_dent hd
  have hlen := length_slice b (off + 8) (deNameLen b off)
  unfold otherBody dotName dotdotName
  rw [if_pos h0]
  dsimp only
  constructor
  · intro hb
    split at hb
    · cases hb
    rename_i hc
    simp only [Bool.and_eq_true, Bool.not_eq_true', Bool.and_eq_false_iff, beq_eq_false_iff_ne, not_and_or,
      not_or, not_not] at hc
    rcases hc with ⟨h1, h2⟩ | ⟨⟨h1, h2⟩, h3⟩
    · exact .inl (by simp [h1, slice, h2])
    · exact .inr (by rw [h1, slice_two, h2, h3])
  · rintro (he | he)
    · have h1 : deNameLen b off = 1 := by rw [← hlen, he]; rfl
      have h2 : b (off + 8) = 46 := by simpa [h1, slice] using he
      simp [h1, h2]
    · have h1 : deNameLen b off = 2 := by rw [← hlen, he]; rfl
      rw [h1, slice_two] at he
      have h2 : b (off + 8) = 46 := by injection he
      have h3 : b (off + 9) = 46 := by injection he with _ he; injection he
      simp [h1, h2, h3]

theorem otherBlock_none : otherBlock bs b = none ↔ ∀ d ∈ live rs, d.name = dotName ∨ d.name = dotdotName := by
  have ha : Answers b (otherBody b) fun d => ¬ (d.name = dotName ∨ d.name = dotdotName) := by
    intro prev off
    cases hd : (recAt b off).dent with
    | none => simp [otherBody, recAt_free hd]
    | some d => simp [otherBody_none hd, or_iff_not_imp_left]
  refine ⟨fun hw d hd => not_not.1 (ha.of_none h hw d hd), fun hall => ?_⟩
  cases hw : otherBlock bs b with
  | none => rfl
  | some u =>
    obtain ⟨pre, r, post, d, rfl, -, -, -, -, hd, hother, -⟩ := ha.of_some h hw
    exact absurd (hall d (by rw [live_append, live_cons_some hd]; simp)) hother

omit h in
theorem setParentBody_cond : (deInode b off ≠ 0 ∧ deNameLen b off = 2 ∧ b (off + 8) = 46 ∧ b (off + 9) = 46) ↔
      ∃ d, (recAt b off).dent = some d ∧ d.name = dotdotName := by
  unfold dotdotName
  constructor
  · rintro ⟨h0, h1, h2, h3⟩
    exact ⟨_, by rw [recAt, if_neg h0], by rw [h1, slice_two, h2, h3]⟩
  · rintro ⟨d, hd, hn⟩
    obtain ⟨h0, rfl⟩ := recAt_dent hd
    dsimp only at hn
    have h1 : deNameLen b off = 2 := by rw [← length_slice b (off + 8) (deNameLen b off), hn]; rfl
    rw [h1, slice_two] at hn
    exact ⟨h0, h1, by injection hn, by injection hn with _ hn; injection hn⟩

/-- The entry `ext2_dir_set_parent` writes in place of a ".." entry. -/
def reparent (newParent : Nat) (d : Dent) : Option Dent :=
  if d.name = dotdotName then some { d with ino := newParent } else none

omit h in
theorem setParentBody_answers : Answers b (setParentBody b newParent) (·.name = dotdotName) := fun prev off => by
  simp [← setParentBody_cond, setParentBody]

theorem setParentBlock_none (hw : setParentBlock bs b newParent = none) : ∀ d ∈ live rs, d.name ≠ dotdotName :=
  setParentBody_answers.of_none h hw

theorem setParentBlock_some (hp : newParent ≠ 0 ∧ newParent < 4294967296) (hw : setParentBlock bs b newParent = some b') :
    (∃ d ∈ live rs, d.name = dotdotName) ∧
    ∃ rs', direntFormat.Chain b' rs' 0 bs ∧ live rs' = (live rs).replaceF (reparent newParent) := by
  obtain ⟨pre, r, post, d, rfl, hro, hok, hend, hb, hd, hdn, hpre⟩ := setParentBody_answers.of_some h hw
  rw [setParentBody, if_pos (setParentBody_cond.2 ⟨d, hro ▸ hd, hdn⟩)] at hb
  cases hb
  have hnone : ∀ x ∈ live pre, reparent newParent x = none := fun x hx => if_neg (hpre x hx)
  have hr := recAt_put32 hp (hro ▸ hd)
  refine ⟨⟨d, by rw [live_append, live_cons_some hd]; simp, hdn⟩,
    pre ++ [⟨r.len, some { d with ino := newParent }⟩] ++ post, chain_replace h ?_ ?_ ?_, ?_⟩
  · refine ⟨hr.trans (by rw [← hro]; rfl), ⟨hok.1, hok.2.1, ?_⟩, rfl⟩
    rintro x ⟨⟩
    exact hok.2.2 d hd
  · exact (put32_same (by omega)).symm
  · have := hok.2.1
    exact (put32_same (by omega)).symm
  · have hrep : reparent newParent d = some { d with ino := newParent } := if_pos hdn
    rw [live_append, live_append, live_append, live_cons_some hd, replaceF_append hnone, replaceF_cons_of_some _ hrep]
    simp [live]

end
end PureUnix.Ext2
