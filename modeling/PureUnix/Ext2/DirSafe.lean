import PureUnix.Ext2.DirReach
import PureUnix.Ext2.SampleTree

/-!
# The directory functions on corrupt directories

`ext2_dir_lookup`, `ext2_readdir_ino`, `ext2_dir_insert`, `ext2_dir_remove`, `ext2_dir_is_empty` and `ext2_dir_set_parent` on a
directory whose data blocks hold arbitrary bytes. They all end. They stay inside the block buffers if and only if every record
they reach keeps inside its block what they examine or write there.
-/
namespace PureUnix.Ext2.Traced
open Lib Lib.OnBuf List Nat Inode
open Store

variable {n off : Nat}

variable {α S : Type} {L : Layout} {v : Store} {ino bs b : Nat} {name : Text} {stops : Buf → Nat → Bool} {fits : Buf → Nat → Prop}

/-- The traced call does what the plain one does and ends; it stays inside the block buffers if and only if `P`. -/
def Stays (L : Layout) (v : Store) (traced : Drv (α × Trace)) (plain : Drv α) (P : Prop) : Prop :=
  ∃ t, Prog.run (Store.step L) traced v = (((Prog.run (Store.step L) plain v).1, t), (Prog.run (Store.step L) plain v).2) ∧
    t.Within L.blockSize P

theorem Stays.congr {traced : Drv (α × Trace)} {plain : Drv α} {P Q : Prop} (h : Stays L v traced plain P) (hpq : P ↔ Q) :
    Stays L v traced plain Q :=
  h.imp fun _ ht => ⟨ht.1, ht.2.congr hpq⟩

/-- The blocks of a directory in the order of their index: those of `dir.i_size / fs->block_size`. -/
def dirBufs (L : Layout) (v : Store) (ino : Nat) : List Buf :=
  bufsOf v ((List.range' 0 ((v.inode ino).nblocks L.fs)).map ((v.inode ino).blockAt L.blockSize v.data))

/-- The blocks of a directory that `ext2_iter_blocks` visits. -/
def iterBufs (L : Layout) (v : Store) (ino : Nat) : List Buf :=
  bufsOf v ((v.inode ino).visits L.blockSize v.data (v.inode ino).iSize.toNat)

/-! ## Functions that go by block index -/

/-- A function that reads the inode and scans the blocks, if what it does with the outcome of the scan is what the plain one does. -/
theorem stays_scan {γ : Type} {body : Buf → Option γ × Trace} {plainBlock : Buf → Option γ}
    {tail : Inode → Scan γ × Trace → Drv (α × Trace)} {plainTail : Inode → Scan γ → Drv α}
    (hs : BlockSpec L.blockSize body plainBlock stops fits) (hino : L.ValidIno ino)
    (hmap : ∀ b ∈ (v.inode ino).blockRefs L.blockSize v.data, L.Data b) {failed : Drv (α × Trace)} {plainFailed : Drv α}
    (htail : ∀ r t, run (step L) (tail (v.inode ino) (r, t)) v =
      (((run (step L) (plainTail (v.inode ino) r) v).1, t), (run (step L) (plainTail (v.inode ino) r) v).2)) :
    Stays L v (Drv.readInode ino >>= fun o => match o with
        | none => failed
        | some dir => scanDir L.fs dir body (dir.nblocks L.fs) 0 .start >>= tail dir)
      (Drv.readInode ino >>= fun o => match o with
        | none => plainFailed
        | some dir => Ext2.scanDir L.fs dir plainBlock (dir.nblocks L.fs) 0 >>= plainTail dir)
      (∀ x ∈ reachedIn L.blockSize stops (dirBufs L v ino), fits x.1 x.2) := by
  obtain ⟨r, t, hr, hr', hw⟩ := run_scanDir hs hmap ((v.inode ino).nblocks L.fs) 0 _ _ (Trace.within_start _)
  refine ⟨t, ?_, hw.congr (by rw [true_and]; rfl)⟩
  rw [run_bind, run_bind, Drv.run_readInode hino]
  rw [run_bind, run_bind, hr, hr']
  exact htail r t

theorem run_freshDirBlock (hbs : 1024 ≤ bs) (hn : name ≠ []) (hlen : name.length ≤ 255) (i : Nat) (ft : UInt8) :
    run touch (freshDirBlock bs name i ft) ⟨zeros, bs⟩ = ((), ⟨Ext2.freshDirBlock bs name i ft, bs⟩) := by
  rw [freshDirBlock, run_bind, run_store32, run_bind, run_store16, run_storeEntry _ _ _ _ hn, Ext2.freshDirBlock, putEntry,
    put32_put16_comm zeros _ _ (by omega)]
  simp only [Prod.mk.injEq, Marked.mk.injEq, true_and]
  omega

theorem growDir_stays {s : Store} {dir : Inode} {t : Trace} {P : Prop} {ft : UInt8} {now : UInt32} (hbs : 1024 ≤ L.blockSize)
    (hn : name ≠ []) (hlen : name.length ≤ 255) (ht : t.Within L.blockSize P) :
    ∃ t', run (step L) (growDir L.fs ino dir name n ft now t) s =
        (((run (step L) (Ext2.growDir L.fs ino dir name n ft now) s).1, t'),
          (run (step L) (Ext2.growDir L.fs ino dir name n ft now) s).2) ∧ t'.Within L.blockSize P := by
  have hfull : (t.also ⟨L.blockSize, true⟩).Within L.blockSize P :=
    (ht.also ⟨rfl, iff_of_true (le_refl _) trivial⟩).congr (iff_of_eq (and_true P))
  unfold growDir Ext2.growDir
  rw [run_bind, run_bind]
  generalize run (step L) Drv.allocBlock s = r
  obtain ⟨_ | newBlk, s₁⟩ := r
  · exact ⟨t, rfl, ht⟩
  dsimp only
  rw [run_bind, run_bind]
  generalize run (step L) (inodeAddBlock L.fs dir (dir.nblocks L.fs) newBlk) s₁ = r
  obtain ⟨⟨ok, dir'⟩, s₂⟩ := r
  cases ok with
  | false => exact ⟨t, rfl, ht⟩
  | true =>
    dsimp only
    rw [run_freshDirBlock hbs hn hlen, if_neg (by decide), if_neg (by decide), run_bind, run_bind]
    generalize run (step L) (Drv.writeBlock newBlk _) s₂ = r
    obtain ⟨ok, s₃⟩ := r
    cases ok with
    | false => exact ⟨_, rfl, hfull⟩
    | true => exact ⟨_, rfl, hfull⟩

variable (hbs : 1024 ≤ L.blockSize) (hino : L.ValidIno ino)
  (hmap : ∀ b ∈ (v.inode ino).blockRefs L.blockSize v.data, L.Data b) (hdir : (v.inode ino).isDir = true)

include hbs hino hmap hdir in
theorem dirInsert_stays (name : Text) (n : Nat) (ft : UInt8) (now : UInt32) :
    Stays L v (dirInsert L.fs ino name n ft now) (Ext2.dirInsert L.fs ino name n ft now)
      (0 < name.length → name.length ≤ 255 → ∀ x ∈ reachedIn L.blockSize (fun b off => (entryPlace name b off).isSome) (dirBufs L v ino),
        EntryWithin L.blockSize name x.1 x.2) := by
  unfold Stays dirInsert Ext2.dirInsert
  rw [run_bind, run_bind, Drv.run_readInode hino]
  dsimp only
  have hnot : ¬ true = false := by decide
  rw [hdir, if_neg hnot, if_neg hnot]
  by_cases hlen : name.length = 0 ∨ 255 < name.length
  · rw [if_pos hlen, if_pos hlen]
    exact ⟨_, rfl, (Trace.within_start _).congr (iff_of_true trivial fun h1 h2 => by omega)⟩
  have hn : name ≠ [] := fun h => hlen (.inl (by rw [h]; rfl))
  have hspec := (insertBody_spec L.blockSize n ft hn).edit (by omega)
  obtain ⟨r, t, hr, hr', hw⟩ := run_scanDir hspec hmap ((v.inode ino).nblocks L.fs) 0 _ _ (Trace.within_start _)
  change run (step L) (Ext2.scanDir L.fs (v.inode ino) (fun b => insertBlock L.blockSize b name n ft) _ _) v = _ at hr'
  simp only [isSome_insertBody] at hw
  replace hw : t.Within L.blockSize (0 < name.length → name.length ≤ 255 →
      ∀ x ∈ reachedIn L.blockSize (fun b off => (entryPlace name b off).isSome) (dirBufs L v ino), EntryWithin L.blockSize name x.1 x.2) :=
    hw.congr ⟨fun h _ _ => h.2, fun h => ⟨trivial, h (by omega) (by omega)⟩⟩
  rw [if_neg hlen, if_neg hlen, run_bind, run_bind, hr, hr']
  cases r with
  | ioError => exact ⟨t, rfl, hw⟩
  | missing => exact growDir_stays hbs hn (by omega) hw
  | found blkNo buf => exact ⟨t, by rw [run_bind]; rfl, hw⟩

/-! ## Functions that go through `ext2_iter_blocks` -/

theorem data_of_visited {i : Inode} (hmap : ∀ b ∈ i.blockRefs bs v.data, L.Data b) (hb : b ∈ i.visits bs v.data n)
    (h0 : b ≠ 0) : L.Data b := by
  rw [visits_eq, mem_map] at hb
  obtain ⟨k, -, rfl⟩ := hb
  exact hmap _ (blockAt_mem_refs h0)

section
variable {C D : Type} {f : Nat → C → Int × C} {P : Nat → C → Prop} {pair : C → Trace → D} {plain : Nat → C → Drv (Int × C)}
  {traced : Nat → D → Drv (Int × D)}

/-- `P` of every block that a callback is called for, and the context it is called with. -/
def AtVisits (f : Nat → C → Int × C) (P : Nat → C → Prop) : List Nat → C → Prop
  | [], _ => True
  | b :: blks, c => P b c ∧ ((f b c).1 = 0 → AtVisits f P blks (f b c).2)

variable (hcall : ∀ b c t, (b ≠ 0 → L.Data b) → ∃ t', run (step L) (traced b (pair c t)) v = (((f b c).1, pair (f b c).2 t'), v) ∧
  run (step L) (plain b c) v = (f b c, v) ∧ t.Goes t' L.blockSize (P b c))
include hcall

/-- A callback of the iterator with its trace, folded over the visited blocks. -/
theorem foldVisits_traced (blks : List Nat) (c : C) (t : Trace) (hdata : ∀ b ∈ blks, b ≠ 0 → L.Data b) :
    ∃ t', foldVisits (fun b d => (run (step L) (traced b d) v).1) blks (pair c t) =
        ((foldVisits f blks c).1, pair (foldVisits f blks c).2 t') ∧ t.Goes t' L.blockSize (AtVisits f P blks c) := by
  induction blks generalizing c t with
  | nil => exact ⟨t, rfl, .refl t _⟩
  | cons b blks ih =>
    obtain ⟨t₁, h1, -, hw⟩ := hcall b c t (hdata b mem_cons_self)
    rw [AtVisits]
    by_cases hz : (f b c).1 = 0
    · rw [foldVisits_go (by rw [h1]; exact hz), foldVisits_go hz, h1]
      obtain ⟨t₂, h2, hw₂⟩ := ih (f b c).2 t₁ fun b' hb' => hdata b' (mem_cons_of_mem b hb')
      exact ⟨t₂, h2, (hw.trans hw₂).congr (by simp [hz])⟩
    · rw [foldVisits_stop (by rw [h1]; exact hz), foldVisits_stop hz, h1]
      exact ⟨t₁, rfl, hw.congr (by simp [hz])⟩

variable (pair)
include hbs hino hmap hdir

/-- A function that reads the inode of a directory and iterates over its blocks. -/
theorem stays_iter {tail : Int × D → Drv (α × Trace)} {plainTail : Int × C → Drv α} {failed failed' : Drv (α × Trace)}
    {plainFailed plainFailed' : Drv α} (hpair : ∀ d, ∃ c t, pair c t = d) (c : C)
    (htail : ∀ r c t, run (step L) (tail (r, pair c t)) v =
      (((run (step L) (plainTail (r, c)) v).1, t), (run (step L) (plainTail (r, c)) v).2)) :
    Stays L v (Drv.readInode ino >>= fun o => match o with
        | none => failed
        | some dir => if dir.isDir = false then failed' else iterBlocks L.fs dir dir.iSize.toNat traced (pair c .start) >>= tail)
      (Drv.readInode ino >>= fun o => match o with
        | none => plainFailed
        | some dir => if dir.isDir = false then plainFailed' else iterBlocks L.fs dir dir.iSize.toNat plain c >>= plainTail)
      (AtVisits f P ((v.inode ino).visits L.blockSize v.data (v.inode ino).iSize.toNat) c) := by
  have hvis := fun b (hb : b ∈ (v.inode ino).visits L.blockSize v.data (v.inode ino).iSize.toNat) => data_of_visited hmap hb
  have hind : (v.inode ino).blkNo 12 ≠ 0 → L.Data ((v.inode ino).blkNo 12) := fun h0 => hmap _ (indirect_mem_refs h0)
  obtain ⟨t, heq, hw⟩ := foldVisits_traced hcall _ c .start hvis
  have hplain := run_iterBlocks plain (by omega) (v.inode ino) (v.inode ino).iSize.toNat c hind
    fun b hb c => (hcall b c .start (hvis b hb)).choose_spec.2.1
  have htraced := run_iterBlocks (f := fun b d => (run (step L) (traced b d) v).1) traced (by omega) (v.inode ino)
    (v.inode ino).iSize.toNat (pair c .start) hind fun b hb d => by
      obtain ⟨c, t, rfl⟩ := hpair d
      obtain ⟨t', h1, -⟩ := hcall b c t (hvis b hb)
      exact Prod.ext rfl (by rw [h1])
  refine ⟨t, ?_, (hw.within (Trace.within_start _)).congr (iff_of_eq (true_and _))⟩
  have hnot : ¬ true = false := by decide
  rw [run_bind, run_bind, Drv.run_readInode hino]
  dsimp only
  rw [hdir, if_neg hnot, if_neg hnot, run_bind, run_bind, hplain, htraced, heq]
  exact htail ..

end

theorem run_lookupInBlock (hs : BlockSpec L.blockSize (askBlock L.blockSize (lookupBody name))
      (fun buf => lookupBlock L.blockSize buf name) stops fits) (b found : Nat) (t : Trace) (hb : b ≠ 0 → L.Data b) :
    ∃ t', run (step L) (lookupInBlock L.fs name b (found, t)) v =
        (((Ext2.lookupStep L.blockSize v.data name b found).1, (Ext2.lookupStep L.blockSize v.data name b found).2, t'), v) ∧
      run (step L) (Ext2.lookupInBlock L.fs name b found) v = (Ext2.lookupStep L.blockSize v.data name b found, v) ∧
      t.Goes t' L.blockSize (b ≠ 0 → ∀ r ∈ reached L.blockSize (v.data b) (stops (v.data b)) L.blockSize 0, fits (v.data b) r) := by
  rw [Ext2.run_lookupInBlock hb, lookupInBlock, lookupStep]
  by_cases h0 : b = 0
  · rw [if_pos h0, if_pos h0]
    exact ⟨t, rfl, rfl, (Trace.Goes.refl t _).congr (by simp [h0])⟩
  rw [if_neg h0, if_neg h0, run_bind, Drv.run_readBlock h0 (hb h0)]
  dsimp only
  rw [hs.answer]
  refine ⟨_, ?_, rfl, (hs.within (v.data b)).goes.congr (by simp [h0])⟩
  cases lookupBlock L.blockSize (v.data b) name <;> rfl

theorem atVisits_lookup (hs : BlockSpec bs (askBlock bs (lookupBody name)) (fun buf => lookupBlock bs buf name) stops fits)
    (blks : List Nat) (found : Nat) : AtVisits (Ext2.lookupStep bs v.data name)
      (fun b _ => b ≠ 0 → ∀ r ∈ reached bs (v.data b) (stops (v.data b)) bs 0, fits (v.data b) r) blks found ↔
      ∀ x ∈ reachedIn bs stops (bufsOf v blks), fits x.1 x.2 := by
  induction blks generalizing found with
  | nil => simp [AtVisits, bufsOf, reachedIn]
  | cons b blks ih =>
    rw [AtVisits, ih]
    by_cases h0 : b = 0
    · subst h0
      rw [bufsOf_hole]
      simp [lookupStep]
    rw [bufsOf_cons v h0, forall_reachedIn_cons, ← hs.found, lookupStep, if_neg h0]
    refine and_congr (by simp [h0]) (imp_congr_left ?_)
    cases lookupBlock bs (v.data b) name <;> simp

include hbs hino hmap hdir in
theorem dirLookup_stays (name : Text) :
    Stays L v (dirLookup L.fs ino name) (Ext2.dirLookup L.fs ino name)
      (∀ x ∈ reachedIn L.blockSize (fun b off => (Ext2.lookupBody b name none off).isSome) (iterBufs L v ino),
        NameWithin L.blockSize name x.1 x.2) := by
  have hs := (lookupBody_spec L.blockSize name).ask (by omega)
  refine (stays_iter hbs hino hmap hdir Prod.mk (run_lookupInBlock hs) (fun d => ⟨d.1, d.2, rfl⟩) 0 fun r c t => ?_).congr (atVisits_lookup hs _ 0)
  dsimp only
  split <;> rfl

/-! ## Enumeration -/

section
variable (cb : VfsDirent → S → Bool × S)

/-- What the callback does at the record at `off`. -/
def visit (L : Layout) (v : Store) (cb : VfsDirent → S → Bool × S) (b : Buf) (off : Nat) (s : S) : Bool × S :=
  match (recAt b off).dent with
  | some d => if d.name ≠ [] then cb (reportOf L v d) s else (false, s)
  | none => (false, s)

/-- The records `readdir_block` reaches before the callback stops it, whether it does, and the callback's state. -/
def readdirReached (L : Layout) (v : Store) (cb : VfsDirent → S → Bool × S) (b : Buf) : Nat → Nat → S → List Nat × Bool × S
  | 0, _, s => ([], false, s)
  | fuel + 1, off, s =>
    if L.blockSize < off + 8 ∨ deRecLen b off = 0 then ([], false, s)
    else if (visit L v cb b off s).1 then ([off], true, (visit L v cb b off s).2)
    else
      let r := readdirReached L v cb b fuel (off + deRecLen b off) (visit L v cb b off s).2
      (off :: r.1, r.2)

/-- The records an enumeration of the blocks `bufs` reaches. -/
def readdirReachedIn (L : Layout) (v : Store) (cb : VfsDirent → S → Bool × S) : List Buf → S → List (Buf × Nat)
  | [], _ => []
  | b :: bufs, s =>
    let r := readdirReached L v cb b L.blockSize 0 s
    r.1.map (fun off => (b, off)) ++ if r.2.1 then [] else readdirReachedIn L v cb bufs r.2.2

theorem run_readdirBody (b : Buf) (mark : Nat) {bs : Nat} (hoff : off + 8 ≤ bs) (hz : deRecLen b off ≠ 0) :
    ∃ mark', run touch (readdirBody off) ⟨b, mark⟩ = ((deRecLen b off, if deInode b off ≠ 0 ∧ 0 < deNameLen b off then
          some (slice b (off + 8) (min (deNameLen b off) (PUREUNIX_MAX_NAME - 1)), deFileType b off, deInode b off) else none), ⟨b, mark'⟩) ∧
      (mark' ≤ bs ↔ mark ≤ bs ∧ ReportWithin bs b off) := by
  unfold readdirBody ReportWithin
  rw [run_recLen, if_neg hz, run_inode]
  by_cases h0 : deInode b off = 0
  · rw [if_neg (not_not.2 h0), if_neg fun h => h.1 h0]
    refine ⟨_, rfl, ?_⟩
    simp only [h0, ne_eq, not_true_eq_false, false_imp_iff, and_true]
    omega
  rw [if_pos h0, run_nameLen, ← deNameLen]
  by_cases hn : 0 < deNameLen b off
  · rw [if_pos hn, if_pos ⟨h0, hn⟩, run_bind, run_memcpyFrom _ _ _ (by rw [PUREUNIX_MAX_NAME]; omega)]
    refine ⟨_, rfl, ?_⟩
    dsimp only [Marked.upTo]
    constructor
    · exact fun h => ⟨by omega, fun _ _ => by omega⟩
    · intro h
      have := h.2 h0 hn
      omega
  · rw [if_neg hn, if_neg fun h => hn h.2]
    refine ⟨_, rfl, ?_⟩
    simp only [hn, false_imp_iff, implies_true, and_true]
    omega

theorem visit_report {b : Buf} (h : deInode b off ≠ 0 ∧ 0 < deNameLen b off) (s : S) :
    ∃ d, (recAt b off).dent = some d ∧ visit L v cb b off s = cb (reportOf L v d) s := by
  have hd : (recAt b off).dent = some ⟨slice b (off + 8) (deNameLen b off), deInode b off, deFileType b off⟩ := by rw [recAt, if_neg h.1]
  refine ⟨_, hd, ?_⟩
  unfold visit
  rw [hd]
  refine if_pos fun hnil => ?_
  have hlen := congrArg length hnil
  rw [length_slice, length_nil] at hlen
  omega

theorem visit_skip {b : Buf} (h : ¬ (deInode b off ≠ 0 ∧ 0 < deNameLen b off)) (s : S) : visit L v cb b off s = (false, s) := by
  unfold visit recAt
  by_cases h0 : deInode b off = 0
  · rw [if_pos h0]
  have hz : deNameLen b off = 0 := by
    by_contra hne
    exact h ⟨h0, by omega⟩
  rw [if_neg h0, hz]
  rfl

theorem run_readdirWalk (b : Buf) : ∀ (fuel off : Nat) (s : S) (t : Trace), L.blockSize < off + 7 + fuel → 0 < fuel →
    ∃ t', run (step L) (readdirWalk L.fs cb b fuel off s t) v =
        (((readdirReached L v cb b fuel off s).2.1, (readdirReached L v cb b fuel off s).2.2, t'), v) ∧
      run (step L) (Ext2.readdirWalk L.fs cb b fuel off s) v = ((readdirReached L v cb b fuel off s).2, v) ∧
      t.Goes t' L.blockSize (∀ r ∈ (readdirReached L v cb b fuel off s).1, ReportWithin L.blockSize b r) := by
  intro fuel
  induction fuel with
  | zero => exact fun _ _ _ _ h0 => absurd h0 (lt_irrefl 0)
  | succ fuel ih =>
    intro off s t hf _
    rw [readdirWalk, Ext2.readdirWalk, readdirReached]
    by_cases hend : L.blockSize < off + 8
    · rw [if_pos hend, if_pos hend, if_pos (Or.inl hend)]
      exact ⟨t, rfl, rfl, (Trace.Goes.refl t _).congr (by simp)⟩
    by_cases hz : deRecLen b off = 0
    · have hrun : run touch (readdirBody off) ⟨b, t.mark⟩ = ((0, none), ⟨b, max t.mark (off + 6)⟩) := by
        rw [readdirBody, run_recLen, if_pos hz, run_pure]
      rw [if_neg hend, if_neg hend, if_pos hz, if_pos (Or.inr hz), hrun]
      refine ⟨_, rfl, rfl, rfl, ?_⟩
      simp only [not_mem_nil, false_imp_iff, implies_true, and_true]
      omega
    obtain ⟨mark', hrun, hmark⟩ := run_readdirBody b t.mark (Nat.le_of_not_lt hend) hz
    have ht : t.Goes { t with mark := mark' } L.blockSize (ReportWithin L.blockSize b off) := ⟨rfl, hmark⟩
    rw [if_neg hend, if_neg hend, if_neg hz, if_neg (not_or.2 ⟨hend, hz⟩), hrun]
    rw [if_neg hz]
    by_cases hrep : deInode b off ≠ 0 ∧ 0 < deNameLen b off
    · rw [if_pos hrep, if_pos hrep]
      obtain ⟨d, hd, hvisit⟩ := visit_report cb hrep s
      have hfill := run_fillDirent (v := v) (L := L) hd
      change ∃ t', run (step L) (Prog.bind (Ext2.fillDirent b off) _) v = _ ∧ _
      rw [Prog.run_bind', run_bind, hvisit, hfill]
      by_cases hstop : (cb (reportOf L v d) s).1 = true
      · rw [if_pos hstop, if_pos hstop, if_pos hstop]
        exact ⟨_, rfl, rfl, ht.congr (by simp)⟩
      · rw [if_neg hstop, if_neg hstop, if_neg hstop]
        obtain ⟨t', h1, h2, hw⟩ := ih (off + deRecLen b off) (cb (reportOf L v d) s).2 { t with mark := mark' } (by omega) (by omega)
        exact ⟨t', h1, h2, (ht.trans hw).congr (by rw [forall_mem_cons])⟩
    · rw [if_neg hrep, if_neg hrep, visit_skip cb hrep]
      rw [if_neg Bool.false_ne_true]
      obtain ⟨t', h1, h2, hw⟩ := ih (off + deRecLen b off) s { t with mark := mark' } (by omega) (by omega)
      exact ⟨t', h1, h2, (ht.trans hw).congr (by rw [forall_mem_cons])⟩

/-- `readdir_block` as a function of the block number. -/
def readdirStep (L : Layout) (v : Store) (cb : VfsDirent → S → Bool × S) (b : Nat) (ctx : Bool × S) : Int × Bool × S :=
  if b = 0 then (0, ctx)
  else
    let r := (readdirReached L v cb (v.data b) L.blockSize 0 ctx.2).2
    if r.1 then (1, true, r.2) else (0, ctx.1, r.2)

section
include hbs

theorem run_readdirBlock {b : Nat} (hb : b ≠ 0 → L.Data b) (ctx : Bool × S) (t : Trace) :
    ∃ t', run (step L) (readdirBlock L.fs cb b (ctx.1, ctx.2, t)) v =
        (((readdirStep L v cb b ctx).1, (readdirStep L v cb b ctx).2.1, (readdirStep L v cb b ctx).2.2, t'), v) ∧
      run (step L) (Ext2.readdirBlock L.fs cb b ctx) v = (readdirStep L v cb b ctx, v) ∧
      t.Goes t' L.blockSize (b ≠ 0 → ∀ r ∈ (readdirReached L v cb (v.data b) L.blockSize 0 ctx.2).1,
        ReportWithin L.blockSize (v.data b) r) := by
  unfold readdirBlock Ext2.readdirBlock readdirStep
  by_cases h0 : b = 0
  · rw [if_pos h0, if_pos h0, if_pos h0]
    exact ⟨t, rfl, rfl, (Trace.Goes.refl t _).congr (by simp [h0])⟩
  rw [if_neg h0, if_neg h0, if_neg h0, run_bind, run_bind, Drv.run_readBlock h0 (hb h0)]
  dsimp only
  obtain ⟨t', h1, h2, hw⟩ := run_readdirWalk (L := L) cb (v.data b) L.blockSize 0 ctx.2 t (by omega) (by omega)
  rw [run_bind, run_bind, h1, h2]
  refine ⟨t', ?_, ?_, hw.congr (by simp [h0])⟩
  · split <;> rfl
  · split <;> rfl

omit hbs in
theorem atVisits_readdir (blks : List Nat) (ctx : Bool × S) : AtVisits (readdirStep L v cb)
      (fun b ctx => b ≠ 0 → ∀ r ∈ (readdirReached L v cb (v.data b) L.blockSize 0 ctx.2).1, ReportWithin L.blockSize (v.data b) r)
      blks ctx ↔ ∀ x ∈ readdirReachedIn L v cb (bufsOf v blks) ctx.2, ReportWithin L.blockSize x.1 x.2 := by
  induction blks generalizing ctx with
  | nil => simp [AtVisits, bufsOf, readdirReachedIn]
  | cons b blks ih =>
    rw [AtVisits, ih]
    by_cases h0 : b = 0
    · subst h0
      rw [bufsOf_hole]
      simp [readdirStep]
    rw [bufsOf_cons v h0, readdirReachedIn, forall_mem_append, forall_mem_map, readdirStep, if_neg h0]
    refine and_congr (by simp [h0]) ?_
    by_cases hstop : (readdirReached L v cb (v.data b) L.blockSize 0 ctx.2).2.1 = true
    · simp [hstop]
    · simp [hstop]

include hino hmap hdir in
theorem readdirIno_stays (s : S) :
    Stays L v (readdirIno L.fs ino cb s) (Ext2.readdirIno L.fs ino cb s)
      (∀ x ∈ readdirReachedIn L v cb (iterBufs L v ino) s, ReportWithin L.blockSize x.1 x.2) := by
  refine (stays_iter hbs hino hmap hdir (fun (ctx : Bool × S) t => (ctx.1, ctx.2, t))
    (fun _ ctx t hb => run_readdirBlock hbs cb hb ctx t) (fun d => ⟨(d.1, d.2.1), d.2.2, rfl⟩) (false, s) ?_).congr (atVisits_readdir cb _ _)
  exact fun _ _ _ => rfl

end

end

/-- **Directories with arbitrary contents.** All six functions end. What they touch lies inside the block buffers if and only if
the records they reach keep inside their block: the name bytes that lookup and removal compare, the part of a name that is
reported, the "." and ".." that the emptiness test and `ext2_dir_set_parent` look for, and the entry that insertion writes. -/
theorem corrupt_directories_iff (hbs : 1024 ≤ L.blockSize) (hino : L.ValidIno ino)
    (hmap : ∀ b ∈ (v.inode ino).blockRefs L.blockSize v.data, L.Data b) (hdir : (v.inode ino).isDir = true)
    (name : Text) (cb : VfsDirent → S → Bool × S) (s : S) (n newParent : Nat) (ft : UInt8) (now : UInt32) :
    Stays L v (dirLookup L.fs ino name) (Ext2.dirLookup L.fs ino name)
        (∀ x ∈ reachedIn L.blockSize (fun b off => (Ext2.lookupBody b name none off).isSome) (iterBufs L v ino),
          NameWithin L.blockSize name x.1 x.2) ∧
      Stays L v (readdirIno L.fs ino cb s) (Ext2.readdirIno L.fs ino cb s)
        (∀ x ∈ readdirReachedIn L v cb (iterBufs L v ino) s, ReportWithin L.blockSize x.1 x.2) ∧
      Stays L v (dirInsert L.fs ino name n ft now) (Ext2.dirInsert L.fs ino name n ft now) (0 < name.length → name.length ≤ 255 →
          ∀ x ∈ reachedIn L.blockSize (fun b off => (entryPlace name b off).isSome) (dirBufs L v ino),
            EntryWithin L.blockSize name x.1 x.2) ∧
      Stays L v (dirRemove L.fs ino name now) (Ext2.dirRemove L.fs ino name now)
        (∀ x ∈ reachedIn L.blockSize (fun b off => (Ext2.removeBody b name none off).isSome) (dirBufs L v ino),
          NameWithin L.blockSize name x.1 x.2) ∧
      Stays L v (dirIsEmpty L.fs ino) (Ext2.dirIsEmpty L.fs ino)
        (∀ x ∈ reachedIn L.blockSize (fun b off => (Ext2.otherBody b none off).isSome) (dirBufs L v ino),
          NameWithin L.blockSize dotName x.1 x.2 ∧ NameWithin L.blockSize dotdotName x.1 x.2) ∧
      Stays L v (dirSetParent L.fs ino newParent) (Ext2.dirSetParent L.fs ino newParent)
        (∀ x ∈ reachedIn L.blockSize (fun b off => (Ext2.setParentBody b newParent none off).isSome) (dirBufs L v ino),
          NameWithin L.blockSize dotdotName x.1 x.2) :=
  ⟨dirLookup_stays hbs hino hmap hdir name, readdirIno_stays hbs hino hmap hdir cb s, dirInsert_stays hbs hino hmap hdir name n ft now,
    stays_scan ((removeBody_spec L.blockSize name).edit (by omega)) hino hmap fun r t => by cases r <;> first | rfl | exact run_bind ..,
    stays_scan ((otherBody_spec L.blockSize).ask (by omega)) hino hmap fun r t => by cases r <;> rfl,
    stays_scan ((setParentBody_spec L.blockSize newParent).edit (by omega)) hino hmap fun r t => by cases r <;> rfl⟩

/-! ## One directory of one block -/

/-- A root directory of 1024 bytes with the contents `block`. -/
def rootStore (block : Buf) : Store := { oneFileStore 1024 8192 64 with data := fun _ => block }

def rootLayout : Layout := oneGroup 1024 8192 64 16

theorem rootStore_inode (block : Buf) : (rootStore block).inode 2 = Inode.small (EXT2_S_IFDIR ||| 0o755) 2 1024 7 := rfl

theorem rootStore_data (block : Buf) :
    ∀ b ∈ ((rootStore block).inode 2).blockRefs rootLayout.blockSize (rootStore block).data, rootLayout.Data b := by
  intro b hb
  rw [rootStore_inode, (Inode.small_single (by decide)).mem_blockRefs] at hb
  rw [hb.2]
  decide

/-- In the directory of the sample image the name "F" is found without leaving the block. -/
theorem corrupt_directories_none :
    (∀ x ∈ reachedIn 1024 (fun b off => (Ext2.lookupBody b [70] none off).isSome) (iterBufs rootLayout (rootStore (oneFileBlock 1024)) 2),
        NameWithin 1024 [70] x.1 x.2) ∧
      ∃ t : Trace, (Prog.run (Store.step rootLayout) (dirLookup rootLayout.fs 2 [70]) (rootStore (oneFileBlock 1024))).1 = (some 12, t) ∧
        t.ended = true ∧ t.mark ≤ 1024 := by
  have hcond : ∀ x ∈ reachedIn 1024 (fun b off => (Ext2.lookupBody b [70] none off).isSome)
      (iterBufs rootLayout (rootStore (oneFileBlock 1024)) 2), NameWithin 1024 [70] x.1 x.2 := by decide +kernel
  have hfound : (run (step rootLayout) (Ext2.dirLookup rootLayout.fs 2 [70]) (rootStore (oneFileBlock 1024))).1 = some 12 := by
    decide +kernel
  obtain ⟨t, hrun, hended, hmark⟩ := (corrupt_directories_iff (v := rootStore (oneFileBlock 1024)) (by decide) (by decide)
    (rootStore_data _) (by decide) [70] (fun _ (s) => (false, s)) () 12 2 1 0).1
  rw [hfound] at hrun
  exact ⟨hcond, t, by rw [hrun], hended, hmark.2 hcond⟩

/-- Free records of 8 bytes, and a last one that promises 12 bytes behind the last header of the block. -/
def overhangBlock (ino : UInt8) : Buf := fun i =>
  if i = 1016 then ino else if i = 1020 then 12 else if i = 1022 then 1 else if i % 8 = 4 then 8 else 0

/-- Looking up "a" reads the byte behind the block, and inserting "a" writes it. -/
theorem corrupt_directories_overrun :
    rootLayout.ValidIno 2 ∧ ((rootStore (overhangBlock 5)).inode 2).isDir = true ∧ ((rootStore (overhangBlock 0)).inode 2).isDir = true ∧
      (∀ ino, ∀ b ∈ ((rootStore (overhangBlock ino)).inode 2).blockRefs rootLayout.blockSize (rootStore (overhangBlock ino)).data,
        rootLayout.Data b) ∧
      (Prog.run (Store.step rootLayout) (dirLookup rootLayout.fs 2 [97]) (rootStore (overhangBlock 5))).1.2 = ⟨1025, true⟩ ∧
      (Prog.run (Store.step rootLayout) (dirInsert rootLayout.fs 2 [97] 12 1 0) (rootStore (overhangBlock 0))).1.2 = ⟨1025, true⟩ := by
  refine ⟨by decide, by decide, by decide, fun _ => rootStore_data _, by decide +kernel, by decide +kernel⟩

end PureUnix.Ext2.Traced
