import PureUnix.Fat16.Layout

/-!
# The volume behind the sectors

What the driver does to the disk: it reads and writes cells of the FAT, directory records and data sectors.
`Fat` is that interface. It has two machines:

* `Fat.lower` does each access by sector reads and writes, as `fat_read`, `fat_write`, `read_dir_entry_at` and
  the rest of fat16.c do. `fat_write` goes through every copy of the FAT.
* `Vol.step` runs it on a `Vol`, where there is one FAT, a root directory and the clusters' sectors.

`lower_simulates` proves that the first simulates the second on a disk whose copies agree. An access outside the
FAT, the root directory or the data clusters is beyond what a `Vol` can describe; it raises `wild`. Every sector
access succeeds.
-/
namespace PureUnix.Fat16

open Lib Nat Function

/-! ## Sectors -/

inductive DevCmd where
  | read (lba : Nat)
  | write (lba : Nat) (data : Buf)

def DevCmd.Resp : DevCmd → Type
  | .read _ => Buf
  | .write _ _ => Unit

def Dev : Sig := ⟨DevCmd, DevCmd.Resp⟩

/-- `disk_read` (fat16.c:103). -/
def Dev.read (lba : Nat) : Prog Dev Buf := Prog.perform (σ := Dev) (.read lba)

/-- `disk_write` (fat16.c:108). -/
def Dev.write (lba : Nat) (data : Buf) : Prog Dev Unit := Prog.perform (σ := Dev) (.write lba data)

/-- The bytes of every sector. -/
abbrev Disk := Nat → Buf

def Dev.step : Handler Dev Disk
  | .read lba, d => (trunc 512 (d lba), d)
  | .write lba data, d => ((), update d lba (trunc 512 data))

/-! ## Accesses of the driver -/

/-- A directory record: in the root directory, or in a cluster. -/
inductive Place
  | root (index : Nat)
  | data (cluster index : Nat)
  deriving DecidableEq, Repr

/-- Sector and offset of a record. -/
def Place.lba (fs : Fs) : Place → Nat
  | .root i => fs.rootDirSector + i / 16
  | .data c k => (fs.clusterToLba c + k * 32 / 512) % 2 ^ 32

def Place.off : Place → Nat
  | .root i => i % 16 * 32
  | .data _ k => k * 32 % 512

inductive FatCmd where
  | fatRead (cluster : Nat)
  | fatWrite (cluster value : Nat)
  | readSlot (p : Place)
  | writeSlot (p : Place) (e : Entry)
  | readSector (cluster s : Nat)
  | writeSector (cluster s : Nat) (data : Buf)

def FatCmd.Resp : FatCmd → Type
  | .fatRead _ => Nat
  | .fatWrite _ _ => Unit
  | .readSlot _ => Entry
  | .writeSlot _ _ => Unit
  | .readSector _ _ => Buf
  | .writeSector _ _ _ => Unit

def Fat : Sig := ⟨FatCmd, FatCmd.Resp⟩

abbrev Drv := Prog Fat

namespace Drv

def fatRead (c : Nat) : Drv Nat := Prog.perform (σ := Fat) (.fatRead c)
def fatWrite (c v : Nat) : Drv Unit := Prog.perform (σ := Fat) (.fatWrite c v)
def readSlot (p : Place) : Drv Entry := Prog.perform (σ := Fat) (.readSlot p)
def writeSlot (p : Place) (e : Entry) : Drv Unit := Prog.perform (σ := Fat) (.writeSlot p e)
def readSector (c s : Nat) : Drv Buf := Prog.perform (σ := Fat) (.readSector c s)
def writeSector (c s : Nat) (data : Buf) : Drv Unit := Prog.perform (σ := Fat) (.writeSector c s data)

end Drv

/-- `fat_read` (fat16.c:113). -/
def fatRead (fs : Fs) (cluster : Nat) : Prog Dev Nat := do
  let sector ← Dev.read (fs.firstFatSector + cluster * 2 / 512)
  pure (get16 sector (cluster * 2 % 512))

/-- The loop of `fat_write`, from copy `fat` on, `n` copies to go. -/
def fatWriteFrom (fs : Fs) (cluster value : Nat) : Nat → Nat → Prog Dev Unit
  | 0, _ => pure ()
  | n + 1, fat => do
    let sectorLba := fs.firstFatSector + fat * fs.sectorsPerFat + cluster * 2 / 512
    let sector ← Dev.read sectorLba
    Dev.write sectorLba (put16 sector (cluster * 2 % 512) value)
    fatWriteFrom fs cluster value n (fat + 1)

/-- `fat_write` (fat16.c:126). -/
def fatWrite (fs : Fs) (cluster value : Nat) : Prog Dev Unit := fatWriteFrom fs cluster value fs.fatCount 0

/-- Each access by sectors. -/
def Fat.lower (fs : Fs) : (c : Fat.Cmd) → Prog Dev (Fat.Resp c)
  | .fatRead c => Fat16.fatRead fs c
  | .fatWrite c v => Fat16.fatWrite fs c v
  | .readSlot p => do
    let sector ← Dev.read (p.lba fs)
    pure (trunc 32 fun i => sector (p.off + i))
  | .writeSlot p e => do
    let sector ← Dev.read (p.lba fs)
    Dev.write (p.lba fs) (copy sector p.off e 32)
  | .readSector c s => Dev.read ((fs.clusterToLba c + s) % 2 ^ 32)
  | .writeSector c s data => Dev.write ((fs.clusterToLba c + s) % 2 ^ 32) data

/-! ## Volumes -/

/-- The FAT, the sectors of the root directory and those of every cluster. -/
@[ext] structure Vol where
  fat : Nat → Nat
  root : Nat → Buf
  data : Nat → Nat → Buf
  /-- Some access went outside. -/
  wild : Bool

/-- Cells of the FAT; the first two belong to no cluster. -/
def Fs.cells (fs : Fs) : Nat := max 2 fs.maxCluster

theorem Fs.lt_cells {fs : Fs} {c : Nat} (h : c < fs.maxCluster) : c < fs.cells := lt_of_lt_of_le h (le_max_right _ _)

def Fs.Cluster (fs : Fs) (c : Nat) : Prop := 2 ≤ c ∧ c < fs.maxCluster

instance (fs : Fs) (c : Nat) : Decidable (fs.Cluster c) := inferInstanceAs (Decidable (_ ∧ _))

def Place.Valid (fs : Fs) : Place → Prop
  | .root i => i < fs.rootEntryCount
  | .data c k => fs.Cluster c ∧ k < fs.entriesPerCluster

instance (fs : Fs) : (p : Place) → Decidable (p.Valid fs)
  | .root _ => inferInstanceAs (Decidable (_ < _))
  | .data _ _ => inferInstanceAs (Decidable (_ ∧ _))

namespace Vol

def fail (v : Vol) : Vol := { v with wild := true }

def sectorOf (v : Vol) : Place → Buf
  | .root i => v.root (i / 16)
  | .data c k => v.data c (k / 16)

def slot (v : Vol) (p : Place) : Entry := trunc 32 fun i => v.sectorOf p (p.off + i)

def setFat (v : Vol) (c value : Nat) : Vol := { v with fat := update v.fat c (value % 65536) }

def setSector (v : Vol) (c s : Nat) (data : Buf) : Vol :=
  { v with data := update v.data c (update (v.data c) s (trunc 512 data)) }

def setSlot (v : Vol) (p : Place) (e : Entry) : Vol :=
  match p with
  | .root i => { v with root := update v.root (i / 16) (trunc 512 (copy (v.root (i / 16)) p.off e 32)) }
  | .data c k => v.setSector c (k / 16) (copy (v.data c (k / 16)) p.off e 32)

def step (fs : Fs) : Handler Fat Vol
  | .fatRead c, v => if c < fs.cells then (v.fat c, v) else ((0 : Nat), v.fail)
  | .fatWrite c value, v => ((), if c < fs.cells then v.setFat c value else v.fail)
  | .readSlot p, v => if p.Valid fs then (v.slot p, v) else (zeros, v.fail)
  | .writeSlot p e, v => ((), if p.Valid fs then v.setSlot p e else v.fail)
  | .readSector c s, v => if fs.Cluster c ∧ s < fs.sectorsPerCluster then (v.data c s, v) else (zeros, v.fail)
  | .writeSector c s data, v =>
    ((), if fs.Cluster c ∧ s < fs.sectorsPerCluster then v.setSector c s data else v.fail)

end Vol

/-! ## Decoding a disk -/

def Fs.rootSectors (fs : Fs) : Nat := (fs.rootEntryCount * 32 + 511) / 512

/-- A geometry: the FAT copies, the root directory and the clusters follow each other, every cluster has a cell,
and sector numbers do not wrap. -/
structure Fs.Ok (fs : Fs) : Prop where
  mounted : fs.mounted = true
  spc : 1 ≤ fs.sectorsPerCluster
  copies : 1 ≤ fs.fatCount
  max_le : fs.maxCluster ≤ 0xFFF7
  fat_pos : 1 ≤ fs.sectorsPerFat
  inside : 2 * fs.maxCluster ≤ 512 * fs.sectorsPerFat
  rootDir : fs.rootDirSector = fs.firstFatSector + fs.fatCount * fs.sectorsPerFat
  firstData : fs.firstDataSector = fs.rootDirSector + fs.rootSectors
  sectors : fs.firstDataSector + (fs.maxCluster - 2) * fs.sectorsPerCluster ≤ 2 ^ 32

/-- Cell `c` in copy `j` of the FAT. -/
def Disk.cell (fs : Fs) (d : Disk) (j c : Nat) : Nat :=
  get16 (d (fs.firstFatSector + j * fs.sectorsPerFat + c * 2 / 512)) (c * 2 % 512)

def Disk.Mirrored (fs : Fs) (d : Disk) : Prop :=
  ∀ j, j < fs.fatCount → ∀ c, c < fs.cells → d.cell fs j c = d.cell fs 0 c

def Disk.vol (fs : Fs) (d : Disk) : Vol where
  fat := fun c => if c < fs.cells then d.cell fs 0 c else 0
  root := fun s => if s < fs.rootSectors then trunc 512 (d (fs.rootDirSector + s)) else zeros
  data := fun c s => if fs.Cluster c ∧ s < fs.sectorsPerCluster then trunc 512 (d (fs.clusterToLba c + s)) else zeros
  wild := false

/-! ## Sectors of the three regions -/

section
variable {fs : Fs} {d : Disk} {c s j : Nat}

theorem Fs.clusterToLba_eq (h : fs.Ok) (hc : fs.Cluster c) :
    fs.clusterToLba c = fs.firstDataSector + (c - 2) * fs.sectorsPerCluster ∧
    ∀ s, s < fs.sectorsPerCluster → fs.clusterToLba c + s < 2 ^ 32 := by
  have hmax := h.max_le
  have hsec := h.sectors
  have h1 := hc.1
  have h2 := hc.2
  have hwrap : (c + 2 ^ 32 - 2) % 2 ^ 32 = c - 2 := by omega
  have hle := mul_step (show c - 2 < fs.maxCluster - 2 by omega) fs.sectorsPerCluster
  have hspc := h.spc
  unfold Fs.clusterToLba
  rw [hwrap, mod_eq_of_lt (by omega)]
  exact ⟨rfl, fun s hs => by omega⟩

theorem Fs.Ok.cell_sector (h : fs.Ok) (hc : c < fs.cells) : c * 2 / 512 < fs.sectorsPerFat := by
  have := h.inside
  have := h.fat_pos
  unfold Fs.cells at hc
  omega

theorem Fs.Ok.fat_lt (h : fs.Ok) {t : Nat} (hj : j < fs.fatCount) (ht : t < fs.sectorsPerFat) :
    fs.firstFatSector + j * fs.sectorsPerFat + t < fs.rootDirSector := by
  have hle := mul_step hj fs.sectorsPerFat
  rw [h.rootDir]
  omega

theorem Fs.Ok.fat_sep {j' t t' : Nat} (ht : t < fs.sectorsPerFat) (ht' : t' < fs.sectorsPerFat)
    (he : fs.firstFatSector + j * fs.sectorsPerFat + t = fs.firstFatSector + j' * fs.sectorsPerFat + t') : j = j' ∧ t = t' := by
  have heq : j * fs.sectorsPerFat + t = j' * fs.sectorsPerFat + t' := by omega
  have hj : j = j' := by
    have := congrArg (· / fs.sectorsPerFat) heq
    simp only [add_comm _ t, add_comm _ t', add_mul_div_right _ _ (zero_lt_of_lt ht), div_eq_of_lt ht,
      div_eq_of_lt ht'] at this
    omega
  subst hj
  exact ⟨rfl, by omega⟩

theorem Fs.Ok.root_lt (h : fs.Ok) (hs : s < fs.rootSectors) :
    fs.rootDirSector ≤ fs.rootDirSector + s ∧ fs.rootDirSector + s < fs.firstDataSector := by
  rw [h.firstData]
  omega

theorem Fs.Ok.data_ge (h : fs.Ok) (hc : fs.Cluster c) : fs.firstDataSector ≤ fs.clusterToLba c + s := by
  rw [(Fs.clusterToLba_eq h hc).1]
  omega

theorem Fs.Ok.data_sep (h : fs.Ok) {c' s' : Nat} (hc : fs.Cluster c) (hc' : fs.Cluster c') (hs : s < fs.sectorsPerCluster)
    (hs' : s' < fs.sectorsPerCluster) (he : fs.clusterToLba c + s = fs.clusterToLba c' + s') : c = c' ∧ s = s' := by
  rw [(Fs.clusterToLba_eq h hc).1, (Fs.clusterToLba_eq h hc').1] at he
  have heq : (c - 2) * fs.sectorsPerCluster + s = (c' - 2) * fs.sectorsPerCluster + s' := by omega
  have hcc : c - 2 = c' - 2 := by
    have := congrArg (· / fs.sectorsPerCluster) heq
    simp only [add_comm _ s, add_comm _ s', add_mul_div_right _ _ h.spc, div_eq_of_lt hs,
      div_eq_of_lt hs'] at this
    omega
  rw [hcc] at heq
  have h1 := hc.1
  have h1' := hc'.1
  exact ⟨by omega, by omega⟩

/-! ## Writing one sector -/

theorem Disk.cell_update_ne (h : fs.Ok) {lba : Nat} (hl : fs.rootDirSector ≤ lba) (b : Buf) (hj : j < fs.fatCount)
    (hc : c < fs.cells) : Disk.cell fs (update d lba b) j c = d.cell fs j c := by
  unfold Disk.cell
  rw [update_of_ne]
  have := h.fat_lt hj (h.cell_sector hc)
  omega

theorem Disk.Mirrored.update (h : fs.Ok) (hm : d.Mirrored fs) {lba : Nat} (hl : fs.rootDirSector ≤ lba) (b : Buf) :
    Disk.Mirrored fs (update d lba b) := by
  intro j hj c hc
  rw [Disk.cell_update_ne h hl b hj hc, Disk.cell_update_ne h hl b h.copies hc]
  exact hm j hj c hc

theorem Disk.vol_root (h : fs.Ok) (hs : s < fs.rootSectors) (b : Buf) :
    Disk.vol fs (update d (fs.rootDirSector + s) (trunc 512 b)) =
      { d.vol fs with root := update (d.vol fs).root s (trunc 512 b) } := by
  have hlt := h.root_lt hs
  ext c i
  · simp only [Disk.vol]
    split
    · exact Disk.cell_update_ne h hlt.1 _ h.copies ‹_›
    · rfl
  · simp only [Disk.vol]
    by_cases he : c = s
    · subst he
      rw [if_pos hs, update_self, update_self, trunc_trunc]
    · rw [update_of_ne (show fs.rootDirSector + c ≠ fs.rootDirSector + s by omega), update_of_ne he]
  · simp only [Disk.vol]
    split
    · rename_i hc
      rw [update_of_ne]
      have := h.data_ge (s := i) hc.1
      omega
    · rfl
  · rfl

theorem Disk.vol_data (h : fs.Ok) (hc : fs.Cluster c) (hs : s < fs.sectorsPerCluster) (b : Buf) :
    Disk.vol fs (update d (fs.clusterToLba c + s) (trunc 512 b)) = (d.vol fs).setSector c s b := by
  have hge := h.data_ge (s := s) hc
  have hroot : fs.rootDirSector ≤ fs.clusterToLba c + s := by
    have := h.firstData
    omega
  ext c' i
  · simp only [Disk.vol, Vol.setSector]
    split
    · exact Disk.cell_update_ne h hroot _ h.copies ‹_›
    · rfl
  · simp only [Disk.vol, Vol.setSector]
    split
    · rename_i hs'
      have := (h.root_lt hs').2
      rw [update_of_ne (by omega)]
    · rfl
  · simp only [Disk.vol, Vol.setSector]
    by_cases he : c' = c ∧ i = s
    · obtain ⟨rfl, rfl⟩ := he
      rw [if_pos ⟨hc, hs⟩, update_self, update_self, update_self, trunc_trunc]
    by_cases hcs : fs.Cluster c' ∧ i < fs.sectorsPerCluster
    · rw [update_of_ne fun hl => he (h.data_sep hcs.1 hc hcs.2 hs hl)]
      by_cases hcc : c' = c
      · subst hcc
        rw [update_self, update_of_ne fun hi => he ⟨rfl, hi⟩, if_pos hcs]
      · rw [update_of_ne hcc, if_pos hcs]
    · rw [if_neg hcs]
      by_cases hcc : c' = c
      · subst hcc
        have hi : i ≠ s := fun hi => hcs ⟨hc, hi ▸ hs⟩
        rw [update_self, update_of_ne hi, if_neg hcs]
      · rw [update_of_ne hcc, if_neg hcs]
  · rfl

/-! ## `fat_write` -/

/-- The loop over the copies: the cell is set in each copy from `j` on, every other cell and sector stays. -/
theorem run_fatWriteFrom (h : fs.Ok) (hc : c < fs.cells) (value : Nat) : ∀ (n j : Nat) (d : Disk), j + n = fs.fatCount →
    ∃ d', run Dev.step (fatWriteFrom fs c value n j) d = ((), d') ∧ (∀ lba, fs.rootDirSector ≤ lba → d' lba = d lba) ∧
      ∀ j' c', j' < fs.fatCount → c' < fs.cells → d'.cell fs j' c' = if j ≤ j' ∧ c' = c then value % 65536 else d.cell fs j' c'
  | 0, j, d, hn => ⟨d, rfl, fun _ _ => rfl, fun j' c' hj' _ => by rw [if_neg (by omega)]⟩
  | n + 1, j, d, hn => by
    have hsec := h.cell_sector hc
    let lba := fs.firstFatSector + j * fs.sectorsPerFat + c * 2 / 512
    have hlt : lba < fs.rootDirSector := h.fat_lt (by omega) hsec
    let d₁ : Disk := update d lba (trunc 512 (put16 (trunc 512 (d lba)) (c * 2 % 512) value))
    obtain ⟨d', hrun, hout, hcell⟩ := run_fatWriteFrom h hc value n (j + 1) d₁ (by omega)
    refine ⟨d', hrun, fun l hl => ?_, fun j' c' hj' hc' => ?_⟩
    · rw [hout l hl]
      exact update_of_ne (by omega) ..
    · rw [hcell j' c' hj' hc']
      -- cell `c'` of copy `j'` after the write to copy `j`
      have hone : d₁.cell fs j' c' = if j' = j ∧ c' = c then value % 65536 else d.cell fs j' c' := by
        unfold Disk.cell
        by_cases hl : fs.firstFatSector + j' * fs.sectorsPerFat + c' * 2 / 512 = lba
        · obtain ⟨rfl, ht⟩ := Fs.Ok.fat_sep (h.cell_sector hc') hsec hl
          rw [hl]
          simp only [d₁, update_self, true_and]
          rw [get16_congr ((trunc_same 512 _).mono (zero_le _) (by omega))]
          by_cases he : c' = c
          · subst he
            rw [if_pos rfl, get16_put16]
          · rw [if_neg he, get16_put16_ne (by omega), get16_congr ((trunc_same 512 _).mono (zero_le _) (by omega))]
        · simp only [d₁]
          rw [update_of_ne hl, if_neg]
          rintro ⟨rfl, rfl⟩
          exact hl rfl
      rw [hone]
      by_cases hcc : c' = c
      · by_cases hjj : j' = j
        · rw [if_neg (by omega), if_pos ⟨hjj, hcc⟩, if_pos (by omega)]
        · rw [if_neg (show ¬ (j' = j ∧ c' = c) by omega)]
          by_cases hle : j + 1 ≤ j'
          · rw [if_pos ⟨hle, hcc⟩, if_pos (by omega)]
          · rw [if_neg (by omega), if_neg (by omega)]
      · rw [if_neg (by omega), if_neg (by omega), if_neg (by omega)]

theorem run_fatWrite (h : fs.Ok) (hm : d.Mirrored fs) (hc : c < fs.cells) (value : Nat) :
    ∃ d', run Dev.step (fatWrite fs c value) d = ((), d') ∧ d'.Mirrored fs ∧ d'.vol fs = (d.vol fs).setFat c value := by
  obtain ⟨d', hrun, hout, hcell⟩ := run_fatWriteFrom h hc value fs.fatCount 0 d (by omega)
  refine ⟨d', hrun, fun j hj c' hc' => ?_, ?_⟩
  · rw [hcell j c' hj hc', hcell 0 c' h.copies hc', hm j hj c' hc']
    simp
  · ext c' i
    · simp only [Disk.vol, Vol.setFat]
      by_cases he : c' = c
      · subst he
        rw [if_pos hc, hcell 0 c' h.copies hc, if_pos ⟨le_refl _, rfl⟩, update_self]
      rw [update_of_ne he]
      split
      · rw [hcell 0 c' h.copies ‹_›, if_neg fun hc => he hc.2]
      · rfl
    · simp only [Disk.vol, Vol.setFat]
      split
      · rw [hout _ (le_add_right _ _)]
      · rfl
    · simp only [Disk.vol, Vol.setFat]
      split
      · rename_i hcs
        have hge := h.data_ge (s := i) hcs.1
        have := h.firstData
        rw [hout _ (by omega)]
      · rfl
    · rfl

/-! ## Directory records -/

theorem Fs.epc_eq (fs : Fs) : fs.entriesPerCluster = 16 * fs.sectorsPerCluster := by
  unfold Fs.entriesPerCluster Fs.clusterSize
  omega

theorem Place.lba_eq (h : fs.Ok) {p : Place} (hp : p.Valid fs) :
    fs.rootDirSector ≤ p.lba fs ∧ trunc 512 (d (p.lba fs)) = (d.vol fs).sectorOf p ∧
    ∀ b, Disk.vol fs (update d (p.lba fs) (trunc 512 b)) = match p with
      | .root i => { d.vol fs with root := update (d.vol fs).root (i / 16) (trunc 512 b) }
      | .data c k => (d.vol fs).setSector c (k / 16) b := by
  cases p with
  | root i =>
    have hi : i / 16 < fs.rootSectors := by
      have : i < fs.rootEntryCount := hp
      unfold Fs.rootSectors
      omega
    refine ⟨le_add_right _ _, ?_, fun b => Disk.vol_root h hi b⟩
    simp only [Vol.sectorOf, Disk.vol, Place.lba]
    rw [if_pos hi]
  | data c k =>
    obtain ⟨hc, hk⟩ := hp
    rw [Fs.epc_eq] at hk
    have hk' : k / 16 < fs.sectorsPerCluster := by omega
    have hlba : Place.lba fs (.data c k) = fs.clusterToLba c + k / 16 := by
      simp only [Place.lba]
      have hdiv : k * 32 / 512 = k / 16 := by omega
      rw [hdiv, mod_eq_of_lt ((Fs.clusterToLba_eq h hc).2 _ hk')]
    rw [hlba]
    refine ⟨?_, ?_, fun b => Disk.vol_data h hc hk' b⟩
    · have := h.data_ge (s := k / 16) hc
      have := h.firstData
      omega
    · simp only [Vol.sectorOf, Disk.vol]
      rw [if_pos ⟨hc, hk'⟩]

def Decodes (fs : Fs) (d : Disk) (v : Vol) : Prop := d.Mirrored fs ∧ v = d.vol fs

/-- **The sector accesses simulate the volume.** -/
theorem lower_simulates (h : fs.Ok) (c : Fat.Cmd) (d : Disk) (v : Vol) (hd : Decodes fs d v)
    (hw : ¬ (Vol.step fs c v).2.wild = true) :
    (run Dev.step (Fat.lower fs c) d).1 = (Vol.step fs c v).1 ∧
    Decodes fs (run Dev.step (Fat.lower fs c) d).2 (Vol.step fs c v).2 := by
  obtain ⟨hm, rfl⟩ := hd
  cases c with
  | fatRead c =>
    simp only [Vol.step] at hw ⊢
    split
    · rename_i hc
      refine ⟨?_, hm, rfl⟩
      have hmod : c * 2 % 512 + 2 ≤ 512 := by omega
      simp only [Fat.lower, Fat16.fatRead, Disk.vol, if_pos hc, Disk.cell, zero_mul, add_zero]
      exact get16_congr ((trunc_same 512 _).mono (zero_le _) hmod)
    · rename_i hc
      rw [if_neg hc] at hw
      exact absurd rfl hw
  | fatWrite c value =>
    simp only [Vol.step] at hw ⊢
    split
    · rename_i hc
      obtain ⟨d', hrun, hm', hv'⟩ := run_fatWrite h hm hc value
      change (run Dev.step (fatWrite fs c value) d).1 = () ∧ Decodes fs (run Dev.step (fatWrite fs c value) d).2 _
      rw [hrun]
      exact ⟨rfl, hm', hv'.symm⟩
    · rename_i hc
      rw [if_neg hc] at hw
      exact absurd rfl hw
  | readSlot p =>
    simp only [Vol.step] at hw ⊢
    split
    · rename_i hp
      refine ⟨?_, hm, rfl⟩
      obtain ⟨-, hsec, -⟩ := Place.lba_eq h hp
      change trunc 32 (fun i => trunc 512 (d (p.lba fs)) (p.off + i)) = _
      rw [hsec]
      rfl
    · rename_i hp
      rw [if_neg hp] at hw
      exact absurd rfl hw
  | writeSlot p e =>
    simp only [Vol.step] at hw ⊢
    split
    · rename_i hp
      obtain ⟨hge, hsec, hupd⟩ := Place.lba_eq h hp
      refine ⟨rfl, ?_⟩
      change Decodes fs (update d (p.lba fs) (trunc 512 (copy (trunc 512 (d (p.lba fs))) p.off e 32))) _
      refine ⟨hm.update h hge _, ?_⟩
      rw [hupd, hsec]
      cases p <;> rfl
    · rename_i hp
      rw [if_neg hp] at hw
      exact absurd rfl hw
  | readSector c s =>
    simp only [Vol.step] at hw ⊢
    split
    · rename_i hc
      refine ⟨?_, hm, rfl⟩
      change trunc 512 (d ((fs.clusterToLba c + s) % 2 ^ 32)) = _
      rw [mod_eq_of_lt ((Fs.clusterToLba_eq h hc.1).2 s hc.2)]
      simp only [Disk.vol, if_pos hc]
    · rename_i hc
      rw [if_neg hc] at hw
      exact absurd rfl hw
  | writeSector c s data =>
    simp only [Vol.step] at hw ⊢
    split
    · rename_i hc
      refine ⟨rfl, ?_⟩
      change Decodes fs (update d ((fs.clusterToLba c + s) % 2 ^ 32) (trunc 512 data)) _
      rw [mod_eq_of_lt ((Fs.clusterToLba_eq h hc.1).2 s hc.2)]
      have hge := h.data_ge (s := s) hc.1
      have hfirst := h.firstData
      exact ⟨hm.update h (by omega) _, (Disk.vol_data h hc.1 hc.2 data).symm⟩
    · rename_i hc
      rw [if_neg hc] at hw
      exact absurd rfl hw

/-- Nothing clears the mark of an access outside. -/
theorem Vol.step_wild {c : Fat.Cmd} {v : Vol} (hv : v.wild = true) : (Vol.step fs c v).2.wild = true := by
  cases c with
  | writeSlot p e =>
    cases p <;> simp only [Vol.step, Vol.setSlot] <;> split <;> first | exact hv | rfl
  | _ =>
    simp only [Vol.step]
    split <;> first | exact hv | rfl

def onDisk {α : Type} (fs : Fs) (p : Drv α) (d : Disk) : α × Disk := Prog.run Dev.step (p.interp (Fat.lower fs)) d

/-- **Every program runs on the disk as on the volume**, as long as the volume's run stays inside. -/
theorem onDisk_simulates (h : fs.Ok) {α : Type} (p : Drv α) {d : Disk} {v : Vol} (hd : Decodes fs d v)
    (hw : (run (Vol.step fs) p v).2.wild = false) :
    (onDisk fs p d).1 = (run (Vol.step fs) p v).1 ∧ Decodes fs (onDisk fs p d).2 (run (Vol.step fs) p v).2 := by
  unfold onDisk
  rw [Prog.run_interp]
  refine Prog.run_sim (Decodes fs) (fun v => v.wild = true) ?_ (fun c d v hdv hnw => lower_simulates h c d v hdv hnw) p d v hd
    (by rw [hw]; decide)
  intro c v hv
  exact Vol.step_wild hv

end
end PureUnix.Fat16
