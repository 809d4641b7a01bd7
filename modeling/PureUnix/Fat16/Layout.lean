import PureUnix.Ext2.Dir

/-!
# FAT16: the mounted volume, directory records and 8.3 names

The fields of `fat16_fs_t` (fs/fat16.c) that the driver uses after `fat16_mount`, the 32-byte record
`fat_dir_entry_t`, and the conversion of names. Sectors have 512 bytes: `fat16_mount` takes no others.
-/
namespace PureUnix.Fat16

open Lib List Nat Bool UInt8

def FAT_ATTR_VOLUME_ID : UInt8 := 0x08
def FAT_ATTR_DIRECTORY : UInt8 := 0x10
def FAT_ATTR_ARCHIVE : UInt8 := 0x20
def FAT_ATTR_LFN : UInt8 := 0x0F
def FAT_EOC : Nat := 0xFFF8

/-- `fat16_fs_t`. -/
structure Fs where
  mounted : Bool
  sectorsPerCluster : Nat
  fatCount : Nat
  rootEntryCount : Nat
  sectorsPerFat : Nat
  firstFatSector : Nat
  rootDirSector : Nat
  firstDataSector : Nat
  maxCluster : Nat
  deriving DecidableEq, Repr

namespace Fs

/-- `cluster_size` (fat16.c:82). -/
def clusterSize (fs : Fs) : Nat := 512 * fs.sectorsPerCluster

/-- `cluster_size() / sizeof(fat_dir_entry_t)`. -/
def entriesPerCluster (fs : Fs) : Nat := fs.clusterSize / 32

/-- `cluster_to_lba` (fat16.c:98), in 32 bits. -/
def clusterToLba (fs : Fs) (cluster : Nat) : Nat :=
  (fs.firstDataSector + (cluster + 2 ^ 32 - 2) % 2 ^ 32 * fs.sectorsPerCluster) % 2 ^ 32

end Fs

/-! ## Directory records -/

/-- The 32 bytes of a `fat_dir_entry_t`. -/
abbrev Entry := Buf

namespace Entry

def name (e : Entry) : Text := slice e 0 11

def attr (e : Entry) : UInt8 := e 11

def size (e : Entry) : Nat := get32 e 28

/-- `entry_first_cluster` (fat16.c:87). -/
def firstCluster (e : Entry) : Nat := get16 e 20 * 65536 + get16 e 26

/-- `entry_set_first_cluster` (fat16.c:92). -/
def setFirstCluster (e : Entry) (cluster : Nat) : Entry := put16 (put16 e 26 (cluster % 65536)) 20 (cluster / 65536)

def setSize (e : Entry) (size : Nat) : Entry := put32 e 28 size

def setAttr (e : Entry) (attr : UInt8) : Entry := put8 e 11 attr

/-- `memcpy(entry.name, fat_name, 11)`. -/
def setName (e : Entry) (name : Text) : Entry := copy e 0 (ofList name) 11

/-- `entry.name[0] = 0xE5`. -/
def erase (e : Entry) : Entry := put8 e 0 0xE5

def isEnd (e : Entry) : Bool := e 0 == 0x00

/-- `entry_is_free` (fat16.c:270). -/
def isFree (e : Entry) : Bool := e 0 == 0x00 || e 0 == 0xE5

/-- `entry_is_visible` (fat16.c:275). -/
def isVisible (e : Entry) : Bool := !e.isFree && e.attr != FAT_ATTR_LFN && e.attr &&& FAT_ATTR_VOLUME_ID == 0

def isDirectory (e : Entry) : Bool := e.attr &&& FAT_ATTR_DIRECTORY != 0

end Entry

/-! ## Names -/

def dot : UInt8 := 46
def space : UInt8 := 32

def toupper (c : UInt8) : UInt8 := if 97 ≤ c ∧ c ≤ 122 then c - 32 else c

def tolower (c : UInt8) : UInt8 := if 65 ≤ c ∧ c ≤ 90 then c + 32 else c

/-- A character `name_to_83` takes. -/
def goodChar (c : UInt8) : Bool := c != Ext2.slash && c != 92 && c != space

def padded (n : Nat) (s : Text) : Text := s.map toupper ++ List.replicate (n - s.length) space

def splitDot (name : Text) : Text × Text :=
  if dot ∈ name then
    let ext := (name.reverse.takeWhile (· ≠ dot)).reverse
    (name.take (name.length - ext.length - 1), ext)
  else (name, [])

/-- `name_to_83` (fat16.c:280); `none` for -1. -/
def nameTo83 (name : Text) : Option Text :=
  if name = [] ∨ name = [dot] ∨ name = [dot, dot] then none
  else
    let (base, ext) := splitDot name
    if base.length = 0 ∨ 8 < base.length ∨ 3 < ext.length then none
    else if (base ++ ext).all goodChar then some (padded 8 base ++ padded 3 ext)
    else none

/-- `name_from_83` (fat16.c:309). -/
def nameFrom83 (e : Entry) : Text :=
  let base := (e.name.take 8).takeWhile (· ≠ space)
  let ext := e.name.drop 8
  base.map tolower ++ if ext.any (· ≠ space) then dot :: (ext.takeWhile (· ≠ space)).map tolower else []

def Entry.isDot (e : Entry) : Bool := nameFrom83 e == [dot] || nameFrom83 e == [dot, dot]

/-- The 11 bytes read as ".", ".." or a deleted record. -/
def reserved (fatName : Text) : Bool := fatName.head? == some 0xE5 || Entry.isDot (ofList fatName)

namespace Entry

/-- A record of a file or a directory, "." and ".." aside. -/
def isLive (e : Entry) : Bool := e.isVisible && !e.isDot

/-- A record of a directory, "." and ".." aside. -/
def isSub (e : Entry) : Bool := e.isLive && e.isDirectory

/-! ## Records that change one field -/

section
variable {e e' : Entry} {fatName : Text} {a : UInt8} {c n : Nat}

theorem name_congr (h : Same 0 11 e e') : e.name = e'.name := slice_congr h

theorem firstCluster_congr (h : Same 20 28 e e') : e.firstCluster = e'.firstCluster := by
  unfold firstCluster
  rw [get16_congr (h.mono (by omega) (by omega)), get16_congr (h.mono (by omega) (by omega))]

theorem attr_congr (h : Same 11 12 e e') : e.attr = e'.attr := h 11 (by omega) (by omega)

theorem name_setName (h : fatName.length = 11) : (e.setName fatName).name = fatName := by
  unfold name setName
  rw [← h]
  exact slice_copy _ _ _

@[simp] theorem name_setAttr : (e.setAttr a).name = e.name := name_congr (put8_same (by omega))

@[simp] theorem name_setSize : (e.setSize n).name = e.name := name_congr (put32_same (by omega))

@[simp] theorem name_setFirstCluster : (e.setFirstCluster c).name = e.name :=
  name_congr ((put16_same (by omega)).trans (put16_same (by omega)))

@[simp] theorem attr_setName : (e.setName fatName).attr = e.attr := attr_congr (copy_same (by omega))

@[simp] theorem attr_setAttr : (e.setAttr a).attr = a := by
  simp only [attr, setAttr, put8, if_true]

@[simp] theorem attr_setFirstCluster : (e.setFirstCluster c).attr = e.attr :=
  attr_congr ((put16_same (by omega)).trans (put16_same (by omega)))

@[simp] theorem firstCluster_setName : (e.setName fatName).firstCluster = e.firstCluster := firstCluster_congr (copy_same (by omega))

@[simp] theorem firstCluster_setAttr : (e.setAttr a).firstCluster = e.firstCluster := firstCluster_congr (put8_same (by omega))

@[simp] theorem firstCluster_setSize : (e.setSize n).firstCluster = e.firstCluster := firstCluster_congr (put32_same (by omega))

theorem firstCluster_setFirstCluster (h : c < 2 ^ 32) : (e.setFirstCluster c).firstCluster = c := by
  unfold setFirstCluster firstCluster
  rw [get16_put16, get16_put16_ne (by omega), get16_put16]
  omega

theorem size_setSize : (e.setSize n).size = n % 2 ^ 32 := get32_put32 _ _ _

@[simp] theorem size_setFirstCluster : (e.setFirstCluster c).size = e.size :=
  get32_congr ((put16_same (by omega)).trans (put16_same (by omega)))

@[simp] theorem size_setAttr : (e.setAttr a).size = e.size := get32_congr (put8_same (by omega))

/-- What is read of a record lies in its 32 bytes. -/
@[simp] theorem name_trunc : name (trunc 32 e) = e.name := name_congr ((trunc_same 32 e).mono (by omega) (by omega))

@[simp] theorem attr_trunc : attr (trunc 32 e) = e.attr := attr_congr ((trunc_same 32 e).mono (by omega) (by omega))

@[simp] theorem firstCluster_trunc : firstCluster (trunc 32 e) = e.firstCluster :=
  firstCluster_congr ((trunc_same 32 e).mono (by omega) (by omega))

@[simp] theorem size_trunc : size (trunc 32 e) = e.size := get32_congr ((trunc_same 32 e).mono (by omega) (by omega))

theorem head_name : e.name.head? = some (e 0) := rfl

theorem name_length : e.name.length = 11 := length_slice _ _ _

theorem byte_zero (h : e.name = e'.name) : e 0 = e' 0 := by
  have hh := congrArg head? h
  exact Option.some.inj hh

theorem isEnd_congr (h : e.name = e'.name) : e.isEnd = e'.isEnd := by
  unfold isEnd
  rw [byte_zero h]

theorem isFree_congr (h : e.name = e'.name) : e.isFree = e'.isFree := by
  unfold isFree
  rw [byte_zero h]

theorem isDot_congr (h : e.name = e'.name) : e.isDot = e'.isDot := by
  unfold isDot nameFrom83
  rw [h]

theorem isDirectory_congr (h : e.attr = e'.attr) : e.isDirectory = e'.isDirectory := by
  unfold isDirectory
  rw [h]

theorem isVisible_congr (h : e.name = e'.name) (ha : e.attr = e'.attr) : e.isVisible = e'.isVisible := by
  unfold isVisible
  rw [isFree_congr h, ha]

theorem isLive_congr (h : e.name = e'.name) (ha : e.attr = e'.attr) : e.isLive = e'.isLive := by
  unfold isLive
  rw [isVisible_congr h ha, isDot_congr h]

theorem isSub_congr (h : e.name = e'.name) (ha : e.attr = e'.attr) : e.isSub = e'.isSub := by
  unfold isSub
  rw [isLive_congr h ha, isDirectory_congr ha]

theorem isFree_erase : e.erase.isFree = true := rfl

theorem isEnd_erase : e.erase.isEnd = false := rfl

theorem isLive_of_isSub (h : e.isSub = true) : e.isLive = true := (and_eq_true_iff.1 h).1

theorem isDirectory_of_isSub (h : e.isSub = true) : e.isDirectory = true := (and_eq_true_iff.1 h).2

theorem isVisible_of_isLive (h : e.isLive = true) : e.isVisible = true := (and_eq_true_iff.1 h).1

theorem isFree_of_isVisible (h : e.isVisible = true) : e.isFree = false := by
  unfold isVisible at h
  simp only [and_eq_true, not_eq_true'] at h
  exact h.1.1

theorem isEnd_of_isFree (h : e.isFree = false) : e.isEnd = false := by
  exact (or_eq_false_iff.1 h).1

theorem isEnd_of_isLive (h : e.isLive = true) : e.isEnd = false :=
  isEnd_of_isFree (isFree_of_isVisible (isVisible_of_isLive h))

theorem isLive_of_isFree (h : e.isFree = true) : e.isLive = false := by
  unfold isLive isVisible
  rw [h]
  rfl

theorem isSub_of_isLive (h : e.isLive = false) : e.isSub = false := by
  unfold isSub
  rw [h]
  rfl

theorem name_ofList (h : fatName.length = 11) : name (ofList fatName) = fatName := by
  refine ext_getElem (by rw [name_length, h]) fun j h1 h2 => ?_
  simp only [name, slice, getElem_map, getElem_range, ofList, zero_add]
  simp [h2]

theorem isDot_of_name (hn : e.name = fatName) (hr : reserved fatName = false) : e.isDot = false := by
  rw [isDot_congr (hn.trans (name_ofList (by rw [← hn, name_length])).symm)]
  exact (or_eq_false_iff.1 hr).2

theorem isLive_of_name (hn : e.name = fatName) (h0 : fatName.head? ≠ some 0) (hr : reserved fatName = false)
    (ha : e.attr = FAT_ATTR_DIRECTORY ∨ e.attr = FAT_ATTR_ARCHIVE) : e.isLive = true := by
  have hdot := isDot_of_name hn hr
  unfold reserved at hr
  have hfree : e.isFree = false := by
    have hh := head_name (e := e)
    rw [hn] at hh
    rw [hh] at h0 hr
    unfold isFree
    simp only [or_eq_false_iff, beq_eq_false_iff_ne]
    exact ⟨fun hz => h0 (congrArg some hz), fun hz => by simp [hz] at hr⟩
  unfold isLive isVisible
  rw [hfree, hdot]
  rcases ha with ha | ha <;> rw [ha] <;> decide

end
end Entry

/-! ## Names that `name_to_83` makes -/

theorem padded_length {n : Nat} {s : Text} (h : s.length ≤ n) : (padded n s).length = n := by
  unfold padded
  simp only [length_append, length_map, length_replicate]
  omega

theorem toupper_toNat (c : UInt8) : (toupper c).toNat = if 97 ≤ c.toNat ∧ c.toNat ≤ 122 then c.toNat - 32 else c.toNat := by
  unfold toupper
  simp only [le_iff_toNat_le, UInt8.reduceToNat]
  split
  · rename_i hc
    exact UInt8.toNat_sub_of_le _ _ (UInt8.le_iff_toNat_le.2 (le_trans (by decide) hc.1))
  · rfl

theorem tolower_toNat (c : UInt8) : (tolower c).toNat = if 65 ≤ c.toNat ∧ c.toNat ≤ 90 then c.toNat + 32 else c.toNat := by
  unfold tolower
  simp only [le_iff_toNat_le, UInt8.reduceToNat]
  split
  · rename_i hc
    exact Nat.mod_eq_of_lt (Nat.lt_of_le_of_lt (Nat.add_le_add_right hc.2 32) (by decide))
  · rfl

theorem toupper_ne_zero {c : UInt8} (h : c ≠ 0) : toupper c ≠ 0 := by
  simp only [ne_eq, ← UInt8.toNat_inj, toupper_toNat, UInt8.reduceToNat] at h ⊢
  split <;> omega

theorem splitDot_fst_subset (name : Text) : (splitDot name).1 ⊆ name := by
  unfold splitDot
  split
  · exact take_subset _ _
  · exact List.Subset.refl _

/-- What an accepted name gives: 11 bytes, the first of them no terminator. -/
theorem nameTo83_spec {name fatName : Text} (h : nameTo83 name = some fatName) (h0 : 0 ∉ name) :
    fatName.length = 11 ∧ fatName.head? ≠ some 0 := by
  unfold nameTo83 at h
  split at h
  · cases h
  dsimp only at h
  split at h
  · cases h
  rename_i hlen
  split at h
  · obtain rfl := Option.some.inj h
    push Not at hlen
    refine ⟨by rw [length_append, padded_length (by omega), padded_length (by omega)], ?_⟩
    obtain ⟨b, base, hb⟩ := exists_cons_of_ne_nil (ne_nil_of_length_pos (pos_of_ne_zero hlen.1))
    have hmem : b ∈ name := splitDot_fst_subset name (by rw [hb]; exact mem_cons_self)
    have hne : b ≠ 0 := fun hz => h0 (hz ▸ hmem)
    rw [padded, hb]
    simp only [map_cons, cons_append, head?_cons, ne_eq, Option.some.injEq]
    exact toupper_ne_zero hne
  · cases h

end PureUnix.Fat16
