import PureUnix.Kernel.Elf

/-!
# What the loader touches

The accesses of `elf_exec`'s segment loop in their order: each program header it reads, each copy out of the
image, each piece it clears. The position of the header table is not checked, the sums of the check are computed in
32 bits, the check of the target uses `p_memsz` where the copy uses `p_filesz`, and what is cleared goes by the
header as it is behind the copy.
-/
namespace PureUnix.Kernel.Elf
open Lib Kernel.Heap List
open Libc

/-! ## The accesses of the loop -/

inductive Access
  /-- A program header is read. -/
  | header (at_ : Nat)
  /-- `memcpy(dest, src, count)`. -/
  | copy (dest src count : Nat)
  /-- `memset(dest, 0, count)`. -/
  | clear (dest count : Nat)

def Access.perform (m : Buf) : Access → Buf
  | .header _ => m
  | .copy dest src count => memcpy m dest src count
  | .clear dest count => memset m dest 0 count

/-- The rest that is cleared, if there is one. -/
def restAccesses (p : Phdr) : List Access :=
  if p.pFilesz < p.pMemsz then [.clear (u32 (p.pVaddr + p.pFilesz)) (p.pMemsz - p.pFilesz)] else []

/-- The accesses of `loadSegment`: the header is read a second time behind the copy. -/
def segmentAccesses (m : Buf) (image ph : Nat) : List Access :=
  let p := readPhdr m ph
  .copy p.pVaddr (u32 (image + p.pOffset)) p.pFilesz :: .header ph :: restAccesses (readPhdr (copySegment m image p) ph)

/-- The accesses of `loadSegments`. -/
def accesses (image size : Nat) : Nat → Nat → Buf → List Access
  | 0, _, _ => []
  | left + 1, i, m =>
    if i < ePhnum m image then
      let p := phdr m image i
      .header (phdrAt m image i) ::
        if p.pType ≠ 1 then accesses image size left (i + 1) m
        else if p.invalid size then []
        else segmentAccesses m image (phdrAt m image i) ++
          accesses image size left (i + 1) (loadSegment m image (phdrAt m image i))
    else []

section Trace
variable {m : Buf} {image size ph : Nat}

theorem perform_segment : (segmentAccesses m image ph).foldl Access.perform m = loadSegment m image ph := by
  simp only [segmentAccesses, foldl_cons, Access.perform, loadSegment, clearRest, restAccesses]
  split <;> rfl

/-- **Doing the accesses one after the other is loading.** -/
theorem perform_accesses (left i : Nat) (m : Buf) :
    (accesses image size left i m).foldl Access.perform m = (loadSegments image size left i m).2 := by
  induction left generalizing i m with
  | zero => rfl
  | succ left ih =>
    rw [accesses, loadSegments]
    by_cases hi : i < ePhnum m image
    swap
    · rw [if_neg hi, if_neg hi, foldl_nil]
    simp only [if_pos hi, foldl_cons, Access.perform]
    by_cases hload : (phdr m image i).pType ≠ 1
    · rw [if_pos hload, if_pos hload, ih]
    rw [if_neg hload, if_neg hload]
    split
    · rfl
    · rw [foldl_append, perform_segment, ih]

end Trace

/-! ## The bounds -/

def InImage (image size a : Nat) : Prop := image ≤ a ∧ a < image + size

def InWindow (a : Nat) : Prop := 0x400000 ≤ a ∧ a < 0x700000

/-- Every byte read is the image's and every byte written is in the window. -/
def Access.InRange (image size : Nat) : Access → Prop
  | .header a => ∀ j < 32, InImage image size (u32 (a + j))
  | .copy dest src count => ∀ j < count, InImage image size (u32 (src + j)) ∧ InWindow (u32 (dest + j))
  | .clear dest count => ∀ j < count, InWindow (u32 (dest + j))

/-- The header's place lies in the file. -/
def HeaderInside (m : Buf) (image size i : Nat) : Prop := u32 (ePhoff m image + i * ePhentsize m image) + 32 ≤ size

/-- The sums the check should have made. -/
structure Phdr.Sound (p : Phdr) (size : Nat) : Prop where
  reads : p.pOffset + p.pFilesz ≤ size
  writes : p.pVaddr + max p.pFilesz p.pMemsz ≤ 0x700000

/-- The bytes copied come from the file and go to the window. -/
def Phdr.CopySound (p : Phdr) (size : Nat) : Prop :=
  p.pFilesz ≠ 0 → p.pOffset + p.pFilesz ≤ size ∧ p.pVaddr + p.pFilesz ≤ 0x700000

/-- The bytes cleared are in the window. -/
def Phdr.RestSound (p : Phdr) : Prop :=
  p.pFilesz < p.pMemsz →
    0x400000 ≤ u32 (p.pVaddr + p.pFilesz) ∧ u32 (p.pVaddr + p.pFilesz) + (p.pMemsz - p.pFilesz) ≤ 0x700000

/-- From header `i` on: each header lies in the file, and if the check lets its segment pass, its copy is sound, and what is
cleared by the header behind the copy; then the same for the next header, with the segment in place. -/
def HeadersSound (image size : Nat) : Nat → Nat → Buf → Prop
  | 0, _, _ => True
  | left + 1, i, m =>
    i < ePhnum m image → HeaderInside m image size i ∧
      let p := phdr m image i
      if p.pType ≠ 1 then HeadersSound image size left (i + 1) m
      else p.invalid size = false →
        (p.CopySound size ∧ (readPhdr (copySegment m image p) (phdrAt m image i)).RestSound) ∧
        HeadersSound image size left (i + 1) (loadSegment m image (phdrAt m image i))

section Bounds
variable {m : Buf} {image size i : Nat} {p : Phdr}

/-- A range of addresses that wrap lies between two bounds if it does without wrapping: else its byte at the upper bound
would be touched. -/
theorem range_iff {a count low high : Nat} (ha : a < 4294967296) (hhigh : high < 4294967296) :
    (∀ j < count, low ≤ u32 (a + j) ∧ u32 (a + j) < high) ↔ (count ≠ 0 → low ≤ a ∧ a + count ≤ high) := by
  constructor
  · intro h h0
    have hfirst := h 0 (by omega)
    rw [Nat.add_zero, u32_of_lt ha] at hfirst
    refine ⟨hfirst.1, ?_⟩
    by_contra hbig
    have hend := (h (high - a) (by omega)).2
    rw [u32_of_lt (by omega)] at hend
    omega
  · intro h j hj
    have := h (by omega)
    rw [u32_of_lt (by omega)]
    omega

theorem header_inRange_iff (hfits : image + size < 4294967296) :
    (Access.header (phdrAt m image i)).InRange image size ↔ HeaderInside m image size i := by
  refine (range_iff (u32_lt _) hfits).trans ?_
  simp only [HeaderInside, u32]
  omega

theorem copy_inRange_iff (hfits : image + size < 4294967296) (hvaddr : p.pVaddr < 4294967296)
    (hoffset : p.pOffset < 4294967296) (hvalid : p.invalid size = false) :
    (Access.copy p.pVaddr (u32 (image + p.pOffset)) p.pFilesz).InRange image size ↔ p.CopySound size := by
  simp only [Phdr.invalid, Bool.or_eq_false_iff, decide_eq_false_iff_not, not_lt] at hvalid
  have hsrc := @range_iff _ p.pFilesz image _ (u32_lt (image + p.pOffset)) hfits
  have hdest := @range_iff _ p.pFilesz 0x400000 0x700000 hvaddr (by decide)
  simp only [Access.InRange, InImage, InWindow, Phdr.CopySound, forall_and] at hsrc hdest ⊢
  rw [hsrc, hdest]
  simp only [u32] at hvalid ⊢
  omega

theorem rest_inRange_iff : (∀ a ∈ restAccesses p, a.InRange image size) ↔ p.RestSound := by
  rw [restAccesses, Phdr.RestSound]
  split
  · simp only [mem_singleton, forall_eq]
    refine (range_iff (u32_lt _) (by decide)).trans ?_
    omega
  · simp [*]

/-- **The loop stays in its bounds exactly when the headers it meets are sound.** -/
theorem accesses_inRange_iff (hfits : image + size < 4294967296) (left i : Nat) (m : Buf) :
    (∀ a ∈ accesses image size left i m, a.InRange image size) ↔ HeadersSound image size left i m := by
  induction left generalizing i m with
  | zero => simp [accesses, HeadersSound]
  | succ left ih =>
    rw [accesses, HeadersSound]
    by_cases hi : i < ePhnum m image
    · simp only [hi, if_true, true_implies, forall_mem_cons, header_inRange_iff hfits]
      refine and_congr_right fun hinside => ?_
      by_cases hload : (phdr m image i).pType ≠ 1
      · simp only [if_pos hload]
        exact ih (i + 1) m
      simp only [if_neg hload]
      cases hvalid : (phdr m image i).invalid size with
      | true => simp
      | false =>
        simp only [Bool.false_eq_true, if_false, true_implies, forall_mem_append, ih (i + 1)]
        refine and_congr_left fun _ => ?_
        have hcopy := copy_inRange_iff hfits (get32_lt _ _) (get32_lt _ _) hvalid
        simp only [segmentAccesses, forall_mem_cons, header_inRange_iff hfits, hinside, true_and, rest_inRange_iff]
        exact and_congr_left fun _ => hcopy
    · simp [hi]

end Bounds

/-! ## An image its own segments leave alone -/

def Passes (m : Buf) (image size i : Nat) : Prop := (phdr m image i).pType = 1 → (phdr m image i).invalid size = false

/-- No segment that is loaded lands on the image itself. -/
def ImageKept (m : Buf) (image size : Nat) : Prop :=
  ∀ i < ePhnum m image, (phdr m image i).pType = 1 → (phdr m image i).invalid size = false →
    ∀ j < max (phdr m image i).pFilesz (phdr m image i).pMemsz, ¬ InImage image size (u32 ((phdr m image i).pVaddr + j))

/-- Every header up to the first one that is refused lies in the file, and its sums do not wrap. -/
def TableSound (m : Buf) (image size : Nat) : Prop :=
  ∀ i < ePhnum m image, (∀ j < i, Passes m image size j) → HeaderInside m image size i ∧
    ((phdr m image i).pType = 1 → (phdr m image i).invalid size = false → (phdr m image i).Sound size)

section Kept
variable {m m' : Buf} {image size i left : Nat}

/-- For a header that is read the same twice, the two parts of a segment are sound if its sums are. -/
theorem sound_iff {p : Phdr} (hvaddr : p.pVaddr < 4294967296) (hoffset : p.pOffset < 4294967296) (hvalid : p.invalid size = false) :
    p.CopySound size ∧ p.RestSound ↔ p.Sound size := by
  simp only [Phdr.invalid, Bool.or_eq_false_iff, decide_eq_false_iff_not, not_lt] at hvalid
  constructor
  · rintro ⟨hcopy, hrest⟩
    unfold Phdr.CopySound at hcopy
    unfold Phdr.RestSound at hrest
    simp only [u32] at hcopy hrest hvalid
    exact ⟨by omega, by omega⟩
  · rintro ⟨hreads, hwrites⟩
    simp only [Phdr.CopySound, Phdr.RestSound, u32] at hvalid ⊢
    omega

theorem ImageKept.spares (h : ImageKept m image size) (hi : i < ePhnum m image) (hsize : 52 ≤ size)
    (hfits : image + size < 4294967296) (hinside : HeaderInside m image size i) (hsame : Same image (image + size) m' m)
    (hload : (phdr m image i).pType = 1) (hvalid : (phdr m image i).invalid size = false) :
    Spares (InImage image size) (phdr m' image i) (phdrAt m' image i) := by
  obtain ⟨-, hphoff, hent⟩ := ehdr_congr hsame hsize
  refine ⟨fun k hk => ?_, phdr_congr hsame hsize hfits hinside ▸ h i hi hload hvalid⟩
  rw [HeaderInside] at hinside
  rw [phdrAt, hphoff, hent, ← phdrAt, phdrAt_eq (by omega), InImage]
  omega

/-- What holds as long as `P` does, one step at a time. -/
theorem upTo_iff {n i : Nat} {P Q : Nat → Prop} (hi : i < n) : (∀ k, i ≤ k → k < n → (∀ j, i ≤ j → j < k → P j) → Q k) ↔
      Q i ∧ (P i → ∀ k, i + 1 ≤ k → k < n → (∀ j, i + 1 ≤ j → j < k → P j) → Q k) := by
  constructor
  · intro h
    refine ⟨h i le_rfl hi fun j h1 h2 => absurd h1 (by omega), fun hP k h1 h2 hbefore => h k (by omega) h2 fun j h3 h4 => ?_⟩
    by_cases hj : j = i
    · exact hj ▸ hP
    · exact hbefore j (by omega) h4
  · rintro ⟨hQ, hrest⟩ k h1 h2 hbefore
    by_cases hk : k = i
    · exact hk ▸ hQ
    · exact hrest (hbefore i le_rfl (by omega)) k (by omega) h2 fun j h3 h4 => hbefore j (by omega) h4

theorem headersSound_iff (hsize : 52 ≤ size) (hfits : image + size < 4294967296) (hkept : ImageKept m image size)
    (hleft : ePhnum m image < i + left) (hsame : Same image (image + size) m' m) :
    HeadersSound image size left i m' ↔ ∀ n, i ≤ n → n < ePhnum m image → (∀ j, i ≤ j → j < n → Passes m image size j) →
      HeaderInside m image size n ∧
        ((phdr m image n).pType = 1 → (phdr m image n).invalid size = false → (phdr m image n).Sound size) := by
  induction left generalizing i m' with
  | zero => exact iff_of_true trivial fun n h1 h2 => absurd h1 (by omega)
  | succ left ih =>
    obtain ⟨hnum, hphoff, hent⟩ := ehdr_congr hsame hsize
    have hinside : HeaderInside m' image size i ↔ HeaderInside m image size i := by
      rw [HeaderInside, HeaderInside, hphoff, hent]
    rw [HeadersSound, hnum]
    by_cases hi : i < ePhnum m image
    swap
    · exact iff_of_true (fun h => absurd h hi) fun n h1 h2 => absurd h2 (by omega)
    rw [upTo_iff hi, hinside, and_assoc]
    simp only [hi, true_implies]
    refine and_congr_right fun hin => ?_
    rw [phdr_congr hsame hsize hfits hin]
    by_cases hload : (phdr m image i).pType = 1
    swap
    · have hpasses : Passes m image size i := fun h => absurd h hload
      simp only [ne_eq, hload, not_false_eq_true, if_true, hpasses, true_implies, false_implies, true_and]
      exact ih (by omega) hsame
    cases hvalid : (phdr m image i).invalid size with
    | true =>
      have hrefused : ¬ Passes m image size i := fun h => absurd (hvalid.symm.trans (h hload)) (by decide)
      simp [hload, hrefused]
    | false =>
      have hpasses : Passes m image size i := fun _ => hvalid
      have hspares := hkept.spares hi hsize hfits hin hsame hload hvalid
      have hreread : readPhdr (copySegment m' image (phdr m' image i)) (phdrAt m' image i) = phdr m' image i :=
        hspares.reread
      rw [phdr_congr hsame hsize hfits hin] at hreread
      simp only [ne_eq, hload, not_true_eq_false, if_false, true_implies, hpasses, hreread]
      rw [sound_iff (get32_lt _ _) (get32_lt _ _) hvalid]
      refine and_congr_right fun _ => ih (by omega) (Same.trans (fun a h1 h2 => ?_) hsame)
      exact hspares.loadSegment ⟨h1, h2⟩

end Kept

/-- **The loader stays in its bounds exactly when its headers are sound**: those it meets while it loads, which are
those of the file if no segment lands on the file. The accesses are the loader's own. -/
theorem elf_accesses_iff (m : Buf) (image size : Nat) (hfits : image + size < 2 ^ 32)
    (hvalid : elfIsValid m image size = true) :
    (accesses image size 65536 0 m).foldl Access.perform m = (elfLoad image size m).2 ∧
    ((∀ a ∈ accesses image size 65536 0 m, a.InRange image size) ↔ HeadersSound image size 65536 0 m) ∧
    (ImageKept m image size → (HeadersSound image size 65536 0 m ↔ TableSound m image size)) := by
  have hsize : 52 ≤ size := by
    by_contra hsmall
    simp [elfIsValid, Nat.lt_of_not_le hsmall] at hvalid
  refine ⟨?_, accesses_inRange_iff hfits _ _ _, fun hkept => ?_⟩
  · rw [perform_accesses, elfLoad, if_pos hvalid]
  have hnum : ePhnum m image < 0 + 65536 := by
    have := get16_lt m (image + 44)
    rw [ePhnum]
    omega
  rw [headersSound_iff hsize hfits hkept hnum (Same.refl m), TableSound]
  simp only [Nat.zero_le, true_implies]

/-- A file as it lies in its heap block. -/
def loadedAt (image : Nat) (file : Text) : Buf := copy zeros image (ofList file) file.length

/-- The small file's only segment goes to the start of the window. -/
theorem elf_accesses_small : elfIsValid (loadedAt 0x200014 smallElf) 0x200014 88 = true ∧
    ∀ a ∈ accesses 0x200014 88 65536 0 (loadedAt 0x200014 smallElf), a.InRange 0x200014 88 := by
  have hvalid : elfIsValid (loadedAt 0x200014 smallElf) 0x200014 88 = true := by decide +kernel
  obtain ⟨-, hall, htable⟩ := elf_accesses_iff (loadedAt 0x200014 smallElf) 0x200014 88 (by decide) hvalid
  have hnum : ePhnum (loadedAt 0x200014 smallElf) 0x200014 = 1 := by decide +kernel
  have hvaddr : (phdr (loadedAt 0x200014 smallElf) 0x200014 0).pVaddr = 0x400000 := by decide +kernel
  have hsizes : (phdr (loadedAt 0x200014 smallElf) 0x200014 0).pFilesz = 4 ∧ (phdr (loadedAt 0x200014 smallElf) 0x200014 0).pMemsz = 4 ∧
    (phdr (loadedAt 0x200014 smallElf) 0x200014 0).pOffset = 84 := by decide +kernel
  obtain ⟨hfilesz, hmemsz, hoffset⟩ := hsizes
  refine ⟨hvalid, hall.2 ((htable ?_).2 ?_)⟩
  · intro i hi _ _ j hj hin
    obtain rfl : i = 0 := by omega
    rw [hvaddr, u32_of_lt (by omega)] at hin
    have := hin.2
    omega
  · intro i hi _
    obtain rfl : i = 0 := by omega
    refine ⟨show _ ≤ _ by decide +kernel, fun _ _ => ⟨?_, ?_⟩⟩
    · rw [hoffset, hfilesz]
    · decide

/-- A header with a segment of four bytes at `0x6FFFFE` that takes none in memory. -/
def overrunElf : Text :=
  smallElf.take 60 ++ [0xFE, 0xFF, 0x6F, 0, 0, 0, 0x40, 0, 4, 0, 0, 0, 0, 0, 0, 0, 5, 0, 0, 0, 0, 0, 0, 0, 0xC3, 0xC3, 0xC3, 0xC3]

/-- A file that is its header only; the table it names would start at byte 4096. -/
def farTableElf : Text := smallElf.take 28 ++ [0, 16] ++ (smallElf.take 52).drop 30

/-- The first file is loaded beyond `0x700000`, and of the second a program header is read far behind its end. -/
theorem elf_leaves_bounds : (elfIsValid (loadedAt 0x200014 overrunElf) 0x200014 88 = true ∧
      ¬ ∀ a ∈ accesses 0x200014 88 65536 0 (loadedAt 0x200014 overrunElf), a.InRange 0x200014 88) ∧
    elfIsValid (loadedAt 0x200014 farTableElf) 0x200014 52 = true ∧
      ¬ ∀ a ∈ accesses 0x200014 52 65536 0 (loadedAt 0x200014 farTableElf), a.InRange 0x200014 52 := by
  refine ⟨⟨by decide +kernel, fun h => ?_⟩, by decide +kernel, fun h => ?_⟩
  · have hsound := (accesses_inRange_iff (by decide) _ _ _).1 h
    have hstep := (hsound (by decide +kernel)).2
    rw [if_neg (not_not.2 (by decide +kernel))] at hstep
    have hend := ((hstep (by decide +kernel)).1.1 (by decide +kernel)).2
    rw [show (phdr (loadedAt 0x200014 overrunElf) 0x200014 0).pVaddr = 0x6FFFFE by decide +kernel,
      show (phdr (loadedAt 0x200014 overrunElf) 0x200014 0).pFilesz = 4 by decide +kernel] at hend
    omega
  · have hsound := (accesses_inRange_iff (by decide) _ _ _).1 h
    have hinside := (hsound (by decide +kernel)).1
    rw [HeaderInside, show ePhoff (loadedAt 0x200014 farTableElf) 0x200014 = 4096 by decide +kernel] at hinside
    simp only [Nat.zero_mul, u32] at hinside
    omega

end PureUnix.Kernel.Elf
