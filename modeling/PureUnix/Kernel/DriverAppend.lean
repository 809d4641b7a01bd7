import PureUnix.Ext2.Append
import PureUnix.Ext2.SampleTree
import PureUnix.Fat16.Append

/-!
# Appends in both drivers

An append returns 0 with the new bytes behind the old ones, and it returns 0 whenever there is memory and room. The
theorem says for which calls that is so. It fails where the inner read gets no buffer: the old bytes are dropped then,
and the call returns 0. It fails where both texts are empty: the buffer of length 0 is taken for a lack of memory.
-/
namespace PureUnix.Kernel

open Lib

/-- **When an append is sound**, in either driver. -/
theorem append_sound_iff (path data : Text) :
    (∀ (aware : Bool) (L : Ext2.Layout) (d : Ext2.Disk) (env : Ext2.Env) (n : Nat), L.Ok → Ext2.Consistent aware false L d →
      Ext2.pathNode ((d.store L).node L) path = some n → (d.store L).inodeUsed n = true → ((d.store L).inode n).isReg = true →
      (Appended (d.exec L (Ext2.writeFile L.fs env path data true)).1
          (((d.exec L (Ext2.writeFile L.fs env path data true)).2.store L).node L n).bytes ((d.store L).node L n).bytes data
          (env.kcalloc = true ∧ env.kmalloc = true)
          (Ext2.WriteFits L ((d.store L).freed L n) (((d.store L).node L n).bytes.length + data.length)) ↔
        AppendSound (2 ^ 32) (Ext2.readable env ((d.store L).node L n).bytes) env.kmalloc ((d.store L).node L n).bytes data
          (Ext2.WriteFits L ((d.store L).freed L n)) (Ext2.WriteFits L ((d.store L).freed L n))
          fun t => Ext2.readBack L.blockSize t = t)) ∧
    ∀ (fs : Fat16.Fs) (d : Fat16.Disk) (env : Fat16.Env) (f : Fat16.Found) (p : Fat16.Place),
      fs.Ok → d.Consistent fs → Fat16.FileAt fs (d.vol fs) path f p →
      (Appended (Fat16.onDisk fs (Fat16.writeFile fs env path data true) d).1
          (((Fat16.onDisk fs (Fat16.writeFile fs env path data true) d).2.vol fs).text fs p) ((d.vol fs).text fs p) data
          (env.readBuf = true ∧ env.kmalloc = true)
          ((d.vol fs).HasRoom fs (((d.vol fs).text fs p).length + data.length)) ↔
        AppendSound (2 ^ 32) (Fat16.readable env ((d.vol fs).text fs p)) env.kmalloc ((d.vol fs).text fs p) data
          ((d.vol fs).Takes fs) ((d.vol fs).HasRoom fs) (Fat16.ChainHolds fs)) := by
  constructor
  · intro aware L d env n h hd hp hu hr
    exact (hd.exec h (hd.inv.wp_append h hp hu hr env data)).2
  · intro fs d env f p h hd hf
    obtain ⟨rc, v', hrun, hwild, hiff⟩ := hf.run_append h hd.vol env data
    obtain ⟨hans, -, hvol⟩ := Fat16.onDisk_simulates h (Fat16.writeFile fs env path data true) ⟨hd.mirrored, rfl⟩ (by rw [hrun]; exact hwild)
    rw [hrun] at hans hvol
    rw [hans, ← hvol]
    exact hiff

/-! ## The file "/F" with the text "abc" -/

section
open Ext2
open Fat16

def pathF : Text := [47, 70]

/-- A heap that grants the buffer of the read, and the buffer of the write. -/
def ext2Heap (read write : Bool) : Ext2.Env := ⟨fun _ => 0, 0, 0, read, write⟩

def fat16Heap (read write : Bool) : Fat16.Env := ⟨read, write, zeros⟩

abbrev layout100 : Ext2.Layout := oneGroup 1024 100 100 16

abbrev disk100 : Ext2.Disk := oneFileDisk 1024 100 100

theorem total100 : Ext2.oneGroupData 1024 16 + 2 ≤ 100 ∧ 100 ≤ 100 ∧ 100 ≤ 8 * 1024 := by decide

theorem layout100_ok : layout100.Ok := oneFile_ok (.inl rfl) total100

theorem disk100_consistent : Ext2.Consistent true false layout100 disk100 := oneFile_consistent (.inl rfl) total100

theorem disk100_store : disk100.store layout100 = oneFileStore 1024 100 100 := oneFile_store (.inl rfl) total100

theorem ext2_text : ((oneFileStore 1024 100 100).node layout100 12).bytes = [97, 98, 99] := by decide +kernel

theorem fat16_text : (smallDisk.vol smallFs).text smallFs (.root 2) = [97, 98, 99] := by decide +kernel

theorem fat16_lookup : (Prog.run (Fat16.Vol.step smallFs) (Fat16.pathLookup smallFs pathF) (smallDisk.vol smallFs)).1.isSome = true := by
  decide +kernel

/-- "/F" is the third record of the root directory. -/
theorem fat16_fileAt : ∃ f, Fat16.FileAt smallFs (smallDisk.vol smallFs) pathF f (.root 2) := by
  have hplain : Fat16.Plain pathF := by decide
  obtain ⟨r, hr, hfound⟩ := Fat16.run_lookup_plain smallFs_ok smallDisk_consistent.vol.toTree hplain Fat16.tokens_subset
  have hsome := fat16_lookup
  have hplace : (Prog.run (Fat16.Vol.step smallFs) (Fat16.pathLookup smallFs pathF) (smallDisk.vol smallFs)).1.map
      (fun f => ((smallDisk.vol smallFs).place smallFs f.dirCluster f.index, f.entry.isDirectory)) = some (some (.root 2), false) := by
    decide +kernel
  rw [hr] at hsome hplace
  obtain ⟨f, rfl⟩ := Option.isSome_iff_exists.1 hsome
  rcases hfound f rfl with ⟨hroot, -⟩ | ⟨-, p, hf⟩
  · exact absurd hroot (by decide)
  · have hp := hf.place
    simp only [Option.map_some, Option.some.injEq, Prod.mk.injEq] at hplace
    rw [hplace.1] at hp
    obtain rfl := Option.some.inj hp
    exact ⟨f, hr, hf, hplace.2, by decide +kernel⟩

/-- With memory for it, "de" stands behind "abc" then. -/
theorem append_sound_abc :
    ((disk100.exec layout100 (Ext2.writeFile layout100.fs (ext2Heap true true) pathF [100, 101] true)).1 = 0 ∧
      (((disk100.exec layout100 (Ext2.writeFile layout100.fs (ext2Heap true true) pathF [100, 101] true)).2.store layout100).node layout100 12).bytes =
        [97, 98, 99, 100, 101]) ∧
    (Fat16.onDisk smallFs (Fat16.writeFile smallFs (fat16Heap true true) pathF [100, 101] true) smallDisk).1 = 0 ∧
      ((Fat16.onDisk smallFs (Fat16.writeFile smallFs (fat16Heap true true) pathF [100, 101] true) smallDisk).2.vol smallFs).text smallFs (.root 2) =
        [97, 98, 99, 100, 101] := by
  constructor
  · have hiff := (append_sound_iff pathF [100, 101]).1 true layout100 disk100 (ext2Heap true true) 12 layout100_ok disk100_consistent
    rw [disk100_store] at hiff
    have ha := (hiff (by decide +kernel) (by decide +kernel) (by decide +kernel)).2 fun _ _ => ⟨by decide, by decide +kernel⟩
    have h0 := ha.served ⟨rfl, rfl⟩ (by decide +kernel)
    exact ⟨h0, ha.kept h0⟩
  · obtain ⟨f, hf⟩ := fat16_fileAt
    have hiff := (append_sound_iff pathF [100, 101]).2 smallFs smallDisk (fat16Heap true true) f (.root 2) smallFs_ok smallDisk_consistent hf
    rw [fat16_text] at hiff
    have ha := hiff.2 fun _ _ => ⟨by decide, by decide, by decide⟩
    have h0 := ha.served ⟨rfl, rfl⟩ (by decide +kernel)
    exact ⟨h0, ha.kept h0⟩

/-- Without a buffer for the read, both calls return 0 and "abc" is gone. -/
theorem append_drops_abc : ((disk100.store layout100).node layout100 12).bytes = [97, 98, 99] ∧
    (disk100.exec layout100 (Ext2.writeFile layout100.fs (ext2Heap false true) pathF [100, 101] true)).1 = 0 ∧
    (((disk100.exec layout100 (Ext2.writeFile layout100.fs (ext2Heap false true) pathF [100, 101] true)).2.store layout100).node layout100 12).bytes =
      [100, 101] ∧
    (smallDisk.vol smallFs).text smallFs (.root 2) = [97, 98, 99] ∧
    (Fat16.onDisk smallFs (Fat16.writeFile smallFs (fat16Heap false true) pathF [100, 101] true) smallDisk).1 = 0 ∧
    ((Fat16.onDisk smallFs (Fat16.writeFile smallFs (fat16Heap false true) pathF [100, 101] true) smallDisk).2.vol smallFs).text smallFs (.root 2) =
      [100, 101] := by
  obtain ⟨h1, h2⟩ := oneFile_exec (.inl rfl) total100 (Ext2.writeFile layout100.fs (ext2Heap false true) pathF [100, 101] true) (by decide +kernel)
  rw [disk100_store, h1, h2]
  exact ⟨ext2_text, by decide +kernel, by decide +kernel, fat16_text, by decide +kernel, by decide +kernel⟩

end
end PureUnix.Kernel
