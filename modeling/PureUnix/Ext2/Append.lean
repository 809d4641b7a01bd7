import PureUnix.Lib.Rewrite
import PureUnix.Ext2.Runs

/-!
# Appending to a file

With `VFS_O_APPEND`, `ext2_write_file` reads the file, puts the new bytes behind the old in a buffer, frees the old
blocks and writes the buffer. The blocks of the file are free again when the new ones are taken.
-/
namespace PureUnix.Ext2

open Lib

section
variable {aware : Bool} {L : Layout} {v : Store} {n : Nat} {path data : Text}

/-- `ext2_read_file_ino` gets a buffer; for a file of `2 ^ 32 - 1` bytes it asks for none. -/
def readable (env : Env) (old : Text) : Bool := env.kcalloc && decide (u32 (old.length + 1) ≠ 0)

theorem finalData_append (env : Env) (old data : Text) :
    finalData env old data true = rewritten (2 ^ 32) (readable env old) env.kmalloc old data := by
  unfold finalData rewritten readable u32
  simp only [if_true, Bool.and_eq_true, decide_eq_true_eq]
  rfl

theorem length_readBack (bs : Nat) (t : Text) : (readBack bs t).length ≤ t.length := by simp [readBack]

theorem WriteFits.mono {s : Store} {m k : Nat} (hmk : m ≤ k) (hf : WriteFits L s k) : WriteFits L s m := by
  have hdiv : (m + L.blockSize - 1) / L.blockSize ≤ (k + L.blockSize - 1) / L.blockSize := Nat.div_le_div_right (by omega)
  refine ⟨Nat.le_trans hmk hf.1, hf.2.mono ?_⟩
  split
  · rw [if_pos (by omega)]
    omega
  · split <;> omega

theorem Wrote.bytes {bs : Nat} {g g' : Graph} {final : Text} (hw : Wrote bs g n final g') : (g' n).bytes = readBack bs final := by
  obtain ⟨i', rfl, -⟩ := hw.node
  rw [Function.update_self]

/-- **When an append to a file is sound**: on the store. -/
theorem FsInv.wp_append (h : L.Ok) (inv : FsInv aware false L v) (hp : pathNode (v.node L) path = some n) (hu : v.inodeUsed n = true)
    (hr : (v.inode n).isReg = true) (env : Env) (data : Text) :
    Prog.wp (Store.step L) (writeFile L.fs env path data true) (fun rc v' => FsInv aware false L v' ∧
      (Appended rc (v'.node L n).bytes (v.node L n).bytes data (env.kcalloc = true ∧ env.kmalloc = true)
          (WriteFits L (v.freed L n) ((v.node L n).bytes.length + data.length)) ↔
        AppendSound (2 ^ 32) (readable env (v.node L n).bytes) env.kmalloc (v.node L n).bytes data (WriteFits L (v.freed L n))
          (WriteFits L (v.freed L n)) fun t => readBack L.blockSize t = t)) v := by
  have hnamed := (inv.run_pathToInode h path).2 n hp
  unfold writeFile
  rw [if_neg h.isMounted]
  refine Prog.wp_seq_run (inv.run_pathToInode h path).1 ?_
  rw [hp]
  refine Prog.wp_mono (inv.wp_writeFileIno h hnamed env data true nofun) ?_
  rintro rc v' ⟨inv', hends⟩
  refine ⟨inv', ?_⟩
  rw [finalData_append] at hends
  refine appended_iff (by decide) (fun hread hb => ⟨?_, hb⟩) And.right (fun hnone => ?_) (fun t ht => ?_) ?_ (length_readBack _) fun t => Iff.rfl
  · exact (Bool.and_eq_true_iff.1 hread).1
  · rw [hnone] at hends
    rcases hends with ⟨-, final, hfin, -⟩ | ⟨hrc, -⟩
    · cases hfin
    · exact hrc
  · rw [ht] at hends
    rcases hends with ⟨h0, final, hfin, hfit, hw⟩ | ⟨hrc, ⟨-, hnone⟩ | ⟨-, final, hfin, hno⟩⟩
    · cases hfin
      exact ⟨⟨fun _ => hfit, fun _ => h0⟩, fun _ => hw.bytes⟩
    · have := hnone (inv.own.valid n hu) hr
      cases this
    · cases hfin
      exact ⟨⟨fun h0 => absurd h0 hrc, fun hfit => absurd hfit hno⟩, fun h0 => absurd h0 hrc⟩
  · intro m k hmk hfit
    exact hfit.mono hmk

end
end PureUnix.Ext2
