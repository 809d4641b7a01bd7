import PureUnix.Vfs.Calls

/-!
# Systems with one mount

A system that mounts one file system on "/", given by what its driver answers to `stat` and by the result of
every operation that changes something.
-/
namespace PureUnix.Vfs

open Lib

section
variable {σ : Type} (stat : σ → Text → Option Stat) (hroot : ∀ s st, stat s [slash] = some st → st.type ≠ .symlink)

/-- The one mounted driver. Its files cannot be read and its directories list nothing. -/
def plainDriver : LinkDriver σ where
  stat := stat
  readFile := fun _ _ => none
  writeFile := fun _ _ _ s => (0, s)
  create := fun _ _ s => (0, s)
  unlink := fun _ _ s => (0, s)
  rename := fun _ _ s => (0, s)
  readdir := fun _ _ => ⟨[], 0⟩
  root_not_link := hroot
  create_errno := fun _ _ _ => show (0 : Int) ≠ -EMFILE by decide
  readlink := fun _ _ _ => .error (-EINVAL)
  readlink_cut := nofun
  link := fun _ _ s => (0, s)
  symlink := fun _ _ s => (0, s)

def plainSys : Sys σ := ⟨[⟨[slash], .ext2⟩], plainDriver stat hroot, (plainDriver stat hroot).toDriver⟩

theorem plainSys_findMount (p : Text) :
    (plainSys stat hroot).findMount p = if p.head? = some slash then some ⟨[slash], .ext2⟩ else none := by
  unfold Sys.findMount
  cases p with
  | nil => rfl
  | cons b p =>
    by_cases hb : b = slash
    · subst hb
      simp [plainSys, pathUnderMount]
    · simp [hb]

theorem plainSys_dispatch (p : Text) : (plainSys stat hroot).dispatch p =
    if p.head? = some slash then some (⟨[slash], .ext2⟩, p.take (PUREUNIX_MAX_PATH - 1)) else none := by
  unfold Sys.dispatch
  rw [plainSys_findMount]
  cases p with
  | nil => rfl
  | cons b p =>
    by_cases hb : b = slash
    · simp [hb, mountRelative]
    · simp [hb]

theorem plainSys_statRaw (s : σ) (p : Text) : (plainSys stat hroot).statRaw s p =
    if p.head? = some slash then stat s (p.take (PUREUNIX_MAX_PATH - 1)) else none := by
  unfold Sys.statRaw
  rw [plainSys_dispatch]
  by_cases h : p.head? = some slash
  · rw [if_pos h, if_pos h]; rfl
  · rw [if_neg h, if_neg h]

end

end PureUnix.Vfs
