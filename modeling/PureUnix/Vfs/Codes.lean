import PureUnix.Vfs.Secrecy

/-!
# Codes of the entry points

What an entry point fails with: a negative code, and never the one SYS_OPEN has for a full table.
-/
namespace PureUnix.Vfs

open Lib

variable {c : Cred} {path : Text}

section
variable {σ α β : Type} {S : Sys σ}

/-- A code the file system may fail with: negative, and not the one for a full table. -/
def Errno (rc : Int) : Prop := rc < 0 ∧ rc ≠ -EMFILE
  deriving Decidable

def Proper {α : Type} (x : Except Fail α) : Prop := ∀ rc text, x = .error (.errno rc text) → Errno rc

theorem Proper.ok (a : α) : Proper (.ok a : Except Fail α) := nofun

theorem Proper.overrun : Proper (.error .overrun : Except Fail α) := nofun

theorem Proper.errno {rc : Int} (h : Errno rc) (text : Option String) : Proper (.error (.errno rc text) : Except Fail α) := by
  rintro rc' text' he
  cases he
  exact h

theorem Proper.bind {x : Except Fail α} {f : α → Except Fail β} (hx : Proper x) (hf : ∀ a, Proper (f a)) : Proper (x >>= f) := by
  cases x with
  | error e =>
    intro rc text he
    cases he
    exact hx rc text rfl
  | ok a => exact hf a

theorem Proper.cast {e : Fail} (h : Proper (.error e : Except Fail α)) : Proper (.error e : Except Fail β) := by
  intro rc text he
  cases he
  exact h rc text rfl

theorem resolvePath_errno {V : View} {followFinal : Bool} {e : Int}
    (h : resolvePath V c path followFinal = some (.errno e)) : Errno e := by
  unfold resolvePath at h
  split at h
  · cases h; decide
  split at h
  · cases h; decide
  obtain ⟨w, -, hw⟩ := reaches_of_run h
  have hs := @step_stepped V c followFinal w
  rw [hw] at hs
  cases hs with
  | long => decide
  | visit _ hv =>
    cases hv with
    | noDir => decide
    | noSearch => decide
    | missing => decide
    | linkStop _ _ _ _ hor => rcases hor with rfl | rfl | rfl <;> decide

theorem resolve_proper (c : Cred) (s : σ) (path : Text) (followFinal : Bool) (text : String) :
    Proper (S.resolve c s path followFinal text) := by
  unfold Sys.resolve
  split
  · exact .ok _
  · exact .errno (resolvePath_errno ‹_›) _
  · exact .overrun

theorem checkDirWrite_errno {s : σ} (h : S.checkDirWrite c s path ≠ 0) : Errno (S.checkDirWrite c s path) := by
  unfold Sys.checkDirWrite at h ⊢
  split
  · decide
  · split
    · simp_all
    · decide

theorem vfsStat_proper (c : Cred) (s : σ) (path : Text) : Proper (S.vfsStat c s path) := by
  refine (resolve_proper c s path true _).bind fun r => ?_
  split
  · exact .errno (by decide) _
  · exact .ok _

theorem vfsReadFile_proper (c : Cred) (s : σ) (path : Text) : Proper (S.vfsReadFile c s path) := by
  refine (resolve_proper c s path true _).bind fun r => ?_
  split
  · exact .errno (by decide) _
  split
  · exact .errno (by decide) _
  split
  · exact .errno (by decide) _
  split
  · exact .errno (by decide) _
  split
  · exact .errno (by decide) _
  · exact .ok _

theorem reach_proper (resolved : Text) (op : Ops σ → Option β) (text : String) (change : Text → Change) :
    Proper (S.reach resolved op text change) := by
  unfold Sys.reach
  split
  · exact .errno (by decide) _
  split
  · exact .errno (by decide) _
  · exact .ok _

theorem vfsCreate_proper (c : Cred) (s : σ) (path : Text) : Proper (S.vfsCreate c s path) := by
  refine Proper.bind ((resolve_proper c s path true _).bind fun r => ?_) fun r => ?_
  · split
    · exact .errno (by decide) _
    split
    · exact .errno (checkDirWrite_errno ‹_›) _
    · exact .ok _
  · exact reach_proper _ _ _ _

/-- `vfs_create` runs a driver's `create`, which does not know the code for a full table. -/
theorem create_proper (c : Cred) (s : σ) (path : Text) : Proper (S.finish "create failed" s (S.vfsCreate c s path)).1 := by
  have hplan := vfsCreate_proper c s path (S := S)
  cases hp : S.vfsCreate c s path with
  | error e =>
    rw [hp] at hplan
    exact hplan.cast
  | ok call =>
    have hcall : S.plan c s (.create path) = .ok call := hp
    cases plan_mediated hcall with
    | create _ _ ha =>
      obtain ⟨⟨mountpoint, type⟩, -, rfl⟩ := ha
      have hcode : ∀ sub, (S.perform ⟨⟨mountpoint, type⟩, .create sub false⟩ s).1 ≠ -EMFILE := by
        intro sub
        cases type with
        | ext2 => exact S.ext2.create_errno _ _ _
        | fat16 => exact S.fat16.create_errno _ _ _
      unfold Sys.finish
      dsimp only
      split
      · refine .errno ?_ _
        split
        · exact ⟨‹_›, hcode _⟩
        · decide
      · exact .ok _

theorem vfsWriteFile_proper (c : Cred) (s : σ) (path : Text) (data : Text) (flags : UInt32) :
    Proper (S.vfsWriteFile c s path data flags) := by
  refine (resolve_proper c s path true _).bind fun r => ?_
  split
  · split
    · exact .errno (by decide) _
    · exact reach_proper _ _ _ _
  · split
    · exact .errno (checkDirWrite_errno ‹_›) _
    · exact reach_proper _ _ _ _

end
end PureUnix.Vfs
