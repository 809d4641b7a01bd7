import PureUnix.Ext2.Tokens
import PureUnix.Vfs.Sample

/-!
# The path builders and their buffers

When a path fits. `resolve_path` checks single components and the work string, but not the path it
builds; `vfs_normalize` (vfs.c:690) cuts its argument to 255 bytes and does not check the path it builds
either; `vfs_chmod` and `vfs_chown` hand the driver the first 255 bytes of what they are given.

What fits is said on names: for `resolve_path` through the reference resolver, held to the limits that the loop does check, and
for `vfs_normalize` through a normal form that is a list of names.
-/
namespace PureUnix.Vfs

open Lib List Nat

variable {out path : Text} {o : Outcome} {fuel : Nat}

/-! ## `vfs_normalize` -/

/-- The tokens of `strtok_r(s, "/", &save)`. -/
abbrev tokens (s : Text) : List Text := tokensFrom [] s

/-- `append_component` (vfs.c:677) into a buffer of `PUREUNIX_MAX_PATH` bytes; `none` if it does not fit. -/
def appendComponent (out component : Text) : Option Text :=
  if component = [] then some out else resolvedAppend out component

/-- Where `vfs_normalize` starts, and the text it goes through. -/
def normalizeStart (cwd path : Text) : Text :=
  if path.head? = some slash then [slash] else (if cwd = [] then [slash] else cwd).take (PUREUNIX_MAX_PATH - 1)

def normalizeText (path : Text) : Text := if path.head? = some slash then path.drop 1 else path

/-- `if (out[0] == '\0') strcpy(out, "/")`. -/
def orRoot (out : Text) : Text := if out = [] then [slash] else out

/-- `vfs_normalize` (vfs.c:690); `none` is a write past the end of `out`. -/
def vfsNormalize (cwd path : Text) : Option Text :=
  if path = [] then some (cwd.take (PUREUNIX_MAX_PATH - 1))
  else
    ((tokens ((normalizeText path).take (PUREUNIX_MAX_PATH - 1))).foldlM appendComponent (normalizeStart cwd path)).map orRoot

/-- `append_component` without a limit. -/
def addName (out component : Text) : Text :=
  if component = [] ∨ component = dotName then out
  else if component = dotdotName then PathText.parent slash out
  else PathText.append slash out component

/-! ## The normal form on names -/

/-- One field of a path, from the directory with these names. -/
def lexStep (names : List Text) (field : Text) : List Text :=
  if field = [] ∨ field = dotName then names
  else if field = dotdotName then names.dropLast
  else names ++ [field]

/-- A directory: the text it is reached from, and the names below that. -/
structure Place where
  base : Text
  names : List Text

namespace Place

def text (p : Place) : Text :=
  if p.names = [] then p.base else (if p.base = [slash] then [] else p.base) ++ p.names.flatMap (slash :: ·)

/-- One field from `p`. Where ".." finds no name, the text loses its last part. -/
def step (p : Place) (field : Text) : Place :=
  if field = dotdotName ∧ p.names = [] then ⟨PathText.parent slash p.base, []⟩ else ⟨p.base, lexStep p.names field⟩

structure Ok (p : Place) : Prop where
  base : p.base ≠ []
  names : PathText.Good slash p.names

variable {p : Place} {f : Text} {fs : List Text}

theorem parent_ne_nil (s : Text) : PathText.parent slash s ≠ [] := by
  unfold PathText.parent
  split
  · simp
  · simp
  · rename_i hne _
    simpa using hne

theorem Ok.step (h : p.Ok) (hf : slash ∉ f) : (p.step f).Ok := by
  unfold Place.step lexStep
  split
  · exact ⟨parent_ne_nil _, PathText.good_nil⟩
  split
  · exact h
  split
  · exact ⟨h.base, h.names.dropLast⟩
  · rename_i h1 h2
    exact ⟨h.base, h.names.concat (fun h0 => h1 (.inl h0)) hf⟩

/-- `append_component` is one step of the reference. -/
theorem Ok.addName_text (h : p.Ok) (f : Text) : addName p.text f = (p.step f).text := by
  obtain ⟨base, names⟩ := p
  obtain ⟨hb, hn⟩ := h
  unfold addName Place.step lexStep
  by_cases h1 : f = [] ∨ f = dotName
  · have h2 : f ≠ dotdotName := by
      rintro rfl
      exact absurd h1 (by decide)
    rw [if_pos h1, if_neg fun hc => h2 hc.1, if_pos h1]
  rw [if_neg h1, if_neg h1]
  by_cases h2 : f = dotdotName
  · rw [if_pos h2, if_pos h2]
    rcases eq_nil_or_concat names with rfl | ⟨init, m, rfl⟩
    · rw [if_pos ⟨h2, rfl⟩]
      rfl
    · rw [concat_eq_append] at hn ⊢
      rw [if_neg fun hc => absurd hc.2 (by simp), dropLast_concat]
      simp only [text, if_neg (show init ++ [m] ≠ [] by simp), flatMap_append, flatMap_cons, flatMap_nil, append_nil, ← append_assoc]
      rw [PathText.parent_append _ (hn m (by simp)).2]
      by_cases hroot : base = [slash] <;> cases init <;> simp [hroot, hb]
  · rw [if_neg h2, if_neg h2, if_neg fun hc => h2 hc.1]
    simp only [text, if_neg (show names ++ [f] ≠ [] by simp), flatMap_append, flatMap_cons, flatMap_nil, append_nil]
    unfold PathText.append
    cases names with
    | nil => by_cases hroot : base = [slash] <;> simp [hroot]
    | cons m ms =>
      -- a name makes the text longer than "/"
      have hm := (hn m (by simp)).1
      have hlong : ¬ (if base = [slash] then [] else base) ++ (m :: ms).flatMap (slash :: ·) = [slash] := by
        intro hc
        have hlen := congrArg length hc
        have hpos := length_pos_of_ne_nil hm
        simp only [flatMap_cons, cons_append, length_append, length_cons, length_nil] at hlen
        omega
      rw [if_neg (cons_ne_nil m ms), if_neg hlong]
      simp

theorem Ok.foldl (h : p.Ok) (hfs : ∀ f ∈ fs, slash ∉ f) :
    fs.foldl addName p.text = (fs.foldl Place.step p).text ∧ (fs.foldl Place.step p).Ok := by
  induction fs generalizing p with
  | nil => exact ⟨rfl, h⟩
  | cons f fs ih =>
    rw [foldl_cons, foldl_cons, h.addName_text]
    exact ih (h.step (hfs f (by simp))) fun g hg => hfs g (by simp [hg])

end Place

/-! ## Tokens and fields -/

section
open PathText

end

/-! ## The loop of `vfs_normalize` -/

theorem parent_length (s : Text) : (PathText.parent slash s).length ≤ max 1 s.length := by
  have hle : (s.reverse.dropWhile (· ≠ slash)).length ≤ s.length := by
    have := (dropWhile_sublist (· ≠ slash) (l := s.reverse)).length_le
    rwa [length_reverse] at this
  unfold PathText.parent
  split
  · simp
  · simp
  · rename_i r hr
    rw [hr, length_cons] at hle
    rw [length_reverse]
    omega

theorem appendComponent_eq {component : Text} (hout : out.length < PUREUNIX_MAX_PATH) : appendComponent out component =
      if (addName out component).length < PUREUNIX_MAX_PATH then some (addName out component) else none := by
  unfold appendComponent resolvedAppend addName
  have hp := parent_length out
  have hmax : (1) < PUREUNIX_MAX_PATH := by decide
  by_cases h0 : component = []
  · simp [h0, hout]
  by_cases h1 : component = dotName
  · simp [h1, hout]
  by_cases h2 : component = dotdotName
  · have : (PathText.parent slash out).length < PUREUNIX_MAX_PATH := by omega
    rw [if_neg h0, if_neg h1, if_pos h2, if_neg (not_or.2 ⟨h0, h1⟩), if_pos h2, if_pos this]
  · rw [if_neg h0, if_neg h1, if_neg h2, if_neg (not_or.2 ⟨h0, h1⟩), if_neg h2]

theorem foldlM_appendComponent {ts : List Text} {r : Text} (hout : out.length < PUREUNIX_MAX_PATH) :
    ts.foldlM appendComponent out = some r ↔
      (∀ us, us <+: ts → (us.foldl addName out).length < PUREUNIX_MAX_PATH) ∧ r = ts.foldl addName out := by
  induction ts generalizing out with
  | nil => simp [hout, eq_comm]
  | cons t ts ih =>
    rw [foldlM_cons, appendComponent_eq hout]
    by_cases ht : (addName out t).length < PUREUNIX_MAX_PATH
    · rw [if_pos ht]
      simp only [Option.bind_eq_bind, Option.bind_some]
      rw [ih ht]
      refine and_congr_left fun _ => ⟨fun h us hus => ?_, fun h us hus => ?_⟩
      · cases us with
        | nil => exact hout
        | cons u us =>
          obtain ⟨rfl, hpre⟩ := cons_prefix_cons.1 hus
          exact h us hpre
      · exact h (t :: us) (cons_prefix_cons.2 ⟨rfl, hus⟩)
    · rw [if_neg ht]
      refine iff_of_false (by simp) fun h => ht (h.1 [t] (by simp))

/-! ## Cutting a path -/

/-! ## `resolve_path` -/

section
variable {V : View} {c : Cred} {followFinal : Bool} {w w' : Walk} {s : Ref} {k n : Nat} {dir todo : List Text} {f : Text}

end

section
variable {V : View} {c : Cred} {followFinal : Bool} {w w' : Walk}

theorem keeps_length : Keeps V c (·.length < PUREUNIX_MAX_PATH) where
  root := by decide
  up := fun {p} h => by
    have := parent_length p
    have : (1) < PUREUNIX_MAX_PATH := by decide
    omega
  enter := fun _ _ _ hfit => hfit

end

/-! ## Link targets -/

/-! ## When every builder is safe -/

section
variable {σ : Type}

theorem normalizeStart_length (cwd path : Text) : (normalizeStart cwd path).length < PUREUNIX_MAX_PATH := by
  unfold normalizeStart
  split
  · decide
  · rw [length_take]
    exact lt_of_le_of_lt (min_le_left _ _) (by decide)

end

end PureUnix.Vfs
