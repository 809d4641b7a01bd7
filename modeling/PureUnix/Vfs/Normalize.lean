import PureUnix.Vfs.Bounds

/-!
# `vfs_normalize` is lexical normalisation

The reference works on lists of names: it starts at the root or at the working directory, drops empty and "." fields, takes a
name off for ".." and writes the names with single slashes. `vfs_normalize` edits a string with `strrchr` and `strcat`, over the tokens
of `strtok_r`; over the root the names of a `Place` are those of the reference (`Place.foldl_root`).
-/
namespace PureUnix.Vfs

open Lib List Nat
open PathText

/-! ## The reference -/

def Component (n : Text) : Prop := n ≠ [] ∧ slash ∉ n ∧ n ≠ dotName ∧ n ≠ dotdotName

/-- An absolute path without empty, "." or ".." components, or just "/". -/
def Absolute (path : Text) : Prop :=
  path = [slash] ∨ path.head? = some slash ∧ ∀ f ∈ split slash (path.drop 1), f ≠ [] ∧ f ≠ dotName ∧ f ≠ dotdotName

def namesOf (path : Text) : List Text := if path = [slash] then [] else split slash (path.drop 1)

def lexStart (cwd path : Text) : List Text := if path.head? = some slash then [] else namesOf cwd

def lexical (cwd path : Text) : List Text := (split slash path).foldl lexStep (lexStart cwd path)

section
variable {names fields us : List Text} {path cwd s : Text}

/-! ## Names and their text -/

theorem namesOf_component (h : Absolute path) : ∀ n ∈ namesOf path, Component n := by
  intro n hn
  unfold namesOf at hn
  split at hn
  · cases hn
  rename_i hroot
  rcases h with h | ⟨-, h⟩
  · exact absurd h hroot
  · obtain ⟨h0, h1, h2⟩ := h n hn
    exact ⟨h0, notMem_of_mem_split hn, h1, h2⟩

theorem render_namesOf (h : Absolute path) : render slash (namesOf path) = path := by
  unfold namesOf
  split
  · rename_i hroot
    rw [hroot]
    rfl
  rename_i hroot
  have hhead : path.head? = some slash := by
    rcases h with h | h
    · exact absurd h hroot
    · exact h.1
  rw [render_of_ne_nil (split_ne_nil _), split_flatMap]
  cases path with
  | nil => cases hhead
  | cons c rest =>
    rw [head?_cons, Option.some.injEq] at hhead
    rw [hhead]
    rfl

section
variable (h : ∀ n ∈ names, Component n)
include h

theorem Component.good : PathText.Good slash names := fun n hn => ⟨(h n hn).1, (h n hn).2.1⟩

theorem absolute_render : Absolute (render slash names) := by
  by_cases h0 : names = []
  · subst h0
    exact .inl rfl
  · refine .inr ⟨render_head names, fun f hf => ?_⟩
    rw [split_render (Component.good h) h0] at hf
    exact ⟨(h f hf).1, (h f hf).2.2⟩

end

/-! ## One step -/

theorem Place.text_root (names : List Text) : (⟨[slash], names⟩ : Place).text = render slash names := by
  simp [Place.text, render]

theorem Place.foldl_root (fields names : List Text) : fields.foldl Place.step ⟨[slash], names⟩ = ⟨[slash], fields.foldl lexStep names⟩ := by
  induction fields generalizing names with
  | nil => rfl
  | cons f fields ih =>
    have hstep : Place.step ⟨[slash], names⟩ f = ⟨[slash], lexStep names f⟩ := by
      unfold Place.step
      split
      · rename_i hc
        obtain ⟨rfl, rfl⟩ := hc
        rfl
      · rfl
    rw [foldl_cons, foldl_cons, hstep, ih]

section
variable (h : ∀ n ∈ names, Component n)
include h

theorem lexStep_component {field : Text} (hs : slash ∉ field) : ∀ n ∈ lexStep names field, Component n := by
  unfold lexStep
  split
  · exact h
  rename_i h1
  split
  · exact fun n hn => h n (dropLast_subset _ hn)
  rename_i h2
  intro n hn
  rcases mem_append.1 hn with hn | hn
  · exact h n hn
  · rw [mem_singleton.1 hn]
    exact ⟨fun h0 => h1 (.inl h0), hs, fun h0 => h1 (.inr h0), h2⟩

theorem foldl_lexStep_component (hs : ∀ f ∈ fields, slash ∉ f) : ∀ n ∈ fields.foldl lexStep names, Component n := by
  induction fields generalizing names with
  | nil => exact h
  | cons f fields ih =>
    exact ih (lexStep_component h (hs f (by simp))) fun g hg => hs g (by simp [hg])

/-- The loop of `vfs_normalize` is the reference. -/
theorem foldl_addName_render (hs : ∀ f ∈ fields, slash ∉ f) :
    fields.foldl addName (render slash names) = render slash (fields.foldl lexStep names) := by
  have hok : (⟨[slash], names⟩ : Place).Ok := ⟨by simp, Component.good h⟩
  rw [← Place.text_root, (hok.foldl hs).1, Place.foldl_root, Place.text_root]

end

theorem foldl_lexStep_filter (fields names : List Text) : (fields.filter (· ≠ [])).foldl lexStep names = fields.foldl lexStep names := by
  induction fields generalizing names with
  | nil => rfl
  | cons f fields ih =>
    by_cases h0 : f = []
    · have hstep : lexStep names f = names := by rw [lexStep, if_pos (.inl h0)]
      rw [filter_cons_of_neg (by simpa using h0), foldl_cons, hstep, ih]
    · rw [filter_cons_of_pos (by simpa using h0), foldl_cons, foldl_cons, ih]

theorem exists_prefix_of_filter (h : us <+: fields.filter (· ≠ [])) : ∃ gs, gs <+: fields ∧ us = gs.filter (· ≠ []) := by
  induction fields generalizing us with
  | nil => exact ⟨[], prefix_rfl, by simpa using h⟩
  | cons f fields ih =>
    by_cases h0 : f = []
    · rw [filter_cons_of_neg (by simpa using h0)] at h
      obtain ⟨gs, hgs, rfl⟩ := ih h
      exact ⟨f :: gs, cons_prefix_cons.2 ⟨rfl, hgs⟩, by rw [filter_cons_of_neg (by simpa using h0)]⟩
    rw [filter_cons_of_pos (by simpa using h0)] at h
    cases us with
    | nil => exact ⟨[], nil_prefix, rfl⟩
    | cons u us =>
      obtain ⟨rfl, hpre⟩ := cons_prefix_cons.1 h
      obtain ⟨gs, hgs, rfl⟩ := ih hpre
      exact ⟨u :: gs, cons_prefix_cons.2 ⟨rfl, hgs⟩, by rw [filter_cons_of_pos (by simpa using h0)]⟩

/-! ## The whole path -/

theorem tokens_normalizeText (path : Text) : tokens (normalizeText path) = tokens path := by
  unfold normalizeText
  split
  · rename_i hhead
    cases path with
    | nil => cases hhead
    | cons c rest =>
      rw [head?_cons, Option.some.injEq] at hhead
      rw [hhead]
      exact (Ext2.tokens_append_slash [] rest).symm
  · rfl

theorem lexStart_component (h : Absolute cwd) : ∀ n ∈ lexStart cwd path, Component n := by
  unfold lexStart
  split
  · exact fun n hn => by cases hn
  · exact namesOf_component h

theorem normalizeStart_eq (h : Absolute cwd) (hc : cwd.length < PUREUNIX_MAX_PATH) :
    normalizeStart cwd path = render slash (lexStart cwd path) := by
  unfold normalizeStart lexStart
  split
  · rfl
  have hne : cwd ≠ [] := by
    rintro rfl
    rcases h with h | h
    · cases h
    · cases h.1
  rw [if_neg hne, take_of_length_le (by omega), render_namesOf h]

theorem render_ne_nil (names : List Text) : render slash names ≠ [] := fun h0 => by
  have := @PathText.render_head _ slash names
  rw [h0] at this
  cases this

/-- The names do not overrun the buffer on the way. -/
def FitsOnTheWay (cwd path : Text) : Prop :=
  ∀ us, us <+: split slash path → (render slash (us.foldl lexStep (lexStart cwd path))).length < PUREUNIX_MAX_PATH

theorem vfsNormalize_eq (hcwd : Absolute cwd) (hc : cwd.length < PUREUNIX_MAX_PATH) (hp : path.length < PUREUNIX_MAX_PATH)
    (hfit : FitsOnTheWay cwd path) : vfsNormalize cwd path = some (render slash (lexical cwd path)) := by
  have hstart := @lexStart_component path _ hcwd
  have hslash : ∀ {fs : List Text}, fs <+: split slash path → ∀ f ∈ fs, slash ∉ f := fun hfs f hf =>
    notMem_of_mem_split (hfs.subset hf)
  by_cases h0 : path = []
  · subst h0
    have hnames : lexical cwd [] = namesOf cwd := by simp [lexical, lexStart, split, lexStep]
    rw [vfsNormalize, if_pos rfl, take_of_length_le (by omega), hnames, render_namesOf hcwd]
  have hcut : (normalizeText path).take (PUREUNIX_MAX_PATH - 1) = normalizeText path := by
    refine take_of_length_le ?_
    unfold normalizeText
    split
    · rw [length_drop]
      omega
    · omega
  have htoks : tokens (normalizeText path) = (split slash path).filter (· ≠ []) := by
    rw [tokens_normalizeText, tokens, Ext2.tokens_eq_split]
  rw [vfsNormalize, if_neg h0, hcut, htoks, Option.map_eq_some_iff]
  refine ⟨render slash (lexical cwd path), ?_, if_neg (render_ne_nil _)⟩
  rw [foldlM_appendComponent (normalizeStart_length cwd path), normalizeStart_eq hcwd hc]
  constructor
  · intro us hus
    obtain ⟨gs, hgs, rfl⟩ := exists_prefix_of_filter hus
    rw [foldl_addName_render hstart fun f hf => hslash hgs f (mem_of_mem_filter hf), foldl_lexStep_filter]
    exact hfit gs hgs
  · rw [foldl_addName_render hstart fun f hf => hslash prefix_rfl f (mem_of_mem_filter hf), foldl_lexStep_filter]
    rfl

theorem lexical_component (h : Absolute cwd) : ∀ n ∈ lexical cwd path, Component n :=
  foldl_lexStep_component (lexStart_component h) fun _ hf => notMem_of_mem_split hf

theorem vfsNormalize_absolute (hhead : path.head? = some slash) (cwd cwd' : Text) : vfsNormalize cwd' path = vfsNormalize cwd path := by
  have hne : path ≠ [] := by
    rintro rfl
    cases hhead
  rw [vfsNormalize, vfsNormalize, if_neg hne, if_neg hne, normalizeStart, normalizeStart, if_pos hhead, if_pos hhead]

theorem foldl_lexStep_of_component (h : ∀ n ∈ names, Component n) (start : List Text) : names.foldl lexStep start = start ++ names := by
  induction names generalizing start with
  | nil => simp
  | cons n names ih =>
    have hn := h n (by simp)
    have hstep : lexStep start n = start ++ [n] := by
      rw [lexStep, if_neg (not_or.2 ⟨hn.1, hn.2.2.1⟩), if_neg hn.2.2.2]
    rw [foldl_cons, hstep, ih fun m hm => h m (by simp [hm]), append_assoc]
    rfl

theorem tokens_render (h : ∀ n ∈ names, Component n) : (split slash (render slash names)).filter (· ≠ []) = names := by
  by_cases h0 : names = []
  · subst h0
    rfl
  rw [render_of_ne_nil h0, split_flatMap_good (Component.good h), filter_cons_of_neg (by simp)]
  exact filter_eq_self.2 fun n hn => by simpa using (h n hn).1

theorem render_prefix_length (h : us <+: names) : (render slash us).length ≤ (render slash names).length := by
  by_cases h0 : us = []
  · subst h0
    have hpos := length_pos_of_ne_nil (render_ne_nil names)
    exact hpos
  · obtain ⟨vs, rfl⟩ := h
    rw [render_of_ne_nil h0, render_of_ne_nil (by simp [h0]), flatMap_append, length_append]
    exact le_add_right _ _

/-- A normal path is its own normal form, from wherever it is taken. -/
theorem vfsNormalize_render (h : ∀ n ∈ names, Component n) (hlen : (render slash names).length < PUREUNIX_MAX_PATH) (cwd : Text) :
    vfsNormalize cwd (render slash names) = some (render slash names) := by
  have hhead := @PathText.render_head _ slash names
  have hstart : lexStart [slash] (render slash names) = [] := if_pos hhead
  have hfold : ∀ {us : List Text}, us.filter (· ≠ []) <+: names → us.foldl lexStep [] = us.filter (· ≠ []) := by
    intro us hus
    rw [← foldl_lexStep_filter, foldl_lexStep_of_component (fun n hn => h n (hus.subset hn)), nil_append]
  rw [vfsNormalize_absolute hhead [slash] cwd, vfsNormalize_eq (.inl rfl) (by decide) hlen]
  · rw [lexical, hstart, hfold (by rw [tokens_render h]), tokens_render h]
  · intro us hus
    have hpre : us.filter (· ≠ []) <+: names := by
      have := hus.filter (fun n => decide (n ≠ []))
      rwa [tokens_render h] at this
    rw [hstart, hfold hpre]
    exact lt_of_le_of_lt (render_prefix_length hpre) hlen

/-- **`vfs_normalize` is lexical normalisation.** From a normal working directory, with everything within 255 bytes, it gives the
reference's path; that path is absolute and normal, is its own normal form from any directory, and an absolute argument gives it from
any directory. -/
theorem vfsNormalize_lexical (cwd path : Text) (hcwd : Absolute cwd) (hc : cwd.length ≤ 255) (hp : path.length ≤ 255)
    (hfit : ∀ us, us <+: split slash path → (render slash (us.foldl lexStep (lexStart cwd path))).length ≤ 255) :
    ∃ out, vfsNormalize cwd path = some out ∧ out = render slash (lexical cwd path) ∧ Absolute out ∧
      (∀ cwd', vfsNormalize cwd' out = some out) ∧ (path.head? = some slash → ∀ cwd', vfsNormalize cwd' path = some out) := by
  have hmax : PUREUNIX_MAX_PATH = 255 + 1 := rfl
  have heq := vfsNormalize_eq hcwd (by omega) (by omega) fun us hus => lt_succ_of_le (hfit us hus)
  have hnames := @lexical_component path _ hcwd
  have hlen := lt_succ_of_le (hfit _ prefix_rfl)
  refine ⟨_, heq, rfl, absolute_render hnames, vfsNormalize_render hnames hlen, fun hhead cwd' => ?_⟩
  rw [vfsNormalize_absolute hhead cwd cwd', heq]

end

/-- "../b//./c" taken from "/a/d" is "/a/b/c". -/
theorem vfsNormalize_lexical_up : Absolute [slash, 97, slash, 100] ∧
    ∃ out, vfsNormalize [slash, 97, slash, 100] [46, 46, slash, 98, slash, slash, 46, slash, 99] = some out ∧
      out = [slash, 97, slash, 98, slash, 99] := by
  have habs : Absolute [slash, 97, slash, 100] := .inr ⟨rfl, by decide⟩
  obtain ⟨out, hout, hlex, -⟩ := vfsNormalize_lexical [slash, 97, slash, 100] [46, 46, slash, 98, slash, slash, 46, slash, 99] habs
    (by decide) (by decide) (by
      intro us hus
      rw [← mem_inits] at hus
      revert us
      decide)
  exact ⟨habs, out, hout, hlex⟩

end PureUnix.Vfs
