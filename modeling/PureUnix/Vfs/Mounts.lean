import PureUnix.Vfs.Normalize

/-!
# The mount table

`vfs_mount`, `vfs_find_mount` and `vfs_dispatch` (vfs.c:62-142) over a table whose entries hold a mountpoint and what was registered for
it: type, operations and private data, an `α` here. `Sys.findMount` is the case where that is the type (`findMount_eq`).

The test of `path_under_mount` on characters is a prefix test on components (`pathUnderMount_iff`), so the longest mountpoint in
characters is the one with the most components.
-/
namespace PureUnix.Vfs

open Lib List Nat Option PathText

variable {s m p : Text}

def VFS_MAX_MOUNTS : Nat := 8

/-- `mount_table`: mountpoints and what is registered for them. -/
abbrev Table (α : Type) := List (Text × α)

namespace Table
variable {α : Type}

/-- The loop of `vfs_mount`: the first entry with the mountpoint gets the new registration. -/
def replace (mountpoint : Text) (reg : α) : Table α → Option (Table α)
  | [] => none
  | e :: t => if e.1 = mountpoint then some ((e.1, reg) :: t) else (replace mountpoint reg t).map (e :: ·)

/-- `vfs_mount` (vfs.c:62); without operations nothing is registered. -/
def vfsMount (mountpoint : Text) : Option α → Table α → Int × Table α
  | none, t => (-1, t)
  | some reg, t =>
    match replace mountpoint reg t with
    | some t' => (0, t')
    | none => if VFS_MAX_MOUNTS ≤ t.length then (-1, t) else (0, t ++ [(mountpoint.take (PUREUNIX_MAX_PATH - 1), reg)])

/-- A sequence of calls, from the empty table of `vfs_init`. -/
def mounted (calls : List (Text × Option α)) : Table α := calls.foldl (fun t c => (vfsMount c.1 c.2 t).2) []

/-- `vfs_find_mount` (vfs.c:97). -/
def findMount (t : Table α) (path : Text) : Option (Text × α) :=
  if path.head? ≠ some slash then none
  else
    t.foldl (fun best e =>
      if pathUnderMount path e.1 = true ∧ (best.elim 0 fun b => b.1.length) ≤ e.1.length then some e else best) none

/-- `rest` in `vfs_dispatch`. -/
def subPath (mountpoint path : Text) : Text :=
  let rest := if mountpoint.length ≤ 1 then path else path.drop mountpoint.length
  if rest = [] then [slash] else rest

/-- `vfs_dispatch` (vfs.c:130) with a buffer of `PUREUNIX_MAX_PATH` bytes. -/
def dispatch (t : Table α) (path : Text) : Option ((Text × α) × Text) :=
  (t.findMount path).map fun e => (e, (subPath e.1 path).take (PUREUNIX_MAX_PATH - 1))

end Table

/-! ## The table of a system -/

section
variable {σ : Type} (S : Sys σ)

/-- The mount table of a system; the type stands for what is registered. -/
def Sys.table : Table FsType := S.mounts.map fun m => (m.mountpoint, m.type)

theorem findMount_eq (path : Text) : S.findMount path = (S.table.findMount path).map fun e => ⟨e.1, e.2⟩ := by
  unfold Sys.findMount Table.findMount Sys.table
  split
  · rfl
  -- the best mount so far, in either form
  rw [foldl_map]
  induction S.mounts using reverseRecOn with
  | nil => rfl
  | append_singleton ms m ih =>
    simp only [foldl_append, ih, foldl_cons, foldl_nil]
    generalize ms.foldl _ (none : Option (Text × FsType)) = best
    cases best with
    | none => simp [apply_ite]
    | some b => by_cases hb : pathUnderMount path m.mountpoint = true ∧ b.1.length ≤ m.mountpoint.length <;> simp [hb]

theorem dispatch_eq (path : Text) : S.dispatch path = (S.table.dispatch path).map fun r => (⟨r.1.1, r.1.2⟩, r.2) := by
  simp only [Sys.dispatch, Table.dispatch, findMount_eq, Option.map_map]
  rfl

end

/-! ## Characters and components -/

section
variable {mnt path : Text}

/-- The components of `mnt` are the first ones of `path`. -/
def Covers (mnt path : Text) : Prop := namesOf mnt <+: namesOf path

theorem namesOf_cons (h : s ≠ []) : namesOf (slash :: s) = split slash s := by
  simp [namesOf, h]

theorem head?_eq_slash : s.head? = some slash ↔ ∃ r, s = slash :: r := by
  cases s <;> simp

theorem split_prefix_iff : split slash m <+: split slash p ↔
    ∃ rest, p = m ++ rest ∧ (rest = [] ∨ rest.head? = some slash) := by
  constructor
  · rintro ⟨fs, hfs⟩
    have htext := @split_flatMap _ slash _ p
    rw [← hfs, flatMap_append, split_flatMap, cons_append, cons.injEq] at htext
    refine ⟨fs.flatMap (slash :: ·), htext.2.symm, ?_⟩
    cases fs <;> simp
  · rintro ⟨rest, rfl, rfl | hrest⟩
    · rw [append_nil]
    · obtain ⟨r, rfl⟩ := head?_eq_slash.1 hrest
      rw [split_append_sep]
      exact prefix_append _ _

theorem pathUnderMount_cons (h : m ≠ []) : pathUnderMount (slash :: p) (slash :: m) = true ↔
    ∃ rest, p = m ++ rest ∧ (rest = [] ∨ rest.head? = some slash) := by
  have hlen : ¬ m.length + 1 ≤ 1 := by simpa using h
  simp only [pathUnderMount, Bool.and_eq_true, Bool.or_eq_true, beq_iff_eq, isPrefixOf_iff_prefix, cons_prefix_cons,
    true_and, length_cons, drop_succ_cons, head?_eq_none_iff, decide_eq_true_eq, hlen, false_or]
  constructor
  · rintro ⟨⟨rest, rfl⟩, hnext⟩
    rw [drop_left] at hnext
    exact ⟨rest, rfl, hnext⟩
  · rintro ⟨rest, rfl, hnext⟩
    rw [drop_left]
    exact ⟨⟨rest, rfl⟩, hnext⟩

/-- **The test on characters is a test on components.** -/
theorem pathUnderMount_iff (hm : mnt.head? = some slash) (hp : path.head? = some slash) : pathUnderMount path mnt = true ↔ Covers mnt path := by
  obtain ⟨m, rfl⟩ := head?_eq_slash.1 hm
  obtain ⟨p, rfl⟩ := head?_eq_slash.1 hp
  have hroot : namesOf [slash] = [] := rfl
  unfold Covers
  by_cases hm0 : m = []
  · simp [hm0, hroot, pathUnderMount]
  rw [pathUnderMount_cons hm0, namesOf_cons hm0]
  by_cases hp0 : p = []
  · simp [hp0, hroot, hm0, split_ne_nil]
  · rw [namesOf_cons hp0, split_prefix_iff]

end

/-! ## What the calls leave in the table -/

namespace Table
section
variable {α : Type} {mnt : Text} {reg : α} {t t' : Table α} {calls : List (Text × α)}

theorem replace_none_iff : replace mnt reg t = none ↔ mnt ∉ t.map Prod.fst := by
  induction t with
  | nil => simp [replace]
  | cons e t ih =>
    rw [replace]
    split <;> simp_all [eq_comm]

theorem replace_some (h : replace mnt reg t = some t') : ∃ l r old, t = l ++ (mnt, old) :: r ∧ t' = l ++ (mnt, reg) :: r := by
  induction t generalizing t' with
  | nil => cases h
  | cons e t ih =>
    rw [replace] at h
    split at h
    · rename_i he
      cases h
      exact ⟨[], t, e.2, by simp [← he], by simp [he]⟩
    · obtain ⟨u, hu, rfl⟩ := map_eq_some_iff.1 h
      obtain ⟨l, r, old, rfl, rfl⟩ := ih hu
      exact ⟨e :: l, r, old, rfl, rfl⟩

/-- What a table holds after the calls: one entry for a mountpoint, with the registration given last, and while there is room every
mountpoint given. -/
structure Holds (calls : List (Text × α)) (t : Table α) : Prop where
  nodup : (t.map Prod.fst).Nodup
  length_le : t.length ≤ VFS_MAX_MOUNTS
  kept : ∀ c ∈ calls, c.1 ∈ t.map Prod.fst ∨ t.length = VFS_MAX_MOUNTS
  latest : ∀ e ∈ t, (calls.filter (·.1 = e.1)).getLast? = some e

theorem Holds.mem_calls (h : Holds calls t) {e : Text × α} (he : e ∈ t) : e ∈ calls :=
  mem_of_mem_filter (mem_of_getLast? (h.latest e he))

theorem Holds.latest_append (h : Holds calls t) {e : Text × α} (he : e ∈ t) (hne : mnt ≠ e.1) :
    ((calls ++ [(mnt, reg)]).filter (·.1 = e.1)).getLast? = some e := by
  rw [filter_append, filter_cons_of_neg (by simpa using hne), filter_nil, append_nil]
  exact h.latest e he

theorem latest_self : ((calls ++ [(mnt, reg)]).filter (·.1 = mnt)).getLast? = some (mnt, reg) := by
  simp

theorem Holds.replaced {l r : Table α} {old : α} (h : Holds calls (l ++ (mnt, old) :: r)) :
    Holds (calls ++ [(mnt, reg)]) (l ++ (mnt, reg) :: r) := by
  have hpoints : (l ++ (mnt, reg) :: r).map Prod.fst = (l ++ (mnt, old) :: r).map Prod.fst := by simp
  have hlen : (l ++ (mnt, reg) :: r).length = (l ++ (mnt, old) :: r).length := by simp
  have hnodup := h.nodup
  simp only [map_append, map_cons, nodup_append, nodup_cons] at hnodup
  refine ⟨hpoints ▸ h.nodup, hlen ▸ h.length_le, fun c hc => ?_, fun e he => ?_⟩
  · rw [hpoints, hlen]
    rcases mem_append.1 hc with hc | hc
    · exact h.kept c hc
    · rw [mem_singleton.1 hc]
      exact .inl (by simp)
  · rcases mem_append.1 he with hl | he
    · exact h.latest_append (mem_append_left _ hl) fun heq =>
        hnodup.2.2 e.1 (mem_map_of_mem hl) mnt (by simp) heq.symm
    · rcases mem_cons.1 he with rfl | hr
      · exact latest_self
      · exact h.latest_append (mem_append_right _ (mem_cons_of_mem _ hr)) fun heq =>
          hnodup.2.1.1 (heq ▸ mem_map_of_mem hr)

theorem Holds.appended (h : Holds calls t) (hnot : mnt ∉ t.map Prod.fst) (hroom : t.length < VFS_MAX_MOUNTS) :
    Holds (calls ++ [(mnt, reg)]) (t ++ [(mnt, reg)]) := by
  refine ⟨?_, by rwa [length_append], fun c hc => .inl ?_, fun e he => ?_⟩
  · rw [map_append, nodup_append]
    exact ⟨h.nodup, by simp, fun a ha b hb => by simp at hb; exact fun heq => hnot (by rw [← hb, ← heq]; exact ha)⟩
  · rw [map_append, mem_append]
    rcases mem_append.1 hc with hc | hc
    · exact .inl ((h.kept c hc).resolve_right hroom.ne)
    · exact .inr (mem_map_of_mem hc)
  · rcases mem_append.1 he with he | he
    · exact h.latest_append he fun heq => hnot (heq ▸ mem_map_of_mem he)
    · rw [mem_singleton.1 he]
      exact latest_self

theorem Holds.refused (h : Holds calls t) (hnot : mnt ∉ t.map Prod.fst) (hfull : VFS_MAX_MOUNTS ≤ t.length) :
    Holds (calls ++ [(mnt, reg)]) t :=
  ⟨h.nodup, h.length_le, fun _ _ => .inr (le_antisymm h.length_le hfull),
    fun _ he => h.latest_append he fun heq => hnot (heq ▸ mem_map_of_mem he)⟩

theorem Holds.mount (h : Holds calls t) (hlen : mnt.length < PUREUNIX_MAX_PATH) :
    Holds (calls ++ [(mnt, reg)]) (vfsMount mnt (some reg) t).2 := by
  rw [vfsMount]
  cases hr : replace mnt reg t with
  | some t' =>
    obtain ⟨l, r, old, rfl, rfl⟩ := replace_some hr
    exact h.replaced
  | none =>
    have hnot := replace_none_iff.1 hr
    by_cases hfull : VFS_MAX_MOUNTS ≤ t.length
    · simpa only [if_pos hfull] using h.refused hnot hfull
    · have hfits : mnt.take (PUREUNIX_MAX_PATH - 1) = mnt := take_of_length_le (by omega)
      simpa only [if_neg hfull, hfits] using h.appended hnot (Nat.lt_of_not_le hfull)

def given (calls : List (Text × Option α)) : List (Text × α) := calls.filterMap fun c => c.2.map (c.1, ·)

theorem holds_mounted {calls : List (Text × Option α)} (h : ∀ c ∈ calls, c.1.length < PUREUNIX_MAX_PATH) :
    Holds (given calls) (mounted calls) := by
  induction calls using reverseRecOn with
  | nil => exact ⟨by simp [mounted], by simp [mounted], by simp [given], by simp [mounted]⟩
  | append_singleton calls c ih =>
    have hc := ih fun c hc => h c (mem_append_left _ hc)
    obtain ⟨mnt, reg⟩ := c
    unfold mounted given at *
    rw [foldl_append, filterMap_append]
    cases reg with
    | none => simpa [vfsMount] using hc
    | some reg => exact hc.mount (h _ (by simp))

/-! ## The mount of a path -/

/-- The loop of `vfs_find_mount`: of the entries with `P` the last of the longest. -/
theorem best_spec {β : Type} (P : β → Prop) [DecidablePred P] (f : β → Nat) (t : List β) :
    match t.foldl (fun best e => if P e ∧ best.elim 0 f ≤ f e then some e else best) none with
    | none => ∀ e ∈ t, ¬ P e
    | some b => b ∈ t ∧ P b ∧ ∀ e ∈ t, P e → f e ≤ f b := by
  induction t using reverseRecOn with
  | nil => simp
  | append_singleton t e ih =>
    rw [foldl_append]
    revert ih
    generalize t.foldl _ none = best
    intro ih
    cases best with
    | none => by_cases he : P e <;> simp_all [or_imp]
    | some b =>
      obtain ⟨hb, hPb, hmax⟩ := ih
      by_cases he : P e ∧ f b ≤ f e
      · have hstep : [e].foldl (fun best e => if P e ∧ best.elim 0 f ≤ f e then some e else best) (some b) = some e := if_pos he
        rw [hstep]
        exact ⟨by simp, he.1, fun x hx hPx => (mem_append.1 hx).elim (fun h => (hmax x h hPx).trans he.2) (by simp +contextual)⟩
      have hstep : [e].foldl (fun best e => if P e ∧ best.elim 0 f ≤ f e then some e else best) (some b) = some b := if_neg he
      rw [hstep]
      refine ⟨by simp [hb], hPb, fun x hx hPx => (mem_append.1 hx).elim (fun h => hmax x h hPx) fun h => ?_⟩
      rw [mem_singleton.1 h] at hPx ⊢
      exact Nat.le_of_not_le fun hle => he ⟨hPx, hle⟩

/-- What `vfs_dispatch` hands down of a path under a mountpoint. -/
def Rest (mnt path sub : Text) : Prop :=
  mnt = [slash] ∧ sub = path ∨ mnt ≠ [slash] ∧ (mnt ++ sub = path ∨ mnt = path ∧ sub = [slash])

theorem rest_subPath {path : Text} (h : pathUnderMount path mnt = true) (hm : mnt.head? = some slash) (hp : path ≠ []) :
    Rest mnt path (subPath mnt path) := by
  obtain ⟨m, rfl⟩ := head?_eq_slash.1 hm
  have hpre : (slash :: m) <+: path := by
    exact isPrefixOf_iff_prefix.1 (Bool.and_eq_true_iff.1 h).1
  obtain ⟨rest, rfl⟩ := hpre
  by_cases hm0 : m = []
  · exact .inl (by simp [hm0, subPath])
  refine .inr ⟨by simpa using hm0, ?_⟩
  unfold subPath
  by_cases hrest : rest = []
  · simp [hrest, hm0]
  · simp [hrest, hm0]

/-- **Dispatch picks the longest covering mount and loses nothing.** -/
theorem dispatch_longest (calls : List (Text × Option α)) (path : Text)
    (hcalls : ∀ c ∈ calls, c.1.head? = some slash ∧ c.1.length < PUREUNIX_MAX_PATH)
    (hp : path.head? = some slash) (hlen : path.length < PUREUNIX_MAX_PATH) :
    Holds (given calls) (mounted calls) ∧
    match (mounted calls).dispatch path with
    | none => (mounted calls).findMount path = none ∧ ∀ e ∈ mounted calls, ¬ Covers e.1 path
    | some (e, sub) => (mounted calls).findMount path = some e ∧ e ∈ mounted calls ∧ Covers e.1 path ∧
        Rest e.1 path sub ∧
        ∀ e' ∈ mounted calls, Covers e'.1 path → e' ≠ e → e'.1.length < e.1.length := by
  have holds := holds_mounted fun c hc => (hcalls c hc).2
  refine ⟨holds, ?_⟩
  have habs : ∀ e ∈ mounted calls, e.1.head? = some slash := by
    intro e he
    obtain ⟨c, hc, hcg⟩ := mem_filterMap.1 (holds.mem_calls he)
    obtain ⟨reg, -, rfl⟩ := map_eq_some_iff.1 hcg
    exact (hcalls c hc).1
  have hcov : ∀ e ∈ mounted calls, (pathUnderMount path e.1 = true ↔ Covers e.1 path) := fun e he => pathUnderMount_iff (habs e he) hp
  have hbest := best_spec (fun e : Text × α => pathUnderMount path e.1 = true) (fun e => e.1.length) (mounted calls)
  have hfind : (mounted calls).findMount path = (mounted calls).foldl (fun best e =>
      if pathUnderMount path e.1 = true ∧ (best.elim 0 fun b => b.1.length) ≤ e.1.length then some e else best) none := by
    simp [findMount, hp]
  rw [← hfind] at hbest
  unfold dispatch
  cases he : (mounted calls).findMount path with
  | none =>
    rw [he] at hbest
    exact ⟨rfl, fun e hm hc => hbest e hm ((hcov e hm).2 hc)⟩
  | some e =>
    rw [he] at hbest
    obtain ⟨hm, hu, hmax⟩ := hbest
    have hpne : path ≠ [] := by rintro rfl; cases hp
    have hrest := rest_subPath hu (habs e hm) hpne
    have hfits : (subPath e.1 path).take (PUREUNIX_MAX_PATH - 1) = subPath e.1 path := by
      have h256 : PUREUNIX_MAX_PATH = 256 := rfl
      refine take_of_length_le ?_
      unfold subPath
      by_cases h1 : e.1.length ≤ 1
      · simp only [h1, if_true, if_neg hpne]
        omega
      simp only [h1, if_false]
      split
      · simp [h256]
      · rw [length_drop]
        omega
    refine ⟨rfl, hm, (hcov e hm).1 hu, by rw [hfits]; exact hrest, fun e' hm' hc' hne => ?_⟩
    have hu' := (hcov e' hm').2 hc'
    refine lt_of_le_of_ne (hmax e' hm' hu') fun hl => hne ?_
    -- two prefixes of the path of one length are one mountpoint, which has one entry
    have hpre : ∀ {m : Text}, pathUnderMount path m = true → m <+: path := fun h =>
      isPrefixOf_iff_prefix.1 (Bool.and_eq_true_iff.1 h).1
    have heq : e'.1 = e.1 := (prefix_of_prefix_length_le (hpre hu') (hpre hu) hl.le).eq_of_length hl
    exact inj_on_of_nodup_map holds.nodup hm' hm heq

/-- "/f" is mounted twice; "/f/a" goes to the second registration as "/a". -/
theorem dispatch_longest_remounted :
    (mounted [([slash], some 1), ([slash, 102], some 2), ([slash, 102], some 3)]).dispatch [slash, 102, slash, 97] =
      some (([slash, 102], 3), [slash, 97]) ∧ Covers [slash, 102] [slash, 102, slash, 97] := by
  have h := (dispatch_longest [([slash], some 1), ([slash, 102], some 2), ([slash, 102], some 3)] [slash, 102, slash, 97]
    (by decide) rfl (by decide)).2
  have hd : (mounted [([slash], some 1), ([slash, 102], some 2), ([slash, 102], some 3)]).dispatch [slash, 102, slash, 97] =
      some (([slash, 102], 3), [slash, 97]) := by decide
  exact ⟨hd, h.2.2.1⟩

end
end Table
end PureUnix.Vfs
