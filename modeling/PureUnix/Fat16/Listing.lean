import PureUnix.Fat16.Rename

/-!
# What a directory shows

`Vol.seen`: the record at an index of a directory, if it is visible. `find_in_dir` is a search in that sequence and
`fat16_readdir` (fat16.c:833) lists it. A call that adds a record (`Vol.Adds`) leaves every lookup that succeeded as it was.
-/
namespace PureUnix.Fat16

open Lib List Option
open Vol

/-- What `fat16_readdir` gives to its callback: `name`, `type` and `size` of a `vfs_dirent_t`. -/
structure Listed where
  name : Text
  directory : Bool
  size : Nat
  deriving DecidableEq, Repr

def Entry.listed (e : Entry) : Listed := ⟨nameFrom83 e, e.isDirectory, e.size⟩

/-- The loop of `fat16_readdir`, for a callback that never stops it: record `i`, `n` to go. -/
def readdirFrom (fs : Fs) (dirCluster : Nat) : Nat → Nat → Drv (List Listed)
  | 0, _ => pure []
  | n + 1, i => do
    match ← readDirEntryAt fs dirCluster i with
    | none => pure []
    | some e =>
      if e.isEnd = true then pure []
      else if e.isVisible = false then readdirFrom fs dirCluster n (i + 1)
      else do
        let rest ← readdirFrom fs dirCluster n (i + 1)
        pure (e.listed :: rest)

/-- `fat16_readdir` (fat16.c:833); `none` for -1. -/
def readdir (fs : Fs) (path : Text) : Drv (Option (List Listed)) := do
  match ← pathLookup fs path with
  | none => pure none
  | some f =>
    if f.entry.isDirectory = false then pure none
    else do
      let l ← readdirFrom fs f.entry.firstCluster (dirMax fs f.entry.firstCluster) 0
      pure (some l)

section
variable {fs : Fs} {v w : Vol} {d i k x : Nat} {p q : Place} {e : Entry} {f : Found} {fatName : Text}

/-- **`fat16_readdir` lists what is seen.** -/
theorem run_readdirFrom (h : fs.Ok) (hd : v.Sound fs d) (he : v.Ended fs d) : ∀ (n i : Nat), i + n = dirMax fs d →
    run (Vol.step fs) (readdirFrom fs d n i) v = ((range' i n).filterMap fun j => (v.seen fs d j).map Entry.listed, v) := by
  refine run_records h hd he (fun _ _ => rfl) (fun _ => rfl) (fun n i hi => ?_) fun n i p hp ih => ?_
  · refine filterMap_eq_nil_iff.2 fun j hj => ?_
    rw [hi j (mem_range'_1.1 hj).1]
    rfl
  · rw [range'_succ, filterMap_cons, Vol.seen_place hp]
    by_cases hv : (v.slot p).isVisible = true
    · rw [if_neg (by simp [hv]), if_pos hv, run_bind, ih]
      rfl
    · rw [if_pos (by simpa using hv), if_neg hv, ih]
      rfl

/-! ## One record more -/

/-- In `w` directory `d` shows the record `e` at index `k`; otherwise the directories of `v` show what they did. -/
structure Vol.Adds (fs : Fs) (v w : Vol) (d k : Nat) (e : Entry) : Prop where
  tree : w.Tree fs
  dir : ∀ x, v.Dir fs x → w.Dir fs x
  home : v.Dir fs d
  bound : k < dirMax fs d
  old : v.seen fs d k = none
  new : w.seen fs d k = some e
  same : ∀ x i, v.Dir fs x → x ≠ d ∨ i ≠ k → w.seen fs x i = v.seen fs x i

def Vol.Absent (fs : Fs) (v : Vol) (d : Nat) (fatName : Text) : Prop := ∀ i e, v.seen fs d i = some e → e.name ≠ fatName

namespace Vol.Adds

theorem split (ha : Vol.Adds fs v w d k e) : ∃ l l', range' 0 (dirMax fs d) = l ++ k :: l' ∧ k ∉ l ∧ k ∉ l' := by
  have hmem : k ∈ range' 0 (dirMax fs d) := mem_range'_1.2 ⟨Nat.zero_le _, by simpa using ha.bound⟩
  obtain ⟨l, l', hl⟩ := append_of_mem hmem
  have hnd : (l ++ k :: l').Nodup := hl ▸ nodup_range'
  rw [nodup_middle, nodup_cons, mem_append, not_or] at hnd
  exact ⟨l, l', hl, hnd.1.1, hnd.1.2⟩

theorem hit_same (ha : Vol.Adds fs v w d k e) (hx : v.Dir fs x) (hne : x ≠ d ∨ e.name ≠ fatName) : w.hit fs x fatName = v.hit fs x fatName := by
  funext i
  by_cases hi : x ≠ d ∨ i ≠ k
  · rw [hit, hit, ha.same x i hx hi]
  push Not at hi
  obtain ⟨rfl, rfl⟩ := hi
  have hname : e.name ≠ fatName := hne.resolve_left fun hc => hc rfl
  rw [hit, hit, ha.new, ha.old]
  simp [hname]

theorem find_new (ha : Vol.Adds fs v w d k e) (habs : v.Absent fs d e.name) :
    (range' 0 (dirMax fs d)).findSome? (w.hit fs d e.name) = some ⟨e, d, k⟩ := by
  obtain ⟨l, l', hl, hk, -⟩ := ha.split
  refine findSome?_eq_some_iff.2 ⟨l, k, l', hl, ?_, fun i hi => ?_⟩
  · rw [hit, ha.new]
    simp
  · have hik : i ≠ k := fun hc => hk (hc ▸ hi)
    rw [hit, ha.same d i ha.home (.inr hik)]
    cases hs : v.seen fs d i with
    | none => rfl
    | some e' => simp [habs i e' hs]

theorem listed (ha : Vol.Adds fs v w d k e) : ((range' 0 (dirMax fs d)).filterMap fun j => (w.seen fs d j).map Entry.listed).Perm
      (e.listed :: (range' 0 (dirMax fs d)).filterMap fun j => (v.seen fs d j).map Entry.listed) := by
  obtain ⟨l, l', hl, hk, hk'⟩ := ha.split
  have hsame : ∀ {s : List Nat}, k ∉ s → (s.filterMap fun j => (w.seen fs d j).map Entry.listed) =
      s.filterMap fun j => (v.seen fs d j).map Entry.listed := by
    intro s hs
    refine filterMap_congr fun j hj => ?_
    rw [ha.same d j ha.home (.inr fun hc => hs (hc ▸ hj))]
  rw [hl, filterMap_append, filterMap_append, filterMap_cons, filterMap_cons, ha.new, ha.old, hsame hk, hsame hk']
  exact perm_middle

/-- **A lookup that succeeded goes the same way, and on to one more name.** -/
theorem run_lookup_snoc (ha : Vol.Adds fs v w d k e) (habs : v.Absent fs d e.name) (h : fs.Ok) (t : v.Tree fs) (tok : Text) :
    ∀ {toks : List Text} {x : Nat}, v.Dir fs x → (∀ tok ∈ toks, v.Leads fs tok) →
      run (step fs) (lookupFrom fs x toks) v = (some f, v) →
      run (step fs) (lookupFrom fs x toks) w = (some f, w) ∧ (f.entry.isDirectory = true →
        run (step fs) (lookupFrom fs x (toks ++ [tok])) w = run (step fs) (lookupFrom fs f.entry.firstCluster [tok]) w)
  | [], x, _, _, hrun => by cases hrun
  | t' :: toks, x, hx, hl, hrun => by
    rw [lookupFrom] at hrun
    rw [cons_append, lookupFrom, lookupFrom]
    cases hn : nameTo83 t' with
    | none =>
      rw [hn] at hrun
      cases hrun
    | some fat =>
      rw [hn] at hrun
      rw [run_bind, run_findInDir_eq h t hx] at hrun
      cases hfind : (range' 0 (dirMax fs x)).findSome? (v.hit fs x fat) with
      | none =>
        rw [hfind] at hrun
        cases hrun
      | some g =>
        rw [hfind] at hrun
        -- what was found has that name, so it is not the new record's
        obtain ⟨i, -, hi⟩ := exists_of_findSome?_eq_some hfind
        obtain ⟨e', hseen, he'⟩ := bind_eq_some_iff.1 hi
        rw [ite_none_right_eq_some, some_inj] at he'
        obtain ⟨hname, rfl⟩ := he'
        have hne : x ≠ d ∨ e.name ≠ fat := by
          by_contra hc
          push Not at hc
          obtain ⟨rfl, rfl⟩ := hc
          exact habs i e' hseen hname
        have hw : (range' 0 (dirMax fs x)).findSome? (w.hit fs x fat) = some ⟨e', x, i⟩ := by
          rw [ha.hit_same hx hne, hfind]
        rw [run_bind, run_bind, run_findInDir_eq h ha.tree (ha.dir x hx), hw]
        simp only [run_ite] at hrun ⊢
        by_cases hnil : toks = []
        · subst hnil
          rw [if_pos rfl] at hrun ⊢
          obtain rfl : (⟨e', x, i⟩ : Found) = f := Option.some.inj (congrArg Prod.fst hrun)
          refine ⟨rfl, fun hdir => ?_⟩
          rw [nil_append, if_neg (by simp), if_pos hdir]
        · rw [if_neg hnil] at hrun ⊢
          by_cases hdir : e'.isDirectory = true
          · rw [if_pos hdir] at hrun ⊢
            obtain ⟨p, hp, hvis, rfl⟩ := Vol.seen_some.1 hseen
            have hnext : v.Dir fs (v.slot p).firstCluster := hl t' mem_cons_self fat hn x i p hx hp hvis hname hdir
            obtain ⟨h1, h2⟩ := run_lookup_snoc ha habs h t tok hnext (fun tok ht => hl tok (mem_cons_of_mem _ ht)) hrun
            refine ⟨h1, fun hfd => ?_⟩
            rw [if_neg (by simp), if_pos hdir]
            exact h2 hfd
          · rw [if_neg hdir] at hrun
            cases hrun

theorem run_lookup_new (ha : Vol.Adds fs v w d k e) (habs : v.Absent fs d e.name) (h : fs.Ok) {tok : Text} (hn : nameTo83 tok = some e.name) :
    run (step fs) (lookupFrom fs d [tok]) w = (some ⟨e, d, k⟩, w) := by
  rw [lookupFrom, hn]
  rw [run_bind, run_findInDir_eq h ha.tree (ha.dir d ha.home), ha.find_new habs]
  rfl

end Vol.Adds

end
end PureUnix.Fat16
