import PureUnix.Vfs.Reference

/-!
# `resolve_path` against the reference

One round of the loop is one move of the reference (`step_matches`); from this, by induction on the
rounds, the loop ends, with the reference's outcome or with `-ELOOP` where the reference follows a 41st
link. The measure is the number of links left, then the length of the text at the cursor.
-/
namespace PureUnix.Vfs

open Lib List Nat Ref
open PathText

variable {rest path : Text} {s : Ref}

/-- The loop's variables stand for a position of the reference. -/
inductive Agree (w : Walk) : Ref → Prop
  | intro {dir : List Text} : w.resolved = pathOf dir → Agree w (.at dir (fields slash w.work))

/-- The bytes of text to go behind a link with text `t`, when `n` follow it. -/
def splicedBytes (t : Text) (n : Nat) : Nat :=
  (if n = 0 then t.length else t.length + 1 + n) - if t.head? = some slash then 1 else 0

/-- The path the loop builds for the component it stands before. -/
abbrev Walk.candidate (w : Walk) : Text := append slash w.resolved (first slash w.work)

/-- A round of the loop and a move of the reference that belong together. -/
inductive Matches (V : View) (w : Walk) : Outcome ⊕ Walk → Ref.Move → Prop
  | ok (names : List Text) : Matches V w (.inl (.ok (pathOf names))) (.stop (.ok names))
  | error {e : Int} : e ≠ -ELOOP → Matches V w (.inl (.errno e)) (.stop (.error e))
  | lost : w.follows < MAX_SYMLINK_FOLLOWS → V.readlink w.candidate = none →
      Matches V w (.inl (.errno (-ENOENT))) (.link .lost)
  | loop (s : Ref) : MAX_SYMLINK_FOLLOWS ≤ w.follows → Matches V w (.inl (.errno (-ELOOP))) (.link s)
  | longName (m : Ref.Move) : PUREUNIX_MAX_NAME ≤ (first slash w.work).length →
      Matches V w (.inl (.errno (-ENAMETOOLONG))) m
  | longText {t : Text} (s : Ref) : V.readlink w.candidate = some t →
      RESOLVE_WORK_SIZE < t.length + 1 + (PathText.rest slash w.work).length + 1 →
      Matches V w (.inl (.errno (-ENAMETOOLONG))) (.link s)
  | overrun (m : Ref.Move) : Matches V w (.inl .overrun) m
  | go {w' : Walk} {s : Ref} : w.work ≠ [] → Agree w' s → w'.follows = w.follows → w'.work = PathText.rest slash w.work →
      (PathText.first slash w.work).length < PUREUNIX_MAX_NAME → Matches V w (.inr w') (.go s)
  | link {w' : Walk} {s : Ref} {t : Text} : w.work ≠ [] → Agree w' s → w'.follows = w.follows + 1 →
      w.follows < MAX_SYMLINK_FOLLOWS →
      V.readlink w.candidate = some t → t.length + 1 + (PathText.rest slash w.work).length + 1 ≤ RESOLVE_WORK_SIZE →
      w'.work.length = splicedBytes t (PathText.rest slash w.work).length →
      (PathText.first slash w.work).length < PUREUNIX_MAX_NAME → Matches V w (.inr w') (.link s)

section
variable {V : View} {c : Cred} {followFinal : Bool} {w : Walk} {dir : List Text}

theorem splicedBytes_lt {t : Text} {n : Nat} (h : t.length + 1 + n + 1 ≤ RESOLVE_WORK_SIZE) :
    splicedBytes t n < RESOLVE_WORK_SIZE := by
  unfold splicedBytes
  split <;> omega

theorem splice_agree (hw : w.resolved = pathOf dir) (t rest : Text) :
    Agree (splice w t rest) (if t.head? = some slash then .at [] (spliced (t.drop 1) (fields slash rest))
      else .at dir (spliced t (fields slash rest))) ∧
    (splice w t rest).follows = w.follows + 1 ∧ (splice w t rest).work.length = splicedBytes t rest.length := by
  have hfields : ∀ u : Text, fields slash (if rest = [] then u else u ++ slash :: rest) = spliced u (fields slash rest) := by
    intro u
    unfold spliced
    by_cases h0 : rest = []
    · simp [h0]
    · rw [if_neg h0, if_neg (mt fields_eq_nil.1 h0), fields_append_sep]
  have hwork : (if rest = [] then t else t ++ slash :: rest).length =
      if rest.length = 0 then t.length else t.length + 1 + rest.length := by
    simp only [length_eq_zero_iff]
    split
    · rfl
    · simp only [length_append, length_cons]; omega
  unfold splice splicedBytes
  by_cases hh : t.head? = some slash
  · obtain ⟨u, rfl⟩ : ∃ u, t = slash :: u := by
      cases t with
      | nil => simp at hh
      | cons a u => simp at hh; exact ⟨u, by rw [hh]⟩
    have hhead : (if rest = [] then slash :: u else slash :: u ++ slash :: rest).head? = some slash := by
      split <;> rfl
    have hdrop : (if rest = [] then slash :: u else slash :: u ++ slash :: rest).drop 1 =
        if rest = [] then u else u ++ slash :: rest := by
      split <;> rfl
    rw [if_pos hh, if_pos hhead, if_pos hh, if_pos hh, hdrop]
    refine ⟨?_, rfl, ?_⟩
    · rw [drop_one, tail_cons, ← hfields u]
      exact ⟨rfl⟩
    · rw [← hdrop, length_drop, hwork]
  · rw [if_neg hh, if_neg hh, if_neg hh]
    refine ⟨?_, rfl, hwork⟩
    rw [← hfields t]
    exact ⟨hw⟩

theorem visit_matches (hg : PathText.Good slash dir) (hw : w.resolved = pathOf dir) (h0 : w.work ≠ [])
    (hname : (first slash w.work).length < PUREUNIX_MAX_NAME) (h1 : first slash w.work ≠ dotName) (h2 : first slash w.work ≠ dotdotName) :
    Matches V w (visit V c followFinal w (first slash w.work) (PathText.rest slash w.work))
      (Ref.lookup V c followFinal dir (first slash w.work) (fields slash (PathText.rest slash w.work))) := by
  have hcand : w.candidate = pathOf (dir ++ [first slash w.work]) := by
    rw [Walk.candidate, hw, PathText.append_render hg]
  generalize hf : first slash w.work = f at *
  generalize hrest : rest slash w.work = rest
  unfold visit Ref.lookup
  rw [hw, resolvedAppend_name h1 h2, append_render hg]
  cases V.stat (pathOf dir) with
  | none => exact .error (by decide)
  | some d =>
    dsimp only
    by_cases hx : access d c X_OK = false
    · rw [if_pos hx, if_pos hx]
      exact .error (by decide)
    rw [if_neg hx, if_neg hx]
    by_cases hfit : (render slash (dir ++ [f])).length < PUREUNIX_MAX_PATH
    swap
    · rw [if_neg hfit]
      exact .overrun _
    rw [if_pos hfit]
    dsimp only
    cases V.stat (pathOf (dir ++ [f])) with
    | none =>
      by_cases hnil : rest = []
      · rw [if_pos hnil, if_pos (fields_eq_nil.2 hnil)]
        exact .ok _
      · rw [if_neg hnil, if_neg (mt fields_eq_nil.1 hnil)]
        exact .error (by decide)
    | some st =>
      dsimp only
      have hiff : (st.type = .symlink ∧ (fields slash rest ≠ [] ∨ followFinal = true)) ↔
          (st.type = .symlink ∧ (rest ≠ [] ∨ followFinal = true)) := by
        rw [ne_eq, fields_eq_nil]
      by_cases hl : st.type = .symlink ∧ (rest ≠ [] ∨ followFinal = true)
      · rw [if_pos hl, if_pos (hiff.2 hl)]
        by_cases hloop : MAX_SYMLINK_FOLLOWS < w.follows + 1
        · rw [if_pos hloop]
          cases V.readlink (pathOf (dir ++ [f])) with
          | none => exact .loop _ (by omega)
          | some t => exact .loop _ (by omega)
        · rw [if_neg hloop]
          cases hlink : V.readlink (pathOf (dir ++ [f])) with
          | none => exact .lost (by omega) (hcand ▸ hlink)
          | some t =>
            dsimp only
            by_cases hneed : RESOLVE_WORK_SIZE < t.length + 1 + rest.length + 1
            · rw [if_pos hneed]
              exact .longText _ (hcand ▸ hlink) (hrest ▸ hneed)
            · rw [if_neg hneed]
              obtain ⟨ha, hfollows, hwork⟩ := splice_agree hw t rest
              exact .link h0 ha hfollows (by omega) (hcand ▸ hlink) (hrest ▸ Nat.le_of_not_lt hneed) (hrest ▸ hwork) (hf ▸ hname)
      · rw [if_neg hl, if_neg (mt hiff.1 hl)]
        exact .go h0 ⟨rfl⟩ rfl hrest.symm (hf ▸ hname)

/-- **One round of the loop is one move of the reference.** -/
theorem step_matches (ha : Agree w s) (hs : s.Sound V c followFinal) :
    Matches V w (w.step V c followFinal) (s.step V c followFinal) := by
  obtain ⟨hw⟩ := ha
  obtain ⟨hg, -⟩ := hs
  unfold Walk.step
  by_cases h0 : w.work = []
  · rw [h0, hw]
    exact .ok _
  rw [if_neg h0, fields_eq h0, Ref.step]
  by_cases h1 : first slash w.work = []
  · rw [if_pos h1, if_pos (.inl h1)]
    exact .go h0 ⟨hw⟩ rfl rfl (by rw [h1]; decide)
  rw [if_neg h1]
  by_cases hlong : PUREUNIX_MAX_NAME ≤ (first slash w.work).length
  · rw [if_pos hlong]
    exact .longName _ hlong
  rw [if_neg hlong]
  have hname := Nat.lt_of_not_le hlong
  by_cases h2 : first slash w.work = dotName
  · rw [if_pos h2, if_pos (.inr h2)]
    exact .go h0 ⟨hw⟩ rfl rfl hname
  rw [if_neg h2, if_neg (not_or.2 ⟨h1, h2⟩)]
  by_cases h3 : first slash w.work = dotdotName
  · rw [if_pos h3, if_pos h3]
    refine .go h0 ⟨?_⟩ rfl rfl hname
    rw [hw]
    exact parent_render hg
  · rw [if_neg h3, if_neg h3]
    exact visit_matches hg hw h0 hname h2 h3

/-! ## Runs -/

/-- On its way from `w` the loop meets no component of 64 or more bytes, builds no path of more than 255 bytes
and no work string of more than 2047. -/
def Walk.Fits (V : View) (c : Cred) (followFinal : Bool) (w : Walk) : Prop :=
  ∀ w', Walk.Reaches V c followFinal w w' →
    w'.step V c followFinal ≠ .inl .overrun ∧ w'.step V c followFinal ≠ .inl (.errno (-ENAMETOOLONG))

theorem Walk.Fits.next {w' : Walk} (h : w.Fits V c followFinal) (hs : w.step V c followFinal = .inr w') :
    w'.Fits V c followFinal := fun w'' hr => h w'' (.step hs hr)

/-- A loop that ends otherwise has met none of these. -/
theorem Walk.fits_of_run {fuel : Nat} {o : Outcome} (h : w.run V c followFinal fuel = some o) (h1 : o ≠ .overrun)
    (h2 : o ≠ .errno (-ENAMETOOLONG)) : w.Fits V c followFinal :=
  fun _ hr => ⟨fun hs => h1 (run_of_reaches hr hs h), fun hs => h2 (run_of_reaches hr hs h)⟩

/-- How the loop ends for an outcome of the reference. -/
def outcomeOf : Except Int (List Text) → Outcome
  | .ok names => .ok (pathOf names)
  | .error e => .errno e

theorem Ref.step_error {e : Int} (h : s.step V c followFinal = .stop (.error e)) : e = -ENOENT ∨ e = -EACCES := by
  cases s with
  | lost => simp [Ref.step] at h; exact .inl h.symm
  | «at» dir todo =>
    cases todo with
    | nil => simp [Ref.step] at h
    | cons f todo =>
      rw [Ref.step] at h
      split at h
      · cases h
      split at h
      · cases h
      unfold Ref.lookup at h
      split at h
      · cases h; exact .inl rfl
      split at h
      · cases h; exact .inr rfl
      split at h
      · split at h
        · cases h
        · cases h; exact .inl rfl
      split at h
      · split at h <;> cases h
      · cases h

/-- **The loop ends.** -/
theorem run_ends (fuel : Nat) {s : Ref} (ha : Agree w s) (hs : s.Sound V c followFinal) (hle : w.follows ≤ MAX_SYMLINK_FOLLOWS)
    (hfuel : (MAX_SYMLINK_FOLLOWS - w.follows) * (RESOLVE_WORK_SIZE + 1) + w.work.length < fuel) :
    ∃ o, w.run V c followFinal fuel = some o := by
  induction fuel generalizing w s with
  | zero => exact absurd hfuel (not_lt_zero _)
  | succ fuel ih =>
    have hm := step_matches ha hs
    have hsound := hs.step.1
    rw [Walk.run]
    generalize w.step V c followFinal = ws at hm
    generalize s.step V c followFinal = m at hm hsound
    cases hm with
    | @go w' s' h0 ha' hf hrest hname =>
      have hlen := rest_length slash h0
      refine ih ha' (hsound _ (.inl rfl)) (by omega) ?_
      rw [hf, hrest]; omega
    | @link w' s' t h0 ha' hf hlt hread hfits hwork hname =>
      -- a link used up: the text may be longer now, but one link less is left
      refine ih ha' (hsound _ (.inr rfl)) (by omega) ?_
      have : MAX_SYMLINK_FOLLOWS - w.follows = (MAX_SYMLINK_FOLLOWS - w'.follows) + 1 := by omega
      have hlen := splicedBytes_lt hfits
      rw [this, succ_mul] at hfuel
      omega
    | _ => exact ⟨_, rfl⟩

theorem agree_start (path : Text) : Agree (Walk.start path) (Ref.start path) := ⟨rfl⟩

/-- **`resolve_path` always returns.** -/
theorem resolvePath_ends (V : View) (c : Cred) (path : Text) (followFinal : Bool) :
    ∃ o, resolvePath V c path followFinal = some o := by
  unfold resolvePath
  split
  · exact ⟨_, rfl⟩
  split
  · exact ⟨_, rfl⟩
  refine run_ends roundsEnough (agree_start path) (sound_start path) (zero_le _) ?_
  change (MAX_SYMLINK_FOLLOWS - 0) * (RESOLVE_WORK_SIZE + 1) + (path.drop 1).length < roundsEnough
  unfold roundsEnough
  rw [Nat.succ_mul, Nat.sub_zero]
  omega

/-- It ends with the outcome of the reference after at most 40 links, or with `-ELOOP` where the reference follows one more. -/
theorem reaches_agrees {w' : Walk} {o : Outcome} (hr : Walk.Reaches V c followFinal w w') (hend : w'.step V c followFinal = .inl o)
    (ha : Agree w s) (hs : s.Sound V c followFinal) (hfit : w.Fits V c followFinal) (hle : w.follows ≤ MAX_SYMLINK_FOLLOWS) :
    (∃ k r, Ref.Resolves V c followFinal s k r ∧ k + w.follows ≤ MAX_SYMLINK_FOLLOWS ∧ o = outcomeOf r) ∨
    (o = .errno (-ELOOP) ∧ ∃ t, Ref.Reach V c followFinal s (MAX_SYMLINK_FOLLOWS + 1 - w.follows) t) := by
  induction hr generalizing s with
  | refl w =>
    have hm := step_matches ha hs
    obtain ⟨hno, hnl⟩ := hfit w (.refl w)
    rw [hend] at hm hno hnl
    generalize hss : s.step V c followFinal = m at hm
    cases hm with
    | ok names => exact .inl ⟨0, .ok names, ⟨s, .refl s, hss⟩, by omega, rfl⟩
    | error he => exact .inl ⟨0, .error _, ⟨s, .refl s, hss⟩, by omega, rfl⟩
    | lost hlt _ => exact .inl ⟨1, .error (-ENOENT), ⟨.lost, .link hss (.refl _), rfl⟩, by omega, rfl⟩
    | loop s' hge =>
      refine .inr ⟨rfl, s', ?_⟩
      rw [show MAX_SYMLINK_FOLLOWS + 1 - w.follows = 0 + 1 by omega]
      exact .link hss (.refl _)
    | longName => exact absurd rfl hnl
    | longText => exact absurd rfl hnl
    | overrun => exact absurd rfl hno
  | @step w w' _ hws hr ih =>
    have hm := step_matches ha hs
    have hsound := hs.step.1
    rw [hws] at hm
    generalize hss : s.step V c followFinal = m at hm hsound
    cases hm with
    | go h0 ha' hf hrest hname =>
      rcases ih hend ha' (hsound _ (.inl rfl)) (hfit.next hws) (by omega) with ⟨k, r, ⟨t, hr, ht⟩, hk, ho⟩ | ⟨ho, t, hr⟩
      · exact .inl ⟨k, r, ⟨t, .go hss hr, ht⟩, by omega, ho⟩
      · rw [hf] at hr
        exact .inr ⟨ho, t, .go hss hr⟩
    | link h0 ha' hf hlt hread hfits hwork hname =>
      rcases ih hend ha' (hsound _ (.inr rfl)) (hfit.next hws) (by omega) with ⟨k, r, ⟨t, hr, ht⟩, hk, ho⟩ | ⟨ho, t, hr⟩
      · exact .inl ⟨k + 1, r, ⟨t, .link hss hr, ht⟩, by omega, ho⟩
      · refine .inr ⟨ho, t, ?_⟩
        rw [show MAX_SYMLINK_FOLLOWS + 1 - w.follows = (MAX_SYMLINK_FOLLOWS + 1 - w'.follows) + 1 by omega]
        exact .link hss hr

theorem resolvePath_agrees (habs : path.head? = some slash) (hlen : (path.drop 1).length < RESOLVE_WORK_SIZE)
    (hfit : (Walk.start path).Fits V c followFinal) :
    (∃ k o, Ref.Resolves V c followFinal (Ref.start path) k o ∧ k ≤ MAX_SYMLINK_FOLLOWS ∧
      resolvePath V c path followFinal = some (outcomeOf o)) ∨
    (resolvePath V c path followFinal = some (.errno (-ELOOP)) ∧
      Ref.FollowsMoreThan V c followFinal MAX_SYMLINK_FOLLOWS (Ref.start path)) := by
  obtain ⟨o, ho⟩ := resolvePath_ends V c path followFinal
  have hrun := ho
  unfold resolvePath at hrun
  rw [if_neg (not_not.2 habs), if_neg (by omega)] at hrun
  obtain ⟨w', hr, hend⟩ := reaches_of_run hrun
  rw [ho]
  rcases reaches_agrees hr hend (agree_start path) (sound_start path) hfit (zero_le _) with ⟨k, r, hres, hk, rfl⟩ | ⟨rfl, hmore⟩
  · exact .inl ⟨k, r, hres, hk, rfl⟩
  · exact .inr ⟨rfl, hmore⟩

/-- What the output of the reference is known to be: every proper prefix is a directory entry that was searched
with `X_OK` and is no link, and a followed path does not end at a link. -/
structure Ref.Output (V : View) (c : Cred) (followFinal : Bool) (names : List Text) : Prop where
  searched : ∀ p, p <+: names → p ≠ names → ∃ st, V.stat (pathOf p) = some st ∧ st.type ≠ .symlink ∧ access st c X_OK = true
  final : followFinal = true → ∀ st, V.stat (pathOf names) = some st → st.type ≠ .symlink

theorem Ref.Resolves.output {names : List Text} {k : Nat}
    (h : Ref.Resolves V c followFinal (Ref.start path) k (.ok names)) : Ref.Output V c followFinal names := by
  obtain ⟨t, hr, ht⟩ := h
  obtain ⟨-, -, hp, hlast⟩ := ((sound_start path).reach hr).step.2 names ht
  refine ⟨hp, fun hf => hlast.resolve_right fun hc => ?_⟩
  rw [hf] at hc
  cases hc.1

/-- **Path resolution is correct and total.** -/
theorem resolve_path_correct {path : Text} (habs : path.head? = some slash)
    (hlen : (path.drop 1).length < RESOLVE_WORK_SIZE) (hfit : (Walk.start path).Fits V c followFinal) :
    ∃ o, resolvePath V c path followFinal = some o ∧
      (o = .errno (-ELOOP) ↔ Ref.FollowsMoreThan V c followFinal MAX_SYMLINK_FOLLOWS (Ref.start path)) ∧
      ∀ out, o = .ok out → ∃ names k, Ref.Resolves V c followFinal (Ref.start path) k (.ok names) ∧ out = pathOf names ∧
        Ref.Output V c followFinal names := by
  rcases resolvePath_agrees habs hlen hfit with ⟨k, o, ⟨t, hr, ht⟩, hk, hrun⟩ | ⟨hrun, hmore⟩
  · refine ⟨outcomeOf o, hrun, ⟨fun he => ?_, fun ⟨t', hr'⟩ => ?_⟩, fun out he => ?_⟩
    · cases o with
      | ok names => cases he
      | error e =>
        rcases step_error ht with h | h <;> rw [h] at he <;> exact absurd he (by decide)
    · have := hr.le_of_stop ht hr'
      omega
    · cases o with
      | ok names =>
        simp only [outcomeOf, Outcome.ok.injEq] at he
        exact ⟨names, k, ⟨t, hr, ht⟩, he.symm, Ref.Resolves.output ⟨t, hr, ht⟩⟩
      | error e => cases he
  · exact ⟨.errno (-ELOOP), hrun, ⟨fun _ => hmore, fun _ => rfl⟩, nofun⟩

end

def rootOwned (type : NodeType) (mode : UInt32) : Stat := ⟨type, 0, 0, mode, 0, 0, 1, 0, 0, 0, 0, 0, 0⟩

/-- The directories "/a" and "/b", the file "/b/f" and the link "/a/l" to "../b". -/
def linkView : View where
  stat := fun p =>
    if p = [slash] ∨ p = [slash, 97] ∨ p = [slash, 98] then some (rootOwned .dir 0o40755)
    else if p = [slash, 97, slash, 108] then some (rootOwned .symlink 0o120777)
    else if p = [slash, 98, slash, 102] then some (rootOwned .file 0o100644)
    else none
  readlink := fun p => if p = [slash, 97, slash, 108] then some [46, 46, slash, 98] else none
  target_le := by
    intro p t h
    split at h <;> cases h
    decide
  root_not_link := by
    intro st h
    cases h
    decide

/-- "/a/l/f" leads through the link. -/
theorem resolve_path_correct_link : ∃ o, resolvePath linkView ⟨1000, 1000⟩ [slash, 97, slash, 108, slash, 102] true = some o ∧
    (o = .errno (-ELOOP) ↔ Ref.FollowsMoreThan linkView ⟨1000, 1000⟩ true MAX_SYMLINK_FOLLOWS
      (Ref.start [slash, 97, slash, 108, slash, 102])) ∧
    ∀ out, o = .ok out → ∃ names k, Ref.Resolves linkView ⟨1000, 1000⟩ true (Ref.start [slash, 97, slash, 108, slash, 102]) k
      (.ok names) ∧ out = pathOf names ∧ Ref.Output linkView ⟨1000, 1000⟩ true names :=
  resolve_path_correct rfl (by decide)
    (Walk.fits_of_run (show (Walk.start [slash, 97, slash, 108, slash, 102]).run linkView ⟨1000, 1000⟩ true roundsEnough =
      some (.ok [slash, 98, slash, 102]) by decide +kernel) nofun nofun)

end PureUnix.Vfs
