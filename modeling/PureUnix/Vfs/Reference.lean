import PureUnix.Vfs.Resolve

/-!
# A reference resolver, and that `resolve_path` agrees with it

The reference works on names: a directory is the list of names that leads to it, a path the list of its
fields. It descends component by component, skips "." and empty fields, takes ".." on the directory
reached so far, and puts the fields of a link's target in front of those still to go. It has no limit on
links and no buffers; `Ref.Reach` counts the links followed. A field is final when no field follows it,
that is, when nothing but at most one slash does.
-/
namespace PureUnix.Vfs

open Lib List Nat PathText

/-- Where the reference stands: in a directory with fields to go, or behind a link that cannot be read. -/
inductive Ref
  | at (dir todo : List Text)
  | lost

inductive Ref.Move
  | stop (o : Except Int (List Text))
  | go (s : Ref)
  | link (s : Ref)

/-- The fields to go behind a link with text `t`. -/
def spliced (t : Text) (todo : List Text) : List Text :=
  if todo = [] then fields slash t else split slash t ++ todo

abbrev pathOf (names : List Text) : Text := render slash names

section
variable (V : View) (c : Cred) (followFinal : Bool)

/-- Looking up the name `f` in `dir`. -/
def Ref.lookup (dir : List Text) (f : Text) (todo : List Text) : Ref.Move :=
  match V.stat (pathOf dir) with
  | none => .stop (.error (-ENOENT))
  | some d =>
    if access d c X_OK = false then .stop (.error (-EACCES))
    else
      match V.stat (pathOf (dir ++ [f])) with
      | none => if todo = [] then .stop (.ok (dir ++ [f])) else .stop (.error (-ENOENT))
      | some st =>
        if st.type = .symlink ∧ (todo ≠ [] ∨ followFinal = true) then
          match V.readlink (pathOf (dir ++ [f])) with
          | none => .link .lost
          | some t => .link (if t.head? = some slash then .at [] (spliced (t.drop 1) todo) else .at dir (spliced t todo))
        else .go (.at (dir ++ [f]) todo)

def Ref.step : Ref → Ref.Move
  | .lost => .stop (.error (-ENOENT))
  | .at dir [] => .stop (.ok dir)
  | .at dir (f :: todo) =>
    if f = [] ∨ f = dotName then .go (.at dir todo)
    else if f = dotdotName then .go (.at dir.dropLast todo)
    else Ref.lookup V c followFinal dir f todo

/-- `Reach s k t`: the walk from `s` gets to `t`, following `k` links on the way. -/
inductive Ref.Reach : Ref → Nat → Ref → Prop
  | refl (s : Ref) : Reach s 0 s
  | go {s s' t : Ref} {k : Nat} : s.step V c followFinal = .go s' → Reach s' k t → Reach s k t
  | link {s s' t : Ref} {k : Nat} : s.step V c followFinal = .link s' → Reach s' k t → Reach s (k + 1) t

def Ref.Resolves (s : Ref) (k : Nat) (o : Except Int (List Text)) : Prop :=
  ∃ t, Ref.Reach V c followFinal s k t ∧ t.step V c followFinal = .stop o

/-- The walk follows more than `n` links. -/
def Ref.FollowsMoreThan (n : Nat) (s : Ref) : Prop := ∃ t, Ref.Reach V c followFinal s (n + 1) t

end

/-- Where the reference starts on an absolute path. -/
def Ref.start (path : Text) : Ref := .at [] (fields slash (path.drop 1))

section
variable {V : View} {c : Cred} {followFinal : Bool} {s t : Ref} {k j : Nat} {o : Except Int (List Text)}

/-- The walk is deterministic: nothing lies behind its end. -/
theorem Ref.Reach.le_of_stop (h : Ref.Reach V c followFinal s k t) (ht : t.step V c followFinal = .stop o) {t' : Ref}
    (h' : Ref.Reach V c followFinal s j t') : j ≤ k := by
  induction h generalizing j with
  | refl s =>
    cases h' with
    | refl => exact le_refl 0
    | go he _ => rw [ht] at he; cases he
    | link he _ => rw [ht] at he; cases he
  | go hs _ ih =>
    cases h' with
    | refl => exact zero_le _
    | go he h' => rw [hs] at he; cases he; exact ih ht h'
    | link he _ => rw [hs] at he; cases he
  | link hs _ ih =>
    cases h' with
    | refl => exact zero_le _
    | go he _ => rw [hs] at he; cases he
    | link he h' => rw [hs] at he; cases he; exact succ_le_succ (ih ht h')

/-! ## What the walk knows about where it stands -/

/-- Every directory on the way down was searched with permission and is no link; the last one may be a link
only where nothing is left to do and final links are not followed. -/
def Ref.Sound (V : View) (c : Cred) (followFinal : Bool) : Ref → Prop
  | .lost => True
  | .at dir todo =>
    PathText.Good slash dir ∧ (∀ f ∈ todo, slash ∉ f) ∧
    (∀ p, p <+: dir → p ≠ dir → ∃ st, V.stat (pathOf p) = some st ∧ st.type ≠ .symlink ∧ access st c X_OK = true) ∧
    ((∀ st, V.stat (pathOf dir) = some st → st.type ≠ .symlink) ∨ (followFinal = false ∧ todo = []))

theorem prefix_concat_cases {α : Type} {p l : List α} {x : α} (h : p <+: l ++ [x]) (hne : p ≠ l ++ [x]) : p <+: l := by
  rcases prefix_concat_iff.1 h with h | h
  · exact absurd h hne
  · exact h

theorem Ref.Sound.up {dir todo : List Text} {f : Text} (h : Ref.Sound V c followFinal (.at dir (f :: todo))) :
    Ref.Sound V c followFinal (.at dir.dropLast todo) := by
  obtain ⟨hg, hf, hp, -⟩ := h
  refine ⟨hg.dropLast, fun g hm => hf g (by simp [hm]), fun p hpre hne => ?_, .inl ?_⟩
  · refine hp p (hpre.trans ( dropLast_prefix dir)) fun he => ?_
    subst he
    have := hpre.length_le
    rcases eq_nil_or_concat p with rfl | ⟨i, x, rfl⟩
    · exact hne rfl
    · simp at this
  · intro st hst
    by_cases h0 : dir = []
    · subst h0
      exact V.root_not_link st hst
    have hne : dir.dropLast ≠ dir := fun he => by
      have := congrArg length he
      rw [length_dropLast] at this
      have := length_pos_of_ne_nil h0
      omega
    obtain ⟨st', h1, h2, -⟩ := hp _ ( dropLast_prefix dir) hne
    rw [h1] at hst
    cases hst
    exact h2

/-- `P` holds where the move leads. -/
def Ref.Move.Leaves (P : Ref → Prop) : Ref.Move → Prop
  | .stop (.ok names) => P (.at names [])
  | .stop (.error _) => True
  | .go s | .link s => P s

theorem Ref.Sound.leaves (h : s.Sound V c followFinal) : (s.step V c followFinal).Leaves (Ref.Sound V c followFinal) := by
  cases s with
  | lost => trivial
  | «at» dir todo =>
    cases todo with
    | nil => exact h
    | cons f todo =>
      have hup := h.up
      obtain ⟨hg, hf, hp, hlast⟩ := h
      have hlast := hlast.resolve_right (by simp)
      have hf' : ∀ g ∈ todo, slash ∉ g := fun g hm => hf g (by simp [hm])
      rw [Ref.step]
      by_cases h1 : f = [] ∨ f = dotName
      · rw [if_pos h1]
        exact ⟨hg, hf', hp, .inl hlast⟩
      rw [if_neg h1]
      by_cases h2 : f = dotdotName
      · rw [if_pos h2]
        exact hup
      rw [if_neg h2, Ref.lookup]
      cases hd : V.stat (pathOf dir) with
      | none => trivial
      | some d =>
        dsimp only
        by_cases hx : access d c X_OK = false
        · rw [if_pos hx]
          trivial
        rw [if_neg hx]
        have hx : access d c X_OK = true := by simpa using hx
        have hgood := hg.concat (not_or.1 h1).1 (hf f (by simp))
        have hpre : ∀ p, p <+: dir ++ [f] → p ≠ dir ++ [f] →
            ∃ st, V.stat (pathOf p) = some st ∧ st.type ≠ .symlink ∧ access st c X_OK = true := by
          intro p hpp hne
          by_cases hpd : p = dir
          · exact ⟨d, hpd ▸ hd, hlast d hd, hx⟩
          · exact hp p (prefix_concat_cases hpp hne) hpd
        cases hc : V.stat (pathOf (dir ++ [f])) with
        | none =>
          by_cases h0 : todo = []
          · rw [if_pos h0]
            exact ⟨hgood, by simp, hpre, .inl fun st hst => by rw [hc] at hst; cases hst⟩
          · rw [if_neg h0]
            trivial
        | some st =>
          dsimp only
          by_cases hl : st.type = .symlink ∧ (todo ≠ [] ∨ followFinal = true)
          · rw [if_pos hl]
            cases V.readlink (pathOf (dir ++ [f])) with
            | none => trivial
            | some t =>
              have hsp : ∀ u : Text, ∀ g ∈ spliced u todo, slash ∉ g := by
                intro u g hm
                unfold spliced at hm
                split at hm
                · exact notMem_of_mem_fields hm
                · rcases mem_append.1 hm with hm | hm
                  · exact notMem_of_mem_split hm
                  · exact hf' g hm
              dsimp only
              split
              · refine ⟨good_nil, hsp _, fun p hpp hne => ?_, .inl V.root_not_link⟩
                exact absurd (prefix_nil.1 hpp) hne
              · exact ⟨hg, hsp _, hp, .inl hlast⟩
          · rw [if_neg hl]
            refine ⟨hgood, hf', hpre, ?_⟩
            by_cases hsym : st.type = .symlink
            · have := not_and.1 hl hsym
              rw [not_or, not_not, Bool.not_eq_true] at this
              exact .inr ⟨this.2, this.1⟩
            · exact .inl fun st' hst' => by rw [hc] at hst'; cases hst'; exact hsym

theorem Ref.Sound.step (h : s.Sound V c followFinal) :
    (∀ s', s.step V c followFinal = .go s' ∨ s.step V c followFinal = .link s' → s'.Sound V c followFinal) ∧
    (∀ names, s.step V c followFinal = .stop (.ok names) → Ref.Sound V c followFinal (.at names [])) := by
  have hl := h.leaves
  refine ⟨fun s' hs => ?_, fun names hs => ?_⟩
  · rcases hs with hs | hs <;> rw [hs] at hl <;> exact hl
  · rw [hs] at hl
    exact hl

theorem Ref.Sound.reach (h : s.Sound V c followFinal) (hr : Ref.Reach V c followFinal s k t) : t.Sound V c followFinal := by
  induction hr with
  | refl => exact h
  | go hs _ ih => exact ih (h.step.1 _ (.inl hs))
  | link hs _ ih => exact ih (h.step.1 _ (.inr hs))

theorem Ref.sound_start (path : Text) : (Ref.start path).Sound V c followFinal := by
  refine ⟨good_nil, fun f hf => notMem_of_mem_fields hf, fun p hp hne => ?_, .inl V.root_not_link⟩
  exact absurd (prefix_nil.1 hp) hne

end
end PureUnix.Vfs
