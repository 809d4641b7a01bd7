import Mathlib.Data.List.Basic

/-!
# Machines that answer

A machine takes an input, gives an answer and goes to its next state. `runs` feeds it a list of inputs,
`Along` says that a condition on state and input holds at every step of a run. `runs_invariant` is the invariant
rule. `runs_refine` is the
simulation rule: a machine whose steps are those of a second one, seen through `abs`, has the same runs. The last section
is about machines whose steps may not return: `optRuns_invariant` says that runs do.
-/
namespace PureUnix.Lib

variable {S T I O : Type} {step : S → I → Option S} {is : List I} {Inv : S → Prop} {P : S → I → Prop} {s : S}

/-- The answers to a list of inputs and the last state. -/
def runs (step : S → I → O × S) : S → List I → List O × S
  | s, [] => ([], s)
  | s, i :: is => ((step s i).1 :: (runs step (step s i).2 is).1, (runs step (step s i).2 is).2)

/-- `P` holds at every step. -/
def Along (step : S → I → O × S) (P : S → I → Prop) : S → List I → Prop
  | _, [] => True
  | s, i :: is => P s i ∧ Along step P (step s i).2 is

instance Along.decidable (step : S → I → O × S) (P : S → I → Prop) [∀ s i, Decidable (P s i)] :
    ∀ (s : S) (is : List I), Decidable (Along step P s is)
  | _, [] => isTrue trivial
  | s, i :: is =>
    haveI := Along.decidable step P (step s i).2 is
    inferInstanceAs (Decidable (P s i ∧ Along step P (step s i).2 is))

@[simp] theorem runs_cons (step : S → I → O × S) (s : S) (i : I) (is : List I) :
    runs step s (i :: is) = ((step s i).1 :: (runs step (step s i).2 is).1, (runs step (step s i).2 is).2) := rfl

theorem along_of_forall {step : S → I → O × S} {P : I → Prop} (h : ∀ i ∈ is, P i) (s : S) : Along step (fun _ i => P i) s is := by
  induction is generalizing s with
  | nil => trivial
  | cons i is ih => exact ⟨h i List.mem_cons_self, ih (fun j hj => h j (List.mem_cons_of_mem _ hj)) _⟩

/-- **Invariants of runs.** What every step keeps, a run keeps. -/
theorem runs_invariant {step : S → I → O × S}
    (hstep : ∀ s i, Inv s → P s i → Inv (step s i).2) (h : Inv s) (hP : Along step P s is) :
    Inv (runs step s is).2 := by
  induction is generalizing s with
  | nil => exact h
  | cons i is ih => exact ih (hstep s i h hP.1) hP.2

/-- **Refinement of runs.** The invariant may use what holds along the abstract run. -/
theorem runs_refine {cstep : S → I → O × S} {astep : T → I → O × T} {abs : S → T} {P : T → I → Prop}
    (hstep : ∀ s i, Inv s → P (abs s) i → Inv (cstep s i).2 ∧ astep (abs s) i = ((cstep s i).1, abs (cstep s i).2))
    (h : Inv s) (hP : Along astep P (abs s) is) :
    Inv (runs cstep s is).2 ∧ runs astep (abs s) is = ((runs cstep s is).1, abs (runs cstep s is).2) := by
  induction is generalizing s with
  | nil => exact ⟨h, rfl⟩
  | cons i is ih =>
    obtain ⟨hinv, hans⟩ := hstep s i h hP.1
    have hrest := hP.2
    rw [hans] at hrest
    obtain ⟨hinv', hruns⟩ := ih hinv hrest
    refine ⟨hinv', ?_⟩
    rw [runs_cons, hans, hruns]
    rfl

/-! ## Machines that may not return -/

/-- The state after a list of inputs, if every step returns. -/
def optRuns (step : S → I → Option S) : S → List I → Option S
  | s, [] => some s
  | s, i :: is => (step s i).bind (optRuns step · is)

/-- `P` holds at every step taken. -/
def OptAlong (step : S → I → Option S) (P : S → I → Prop) : S → List I → Prop
  | _, [] => True
  | s, i :: is => P s i ∧ (step s i).elim True (OptAlong step P · is)

instance OptAlong.decidable (step : S → I → Option S) (P : S → I → Prop) [∀ s i, Decidable (P s i)] :
    ∀ (s : S) (is : List I), Decidable (OptAlong step P s is)
  | _, [] => isTrue trivial
  | s, i :: is =>
    haveI : Decidable ((step s i).elim True (OptAlong step P · is)) :=
      match step s i with
      | none => isTrue trivial
      | some s' => OptAlong.decidable step P s' is
    inferInstanceAs (Decidable (P s i ∧ (step s i).elim True (OptAlong step P · is)))

theorem OptAlong.imp {Q : S → I → Prop} (hPQ : ∀ s i, P s i → Q s i) (h : OptAlong step P s is) : OptAlong step Q s is := by
  induction is generalizing s with
  | nil => trivial
  | cons i is ih =>
    refine ⟨hPQ s i h.1, ?_⟩
    have hrest := h.2
    cases hs : step s i with
    | none => trivial
    | some s' =>
      rw [hs] at hrest
      exact ih hrest

/-- **Runs return, and keep what every step keeps.** -/
theorem optRuns_invariant (hstep : ∀ s i, Inv s → P s i → ∃ s', step s i = some s' ∧ Inv s') (h : Inv s)
    (hP : OptAlong step P s is) : ∃ s', optRuns step s is = some s' ∧ Inv s' := by
  induction is generalizing s with
  | nil => exact ⟨s, rfl, h⟩
  | cons i is ih =>
    obtain ⟨s', hs', hinv⟩ := hstep s i h hP.1
    have hrest := hP.2
    rw [hs'] at hrest
    obtain ⟨s'', hrun, hinv'⟩ := ih hinv hrest
    exact ⟨s'', by rw [optRuns, hs']; exact hrun, hinv'⟩

end PureUnix.Lib
