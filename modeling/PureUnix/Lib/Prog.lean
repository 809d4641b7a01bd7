/-!
# Programs over a signature of commands

A layered system calls down through interfaces. A `Sig` names the commands of one interface and
the type of each answer; a `Prog σ α` is a computation that issues commands of `σ` and returns
an `α`. What a command does is left to a `Handler`, so one program text can be run on several
machines: on the real device, on a decoded abstract store, or through another program that
implements the commands (`interp`).

* `run_bind`, `run_interp`: how `run` goes through sequencing and through a lower layer.
* `run_sim`: two handlers that agree command by command, up to a relation on their states, agree
  on every program. The abstract side may give up (`bad`); giving up is permanent, and nothing is
  promised once it has happened.
* `Issues P p`: whatever the answers, `p` issues commands of `P` only. `Issues.run_invariant` asks these alone to keep the
  property, and `Issues.run_comm` carries a change of state that they commute with past the program.
-/
namespace PureUnix.Lib

/-- An interface: its commands and the type of each command's answer. -/
structure Sig where
  Cmd : Type
  Resp : Cmd → Type

/-- Programs that issue commands of `σ` and return an `α`. -/
inductive Prog (σ : Sig) (α : Type) where
  | ret (a : α)
  | call (c : σ.Cmd) (k : σ.Resp c → Prog σ α)

abbrev Handler (σ : Sig) (S : Type) := (c : σ.Cmd) → S → σ.Resp c × S

namespace Prog
variable {σ τ : Sig} {α β γ S T : Type}

def bind : Prog σ α → (α → Prog σ β) → Prog σ β
  | ret a, f => f a
  | call c k, f => call c fun r => bind (k r) f

instance : Monad (Prog σ) where
  pure := ret
  bind := bind

def perform (c : σ.Cmd) : Prog σ (σ.Resp c) := call c ret

def run (h : Handler σ S) : Prog σ α → S → α × S
  | ret a, s => (a, s)
  | call c k, s => run h (k (h c s).1) (h c s).2

/-- Implement every command of `σ` by a program over the lower interface `τ`. -/
def interp (f : (c : σ.Cmd) → Prog τ (σ.Resp c)) : Prog σ α → Prog τ α
  | ret a => ret a
  | call c k => bind (f c) fun r => interp f (k r)

@[simp] theorem run_pure (h : Handler σ S) (a : α) (s : S) : run h (pure a : Prog σ α) s = (a, s) := rfl

theorem run_bind' (h : Handler σ S) : ∀ (p : Prog σ α) (f : α → Prog σ β) (s : S),
    run h (p.bind f) s = run h (f (run h p s).1) (run h p s).2
  | ret _, _, _ => rfl
  | call c k, f, s => run_bind' h (k (h c s).1) f (h c s).2

@[simp] theorem run_bind (h : Handler σ S) (p : Prog σ α) (f : α → Prog σ β) (s : S) :
    run h (p >>= f) s = run h (f (run h p s).1) (run h p s).2 := run_bind' h p f s

@[simp] theorem run_ite (h : Handler σ S) (b : Prop) [Decidable b] (p q : Prog σ α) (s : S) :
    run h (if b then p else q) s = if b then run h p s else run h q s := by
  split <;> rfl

/-- Running an implemented program is running the program on the implemented machine. -/
theorem run_interp (f : (c : σ.Cmd) → Prog τ (σ.Resp c)) (h : Handler τ S) :
    ∀ (p : Prog σ α) (s : S), run h (interp f p) s = run (fun c => run h (f c)) p s
  | ret _, _ => rfl
  | call c k, s => by
    simp only [interp, run_bind', run]
    exact run_interp f h _ _

/-- **Simulation.** `h'` is the abstract machine; once it has given up (`bad`) it stays so. -/
theorem run_sim {h : Handler σ S} {h' : Handler σ T} (R : S → T → Prop) (bad : T → Prop) (stays : ∀ c t, bad t → bad (h' c t).2)
    (step : ∀ c s t, R s t → ¬ bad (h' c t).2 → (h c s).1 = (h' c t).1 ∧ R (h c s).2 (h' c t).2) :
    ∀ (p : Prog σ α) (s : S) (t : T), R s t → ¬ bad (run h' p t).2 →
      (run h p s).1 = (run h' p t).1 ∧ R (run h p s).2 (run h' p t).2
  | ret _, _, _, hR, _ => ⟨rfl, hR⟩
  | call c k, s, t, hR, hb => by
    have hmono : ∀ (q : Prog σ α) (t : T), bad t → bad (run h' q t).2 := by
      intro q
      induction q with
      | ret a => exact fun _ h => h
      | call c k ih => exact fun t h => ih _ _ (stays c t h)
    have hc : ¬ bad (h' c t).2 := fun hbad => hb (hmono (k (h' c t).1) _ hbad)
    obtain ⟨hr, hR'⟩ := step c s t hR hc
    simp only [run] at hb ⊢
    rw [hr]
    exact run_sim R bad stays step _ _ _ hR' hb

/-! ## Programs that issue some commands only -/

/-- Every command the program may come to issue satisfies `P`. -/
def Issues (P : σ.Cmd → Prop) : Prog σ α → Prop
  | ret _ => True
  | call c k => P c ∧ ∀ r, Issues P (k r)

namespace Issues
variable {P : σ.Cmd → Prop}

@[simp] theorem pure {a : α} : Issues P (Pure.pure a : Prog σ α) := trivial

theorem perform {c : σ.Cmd} (hc : P c) : Issues P (Prog.perform c) := ⟨hc, fun _ => trivial⟩

theorem bind {f : α → Prog σ β} (hf : ∀ a, Issues P (f a)) : ∀ {p : Prog σ α}, Issues P p → Issues P (p >>= f)
  | ret a, _ => hf a
  | call _ _, hp => ⟨hp.1, fun r => Issues.bind hf (hp.2 r)⟩

theorem ite {b : Prop} [Decidable b] {p q : Prog σ α} (hp : Issues P p) (hq : Issues P q) : Issues P (if b then p else q) := by
  split
  · exact hp
  · exact hq

theorem run_invariant {h : Handler σ S} {I : S → Prop} (step : ∀ c s, P c → I s → I (h c s).2) :
    ∀ {p : Prog σ α} {s : S}, Issues P p → I s → I (run h p s).2
  | ret _, _, _, hI => hI
  | call c k, s, hp, hI => Issues.run_invariant (p := k (h c s).1) step (hp.2 _) (step c s hp.1 hI)

/-- A program does not see a change of state that its commands commute with. -/
theorem run_comm {h : Handler σ S} {f : S → S} (step : ∀ c s, P c → h c (f s) = ((h c s).1, f (h c s).2)) :
    ∀ {p : Prog σ α}, Issues P p → ∀ s, run h p (f s) = ((run h p s).1, f (run h p s).2)
  | ret _, _, _ => rfl
  | call c k, hp, s => by
    simp only [run]
    rw [step c s hp.1]
    exact Issues.run_comm step (hp.2 _) _

end Issues
end Prog

export Prog (run run_bind run_ite run_pure)

end PureUnix.Lib
