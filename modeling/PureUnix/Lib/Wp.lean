import PureUnix.Lib.Prog

/-!
# Postconditions of programs

`wp h p Q s`: running `p` on the machine `h` from state `s` ends with a result and a state that
satisfy `Q`. Programs here always finish, so this is total correctness. `wp_seq` chains the
specification of a first part with a proof about the rest, which then sees of the first part only
what its specification says.
-/
namespace PureUnix.Lib.Prog

variable {σ : Sig} {α β S : Type} {h : Handler σ S} {p : Prog σ α} {a : α} {f : α → Prog σ β}

def wp (h : Handler σ S) (p : Prog σ α) (Q : α → S → Prop) (s : S) : Prop :=
  Q (run h p s).1 (run h p s).2

variable {Q R : α → S → Prop} {s : S}

@[simp] theorem wp_pure : wp h (pure a : Prog σ α) Q s ↔ Q a s := Iff.rfl

@[simp] theorem wp_perform {c : σ.Cmd} {Q : σ.Resp c → S → Prop} : wp h (perform c) Q s ↔ Q (h c s).1 (h c s).2 := Iff.rfl

theorem wp_bind {Q : β → S → Prop} : wp h (p >>= f) Q s ↔ wp h p (fun a t => wp h (f a) Q t) s := by
  simp only [wp, run_bind]

theorem wp_mono (hp : wp h p R s) (hQ : ∀ a t, R a t → Q a t) : wp h p Q s := hQ _ _ hp

/-- Sequencing through the specification of the first part. -/
theorem wp_seq {Q : β → S → Prop} (hp : wp h p R s) (hf : ∀ a t, R a t → wp h (f a) Q t) : wp h (p >>= f) Q s :=
  wp_bind.2 (wp_mono hp hf)

theorem wp_seq_assoc {γ : Type} {q : α → Prog σ γ} {f : γ → Prog σ β} {R : γ → S → Prop} {Q : β → S → Prop}
    (hp : wp h (p >>= q) R s) (hf : ∀ c t, R c t → wp h (f c) Q t) : wp h (p >>= fun a => q a >>= f) Q s :=
  wp_bind.2 (wp_mono (wp_bind.1 hp) fun _ _ hq => wp_seq hq hf)

theorem wp_ite {b : Prop} [Decidable b] {q : Prog σ α} (hp : b → wp h p Q s) (hq : ¬ b → wp h q Q s) :
    wp h (if b then p else q) Q s := by
  split
  · exact hp ‹_›
  · exact hq ‹_›

theorem wp_of_run {t : S} (hr : run h p s = (a, t)) (hQ : Q a t) : wp h p Q s := by
  rw [wp, hr]; exact hQ

theorem wp_seq_run {Q : β → S → Prop} {t : S} (hr : run h p s = (a, t)) (hf : wp h (f a) Q t) : wp h (p >>= f) Q s :=
  wp_bind.2 (wp_of_run hr hf)

end Prog

export Prog (wp wp_bind wp_seq wp_seq_run wp_of_run wp_mono wp_ite)

end PureUnix.Lib
