import Sidle.Prog.Ensures

/-!
# Total correctness of sequential programs

`M.Returns p s Q` says that the program `p` returns from the state `s`, and that `Q` holds of its
answer and of the last state.  A statement of partial correctness that is known already adds to
`Q`, so that only the return itself has to be shown.

## Main definitions

* `Machine.Returns` — total correctness.

## Main results

* `Returns.bind`, `Returns.and`, `returns_ite` — the rules.
-/

universe u

namespace Machine

open Prog Outcome

variable {Op : Type → Type u} {ε σ α β : Type} (M : Machine Op ε σ)

/-- The program returns from the state `s`, and its answer and the state it leaves meet `Q`. -/
def Returns (p : Prog Op ε α) (s : σ) (Q : α → σ → Prop) : Prop :=
  ∃ a s', M.run p s = done a s' ∧ Q a s'

variable {M} {p : Prog Op ε α} {s s' : σ} {a : α} {Q Q' : α → σ → Prop}

theorem returns_of_run (h : M.run p s = done a s') (hQ : Q a s') : M.Returns p s Q :=
  ⟨a, s', h, hQ⟩

theorem returns_ret (h : Q a s) : M.Returns (ret a) s Q := ⟨a, s, rfl, h⟩

theorem Returns.imp (h : M.Returns p s Q) (hQ : ∀ a s', Q a s' → Q' a s') : M.Returns p s Q' := by
  obtain ⟨a, s', hrun, h⟩ := h
  exact ⟨a, s', hrun, hQ a s' h⟩

/-- What is known of the states that the program leaves when it returns. -/
theorem Returns.and (h : M.Returns p s Q) (h' : M.Ensures p s Q') :
    M.Returns p s fun a s' => Q a s' ∧ Q' a s' := by
  obtain ⟨a, s', hrun, h⟩ := h
  exact ⟨a, s', hrun, h, h' a s' hrun⟩

theorem Returns.bind {h : α → Prog Op ε β} {P : α → σ → Prop} {Q : β → σ → Prop}
    (hp : M.Returns p s P) (hh : ∀ a s', P a s' → M.Returns (h a) s' Q) :
    M.Returns (p >>= h) s Q := by
  obtain ⟨a, s₁, hrun, hP⟩ := hp
  obtain ⟨b, s', hrun', hQ⟩ := hh a s₁ hP
  exact ⟨b, s', (M.run_bind_of_done hrun).trans hrun', hQ⟩

/-- The rest of a sequence whose first part is known to return. -/
theorem returns_bind_of_run {h : α → Prog Op ε β} {Q : β → σ → Prop} (hp : M.run p s = done a s')
    (hh : M.Returns (h a) s' Q) : M.Returns (p >>= h) s Q := by
  obtain ⟨b, s₁, hrun, hQ⟩ := hh
  exact ⟨b, s₁, (M.run_bind_of_done hp).trans hrun, hQ⟩

theorem returns_ite {c : Prop} [Decidable c] {q : Prog Op ε α} (hp : c → M.Returns p s Q)
    (hq : ¬c → M.Returns q s Q) : M.Returns (if c then p else q) s Q := by
  split
  · exact hp ‹_›
  · exact hq ‹_›

end Machine
