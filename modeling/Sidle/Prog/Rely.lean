import Sidle.Prog.Ensures

/-!
# Programs under interference

A program that runs step by step among others finds before each of its accesses a memory
that the others have changed.  What the others may do is a preorder `R`, the *rely*; what the
program does in one access is a relation `G`, the *guarantee*.  `M.Relies R G p s Q` says that
the program `p`, begun in the state `s`, makes accesses that obey `G` only, and that `Q` holds
of its answer when it returns, all this while the state moves along `R` between its accesses.

## Main definitions

* `Machine.Relies` — partial correctness under interference.
* `Machine.Guards` — every access of a program obeys the guarantee.

## Main results

* `Relies.stable` — what is left of a program stays correct when the others move.
* `Relies.bind`, `Guards.bind` — the rules for sequences.
-/

universe u

namespace Machine

open Prog

variable {Op : Type → Type u} {ε σ α β : Type} (M : Machine Op ε σ)

/-- The program `p` begun in the state `s` obeys `G` in every access, and `Q` holds of its
answer, when the others move along `R`. -/
def Relies (R G : σ → σ → Prop) : Prog Op ε α → σ → (α → σ → Prop) → Prop
  | ret a, s, Q => ∀ s', R s s' → Q a s'
  | fail _, _, _ => True
  | diverge, _, _ => True
  | op o k, s, Q => ∀ s₁, R s s₁ → ∀ b s₂, M.exec o s₁ = .ok (b, s₂) →
      G s₁ s₂ ∧ Relies R G (k b) s₂ Q

/-- Every access of the program obeys `G`, whatever the others do. -/
def Guards (G : σ → σ → Prop) : Prog Op ε α → Prop
  | ret _ => True
  | fail _ => True
  | diverge => True
  | op o k => ∀ s b s', M.exec o s = .ok (b, s') → G s s' ∧ Guards G (k b)

variable {M} {R G : σ → σ → Prop} {p : Prog Op ε α} {s s' : σ} {Q Q' : α → σ → Prop}

theorem relies_diverge : M.Relies R G diverge s Q := trivial

theorem relies_ret {a : α} : M.Relies R G (ret a) s Q ↔ ∀ s', R s s' → Q a s' := Iff.rfl

theorem Relies.imp (h : M.Relies R G p s Q) (hQ : ∀ a s', Q a s' → Q' a s') :
    M.Relies R G p s Q' := by
  induction p generalizing s with
  | ret a => exact fun s' hs => hQ a s' (h s' hs)
  | fail | diverge => trivial
  | op o k ih =>
    intro s₁ hs b s₂ hexec
    obtain ⟨hG, hk⟩ := h s₁ hs b s₂ hexec
    exact ⟨hG, ih b hk⟩

/-- What is left of a program stays correct when the others move. -/
theorem Relies.stable [IsTrans σ R] (h : M.Relies R G p s Q) (hs : R s s') :
    M.Relies R G p s' Q := by
  cases p with
  | ret a =>
    intro s₁ hs₁
    exact h s₁ (trans_of R hs hs₁)
  | fail | diverge => trivial
  | op o k =>
    intro s₁ hs₁
    exact h s₁ (trans_of R hs hs₁)

/-- The first part of a sequence, and what the rest needs of it. -/
theorem Relies.bind [Std.Refl R] {h : α → Prog Op ε β} {P : α → σ → Prop} {Q : β → σ → Prop}
    (hp : M.Relies R G p s P) (hh : ∀ a s', P a s' → M.Relies R G (h a) s' Q) :
    M.Relies R G (p >>= h) s Q := by
  induction p generalizing s with
  | ret a => exact hh a s (hp s (refl_of R s))
  | fail | diverge => trivial
  | op o k ih =>
    intro s₁ hs b s₂ hexec
    obtain ⟨hG, hk⟩ := hp s₁ hs b s₂ hexec
    exact ⟨hG, ih b hk⟩

/-- One access. -/
theorem relies_lift {o : Op α} (h : ∀ s₁ b s₂, R s s₁ → M.exec o s₁ = .ok (b, s₂) →
    G s₁ s₂ ∧ ∀ s₃, R s₂ s₃ → Q b s₃) : M.Relies R G (lift o) s Q := by
  intro s₁ hs b s₂ hexec
  exact h s₁ b s₂ hs hexec

theorem relies_ite {c : Prop} [Decidable c] {q : Prog Op ε α} (hp : c → M.Relies R G p s Q)
    (hq : ¬c → M.Relies R G q s Q) : M.Relies R G (if c then p else q) s Q := by
  split
  · exact hp ‹_›
  · exact hq ‹_›

/-- A program whose answer does not matter keeps what everybody keeps. -/
theorem Guards.relies {F : σ → Prop} (h : M.Guards G p) (hR : ∀ s s', R s s' → F s → F s')
    (hG : ∀ s s', G s s' → F s → F s') (hF : F s) : M.Relies R G p s fun _ s' => F s' := by
  induction p generalizing s with
  | ret a => exact fun s' hs => hR s s' hs hF
  | fail | diverge => trivial
  | op o k ih =>
    intro s₁ hs b s₂ hexec
    obtain ⟨hstep, hk⟩ := h s₁ b s₂ hexec
    exact ⟨hstep, ih b hk (hG s₁ s₂ hstep (hR s s₁ hs hF))⟩

/-! ### Programs that obey the guarantee -/

theorem guards_pure {a : α} : M.Guards G (pure a : Prog Op ε α) := trivial

theorem guards_fail {e : ε} : M.Guards G (fail e : Prog Op ε α) := trivial

theorem guards_lift {o : Op α} (h : ∀ s b s', M.exec o s = .ok (b, s') → G s s') :
    M.Guards G (lift o) := by
  intro s b s' hexec
  exact ⟨h s b s' hexec, trivial⟩

theorem Guards.bind {h : α → Prog Op ε β} (hp : M.Guards G p) (hh : ∀ a, M.Guards G (h a)) :
    M.Guards G (p >>= h) := by
  induction p with
  | ret a => exact hh a
  | fail | diverge => trivial
  | op o k ih =>
    intro s b s' hexec
    obtain ⟨hG, hk⟩ := hp s b s' hexec
    exact ⟨hG, ih b hk⟩

theorem guards_ite {c : Prop} [Decidable c] {q : Prog Op ε α} (hp : M.Guards G p)
    (hq : M.Guards G q) : M.Guards G (if c then p else q) := by
  split
  · exact hp
  · exact hq

end Machine
