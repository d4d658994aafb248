import Sidle.Prog.Run

/-!
# Partial correctness of sequential programs

`M.Ensures p s Q` says that `Q` holds of the answer and of the last state whenever the
program `p` returns from the state `s`.  A program that changes the state only along a
preorder, wherever it starts, `Keeps` that preorder; such programs are put together without
a word about their states.

## Main results

* `ensures_bind`, `Ensures.imp`, `ensures_forRange` — the rules.
* `Keeps.bind`, `keeps_forRange` — the rules for programs that keep a preorder.
-/

universe u

namespace Machine

open Prog Outcome

variable {Op : Type → Type u} {ε σ α β : Type} (M : Machine Op ε σ)

/-- If the program returns from the state `s`, its answer and the state it leaves meet
`Q`. -/
def Ensures (p : Prog Op ε α) (s : σ) (Q : α → σ → Prop) : Prop :=
  ∀ a s', M.run p s = done a s' → Q a s'

variable {M} {p : Prog Op ε α} {s : σ} {Q Q' : α → σ → Prop}

@[simp] theorem ensures_ret {a : α} : M.Ensures (ret a) s Q ↔ Q a s := by simp [Ensures]

@[simp] theorem ensures_pure {a : α} : M.Ensures (pure a) s Q ↔ Q a s := ensures_ret

theorem ensures_fail {e : ε} : M.Ensures (fail e) s Q := fun _ _ h => by cases h

theorem ensures_diverge : M.Ensures diverge s Q := fun _ _ h => by cases h

theorem ensures_lift {o : Op α} :
    M.Ensures (lift o) s Q ↔ ∀ a s', M.exec o s = .ok (a, s') → Q a s' := by
  refine forall_congr' fun a => forall_congr' fun s' => imp_congr_left ?_
  simp only [lift, run]
  cases M.exec o s with
  | error e => simp
  | ok b => obtain ⟨b, t⟩ := b; simp

theorem ensures_bind {h : α → Prog Op ε β} {Q : β → σ → Prop} :
    M.Ensures (p >>= h) s Q ↔ M.Ensures p s fun a s' => M.Ensures (h a) s' Q := by
  constructor
  · intro hp a s₁ hrun b s' hb
    exact hp b s' ((M.run_bind_of_done hrun).trans hb)
  · intro hp b s' hrun
    obtain ⟨a, s₁, ha, hb⟩ := M.run_bind_eq_done.mp hrun
    exact hp a s₁ ha b s' hb

theorem Ensures.imp (h : M.Ensures p s Q) (hQ : ∀ a s', Q a s' → Q' a s') : M.Ensures p s Q' :=
  fun a s' hrun => hQ a s' (h a s' hrun)

theorem Ensures.and (h : M.Ensures p s Q) (h' : M.Ensures p s Q') :
    M.Ensures p s fun a s' => Q a s' ∧ Q' a s' :=
  fun a s' hrun => ⟨h a s' hrun, h' a s' hrun⟩

/-- What the better defined program ensures. -/
theorem Ensures.of_le {q : Prog Op ε α} (hpq : p ≤ q) (h : M.Ensures q s Q) : M.Ensures p s Q :=
  fun a s' hrun => h a s' (M.run_mono hpq hrun)

/-- The first part of a sequence, and what the rest needs of it. -/
theorem Ensures.bind {h : α → Prog Op ε β} {P : α → σ → Prop} {Q : β → σ → Prop}
    (hp : M.Ensures p s P) (hh : ∀ a s', P a s' → M.Ensures (h a) s' Q) :
    M.Ensures (p >>= h) s Q :=
  ensures_bind.mpr (hp.imp hh)

/-- The rest of a sequence after a part that is known to return. -/
theorem ensures_bind_of_done {h : α → Prog Op ε β} {Q : β → σ → Prop} {a : α} {s₁ : σ}
    (hp : M.run p s = done a s₁) (hh : M.Ensures (h a) s₁ Q) : M.Ensures (p >>= h) s Q :=
  fun b s' hrun => hh b s' ((M.run_bind_of_done hp).symm.trans hrun)

theorem ensures_ite {c : Prop} [Decidable c] {q : Prog Op ε α} (hp : c → M.Ensures p s Q)
    (hq : ¬c → M.Ensures q s Q) : M.Ensures (if c then p else q) s Q := by
  split
  · exact hp ‹_›
  · exact hq ‹_›

/-- A counted loop whose rounds move along an invariant. -/
theorem ensures_forRange (start n : ℕ) {body : ℕ → Prog Op ε Unit} {I : ℕ → σ → Prop}
    (h : ∀ i s, start ≤ i → i < start + n → I i s → M.Ensures (body i) s fun _ => I (i + 1))
    (hs : I start s) : M.Ensures (forRange start n body) s fun _ => I (start + n) := by
  induction n generalizing start s with
  | zero => exact ensures_ret.mpr hs
  | succ n ih =>
    refine (h start s (Nat.le_refl _) (by omega) hs).bind fun _ s₁ h₁ => ?_
    rw [show start + (n + 1) = start + 1 + n by omega]
    exact ih (start + 1) (fun i t hi hin => h i t (by omega) (by omega)) h₁

/-! ### Programs that keep a preorder -/

variable (M) in
/-- The program changes the state along `R` only. -/
def Keeps (R : σ → σ → Prop) (p : Prog Op ε α) : Prop := ∀ s, M.Ensures p s fun _ s' => R s s'

section Keeps

variable {R : σ → σ → Prop}

theorem Keeps.imp {R' : σ → σ → Prop} (hp : M.Keeps R p) (h : ∀ s s', R s s' → R' s s') :
    M.Keeps R' p := fun s => (hp s).imp fun _ s' => h s s'

theorem keeps_fail {e : ε} : M.Keeps R (fail e : Prog Op ε α) := fun _ => ensures_fail

theorem keeps_diverge : M.Keeps R (diverge : Prog Op ε α) := fun _ => ensures_diverge

theorem keeps_lift {o : Op α} (h : ∀ s a s', M.exec o s = .ok (a, s') → R s s') :
    M.Keeps R (lift o) := fun s => ensures_lift.mpr (h s)

theorem keeps_ite {c : Prop} [Decidable c] {q : Prog Op ε α} (hp : M.Keeps R p)
    (hq : M.Keeps R q) : M.Keeps R (if c then p else q) := fun s =>
  ensures_ite (fun _ => hp s) fun _ => hq s

/-- The rest of a sequence after a program that keeps a relation. -/
theorem Keeps.then {h : α → Prog Op ε β} {Q : β → σ → Prop} (hp : M.Keeps R p)
    (hh : ∀ a s', R s s' → M.Ensures (h a) s' Q) : M.Ensures (p >>= h) s Q :=
  (hp s).bind hh

variable [IsPreorder σ R]

theorem keeps_ret {a : α} : M.Keeps R (ret a) := fun s => ensures_ret.mpr (refl_of R s)

theorem keeps_pure {a : α} : M.Keeps R (pure a) := keeps_ret

theorem Keeps.bind {h : α → Prog Op ε β} (hp : M.Keeps R p) (hh : ∀ a, M.Keeps R (h a)) :
    M.Keeps R (p >>= h) := fun s =>
  (hp s).bind fun a s₁ h₁ => (hh a s₁).imp fun _ _ h₂ => trans_of R h₁ h₂

/-- What comes after a program of whose answer something is known. -/
theorem Keeps.bind_of {h : α → Prog Op ε β} {P : α → Prop}
    (hp : ∀ s, M.Ensures p s fun a s' => R s s' ∧ P a) (hh : ∀ a, P a → M.Keeps R (h a)) :
    M.Keeps R (p >>= h) := fun s =>
  (hp s).bind fun a s₁ h₁ => (hh a h₁.2 s₁).imp fun _ _ h₂ => trans_of R h₁.1 h₂

/-- What comes after a choice. -/
theorem keeps_join {c : Prop} [Decidable c] {q q' : Prog Op ε β} {h : β → Prog Op ε α}
    (hq : M.Keeps R q) (hq' : M.Keeps R q') (hh : ∀ b, M.Keeps R (h b)) :
    M.Keeps R (if c then q >>= h else q' >>= h) := keeps_ite (hq.bind hh) (hq'.bind hh)

/-- What comes after a step that is made under a condition. -/
theorem keeps_when {c : Prop} [Decidable c] {q : Prog Op ε Unit} {h : Unit → Prog Op ε α}
    (hq : M.Keeps R q) (hh : ∀ b, M.Keeps R (h b)) : M.Keeps R (if c then q >>= h else h ()) :=
  keeps_ite (hq.bind hh) (hh ())

theorem keeps_forRange (start n : ℕ) {body : ℕ → Prog Op ε Unit} (h : ∀ i, M.Keeps R (body i)) :
    M.Keeps R (forRange start n body) := by
  induction n generalizing start with
  | zero => exact keeps_ret
  | succ n ih => exact (h start).bind fun _ => ih (start + 1)

end Keeps

end Machine
