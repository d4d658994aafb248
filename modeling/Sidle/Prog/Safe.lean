import Sidle.Prog.Run

/-!
# Obligations on the accesses of a program

`Safe E Φ X Q p w` says what is asked of a program `p` that starts in the state `w`: every
access it comes to meets the obligation `Φ`, it fails with an `X` only, and what it returns
meets `Q`.  What an access
may do to the state is a relation, the *effects* `E`.  They may be those of a machine, with
or without other threads that act between two accesses, or those of an abstraction that
keeps track of a little of the memory only, such as which locks the program holds.

## Main definitions

* `All` — every access of a program is of one kind.
* `Effects` — what an access may answer and do to the state.
* `Safe` — the obligations along a program.

## Main results

* `safe_bind`, `Safe.imp`, `safe_forRange` — the rules.
* `All.safe` — a program is safe when each of its accesses is.
-/

universe u

/-- What the accesses `Op` may do on states in `W`: `step o b w w'` says that `o` may answer
`b` in the state `w` and leave `w'`. -/
structure Effects (Op : Type → Type u) (W : Type) where
  step : {β : Type} → Op β → β → W → W → Prop

/-- The effects of a machine that runs alone. -/
def Machine.effects {Op : Type → Type u} {ε σ : Type} (M : Machine Op ε σ) : Effects Op σ :=
  ⟨fun o b s s' => M.exec o s = .ok (b, s')⟩

namespace Prog

variable {Op : Type → Type u} {ε α β γ W : Type}

/-! ### The accesses of a program -/

/-- Every access of the program, whatever the earlier ones answer, has the property `K`, and
every failure the property `X`. -/
def All (K : {β : Type} → Op β → Prop) (X : ε → Prop) : Prog Op ε α → Prop
  | ret _ => True
  | fail e => X e
  | diverge => True
  | op o k => K o ∧ ∀ b, All K X (k b)

section All

variable {K K' : {β : Type} → Op β → Prop} {X X' : ε → Prop}

theorem all_pure (a : α) : All K X (pure a : Prog Op ε α) := trivial

theorem all_diverge : All K X (diverge : Prog Op ε α) := trivial

theorem all_lift {o : Op α} (h : K o) : All K X (lift o : Prog Op ε α) := ⟨h, fun _ => trivial⟩

theorem All.bind {p : Prog Op ε β} {h : β → Prog Op ε α} (hp : All K X p)
    (hh : ∀ b, All K X (h b)) : All K X (p >>= h) := by
  induction p with
  | ret b => exact hh b
  | fail e => exact hp
  | diverge => trivial
  | op o k ih => exact ⟨hp.1, fun b => ih b (hp.2 b)⟩

theorem all_ite {c : Prop} [Decidable c] {p q : Prog Op ε α} (hp : All K X p) (hq : All K X q) :
    All K X (if c then p else q) := by
  split
  · exact hp
  · exact hq

theorem all_forRange (start n : ℕ) {body : ℕ → Prog Op ε Unit}
    (h : ∀ i, start ≤ i → i < start + n → All K X (body i)) : All K X (forRange start n body) := by
  induction n generalizing start with
  | zero => trivial
  | succ n ih =>
    exact (h start (Nat.le_refl _) (by omega)).bind fun _ =>
      ih (start + 1) fun i hi hin => h i (by omega) (by omega)

theorem All.imp {p : Prog Op ε α} (hp : All K X p) (h : ∀ {β : Type} (o : Op β), K o → K' o)
    (hX : ∀ e, X e → X' e) : All K' X' p := by
  induction p with
  | ret | diverge => trivial
  | fail e => exact hX e hp
  | op o k ih => exact ⟨h o hp.1, fun b => ih b (hp.2 b)⟩

end All

/-! ### Obligations -/

/-- Every access of the program meets `Φ`, its failure `X`, and its answer `Q`. -/
def Safe (E : Effects Op W) (Φ : {β : Type} → Op β → W → Prop) (X : ε → Prop) (Q : α → W → Prop) :
    Prog Op ε α → W → Prop
  | ret a, w => Q a w
  | fail e, _ => X e
  | diverge, _ => True
  | op o k, w => Φ o w ∧ ∀ b w', E.step o b w w' → Safe E Φ X Q (k b) w'

variable {E : Effects Op W} {Φ : {β : Type} → Op β → W → Prop} {X : ε → Prop} {Q Q' : α → W → Prop}

@[simp] theorem safe_ret {a : α} {w : W} : Safe E Φ X Q (ret a : Prog Op ε α) w ↔ Q a w := Iff.rfl

@[simp] theorem safe_pure {a : α} {w : W} : Safe E Φ X Q (pure a : Prog Op ε α) w ↔ Q a w := Iff.rfl

@[simp] theorem safe_fail {e : ε} {w : W} : Safe E Φ X Q (fail e : Prog Op ε α) w ↔ X e := Iff.rfl

@[simp] theorem safe_diverge {w : W} : Safe E Φ X Q (diverge : Prog Op ε α) w := trivial

theorem safe_op {o : Op β} {k : β → Prog Op ε α} {w : W} :
    Safe E Φ X Q (op o k) w ↔ Φ o w ∧ ∀ b w', E.step o b w w' → Safe E Φ X Q (k b) w' := Iff.rfl

/-- The obligations of a sequence are those of its parts. -/
theorem safe_bind {p : Prog Op ε β} {h : β → Prog Op ε α} {w : W} :
    Safe E Φ X Q (p >>= h) w ↔ Safe E Φ X (fun b w' => Safe E Φ X Q (h b) w') p w := by
  induction p generalizing w with
  | ret | fail | diverge => exact Iff.rfl
  | op o k ih =>
    rw [op_bind, safe_op, safe_op]
    exact and_congr_right fun _ => forall_congr' fun b => forall_congr' fun w' =>
      imp_congr_right fun _ => ih b

/-- Weaker obligations on the answer. -/
theorem Safe.imp {p : Prog Op ε α} {w : W} (h : Safe E Φ X Q p w) (hQ : ∀ a w', Q a w' → Q' a w') :
    Safe E Φ X Q' p w := by
  induction p generalizing w with
  | ret a => exact hQ a w h
  | fail e => exact h
  | diverge => trivial
  | op o k ih => exact ⟨h.1, fun b w' hstep => ih b (h.2 b w' hstep)⟩

/-- The first part of a sequence, and what the rest needs of it. -/
theorem Safe.bind {p : Prog Op ε β} {h : β → Prog Op ε α} {w : W} {P : β → W → Prop}
    (hp : Safe E Φ X P p w) (hh : ∀ b w', P b w' → Safe E Φ X Q (h b) w') :
    Safe E Φ X Q (p >>= h) w :=
  safe_bind.mpr (hp.imp hh)

theorem safe_ite {c : Prop} [Decidable c] {p q : Prog Op ε α} {w : W}
    (hp : c → Safe E Φ X Q p w) (hq : ¬c → Safe E Φ X Q q w) :
    Safe E Φ X Q (if c then p else q) w := by
  split
  · exact hp ‹_›
  · exact hq ‹_›

/-- A counted loop whose rounds keep an invariant. -/
theorem safe_forRange (start n : ℕ) {body : ℕ → Prog Op ε Unit} {I : W → Prop}
    (h : ∀ i w, start ≤ i → i < start + n → I w → Safe E Φ X (fun _ => I) (body i) w) {w : W}
    (hw : I w) :
    Safe E Φ X (fun _ => I) (forRange start n body) w := by
  induction n generalizing start w with
  | zero => exact hw
  | succ n ih =>
    rw [forRange_succ]
    apply (h start w (Nat.le_refl _) (by omega) hw).bind
    intro _ w' hw'
    exact ih (start + 1) (fun i w hi hin => h i w (by omega) (by omega)) hw'

/-- A program all of whose accesses meet their obligations in every state, and keep the
property `I` of the state. -/
theorem All.safe {K : {β : Type} → Op β → Prop} {I : W → Prop} {p : Prog Op ε α} (hp : All K X p)
    (hΦ : ∀ {β : Type} (o : Op β) (w : W), K o → I w → Φ o w)
    (hI : ∀ {β : Type} (o : Op β) (b : β) (w w' : W), K o → I w → E.step o b w w' → I w')
    {w : W} (hw : I w) : Safe E Φ X (fun _ => I) p w := by
  induction p generalizing w with
  | ret => exact hw
  | fail e => exact hp
  | diverge => trivial
  | op o k ih =>
    exact ⟨hΦ o w hp.1 hw, fun b w' hstep => ih b (hp.2 b) (hI o b w w' hp.1 hw hstep)⟩

/-- What every access keeps holds at the end. -/
theorem Safe.and_invariant {I : W → Prop} {p : Prog Op ε α} {w : W} (h : Safe E Φ X Q p w)
    (hI : ∀ {β : Type} (o : Op β) (b : β) (w w' : W), I w → E.step o b w w' → I w') (hw : I w) :
    Safe E Φ X (fun a w' => Q a w' ∧ I w') p w := by
  induction p generalizing w with
  | ret => exact ⟨h, hw⟩
  | fail e => exact h
  | diverge => trivial
  | op o k ih => exact ⟨h.1, fun b w' hstep => ih b (h.2 b w' hstep) (hI o b w w' hw hstep)⟩

end Prog
