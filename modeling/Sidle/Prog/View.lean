import Sidle.Prog.Ensures

/-!
# Programs seen through a view of their states

Much of what a program does to its state is no matter of a question that one asks of it.  A
`View` keeps of a state only what the question is about, such as the set of the locks that are
held, and an invariant under which it may be relied on.  `M.Tracks w p x Q` says what a program
does to the view, whatever the state behind it; the rules put such statements together without
a word about the states.

## Main definitions

* `View` — a view of the states that meet an invariant.
* `Machine.Tracks` — partial correctness with respect to a view.

## Main results

* `Tracks.bind`, `tracks_ite`, `blind_forRange` — the rules.
-/

universe u

/-- A view of the states that meet the invariant `Inv`. -/
structure View (σ V : Type*) where
  Inv : σ → Prop
  get : σ → V

namespace Machine

open Prog

variable {Op : Type → Type u} {ε σ α β V : Type} (M : Machine Op ε σ)

/-- If the program returns from a state whose view is `x`, its answer and the view of the state
it leaves meet `Q`. -/
def Tracks (w : View σ V) (p : Prog Op ε α) (x : V) (Q : α → V → Prop) : Prop :=
  ∀ s, w.Inv s → w.get s = x → M.Ensures p s fun a s' => w.Inv s' ∧ Q a (w.get s')

/-- The program does not change the view. -/
def Blind (w : View σ V) (p : Prog Op ε α) : Prop := ∀ x, M.Tracks w p x fun _ y => y = x

variable {M} {w : View σ V} {p : Prog Op ε α} {x : V} {Q Q' : α → V → Prop}

theorem tracks_ret {a : α} (h : Q a x) : M.Tracks w (ret a) x Q := by
  rintro s hs rfl
  exact ensures_ret.mpr ⟨hs, h⟩

theorem tracks_fail {e : ε} : M.Tracks w (fail e) x Q := fun _ _ _ => ensures_fail

theorem tracks_diverge : M.Tracks w diverge x Q := fun _ _ _ => ensures_diverge

theorem Tracks.imp (h : M.Tracks w p x Q) (hQ : ∀ a y, Q a y → Q' a y) : M.Tracks w p x Q' :=
  fun s hs hx => (h s hs hx).imp fun a _ h' => ⟨h'.1, hQ a _ h'.2⟩

theorem Tracks.bind {h : α → Prog Op ε β} {Q : β → V → Prop} {P : α → V → Prop}
    (hp : M.Tracks w p x P) (hh : ∀ a y, P a y → M.Tracks w (h a) y Q) :
    M.Tracks w (p >>= h) x Q := fun s hs hx =>
  (hp s hs hx).bind fun a s' h' => hh a _ h'.2 s' h'.1 rfl

theorem tracks_ite {c : Prop} [Decidable c] {q : Prog Op ε α} (hp : c → M.Tracks w p x Q)
    (hq : ¬c → M.Tracks w q x Q) : M.Tracks w (if c then p else q) x Q := by
  split
  · exact hp ‹_›
  · exact hq ‹_›

/-- What comes after a choice. -/
theorem tracks_join {c : Prop} [Decidable c] {q q' : Prog Op ε β} {h : β → Prog Op ε α}
    {P : β → V → Prop} (hq : M.Tracks w (if c then q else q') x P)
    (hh : ∀ b y, P b y → M.Tracks w (h b) y Q) :
    M.Tracks w (if c then q >>= h else q' >>= h) x Q := by
  split
  · rename_i hc
    rw [if_pos hc] at hq
    exact hq.bind hh
  · rename_i hc
    rw [if_neg hc] at hq
    exact hq.bind hh

/-- A loop whose rounds do not change the view that it starts from. -/
theorem tracks_forRange (start n : ℕ) {body : ℕ → Prog Op ε Unit}
    (h : ∀ i, M.Tracks w (body i) x fun _ y => y = x) :
    M.Tracks w (forRange start n body) x fun _ y => y = x := by
  induction n generalizing start with
  | zero => exact tracks_ret rfl
  | succ n ih => exact (h start).bind fun _ _ hy => hy ▸ ih (start + 1)

/-- A loop, by what holds of the view before each round. -/
theorem tracks_forRange_step {start n : ℕ} {body : ℕ → Prog Op ε Unit} {I : ℕ → V → Prop}
    (h : ∀ i y, start ≤ i → i < start + n → I i y → M.Tracks w (body i) y fun _ z => I (i + 1) z)
    (h0 : I start x) : M.Tracks w (forRange start n body) x fun _ y => I (start + n) y := by
  induction n generalizing start x with
  | zero => exact tracks_ret h0
  | succ n ih =>
    refine (h start x (Nat.le_refl start) (by omega) h0).bind fun _ y hy => ?_
    have hrest := ih (fun i z hi hlt => h i z (by omega) (by omega)) hy
    have hend : start + (n + 1) = start + 1 + n := by omega
    rw [hend]
    exact hrest

/-! ### Programs that leave the view alone -/

section Blind

theorem blind_ret {a : α} : M.Blind w (ret a) := fun _ => tracks_ret rfl

theorem blind_fail {e : ε} : M.Blind w (fail e : Prog Op ε α) := fun _ => tracks_fail

theorem blind_diverge : M.Blind w (diverge : Prog Op ε α) := fun _ => tracks_diverge

/-- The rest of a sequence after a program that leaves the view alone. -/
theorem Blind.then {h : α → Prog Op ε β} {Q : β → V → Prop} (hp : M.Blind w p)
    (hh : ∀ a, M.Tracks w (h a) x Q) : M.Tracks w (p >>= h) x Q :=
  (hp x).bind fun a _ hy => hy ▸ hh a

theorem Blind.bind {h : α → Prog Op ε β} (hp : M.Blind w p) (hh : ∀ a, M.Blind w (h a)) :
    M.Blind w (p >>= h) := fun x => hp.then fun a => hh a x

theorem blind_ite {c : Prop} [Decidable c] {q : Prog Op ε α} (hp : M.Blind w p)
    (hq : M.Blind w q) : M.Blind w (if c then p else q) := fun x =>
  tracks_ite (fun _ => hp x) fun _ => hq x

theorem blind_forRange (start n : ℕ) {body : ℕ → Prog Op ε Unit} (h : ∀ i, M.Blind w (body i)) :
    M.Blind w (forRange start n body) := fun x => tracks_forRange start n fun i => h i x

end Blind

end Machine
