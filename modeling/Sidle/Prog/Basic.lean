import Mathlib.Tactic.Common
import Mathlib.Data.Nat.Notation

/-!
# Programs over atomic accesses

A program over a shared memory is a tree of *atomic accesses*: it has returned, it
has failed, its loop fuel has run out, or it performs one access and continues with
the answer.  The accesses are an arbitrary family `Op : Type → Type` (the answer
of `o : Op β` lies in `β`), so that one translation of a function serves both the
sequential semantics, which runs the tree on a memory from its root to a leaf, and
the interleaving semantics, which lets other threads act between any two accesses.

Unbounded loops of the source are functions of a fuel argument that end in `diverge`
when the fuel is spent.  A loop is therefore the limit of its unrollings, and the
approximation order `p ≤ q` (`q` is `p` with some `diverge` leaves replaced)
carries what one unrolling computes to every longer one.

## Main definitions

* `Prog Op ε α` — programs over the accesses `Op`, with faults `ε` and answer `α`.
* `Prog.lift` — the program that performs one access.
* `Prog.forRange` — the counted loop.
* `Prog.Le` — the approximation order.
-/

universe u

/-- A program over the atomic accesses `Op` that may fault with an `ε` and answers
with an `α`. -/
inductive Prog (Op : Type → Type u) (ε α : Type) : Type (max 1 u)
  /-- The program has returned. -/
  | ret (a : α)
  /-- The program has failed: an assertion, an exception, an invalid access. -/
  | fail (e : ε)
  /-- The fuel of a loop is spent. -/
  | diverge
  /-- One atomic access, then the rest. -/
  | op {β : Type} (o : Op β) (k : β → Prog Op ε α)

namespace Prog

variable {Op : Type → Type u} {ε α β γ : Type}

/-- Run `h` on the answer of `p`. -/
protected def bind : Prog Op ε α → (α → Prog Op ε β) → Prog Op ε β
  | ret a, h => h a
  | fail e, _ => fail e
  | diverge, _ => diverge
  | op o k, h => op o fun b => (k b).bind h

instance : Monad (Prog Op ε) where
  pure := ret
  bind := Prog.bind

/-- The program that performs the single access `o`. -/
def lift (o : Op β) : Prog Op ε β := op o ret

@[simp] theorem pure_eq_ret (a : α) : (pure a : Prog Op ε α) = ret a := rfl

@[simp] theorem ret_bind (a : α) (h : α → Prog Op ε β) : (ret a >>= h) = h a := rfl

@[simp] theorem fail_bind (e : ε) (h : α → Prog Op ε β) : (fail e >>= h) = fail e := rfl

@[simp] theorem diverge_bind (h : α → Prog Op ε β) :
    ((diverge : Prog Op ε α) >>= h) = diverge := rfl

@[simp] theorem op_bind (o : Op γ) (k : γ → Prog Op ε α) (h : α → Prog Op ε β) :
    (op o k >>= h) = op o fun b => k b >>= h := rfl

@[simp] theorem lift_bind (o : Op α) (h : α → Prog Op ε β) : (lift o >>= h) = op o h := rfl

theorem bind_ret (p : Prog Op ε α) : (p >>= ret) = p := by
  induction p with
  | ret | fail | diverge => rfl
  | op o k ih => rw [op_bind]; exact congrArg (op o) (funext ih)

theorem bind_assoc' (p : Prog Op ε α) (h : α → Prog Op ε β) (g : β → Prog Op ε γ) :
    (p >>= h >>= g) = p >>= fun a => h a >>= g := by
  induction p with
  | ret | fail | diverge => rfl
  | op o k ih => simp only [op_bind]; exact congrArg (op o) (funext ih)

instance : LawfulMonad (Prog Op ε) :=
  LawfulMonad.mk' (Prog Op ε) bind_ret (fun _ _ => rfl) bind_assoc'

/-! ### Counted loops -/

/-- `for (i = start; i < start + n; ++i) body(i)`. -/
def forRange (start : ℕ) : ℕ → (ℕ → Prog Op ε Unit) → Prog Op ε Unit
  | 0, _ => ret ()
  | n + 1, body => body start >>= fun _ => forRange (start + 1) n body

@[simp] theorem forRange_zero (start : ℕ) (body : ℕ → Prog Op ε Unit) :
    forRange start 0 body = ret () := rfl

theorem forRange_succ (start n : ℕ) (body : ℕ → Prog Op ε Unit) :
    forRange start (n + 1) body = (body start >>= fun _ => forRange (start + 1) n body) := rfl

/-! ### The approximation order -/

/-- `Le p q`: the program `q` is `p` with some of its `diverge` leaves replaced by
programs, as a loop with more fuel is the same loop with less. -/
inductive Le : Prog Op ε α → Prog Op ε α → Prop
  | diverge (q : Prog Op ε α) : Le diverge q
  | ret (a : α) : Le (ret a) (ret a)
  | fail (e : ε) : Le (fail e) (fail e)
  | op {β : Type} (o : Op β) {k k' : β → Prog Op ε α} (h : ∀ b, Le (k b) (k' b)) :
      Le (op o k) (op o k')

instance : LE (Prog Op ε α) := ⟨Le⟩

theorem le_refl (p : Prog Op ε α) : p ≤ p := by
  induction p with
  | ret a => exact Le.ret a
  | fail e => exact Le.fail e
  | diverge => exact Le.diverge _
  | op o k ih => exact Le.op o ih

theorem diverge_le (p : Prog Op ε α) : diverge ≤ p := Le.diverge p

theorem le_trans {p q r : Prog Op ε α} (hpq : p ≤ q) (hqr : q ≤ r) : p ≤ r := by
  induction hpq generalizing r with
  | diverge => exact Le.diverge r
  | ret | fail => exact hqr
  | op o h ih =>
    cases hqr with
    | op _ h' => exact Le.op o fun b => ih b (h' b)

/-- Sequencing is monotone in both programs. -/
theorem bind_mono {p q : Prog Op ε α} {h g : α → Prog Op ε β} (hpq : p ≤ q)
    (hhg : ∀ a, h a ≤ g a) : (p >>= h) ≤ (q >>= g) := by
  induction hpq with
  | diverge => exact Le.diverge _
  | ret a => exact hhg a
  | fail e => exact Le.fail e
  | op o _ ih => exact Le.op o ih

theorem ite_mono {c : Prop} [Decidable c] {p q p' q' : Prog Op ε α} (hp : p ≤ p') (hq : q ≤ q') :
    (if c then p else q) ≤ (if c then p' else q') := by
  split
  · exact hp
  · exact hq

/-- A family of unrollings that grows at each step grows along the order of `ℕ`. -/
theorem mono_of_le_succ {P : ℕ → Prog Op ε α} (h : ∀ n, P n ≤ P (n + 1)) {m n : ℕ}
    (hmn : m ≤ n) : P m ≤ P n := by
  induction hmn with
  | refl => exact le_refl _
  | step _ ih => exact le_trans ih (h _)

end Prog
