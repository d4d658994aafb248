import Sidle.Prog.Basic

/-!
# The sequential semantics of programs

A `Machine` executes one atomic access on a memory: it answers and moves to the next
memory, or it faults.  `Machine.run` executes a whole program without interference.
The outcome of a program whose loops are cut off by a fuel is read through
`Machine.Converges`: the family of unrollings answers when one of them does, and the
answer is then the answer of every longer unrolling.

## Main results

* `Machine.run_bind` — running a sequence is running its parts.
* `Machine.run_mono` — more fuel never changes an answer.
* `Machine.run_forRange`, `Machine.exists_run_forRange` — the rules for counted loops.
* `Machine.converges_unique` — the answer of a family of unrollings is unique.
* `Machine.Converges.eq_of_settles` — a family returns what its long unrollings come to.
-/

universe u

/-- What a program comes to when it runs without interference. -/
inductive Outcome (ε α σ : Type)
  /-- It returned `a` and left the memory `s`. -/
  | done (a : α) (s : σ)
  /-- It failed. -/
  | fault (e : ε)
  /-- Its fuel was spent. -/
  | diverged
  deriving DecidableEq

namespace Outcome

variable {ε α β σ : Type}

/-- Continue an outcome that has returned. -/
def andThen : Outcome ε α σ → (α → σ → Outcome ε β σ) → Outcome ε β σ
  | done a s, f => f a s
  | fault e, _ => fault e
  | diverged, _ => diverged

@[simp] theorem done_andThen (a : α) (s : σ) (f : α → σ → Outcome ε β σ) :
    (done a s).andThen f = f a s := rfl

@[simp] theorem fault_andThen (e : ε) (f : α → σ → Outcome ε β σ) :
    (fault e : Outcome ε α σ).andThen f = fault e := rfl

@[simp] theorem diverged_andThen (f : α → σ → Outcome ε β σ) :
    (diverged : Outcome ε α σ).andThen f = diverged := rfl

theorem andThen_eq_done {o : Outcome ε α σ} {f : α → σ → Outcome ε β σ} {b : β} {s' : σ} :
    o.andThen f = done b s' ↔ ∃ a s, o = done a s ∧ f a s = done b s' := by
  cases o <;> simp

/-- The answer of an outcome, if it has returned. -/
def answer? : Outcome ε α σ → Option α
  | done a _ => some a
  | _ => none

/-- The memory an outcome leaves, if it has returned. -/
def state? : Outcome ε α σ → Option σ
  | done _ s => some s
  | _ => none

/-- An outcome that has an answer and a memory is the outcome that returned them. -/
theorem eq_done_of_answer {o : Outcome ε α σ} {a : α} (h : o.answer? = some a) :
    ∃ s, o.state? = some s ∧ o = done a s := by
  cases o with
  | done b s =>
    obtain rfl : b = a := by simpa [answer?] using h
    exact ⟨s, rfl, rfl⟩
  | fault | diverged => simp [answer?] at h

end Outcome

/-- The meaning of the atomic accesses `Op` on the memories `σ`. -/
structure Machine (Op : Type → Type u) (ε σ : Type) where
  /-- Execute one access. -/
  exec : {β : Type} → Op β → σ → Except ε (β × σ)

namespace Machine

open Prog Outcome

variable {Op : Type → Type u} {ε σ α β γ : Type} (M : Machine Op ε σ)

/-- Run a program without interference. -/
def run : Prog Op ε α → σ → Outcome ε α σ
  | ret a, s => done a s
  | fail e, _ => fault e
  | diverge, _ => diverged
  | op o k, s =>
    match M.exec o s with
    | .ok (b, s') => run (k b) s'
    | .error e => fault e

@[simp] theorem run_ret (a : α) (s : σ) : M.run (ret a) s = done a s := rfl

@[simp] theorem run_fail (e : ε) (s : σ) : M.run (fail e : Prog Op ε α) s = fault e := rfl

@[simp] theorem run_diverge (s : σ) : M.run (diverge : Prog Op ε α) s = diverged := rfl

theorem run_op_ok {o : Op β} {k : β → Prog Op ε α} {s s' : σ} {b : β}
    (h : M.exec o s = .ok (b, s')) : M.run (op o k) s = M.run (k b) s' := by
  simp only [run, h]

theorem run_op_error {o : Op β} {k : β → Prog Op ε α} {s : σ} {e : ε}
    (h : M.exec o s = .error e) : M.run (op o k) s = fault e := by
  simp only [run, h]

/-- Running a sequence is running its parts. -/
theorem run_bind (p : Prog Op ε α) (h : α → Prog Op ε β) (s : σ) :
    M.run (p >>= h) s = (M.run p s).andThen fun a s' => M.run (h a) s' := by
  induction p generalizing s with
  | ret | fail | diverge => rfl
  | op o k ih =>
    rw [op_bind]
    simp only [run]
    cases M.exec o s with
    | error e => rfl
    | ok bs => exact ih bs.1 bs.2

/-- The first part of a sequence, once it is known what it returns. -/
theorem run_bind_of_done {p : Prog Op ε α} {h : α → Prog Op ε β} {s s' : σ} {a : α}
    (hp : M.run p s = done a s') : M.run (p >>= h) s = M.run (h a) s' := by
  rw [run_bind, hp, done_andThen]

theorem run_bind_of_diverged {p : Prog Op ε α} {h : α → Prog Op ε β} {s : σ}
    (hp : M.run p s = diverged) : M.run (p >>= h) s = diverged := by
  rw [run_bind, hp, diverged_andThen]

theorem run_bind_of_fault {p : Prog Op ε α} {h : α → Prog Op ε β} {s : σ} {e : ε}
    (hp : M.run p s = fault e) : M.run (p >>= h) s = fault e := by
  rw [run_bind, hp, fault_andThen]

theorem run_bind_eq_done {p : Prog Op ε α} {h : α → Prog Op ε β} {s s' : σ} {b : β} :
    M.run (p >>= h) s = done b s' ↔
      ∃ a s₁, M.run p s = done a s₁ ∧ M.run (h a) s₁ = done b s' := by
  rw [run_bind, andThen_eq_done]

/-- More fuel never changes an answer. -/
theorem run_mono {p q : Prog Op ε α} (hpq : p ≤ q) {s s' : σ} {a : α}
    (h : M.run p s = done a s') : M.run q s = done a s' := by
  induction hpq generalizing s with
  | diverge => simp at h
  | ret => exact h
  | fail => simp at h
  | op o _ ih =>
    simp only [run] at h ⊢
    cases ho : M.exec o s with
    | error e => simp [ho] at h
    | ok bs =>
      rw [ho] at h
      exact ih bs.1 h

/-! ### Counted loops -/

/-- A loop whose rounds move the memory along `f` ends at the end of `f`. -/
theorem run_forRange (start n : ℕ) {p : ℕ → Prog Op ε Unit} {f : ℕ → σ}
    (h : ∀ i, start ≤ i → i < start + n → M.run (p i) (f i) = done () (f (i + 1))) :
    M.run (forRange start n p) (f start) = done () (f (start + n)) := by
  induction n generalizing start with
  | zero => rfl
  | succ n ih =>
    rw [forRange_succ, M.run_bind_of_done (h start (Nat.le_refl _) (by omega)),
      ih (start + 1) fun i hi hin => h i (by omega) (by omega)]
    congr 2
    omega

/-- A loop whose rounds keep an invariant keeps it as a whole. -/
theorem exists_run_forRange (start n : ℕ) {p : ℕ → Prog Op ε Unit} {I : ℕ → σ → Prop}
    (h : ∀ i s, start ≤ i → i < start + n → I i s →
      ∃ s', M.run (p i) s = done () s' ∧ I (i + 1) s')
    {s : σ} (hs : I start s) :
    ∃ s', M.run (forRange start n p) s = done () s' ∧ I (start + n) s' := by
  induction n generalizing start s with
  | zero => exact ⟨s, rfl, hs⟩
  | succ n ih =>
    obtain ⟨s₁, h₁, hI₁⟩ := h start s (Nat.le_refl _) (by omega) hs
    obtain ⟨s', h', hI'⟩ := ih (start + 1) (fun i t hi hin => h i t (by omega) (by omega)) hI₁
    refine ⟨s', ?_, by rwa [show start + (n + 1) = start + 1 + n by omega]⟩
    rw [forRange_succ, M.run_bind_of_done h₁, h']

/-! ### Loops with a fuel -/

/-- The family of unrollings `P` answers `a` and leaves `s'`: one of them does. -/
def Converges (P : ℕ → Prog Op ε α) (s : σ) (a : α) (s' : σ) : Prop :=
  ∃ n, M.run (P n) s = done a s'

/-- The family of unrollings `P` comes to `o`: every unrolling that is long enough does. -/
def Settles (P : ℕ → Prog Op ε α) (s : σ) (o : Outcome ε α σ) : Prop :=
  ∃ N, ∀ n, N ≤ n → M.run (P n) s = o

theorem Settles.converges {P : ℕ → Prog Op ε α} {s s' : σ} {a : α}
    (h : M.Settles P s (done a s')) : M.Converges P s a s' := by
  obtain ⟨N, hN⟩ := h
  exact ⟨N, hN N (Nat.le_refl N)⟩

/-- More fuel does not change an answer. -/
theorem Converges.settles {P : ℕ → Prog Op ε α} (hP : ∀ n, P n ≤ P (n + 1)) {s s' : σ} {a : α}
    (h : M.Converges P s a s') : M.Settles P s (done a s') := by
  obtain ⟨n, hn⟩ := h
  exact ⟨n, fun m hm => M.run_mono (mono_of_le_succ hP hm) hn⟩

/-- The answer of a family of unrollings is unique. -/
theorem converges_unique {P : ℕ → Prog Op ε α} (hP : ∀ n, P n ≤ P (n + 1)) {s s₁ s₂ : σ}
    {a₁ a₂ : α} (h₁ : M.Converges P s a₁ s₁) (h₂ : M.Converges P s a₂ s₂) :
    a₁ = a₂ ∧ s₁ = s₂ := by
  obtain ⟨n₁, h₁⟩ := h₁.settles M hP
  obtain ⟨n₂, h₂⟩ := h₂.settles M hP
  have h := (h₁ (max n₁ n₂) (Nat.le_max_left _ _)).symm.trans
    (h₂ (max n₁ n₂) (Nat.le_max_right _ _))
  simpa using h

/-- What all unrollings from the `c`-th on come to. -/
theorem settles_of_add {P : ℕ → Prog Op ε α} {s : σ} {o : Outcome ε α σ} (c : ℕ)
    (h : ∀ n, M.run (P (n + c)) s = o) : M.Settles P s o :=
  ⟨c, fun n hn => by rw [← h (n - c), Nat.sub_add_cancel hn]⟩

/-- A loop that goes on as another one comes to what that one comes to. -/
theorem Settles.step {P Q : ℕ → Prog Op ε α} {s s' : σ} {o : Outcome ε α σ} (c d : ℕ)
    (h : ∀ n, M.run (P (n + c)) s = M.run (Q (n + d)) s') (hQ : M.Settles Q s' o) :
    M.Settles P s o := by
  obtain ⟨N, hN⟩ := hQ
  refine ⟨N + c, fun n hn => ?_⟩
  rw [show n = n - c + c by omega, h, hN _ (by omega)]

/-- A family that ends as soon as another one has ended. -/
theorem Settles.step_run {P : ℕ → Prog Op ε α} {Q : ℕ → Prog Op ε β} {s s' : σ}
    {o : Outcome ε α σ} {o' : Outcome ε β σ} (c d : ℕ) (hQ : M.Settles Q s' o')
    (h : ∀ n, M.run (Q (n + d)) s' = o' → M.run (P (n + c)) s = o) : M.Settles P s o := by
  obtain ⟨N, hN⟩ := hQ
  exact ⟨N + c, fun n hn => by
    rw [show n = n - c + c by omega, h (n - c) (hN _ (by omega))]⟩

/-- A family that returns returns what it settles at. -/
theorem Converges.eq_of_settles {P : ℕ → Prog Op ε α} (hP : ∀ n, P n ≤ P (n + 1)) {s s' : σ}
    {a : α} {o : Outcome ε α σ} (h : M.Converges P s a s') (ho : M.Settles P s o) :
    o = done a s' := by
  obtain ⟨n, hn⟩ := h.settles M hP
  obtain ⟨N, hN⟩ := ho
  rw [← hN (max n N) (Nat.le_max_right _ _), hn (max n N) (Nat.le_max_left _ _)]

/-- A family of unrollings none of which answers does not return. -/
theorem not_converges_of_diverged {P : ℕ → Prog Op ε α} {s : σ}
    (h : ∀ n, M.run (P n) s = diverged) (a : α) (s' : σ) : ¬ M.Converges P s a s' := by
  rintro ⟨n, hn⟩
  rw [h n] at hn
  simp at hn

end Machine
