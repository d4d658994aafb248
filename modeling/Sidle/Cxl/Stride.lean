import Mathlib.Algebra.Order.Group.Unbundled.Abs
import Mathlib.Tactic.Linarith
import Mathlib.Tactic.Ring

/-!
# Stride arbitration between two parties

Two parties pass their strides `a` and `b`: the party that is behind moves next, the second
one when they are level.  All that matters is the lead of the first party over the second.  It
stays between `-b` and `a`, and so the share of the first party in any stretch of moves is
`b / (a + b)`, up to one move.

## Main definitions

* `Stride.next`, `Stride.lead` — the lead after one move and after several.
* `Stride.turns` — the number of moves of the first party.

## Main results

* `Stride.abs_turns_sub_le` — the share of the first party in any stretch.
* `Stride.turns_period` — its exact share in `a + b` moves.
-/

namespace Stride

/-- The lead of the first party after one move. -/
def next (a b d : ℤ) : ℤ := if d < 0 then d + a else d - b

/-- The lead after `n` moves. -/
def lead (a b : ℤ) : ℕ → ℤ → ℤ
  | 0, d => d
  | n + 1, d => lead a b n (next a b d)

/-- The number of moves of the first party among `n` moves. -/
def turns (a b : ℤ) : ℕ → ℤ → ℕ
  | 0, _ => 0
  | n + 1, d => (if d < 0 then 1 else 0) + turns a b n (next a b d)

variable {a b d : ℤ} {n : ℕ}

@[simp] theorem lead_zero : lead a b 0 d = d := rfl

theorem lead_succ : lead a b (n + 1) d = lead a b n (next a b d) := rfl

@[simp] theorem turns_zero : turns a b 0 d = 0 := rfl

theorem turns_succ : turns a b (n + 1) d = (if d < 0 then 1 else 0) +
    turns a b n (next a b d) := rfl

/-- A move keeps the lead in its range, and below `a`. -/
theorem next_mem (ha : 0 < a) (hb : 0 < b) (h : -b ≤ d ∧ d ≤ a) :
    -b ≤ next a b d ∧ next a b d < a := by
  unfold next
  split
  · omega
  · omega

theorem lead_mem (ha : 0 < a) (hb : 0 < b) (h : -b ≤ d ∧ d ≤ a) :
    -b ≤ lead a b n d ∧ lead a b n d ≤ a := by
  induction n generalizing d with
  | zero => exact h
  | succ n ih =>
    have hnext := next_mem ha hb h
    exact ih ⟨hnext.1, hnext.2.le⟩

theorem lead_lt (ha : 0 < a) (hb : 0 < b) (h : -b ≤ d ∧ d < a) : lead a b n d < a := by
  induction n generalizing d with
  | zero => exact h.2
  | succ n ih => exact ih (next_mem ha hb ⟨h.1, h.2.le⟩)

/-- A move of the first party adds `a + b` to what a move of the second one does. -/
theorem lead_eq : lead a b n d = d + turns a b n d * (a + b) - n * b := by
  induction n generalizing d with
  | zero => simp
  | succ n ih =>
    rw [lead_succ, ih, turns_succ, next]
    split
    · push_cast
      ring
    · push_cast
      ring

/-- **The share of the first party** in any stretch of moves, up to one move. -/
theorem abs_turns_sub_le (ha : 0 < a) (hb : 0 < b) (h : -b ≤ d ∧ d ≤ a) (n : ℕ) :
    |(turns a b n d : ℤ) * (a + b) - n * b| ≤ a + b := by
  have hend := lead_mem (n := n) ha hb h
  have heq := lead_eq (a := a) (b := b) (n := n) (d := d)
  rw [abs_le]
  constructor <;> linarith

/-- **The exact share of the first party** in `a + b` moves. -/
theorem turns_period (ha : 0 < a) (hb : 0 < b) (h : -b ≤ d ∧ d < a) (hn : (n : ℤ) = a + b) :
    (turns a b n d : ℤ) = b := by
  have hlo := (lead_mem (n := n) ha hb ⟨h.1, h.2.le⟩).1
  have hhi := lead_lt (n := n) ha hb h
  have heq := lead_eq (a := a) (b := b) (n := n) (d := d)
  rw [hn] at heq
  have hprod : ((turns a b n d : ℤ) - b) * (a + b) = lead a b n d - d := by
    rw [heq]
    ring
  -- a multiple of `a + b` that is smaller than `a + b`
  have hlt : ((turns a b n d : ℤ) - b) * (a + b) < 1 * (a + b) := by linarith
  have hgt : -1 * (a + b) < ((turns a b n d : ℤ) - b) * (a + b) := by linarith
  have h₁ := lt_of_mul_lt_mul_right hlt (by linarith)
  have h₂ := lt_of_mul_lt_mul_right hgt (by linarith)
  omega

end Stride
