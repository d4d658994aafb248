import Sidle.Prog.Trace

/-!
# What an observer can tell from two states of a trace

An observer of a trace compares what it has seen at one time with what it sees at a later one.
Two rules say what follows for the states between: if a flag is only lowered together with a count,
then a count that has not changed means that the flag has been down all the time; and a value that
is traced back step by step was there in some state that the trace has passed through.

## Main definitions

* `Trace.Passes` — a state that a trace passes through.

## Main results

* `Trace.always_of_count` — the rule of the flag and the count.
* `Trace.passes_of_run` — the rule of the value that is traced back.
-/

namespace Trace

variable {σ ε : Type*} {step : σ → ε → Option σ}

variable (step) in
/-- The trace `es` from `s` passes through `u`. -/
def Passes (s : σ) (es : List ε) (u : σ) : Prop :=
  ∃ before after, es = before ++ after ∧ run step s before = some u

variable {s t u : σ} {e : ε} {es : List ε}

theorem passes_self (s : σ) (es : List ε) : Passes step s es s := ⟨[], es, rfl, rfl⟩

theorem passes_last (h : run step s es = some t) : Passes step s es t :=
  ⟨es, [], (List.append_nil es).symm, h⟩

theorem Passes.cons (hstep : step s e = some t) (h : Passes step t es u) :
    Passes step s (e :: es) u := by
  obtain ⟨before, after, rfl, hrun⟩ := h
  exact ⟨e :: before, after, rfl, by rw [run_cons_of_step hstep, hrun]⟩

theorem Always.passes {I : σ → Prop} (h : Always step I s es) (hu : Passes step s es u) : I u := by
  obtain ⟨before, after, heq, hrun⟩ := hu
  exact h before after u heq hrun

theorem EachStep.append {P : σ → ε → σ → Prop} (h : EachStep step P s es)
    (h' : ∀ t, run step s es = some t → EachStep step P t fs) : EachStep step P s (es ++ fs) := by
  induction es generalizing s with
  | nil => exact h' s rfl
  | cons e es ih =>
    rw [List.cons_append, eachStep_cons]
    intro t ht
    obtain ⟨he, hes⟩ := eachStep_cons.mp h t ht
    exact ⟨he, ih hes fun u hu => h' u ((run_cons_of_step ht es).trans hu)⟩

/-- What no step lowers is not lowered by a trace. -/
theorem le_of_run {num : σ → ℕ} (hmono : ∀ t e u, step t e = some u → num t ≤ num u)
    (hrun : run step s es = some t) : num s ≤ num t := by
  have hall : Always step (fun u => num s ≤ num u) s es := by
    refine always_of_step (I := fun u => num s ≤ num u) (Nat.le_refl _) ?_
    intro t e u ht hstep
    exact Nat.le_trans ht (hmono t e u hstep)
  exact hall.last hrun

/-- A flag that is only lowered together with a count has been down all the time, if it is down at
the end and the count is what it was. -/
theorem always_of_count {flag : σ → Prop} (num : σ → ℕ)
    (hmono : ∀ t e u, step t e = some u → num t ≤ num u)
    (hdown : ∀ t e u, step t e = some u → flag t → flag u ∨ num t < num u)
    (hrun : run step s es = some t) (hflag : ¬ flag t) (hnum : num t = num s) :
    Always step (fun u => ¬ flag u) s es := by
  induction es generalizing s with
  | nil =>
    cases hrun
    exact always_nil.mpr hflag
  | cons e es ih =>
    rw [run_cons] at hrun
    cases hstep : step s e with
    | none =>
      rw [hstep] at hrun
      cases hrun
    | some u =>
      rw [hstep, Option.bind_some] at hrun
      have hsu := hmono s e u hstep
      have hut := le_of_run hmono hrun
      have hrest := ih hrun (by omega)
      refine (always_cons_of_step hstep).mpr ⟨?_, hrest⟩
      intro hs
      -- the flag was up at the start: lowering it would have counted
      rcases hdown s e u hstep hs with hu | hlt
      · exact hrest.passes (passes_self u es) hu
      · omega

/-- What every step takes over from a state before it, or establishes anew, was established in a
state that the trace has passed through. -/
theorem passes_of_run {R : σ → σ → Prop} {P : σ → ε → σ → Prop} (h0 : R s s)
    (hkeep : ∀ w t e u, R w t → step t e = some u → P t e u → R w u ∨ R u u)
    (hall : EachStep step P s es) (hrun : run step s es = some t) :
    ∃ w, Passes step s es w ∧ R w t := by
  induction es using List.reverseRecOn generalizing t with
  | nil =>
    cases hrun
    exact ⟨s, passes_self s [], h0⟩
  | append_singleton es e ih =>
    have hend := passes_last hrun
    rw [run_append] at hrun
    cases hes : run step s es with
    | none =>
      rw [hes] at hrun
      cases hrun
    | some u =>
      rw [hes, Option.bind_some] at hrun
      cases he : step u e with
      | none =>
        rw [run_cons, he] at hrun
        cases hrun
      | some v =>
        rw [run_cons_of_step he] at hrun
        cases hrun
        obtain ⟨w, ⟨before, after, rfl, hw⟩, hR⟩ := ih hall.left hes
        rcases hkeep w u e t hR he (hall _ e [] u t rfl hes he) with hkept | hnew
        · exact ⟨w, ⟨before, after ++ [e], by rw [List.append_assoc], hw⟩, hkept⟩
        · exact ⟨t, hend, hnew⟩

end Trace
