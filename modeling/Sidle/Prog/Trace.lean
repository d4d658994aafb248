import Mathlib.Data.List.Induction
import Mathlib.Tactic.Common

/-!
# Traces of a transition function

A system is given by a partial transition function: `step s e` is the state after the
event `e`, or `none` if `e` cannot happen in `s`.  A trace is a list of events.  What is
said of a trace is said either of all the states that it passes through or of all the
steps that it makes.

## Main definitions

* `Trace.run` — the state that a trace leads to.
* `Trace.Always` — a property of every state of a trace.
* `Trace.EachStep` — a property of every step of a trace.
* `Trace.Since` — a kind of step has happened, and no step of another kind since then.

## Main results

* `Trace.always_of_eachStep` — the induction rule for invariants.
* `Trace.always_iff_eachStep` — an invariant that every step either keeps or breaks.
-/

namespace Trace

variable {σ ε : Type*} (step : σ → ε → Option σ)

/-- The state that a trace leads to from `s`, if it can happen. -/
def run (s : σ) : List ε → Option σ
  | [] => some s
  | e :: es => (step s e).bind fun t => run t es

@[simp] theorem run_nil (s : σ) : run step s [] = some s := rfl

theorem run_cons (s : σ) (e : ε) (es : List ε) :
    run step s (e :: es) = (step s e).bind fun t => run step t es := rfl

theorem run_cons_of_step {step : σ → ε → Option σ} {s t : σ} {e : ε} (h : step s e = some t)
    (es : List ε) : run step s (e :: es) = run step t es := by
  rw [run_cons, h, Option.bind_some]

theorem run_append (s : σ) (es fs : List ε) :
    run step s (es ++ fs) = (run step s es).bind fun t => run step t fs := by
  induction es generalizing s with
  | nil => rfl
  | cons e es ih =>
    rw [List.cons_append, run_cons, run_cons]
    cases step s e with
    | none => rfl
    | some t => exact ih t

theorem run_append_of_run {step : σ → ε → Option σ} {s t : σ} {es : List ε}
    (h : run step s es = some t) (fs : List ε) : run step s (es ++ fs) = run step t fs := by
  rw [run_append, h, Option.bind_some]

/-- `P` holds in every state that the trace passes through. -/
def Always (P : σ → Prop) (s : σ) (es : List ε) : Prop :=
  ∀ (before after : List ε) (t : σ), es = before ++ after → run step s before = some t → P t

/-- `P` holds of every step of the trace: of the state before it, the event and the state
after it. -/
def EachStep (P : σ → ε → σ → Prop) (s : σ) (es : List ε) : Prop :=
  ∀ (before : List ε) (e : ε) (after : List ε) (t u : σ), es = before ++ e :: after →
    run step s before = some t → step t e = some u → P t e u

variable {step} {s t : σ} {e : ε} {es fs : List ε} {I : σ → Prop} {P Q : σ → ε → σ → Prop}

theorem always_nil : Always step I s [] ↔ I s := by
  constructor
  · intro h
    exact h [] [] s rfl rfl
  · intro h before after t heq hrun
    obtain ⟨rfl, -⟩ := List.append_eq_nil_iff.mp heq.symm
    cases hrun
    exact h

theorem always_cons :
    Always step I s (e :: es) ↔ I s ∧ ∀ t, step s e = some t → Always step I t es := by
  constructor
  · intro h
    constructor
    · exact h [] (e :: es) s rfl rfl
    · intro t ht before after u heq hrun
      apply h (e :: before) after u
      · rw [heq, List.cons_append]
      · rw [run_cons_of_step ht, hrun]
  · intro h before after u heq hrun
    cases before with
    | nil =>
      cases hrun
      exact h.1
    | cons e' before =>
      obtain ⟨rfl, heq'⟩ := List.cons.inj heq
      rw [run_cons] at hrun
      cases ht : step s e with
      | none =>
        rw [ht] at hrun
        cases hrun
      | some t =>
        rw [ht] at hrun
        exact h.2 t ht before after u heq' hrun

theorem always_cons_of_step (h : step s e = some t) :
    Always step I s (e :: es) ↔ I s ∧ Always step I t es := by
  rw [always_cons]
  constructor
  · intro ⟨hs, ht⟩
    exact ⟨hs, ht t h⟩
  · intro ⟨hs, ht⟩
    refine ⟨hs, fun u hu => ?_⟩
    rw [h] at hu
    cases hu
    exact ht

theorem always_cons_of_none (h : step s e = none) : Always step I s (e :: es) ↔ I s := by
  rw [always_cons]
  constructor
  · intro hs
    exact hs.1
  · intro hs
    refine ⟨hs, fun u hu => ?_⟩
    rw [h] at hu
    cases hu

/-- A decidable property of the states of a trace can be tested. -/
instance decidableAlways [DecidablePred I] :
    (es : List ε) → (s : σ) → Decidable (Always step I s es)
  | [], s => decidable_of_iff (I s) always_nil.symm
  | e :: es, s =>
    match h : step s e with
    | none => decidable_of_iff (I s) (always_cons_of_none h).symm
    | some t =>
      have := decidableAlways es t
      decidable_of_iff (I s ∧ Always step I t es) (always_cons_of_step h).symm

theorem eachStep_nil : EachStep step P s [] := by
  intro before e after t u heq
  simp at heq

theorem eachStep_cons :
    EachStep step P s (e :: es) ↔ ∀ t, step s e = some t → P s e t ∧ EachStep step P t es := by
  constructor
  · intro h t ht
    constructor
    · exact h [] e es s t rfl rfl ht
    · intro before f after u v heq hrun hstep
      apply h (e :: before) f after u v _ _ hstep
      · rw [heq, List.cons_append]
      · rw [run_cons_of_step ht, hrun]
  · intro h before f after u v heq hrun hstep
    cases before with
    | nil =>
      obtain ⟨rfl, rfl⟩ := List.cons.inj heq
      cases hrun
      exact (h v hstep).1
    | cons e' before =>
      obtain ⟨rfl, heq'⟩ := List.cons.inj heq
      rw [run_cons] at hrun
      cases ht : step s e with
      | none =>
        rw [ht] at hrun
        cases hrun
      | some t =>
        rw [ht] at hrun
        exact (h t ht).2 before f after u v heq' hrun hstep

/-- A decidable property of the steps of a trace can be tested. -/
instance decidableEachStep [∀ t e u, Decidable (P t e u)] :
    (es : List ε) → (s : σ) → Decidable (EachStep step P s es)
  | [], _ => isTrue eachStep_nil
  | e :: es, s =>
    match h : step s e with
    | none => isTrue (eachStep_cons.mpr fun t ht => by rw [h] at ht; cases ht)
    | some t =>
      have := decidableEachStep es t
      decidable_of_iff (P s e t ∧ EachStep step P t es) <| by
        rw [eachStep_cons]
        constructor
        · intro ht u hu
          rw [h] at hu
          cases hu
          exact ht
        · intro hall
          exact hall t h

/-- What holds of a trace holds of its continuation from a state that it reaches. -/
theorem EachStep.of_append (h : EachStep step P s (es ++ fs)) (hrun : run step s es = some t) :
    EachStep step P t fs := by
  intro before e after u v heq hrun' hstep
  apply h (es ++ before) e after u v _ _ hstep
  · rw [heq, List.append_assoc]
  · rw [run_append_of_run hrun, hrun']

theorem EachStep.left (h : EachStep step P s (es ++ fs)) : EachStep step P s es := by
  intro before e after u v heq hrun hstep
  apply h before e (after ++ fs) u v _ hrun hstep
  rw [heq, List.append_assoc, List.cons_append]

theorem EachStep.imp (h : EachStep step P s es)
    (himp : ∀ t e u, step t e = some u → P t e u → Q t e u) : EachStep step Q s es :=
  fun before e after t u heq hrun hstep =>
    himp t e u hstep (h before e after t u heq hrun hstep)

theorem Always.imp {J : σ → Prop} (h : Always step I s es) (himp : ∀ t, I t → J t) :
    Always step J s es :=
  fun before after t heq hrun => himp t (h before after t heq hrun)

theorem Always.last (h : Always step I s es) (hrun : run step s es = some t) : I t :=
  h es [] t (List.append_nil es).symm hrun

/-- **Invariants**: what holds at the start and is kept by every step that `P` allows holds
in every state of a trace that makes such steps only. -/
theorem always_of_eachStep (h0 : I s)
    (hkeep : ∀ t e u, I t → step t e = some u → P t e u → I u) (h : EachStep step P s es) :
    Always step I s es := by
  induction es generalizing s with
  | nil => exact always_nil.mpr h0
  | cons e es ih =>
    rw [always_cons]
    constructor
    · exact h0
    · intro t ht
      rw [eachStep_cons] at h
      obtain ⟨hP, hrest⟩ := h t ht
      exact ih (hkeep s e t h0 ht hP) hrest

/-- An invariant that every step keeps holds in every state. -/
theorem always_of_step (h0 : I s) (hkeep : ∀ t e u, I t → step t e = some u → I u) :
    Always step I s es :=
  always_of_eachStep (P := fun _ _ _ => True) h0 (fun t e u hI hstep _ => hkeep t e u hI hstep)
    fun _ _ _ _ _ _ _ _ => trivial

/-- A property of the states before every step and the steps themselves. -/
theorem eachStep_of_always (h : Always step I s es)
    (himp : ∀ t e u, I t → step t e = some u → I u → P t e u) : EachStep step P s es := by
  intro before e after t u heq hrun hstep
  apply himp t e u _ hstep
  · apply h (before ++ [e]) after u
    · rw [heq, List.append_assoc, List.singleton_append]
    · rw [run_append_of_run hrun, run_cons_of_step hstep, run_nil]
  · exact h before (e :: after) t heq hrun

/-- An invariant that a step keeps exactly when `P` holds of it holds in every state of a
trace exactly when `P` holds of every step. -/
theorem always_iff_eachStep (h0 : I s)
    (hkeep : ∀ t e u, I t → step t e = some u → (I u ↔ P t e u)) :
    Always step I s es ↔ EachStep step P s es := by
  constructor
  · intro h
    exact eachStep_of_always h fun t e u hI hstep hI' => (hkeep t e u hI hstep).mp hI'
  · intro h
    exact always_of_eachStep h0 (fun t e u hI hstep hP => (hkeep t e u hI hstep).mpr hP) h

/-! ### The last step of a kind -/

variable (step) in
/-- Some step of the trace is an `A`, and no step after it is a `B`. -/
def Since (A B : σ → ε → σ → Prop) (s : σ) (es : List ε) : Prop :=
  ∃ (before : List ε) (e : ε) (after : List ε) (t u : σ), es = before ++ e :: after ∧
    run step s before = some t ∧ step t e = some u ∧ A t e u ∧
    EachStep step (fun t e u => ¬ B t e u) u after

variable {A B : σ → ε → σ → Prop} {J K : σ → Prop}

theorem EachStep.concat (h : EachStep step P s es) (hrun : run step s es = some t)
    (hP : ∀ u, step t e = some u → P t e u) : EachStep step P s (es ++ [e]) := by
  intro before f after v w heq hrun' hstep
  rcases List.eq_nil_or_concat after with rfl | ⟨after', f', rfl⟩
  · obtain ⟨rfl, hef⟩ := List.append_inj' heq rfl
    cases hef
    rw [hrun] at hrun'
    cases hrun'
    exact hP w hstep
  · rw [List.concat_eq_append, ← List.cons_append, ← List.append_assoc] at heq
    obtain ⟨rfl, -⟩ := List.append_inj' heq rfl
    exact h before f after' v w rfl hrun' hstep

/-- What only an `A` can break, and every `B` restores, holds unless there has been an `A`
without a `B` since. -/
theorem or_since_of_run (h0 : J s)
    (hkeep : ∀ t e u, step t e = some u → J t → J u ∨ A t e u)
    (hreset : ∀ t e u, step t e = some u → B t e u → J u) (hrun : run step s es = some t) :
    J t ∨ Since step A B s es := by
  induction es using List.reverseRecOn generalizing t with
  | nil =>
    cases hrun
    exact Or.inl h0
  | append_singleton es e ih =>
    rw [run_append] at hrun
    cases hes : run step s es with
    | none =>
      rw [hes] at hrun
      cases hrun
    | some r =>
      rw [hes, Option.bind_some] at hrun
      cases he : step r e with
      | none =>
        rw [run_cons, he] at hrun
        cases hrun
      | some t' =>
        rw [run_cons_of_step he] at hrun
        cases hrun
        by_cases hB : B r e t
        · exact Or.inl (hreset r e t he hB)
        · cases ih hes with
          | inl hJ =>
            refine (hkeep r e t he hJ).imp_right fun hA => ?_
            exact ⟨es, e, [], r, t, rfl, hes, he, hA, eachStep_nil⟩
          | inr hsince =>
            -- the `A` of the shorter trace, with a further step that is no `B`
            obtain ⟨before, f, after, v, w, rfl, hv, hw, hA, hafter⟩ := hsince
            rw [run_append_of_run hv, run_cons_of_step hw] at hes
            refine Or.inr ⟨before, f, after ++ [e], v, w, ?_, hv, hw, hA, ?_⟩
            · rw [List.append_assoc, List.cons_append]
            · apply hafter.concat hes
              intro u hu
              rw [he] at hu
              cases hu
              exact hB

/-- An invariant with a flag that every `A` raises: at the end the flag tells whether the
trace has made such a step. -/
theorem flag_of_run {G : Bool → σ → Prop} {b : Bool} (h0 : G b s)
    (hkeep : ∀ b t e u, G b t → step t e = some u →
      ∃ b', G b' u ∧ (b' = true ↔ b = true ∨ A t e u))
    (hrun : run step s es = some t) :
    ∃ b', G b' t ∧ (b' = true ↔ b = true ∨ ¬ EachStep step (fun t e u => ¬ A t e u) s es) := by
  induction es generalizing s b with
  | nil =>
    cases hrun
    refine ⟨b, h0, Or.inl, fun h => h.resolve_right fun hn => hn eachStep_nil⟩
  | cons e es ih =>
    rw [run_cons] at hrun
    cases he : step s e with
    | none =>
      rw [he] at hrun
      cases hrun
    | some u =>
      rw [he, Option.bind_some] at hrun
      obtain ⟨b₁, hG₁, hb₁⟩ := hkeep b s e u h0 he
      obtain ⟨b₂, hG₂, hb₂⟩ := ih hG₁ hrun
      have hcons : EachStep step (fun t e u => ¬ A t e u) s (e :: es) ↔
          ¬ A s e u ∧ EachStep step (fun t e u => ¬ A t e u) u es := by
        rw [eachStep_cons]
        constructor
        · intro h
          exact h u he
        · intro h t ht
          rw [he] at ht
          cases ht
          exact h
      refine ⟨b₂, hG₂, ?_⟩
      rw [hb₂, hb₁, hcons, not_and_or, not_not, or_assoc]

/-- What an `A` brings about, and only a `B` ends, holds when there has been an `A` without
a `B` since. -/
theorem of_since (hA : ∀ t e u, step t e = some u → A t e u → K u)
    (hkeep : ∀ t e u, step t e = some u → K t → ¬ B t e u → K u)
    (h : Since step A B s es) (hrun : run step s es = some t) : K t := by
  obtain ⟨before, e, after, v, w, rfl, hv, hw, hAw, hafter⟩ := h
  rw [run_append_of_run hv, run_cons_of_step hw] at hrun
  exact (always_of_eachStep (hA v e w hw hAw)
    (fun t f u hK hstep hB => hkeep t f u hstep hK hB) hafter).last hrun

end Trace
