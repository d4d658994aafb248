import Sidle.Prog.Trace
import Sidle.Worker.System

/-!
# Who started a trigger round

A round of the migration trigger starts when the time has run out or when the threshold
adjuster wakes the trigger.  In a round of the adjuster a cold leaf is demoted wherever it
lives, in any other round only when it is local.  The trigger tells the two apart by
`call_by_adjuster_`, which a wake-up by the adjuster sets and nothing ever clears.

## Main definitions

* `Recorded`, `recordStep` — the workers, and whether the current round started by timeout.
* `DemotesLocalOnly` — a round that started by timeout enqueues local leaves only.
* `StartsClear` — a round starts by timeout only while the flag is clear.

## Main results

* `demotes_local_only` — **runs whose rounds start with a clear flag** are right.
* `remote_leaf_demoted` — a run in which a later round demotes a remote leaf.
-/

namespace Sidle.Worker

open Trace

/-- The workers, and a record of whether the last round of the trigger started by timeout. -/
structure Recorded where
  workers : Workers
  byTimeout : Bool

/-- The step starts a round of the trigger. -/
def StartsRound (w u : Workers) : Prop := w.trigger = .waiting ∧ u.trigger = .traversing

instance (w u : Workers) : Decidable (StartsRound w u) := inferInstanceAs (Decidable (_ ∧ _))

/-- A step of the workers, recorded. -/
def recordStep (cfg : Config) (r : Recorded) (e : Event) : Option Recorded :=
  (step cfg r.workers e).map fun u =>
    ⟨u, match e with
      | .trigger timeout _ => if StartsRound r.workers u then timeout else r.byTimeout
      | _ => r.byTimeout⟩

/-- Nothing has happened. -/
def Recorded.initial : Recorded := ⟨.initial, false⟩

/-- The step puts a demotion task into one of the queues. -/
def EnqueuesDemotion (w u : Workers) : Prop :=
  u.queue.pairs .demotion ≠ w.queue.pairs .demotion ∨ u.queue.tasks .demotion ≠
    w.queue.tasks .demotion

instance (w u : Workers) : Decidable (EnqueuesDemotion w u) := inferInstanceAs (Decidable (_ ∨ _))

/-- When the step visits a leaf in a round that started by timeout and enqueues the leaf for
demotion, the leaf is local. -/
def DemotesLocalOnly (r : Recorded) (e : Event) (r' : Recorded) : Prop :=
  match e with
  | .trigger _ (some v) =>
    r.workers.trigger = .traversing → r.byTimeout = true →
      EnqueuesDemotion r.workers r'.workers → v.type = .local_
  | _ => True

instance (r : Recorded) (e : Event) (r' : Recorded) : Decidable (DemotesLocalOnly r e r') := by
  unfold DemotesLocalOnly
  split <;> infer_instance

/-- When the step starts a round by timeout, `call_by_adjuster_` is clear. -/
def StartsClear (r : Recorded) (e : Event) (r' : Recorded) : Prop :=
  match e with
  | .trigger true _ => StartsRound r.workers r'.workers → r.workers.callByAdjuster = false
  | _ => True

instance (r : Recorded) (e : Event) (r' : Recorded) : Decidable (StartsClear r e r') := by
  unfold StartsClear
  split <;> infer_instance

/-! ### The flag -/

section Flag

variable {cfg : Config} {w u : Workers}

@[simp] theorem callByAdjuster_checkExecute (type : TaskType) :
    (w.checkExecute type).callByAdjuster = w.callByAdjuster := by
  unfold Workers.checkExecute
  split <;> rfl

@[simp] theorem callByAdjuster_addCandidate (type : TaskType) (v : Visit) :
    (w.addCandidate cfg type v).callByAdjuster = w.callByAdjuster := by
  unfold Workers.addCandidate
  split <;> rfl

theorem callByAdjuster_act (type : TaskType) (task : Task) (v : Verdict) :
    (w.act type task v).callByAdjuster = w.callByAdjuster := by
  cases v <;> rfl

theorem callByAdjuster_stepExecutor {type : TaskType} {r : Reading}
    (h : stepExecutor cfg type r w = some u) : u.callByAdjuster = w.callByAdjuster := by
  unfold stepExecutor at h
  cases hpc : w.executor type with
  | taking =>
    simp only [hpc] at h
    split at h
    · obtain ⟨⟨task, q⟩, -, rfl⟩ := Option.map_eq_some_iff.mp h
      exact callByAdjuster_act type task _
    · obtain ⟨⟨task, q⟩, -, rfl⟩ := Option.map_eq_some_iff.mp h
      exact callByAdjuster_act type _ _
  | clearing =>
    simp only [hpc] at h
    split at h
    · obtain ⟨⟨task, q⟩, -, rfl⟩ := Option.map_eq_some_iff.mp h
      rfl
    · obtain ⟨⟨task, q⟩, -, rfl⟩ := Option.map_eq_some_iff.mp h
      rfl
  | stopped => simp [hpc] at h
  | failed => simp [hpc] at h
  | _ =>
    simp only [hpc] at h
    cases h
    rfl

theorem callByAdjuster_stepAdjuster {status : MemUsageStatus} (h : stepAdjuster status w = some u) :
    u.callByAdjuster = w.callByAdjuster := by
  unfold stepAdjuster at h
  cases hpc : w.adjuster with
  | awaitDemotion times =>
    simp only [hpc] at h
    split at h <;> cases h
    rfl
  | stopped => simp [hpc] at h
  | _ =>
    simp only [hpc] at h
    cases h
    rfl

theorem callByAdjuster_triggerMigrationCb (v : Visit) :
    (triggerMigrationCb cfg v w).callByAdjuster = w.callByAdjuster := by
  unfold triggerMigrationCb
  split
  · split
    · rfl
    · simp
  · split
    · split
      · rfl
      · simp
    · rfl

/-- The trigger changes the flag only when the adjuster starts a round. -/
theorem callByAdjuster_stepTrigger {timeout : Bool} {visit : Option Visit}
    (h : stepTrigger cfg timeout visit w = some u) :
    u.callByAdjuster = w.callByAdjuster ∨ timeout = false ∧ StartsRound w u := by
  unfold stepTrigger at h
  cases hpc : w.trigger with
  | waiting =>
    simp only [hpc, wakeTrigger] at h
    split at h
    · cases h
    · split at h
      · cases h
        exact Or.inl rfl
      · cases timeout with
        | true =>
          cases h
          exact Or.inl rfl
        | false =>
          cases h
          exact Or.inr ⟨rfl, hpc, rfl⟩
  | traversing =>
    rw [hpc] at h
    cases visit with
    | none =>
      cases h
      exact Or.inl rfl
    | some v =>
      cases h
      exact Or.inl (callByAdjuster_triggerMigrationCb v)
  | checkPromotion =>
    simp only [hpc] at h
    cases h
    left
    split <;> simp
  | checkDemotion =>
    simp only [hpc] at h
    cases h
    left
    split <;> simp
  | ending =>
    simp only [hpc] at h
    cases h
    exact Or.inl rfl
  | stopped => simp [hpc] at h
  | failed => simp [hpc] at h

end Flag

/-! ### One step -/

/-- In a round that started by timeout the flag is clear. -/
def ClearInTimeout (r : Recorded) : Prop := r.byTimeout = true → r.workers.callByAdjuster = false

theorem ClearInTimeout.of_step {cfg : Config} {r r' : Recorded} {e : Event} (h : ClearInTimeout r)
    (hstep : recordStep cfg r e = some r') (hclear : StartsClear r e r') : ClearInTimeout r' := by
  obtain ⟨u, hu, rfl⟩ := Option.map_eq_some_iff.mp hstep
  have hsame (hflag : u.callByAdjuster = r.workers.callByAdjuster) :
      ClearInTimeout ⟨u, r.byTimeout⟩ :=
    fun hb => hflag.trans (h hb)
  cases e with
  | trigger timeout visit =>
    have hflag := callByAdjuster_stepTrigger hu
    by_cases hround : StartsRound r.workers u
    · intro hb
      simp only [if_pos hround] at hb
      subst hb
      cases hflag with
      | inl hsame => exact hsame.trans (hclear hround)
      | inr hadjuster => cases hadjuster.1
    · change ClearInTimeout ⟨u, if StartsRound r.workers u then timeout else r.byTimeout⟩
      rw [if_neg hround]
      exact hsame (hflag.resolve_right fun hadjuster => hround hadjuster.2)
  | addMultiTask type data =>
    cases hu
    exact hsame rfl
  | addTask type data =>
    cases hu
    exact hsame rfl
  | executor type reading => exact hsame (callByAdjuster_stepExecutor hu)
  | adjuster status => exact hsame (callByAdjuster_stepAdjuster hu)
  | startUpdate status =>
    cases hu
    apply hsame
    unfold startUpdate
    split
    · rfl
    · split <;> rfl
  | finishUpdate =>
    apply hsame
    simp only [step, finishUpdate] at hu
    split at hu <;> cases hu
    rfl
  | stop =>
    cases hu
    exact hsame rfl

/-- A candidate for promotion does not enter a demotion queue. -/
theorem not_enqueuesDemotion_promotion (cfg : Config) (v : Visit) (w : Workers) :
    ¬EnqueuesDemotion w ((w.addCandidate cfg .promotion v).checkExecute .promotion) := by
  have hqueue (w : Workers) : (w.checkExecute .promotion).queue = w.queue := by
    unfold Workers.checkExecute
    split <;> rfl
  unfold EnqueuesDemotion Workers.addCandidate
  rw [hqueue]
  cases cfg.tree with
  | art => simp [Workers.addMultiTask, MigrationQueue.addMultiTask]
  | masstree => simp [Workers.addTask, MigrationQueue.addTask]

/-- While the flag is clear the trigger enqueues local leaves only. -/
theorem local_of_enqueuesDemotion {cfg : Config} {v : Visit} {w : Workers}
    (hflag : w.callByAdjuster = false) (henq : EnqueuesDemotion w (triggerMigrationCb cfg v w)) :
    v.type = .local_ := by
  have hself : ¬EnqueuesDemotion w w := by simp [EnqueuesDemotion]
  unfold triggerMigrationCb at henq
  split at henq
  · split at henq
    · exact absurd henq hself
    · exact absurd henq (not_enqueuesDemotion_promotion cfg v w)
  · split at henq
    · rename_i hcold
      rw [hflag, Bool.or_false, Bool.and_eq_true] at hcold
      exact beq_iff_eq.mp hcold.2
    · exact absurd henq hself

/-! ### Runs -/

/-- **Runs whose rounds start with a clear flag** demote nothing but local leaves in the rounds
that start by timeout. -/
theorem demotes_local_only (cfg : Config) (es : List Event)
    (hclear : EachStep (recordStep cfg) StartsClear .initial es) :
    EachStep (recordStep cfg) DemotesLocalOnly .initial es := by
  have halways : Always (recordStep cfg) ClearInTimeout .initial es := by
    have h0 : ClearInTimeout .initial := fun hb => by cases hb
    exact always_of_eachStep h0 (fun _ _ _ h hstep hP => h.of_step hstep hP) hclear
  have hstep : ∀ r e r', ClearInTimeout r → recordStep cfg r e = some r' → ClearInTimeout r' →
      DemotesLocalOnly r e r' := by
    intro r e r' h hstep _
    cases e with
    | trigger timeout visit =>
      cases visit with
      | none => trivial
      | some v =>
        intro hpc hb henq
        obtain ⟨u, hu, rfl⟩ := Option.map_eq_some_iff.mp hstep
        simp only [step, stepTrigger, hpc, Option.some.injEq] at hu
        subst hu
        exact local_of_enqueuesDemotion (h hb) henq
    | _ => trivial
  exact eachStep_of_always halways hstep

/-- The adjuster wakes the trigger for one round; the next round starts by timeout and comes to
a cold leaf in remote memory. -/
def roundAfterAdjuster : List Event :=
  List.replicate 10 (.adjuster .tight) ++ List.replicate 5 (.trigger false none) ++
    [.trigger true none, .trigger true (some ⟨1024, 2048, .remote, .cold⟩)]

/-- The remote leaf is enqueued in the round that started by timeout. -/
theorem remote_leaf_demoted :
    ¬EachStep (recordStep ⟨.art, true⟩) DemotesLocalOnly .initial roundAfterAdjuster := by
  decide

/-- Without the round of the adjuster it is not. -/
theorem demotes_local_only_of_timeout :
    EachStep (recordStep ⟨.art, true⟩) DemotesLocalOnly .initial
      [.trigger true none, .trigger true (some ⟨1024, 2048, .remote, .cold⟩)] :=
  demotes_local_only ⟨.art, true⟩ _ (by decide)

end Sidle.Worker
