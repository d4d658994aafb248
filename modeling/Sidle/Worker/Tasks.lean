import Sidle.Worker.System
import Mathlib.Data.List.Perm.Basic

/-!
# Tasks that an executor drops

The tasks that are put into a pair queue, those that its executor hands on and those that
are still queued, over every run of the workers.

## Main definitions

* `Accounted` — nothing has been lost: what was added is what was handed on and what is
  still queued.
* `Loses` — a step that dequeues a task and does nothing with it.

## Main results

* `accounted_step` — what one step does to the account.
* `accounted_iff` — no task is lost in a run exactly when no step of it loses one.
* `task_between_the_loops` — a task added between the two loops of a round is lost.
-/

namespace Sidle.Worker

open Trace

/-! ### The pair queues -/

/-- What is recorded of a pair queue: the tasks added, handed on, and still queued. -/
@[ext] structure Ledger where
  added : List Task
  handed : List (Handler × Task)
  queued : List Task

/-- The record of the pair queue of an executor. -/
def Workers.ledger (w : Workers) (type : TaskType) : Ledger :=
  ⟨w.added type, w.handed type, w.queue.pairs type⟩

/-- What was added is what was handed on together with what is queued. -/
def Ledger.Balanced (l : Ledger) : Prop := l.added.Perm (l.handed.map Prod.snd ++ l.queued)

/-- No task of an executor has been lost. -/
def Accounted (type : TaskType) (w : Workers) : Prop := (w.ledger type).Balanced

instance (type : TaskType) : DecidablePred (Accounted type) :=
  fun w => inferInstanceAs (Decidable (List.Perm _ (_ ++ w.queue.pairs type)))

/-- The step takes a task out of the pair queue and does nothing with it: the clean-up loop
has found one, or the processing loop stops or fails at it. -/
def Loses (cfg : Config) (type : TaskType) (w : Workers) : Event → Prop
  | .executor type' r =>
    type' = type ∧ ∃ task, r.pair = some task ∧
      (w.executor type = .clearing ∨
        w.executor type = .taking ∧
          (verdict cfg type r task = .stop ∨ verdict cfg type r task = .fail))
  | _ => False

section Ledger

variable (w : Workers) (type type' : TaskType)

@[simp] theorem ledger_goto (pc : ExecutorPc) : (w.goto type' pc).ledger type = w.ledger type := rfl

theorem ledger_addMultiTask (data : Task) :
    (w.addMultiTask type data).ledger type =
      { w.ledger type with
        added := w.added type ++ [data]
        queued := w.queue.pairs type ++ [data] } := by
  simp [Workers.ledger, Workers.addMultiTask, MigrationQueue.addMultiTask]

theorem ledger_addMultiTask_of_ne (h : type ≠ type') (data : Task) :
    (w.addMultiTask type' data).ledger type = w.ledger type := by
  simp [Workers.ledger, Workers.addMultiTask, MigrationQueue.addMultiTask, Function.update_of_ne h]

@[simp] theorem ledger_addTask (data : ℕ) :
    (w.addTask type' data).ledger type = w.ledger type := rfl

@[simp] theorem ledger_checkExecute : (w.checkExecute type').ledger type = w.ledger type := by
  unfold Workers.checkExecute
  split <;> rfl

theorem ledger_act_of_ne (h : type ≠ type') (task : Task) (v : Verdict) :
    (w.act type' task v).ledger type = w.ledger type := by
  cases v with
  | stop => rfl
  | fail => rfl
  | hand handler => simp [Workers.ledger, Workers.act, Workers.goto, Workers.hand,
    Function.update_of_ne h]

theorem ledger_act (task : Task) (v : Verdict) :
    (w.act type task v).ledger type =
      match v with
      | .hand handler => { w.ledger type with handed := w.handed type ++ [(handler, task)] }
      | _ => w.ledger type := by
  cases v with
  | stop => rfl
  | fail => rfl
  | hand handler => simp [Workers.ledger, Workers.act, Workers.goto, Workers.hand]

end Ledger

/-- What a dequeue does to the pair queue. -/
theorem getMultiTask_cases {q q' : MigrationQueue} {type : TaskType} {got : Option Task}
    {task : Task}
    (h : q.getMultiTask type got = some (task, q')) :
    (got = none ∧ task = (0, 0) ∧ q' = q) ∨
      (got = some task ∧ task ∈ q.pairs type ∧
        q'.pairs = Function.update q.pairs type ((q.pairs type).erase task)) := by
  cases got with
  | none =>
    obtain ⟨rfl, rfl⟩ := Prod.mk.inj (Option.some.inj h)
    exact Or.inl ⟨rfl, rfl, rfl⟩
  | some data =>
    simp only [MigrationQueue.getMultiTask] at h
    split at h
    · rename_i hmem
      obtain ⟨rfl, rfl⟩ := Prod.mk.inj (Option.some.inj h)
      exact Or.inr ⟨rfl, hmem, rfl⟩
    · cases h

/-- A dequeue of pairs leaves the plain queues alone. -/
theorem getMultiTask_tasks {q q' : MigrationQueue} {type : TaskType} {got : Option Task}
    {task : Task}
    (h : q.getMultiTask type got = some (task, q')) : q'.tasks = q.tasks := by
  cases got with
  | none =>
    obtain ⟨-, rfl⟩ := Prod.mk.inj (Option.some.inj h)
    rfl
  | some data =>
    simp only [MigrationQueue.getMultiTask] at h
    split at h
    · obtain ⟨-, rfl⟩ := Prod.mk.inj (Option.some.inj h)
      rfl
    · cases h

/-- Each of the queued pairs can be dequeued. -/
theorem exists_getMultiTask {q : MigrationQueue} {type : TaskType} {task : Task}
    (h : task ∈ q.pairs type) : ∃ q', q.getMultiTask type (some task) = some (task, q') :=
  ⟨_, if_pos h⟩

/-! ### One step -/

/-- What a step can do to the record of a pair queue, and whether it loses a task. -/
inductive LedgerStep (l : Ledger) : Ledger → Bool → Prop
  /-- Nothing. -/
  | same : LedgerStep l l false
  /-- A task is added. -/
  | add (task : Task) :
    LedgerStep l { l with added := l.added ++ [task], queued := l.queued ++ [task] } false
  /-- A task is dequeued and handed on. -/
  | hand (handler : Handler) (task : Task) (h : task ∈ l.queued) :
    LedgerStep l
      { l with handed := l.handed ++ [(handler, task)], queued := l.queued.erase task } false
  /-- A task is dequeued and lost. -/
  | lose (task : Task) (h : task ∈ l.queued) :
    LedgerStep l { l with queued := l.queued.erase task } true

/-- A step that adds, or hands on what it dequeues, keeps the account; one that loses a
task breaks it. -/
theorem LedgerStep.balanced_iff {l l' : Ledger} {lost : Bool} (h : LedgerStep l l' lost)
    (hl : l.Balanced) : l'.Balanced ↔ lost = false := by
  unfold Ledger.Balanced at *
  cases h with
  | same => exact iff_of_true hl rfl
  | add task =>
    apply iff_of_true _ rfl
    rw [← List.append_assoc]
    exact hl.append_right [task]
  | hand handler task hmem =>
    apply iff_of_true _ rfl
    rw [List.map_append, List.append_assoc]
    exact hl.trans ((List.perm_cons_erase hmem).append_left _)
  | lose task hmem =>
    apply iff_of_false _ Bool.noConfusion
    intro hperm
    -- one task fewer on the right, none fewer on the left
    have hlen := hl.length_eq
    have hlen' := hperm.length_eq
    have herase := List.length_erase_of_mem hmem
    have hpos := List.length_pos_of_mem hmem
    simp only [List.length_append] at hlen hlen'
    omega

/-- The trigger only adds tasks. -/
theorem ledger_triggerMigrationCb (cfg : Config) (v : Visit) (w : Workers) (type : TaskType) :
    LedgerStep (w.ledger type) ((triggerMigrationCb cfg v w).ledger type) false := by
  have hadd (type' : TaskType) :
      LedgerStep (w.ledger type) ((w.addCandidate cfg type' v).ledger type) false := by
    unfold Workers.addCandidate
    cases cfg.tree with
    | masstree => exact .same
    | art =>
      by_cases htype : type = type'
      · subst htype
        rw [ledger_addMultiTask]
        exact .add _
      · rw [ledger_addMultiTask_of_ne _ _ _ htype]
        exact .same
  unfold triggerMigrationCb
  split
  · split
    · exact .same
    · rw [ledger_checkExecute]
      exact hadd .promotion
  · split
    · split
      · exact .same
      · rw [ledger_checkExecute]
        exact hadd .demotion
    · exact .same

theorem ledger_stepTrigger {cfg : Config} {timeout : Bool} {visit : Option Visit} {w u : Workers}
    (h : stepTrigger cfg timeout visit w = some u) (type : TaskType) :
    LedgerStep (w.ledger type) (u.ledger type) false := by
  unfold stepTrigger at h
  cases hpc : w.trigger with
  | waiting =>
    simp only [hpc, wakeTrigger] at h
    split at h
    · cases h
    · split at h
      · cases h
        exact .same
      · split at h <;> cases h <;> exact .same
  | traversing =>
    rw [hpc] at h
    cases visit with
    | none =>
      cases h
      exact .same
    | some v =>
      cases h
      exact ledger_triggerMigrationCb cfg v w type
  | checkPromotion =>
    simp only [hpc] at h
    cases h
    split
    · rw [ledger_checkExecute]
      exact .same
    · exact .same
  | checkDemotion =>
    simp only [hpc] at h
    cases h
    split
    · rw [ledger_checkExecute]
      exact .same
    · exact .same
  | ending =>
    simp only [hpc] at h
    cases h
    exact .same
  | stopped => simp [hpc] at h
  | failed => simp [hpc] at h

theorem ledger_stepAdjuster {status : MemUsageStatus} {w u : Workers}
    (h : stepAdjuster status w = some u) (type : TaskType) : u.ledger type = w.ledger type := by
  unfold stepAdjuster at h
  cases hpc : w.adjuster with
  | awaitDemotion times =>
    simp only [hpc] at h
    split at h <;> cases h
    rfl
  | stopped => simp [hpc] at h
  | _ =>
    simp only [hpc] at h
    cases h
    rfl

/-- An executor leaves the pair queue of the other one alone. -/
theorem ledger_stepExecutor_of_ne {sidleCheck : Bool} {type type' : TaskType} {r : Reading}
    {w u : Workers} (h : stepExecutor ⟨.art, sidleCheck⟩ type' r w = some u) (hne : type ≠ type') :
    u.ledger type = w.ledger type := by
  have hqueue {task : Task} {q : MigrationQueue}
    (hget : w.queue.getMultiTask type' r.pair = some (task, q)) :
      Workers.ledger { w with queue := q } type = w.ledger type := by
    obtain ⟨-, -, rfl⟩ | ⟨-, -, hpairs⟩ := getMultiTask_cases hget
    · rfl
    · simp [Workers.ledger, hpairs, Function.update_of_ne hne]
  unfold stepExecutor at h
  cases hpc : w.executor type' with
  | taking =>
    simp only [hpc] at h
    obtain ⟨⟨task, q⟩, hget, rfl⟩ := Option.map_eq_some_iff.mp h
    rw [ledger_act_of_ne _ _ _ hne, hqueue hget]
  | clearing =>
    simp only [hpc, clearsPairs, BEq.rfl, Bool.true_or, if_true] at h
    obtain ⟨⟨task, q⟩, hget, rfl⟩ := Option.map_eq_some_iff.mp h
    rw [ledger_goto, hqueue hget]
  | stopped => simp [hpc] at h
  | failed => simp [hpc] at h
  | _ =>
    simp only [hpc] at h
    cases h
    rfl

/-- What an executor does to its own pair queue. -/
theorem ledger_stepExecutor {sidleCheck : Bool} {type : TaskType} {r : Reading} {w u : Workers}
    (h : stepExecutor ⟨.art, sidleCheck⟩ type r w = some u) :
    ∃ lost, LedgerStep (w.ledger type) (u.ledger type) lost ∧
      (lost = true ↔ Loses ⟨.art, sidleCheck⟩ type w (.executor type r)) := by
  -- a step that does not dequeue
  have hsame (hu : u.ledger type = w.ledger type)
      (hpc : w.executor type ≠ .clearing ∧ w.executor type ≠ .taking) :
      ∃ lost, LedgerStep (w.ledger type) (u.ledger type) lost ∧
        (lost = true ↔ Loses ⟨.art, sidleCheck⟩ type w (.executor type r)) := by
    refine ⟨false, hu ▸ .same, iff_of_false Bool.noConfusion ?_⟩
    rintro ⟨-, task, -, hclear | htake⟩
    · exact hpc.1 hclear
    · exact hpc.2 htake.1
  unfold stepExecutor at h
  cases hpc : w.executor type with
  | taking =>
    simp only [hpc] at h
    obtain ⟨⟨task, q⟩, hget, rfl⟩ := Option.map_eq_some_iff.mp h
    obtain ⟨hnone, rfl, rfl⟩ | ⟨hgot, hmem, hpairs⟩ := getMultiTask_cases hget
    · -- nothing was dequeued: the loop ends
      have hstop : verdict ⟨.art, sidleCheck⟩ type r (0, 0) = .stop := by cases type <;> rfl
      refine ⟨false, ?_, iff_of_false Bool.noConfusion ?_⟩
      · rw [hstop, ledger_act]
        exact .same
      · rintro ⟨-, task, htask, -⟩
        rw [hnone] at htask
        cases htask
    · have hledger : Workers.ledger { w with queue := q } type =
          { w.ledger type with queued := (w.ledger type).queued.erase task } := by
        simp [Workers.ledger, hpairs]
      cases hv : verdict ⟨.art, sidleCheck⟩ type r task with
      | hand handler =>
        refine ⟨false, ?_, iff_of_false Bool.noConfusion ?_⟩
        · rw [ledger_act, hledger]
          exact .hand handler task hmem
        · rintro ⟨-, task', htask', hclear | htake⟩
          · rw [hpc] at hclear
            cases hclear
          · rw [hgot] at htask'
            cases htask'
            rw [hv] at htake
            obtain ⟨-, hbad | hbad⟩ := htake <;> cases hbad
      | stop =>
        refine ⟨true, ?_, iff_of_true rfl ⟨rfl, task, hgot, Or.inr ⟨hpc, Or.inl hv⟩⟩⟩
        rw [ledger_act, hledger]
        exact .lose task hmem
      | fail =>
        refine ⟨true, ?_, iff_of_true rfl ⟨rfl, task, hgot, Or.inr ⟨hpc, Or.inr hv⟩⟩⟩
        rw [ledger_act, hledger]
        exact .lose task hmem
  | clearing =>
    simp only [hpc, clearsPairs, BEq.rfl, Bool.true_or, if_true] at h
    obtain ⟨⟨task, q⟩, hget, rfl⟩ := Option.map_eq_some_iff.mp h
    rw [ledger_goto]
    obtain ⟨hnone, rfl, rfl⟩ | ⟨hgot, hmem, hpairs⟩ := getMultiTask_cases hget
    · refine ⟨false, .same, iff_of_false Bool.noConfusion ?_⟩
      rintro ⟨-, task, htask, -⟩
      rw [hnone] at htask
      cases htask
    · have hledger : Workers.ledger { w with queue := q } type =
          { w.ledger type with queued := (w.ledger type).queued.erase task } := by
        simp [Workers.ledger, hpairs]
      refine ⟨true, ?_, iff_of_true rfl ⟨rfl, task, hgot, Or.inl hpc⟩⟩
      rw [hledger]
      exact .lose task hmem
  | stopped => simp [hpc] at h
  | failed => simp [hpc] at h
  | _ =>
    simp only [hpc] at h
    cases h
    exact hsame rfl ⟨by simp [hpc], by simp [hpc]⟩

/-- **One step** and the record of a pair queue. -/
theorem ledger_step {sidleCheck : Bool} {w u : Workers} {e : Event}
    (h : step ⟨.art, sidleCheck⟩ w e = some u) (type : TaskType) :
    ∃ lost, LedgerStep (w.ledger type) (u.ledger type) lost ∧
      (lost = true ↔ Loses ⟨.art, sidleCheck⟩ type w e) := by
  have hsame (hu : u.ledger type = w.ledger type) (hl : ¬ Loses ⟨.art, sidleCheck⟩ type w e) :
      ∃ lost, LedgerStep (w.ledger type) (u.ledger type) lost ∧
        (lost = true ↔ Loses ⟨.art, sidleCheck⟩ type w e) :=
    ⟨false, hu ▸ .same, iff_of_false Bool.noConfusion hl⟩
  cases e with
  | addMultiTask type' data =>
    cases h
    refine ⟨false, ?_, iff_of_false Bool.noConfusion id⟩
    by_cases htype : type = type'
    · subst htype
      rw [ledger_addMultiTask]
      exact .add data
    · rw [ledger_addMultiTask_of_ne _ _ _ htype]
      exact .same
  | addTask type' data =>
    cases h
    exact hsame rfl id
  | executor type' r =>
    by_cases htype : type = type'
    · subst htype
      exact ledger_stepExecutor h
    · exact hsame (ledger_stepExecutor_of_ne h htype) fun hl => htype hl.1.symm
  | trigger timeout visit =>
    exact ⟨false, ledger_stepTrigger h type, iff_of_false Bool.noConfusion id⟩
  | adjuster status => exact hsame (ledger_stepAdjuster h type) id
  | startUpdate status =>
    cases h
    apply hsame _ id
    unfold startUpdate
    split
    · rfl
    · split <;> rfl
  | finishUpdate =>
    apply hsame _ id
    simp only [step, finishUpdate] at h
    split at h <;> cases h
    rfl
  | stop =>
    cases h
    exact hsame rfl id

/-- What one step does to the account of an executor. -/
theorem accounted_step {sidleCheck : Bool} {type : TaskType} {w u : Workers} {e : Event}
    (hw : Accounted type w) (h : step ⟨.art, sidleCheck⟩ w e = some u) :
    Accounted type u ↔ ¬ Loses ⟨.art, sidleCheck⟩ type w e := by
  obtain ⟨lost, hstep, hlost⟩ := ledger_step h type
  rw [← hlost, Bool.not_eq_true]
  exact hstep.balanced_iff hw

/-! ### Runs -/

/-- **No task is lost** in any state of a run exactly when no step of the run loses one. -/
theorem accounted_iff (sidleCheck : Bool) (type : TaskType) (es : List Event) :
    Always (step ⟨.art, sidleCheck⟩) (Accounted type) .initial es ↔
      EachStep (step ⟨.art, sidleCheck⟩) (fun w e _ => ¬ Loses ⟨.art, sidleCheck⟩ type w e)
        .initial es := by
  apply always_iff_eachStep
  · exact List.Perm.refl _
  · intro w e u hw hstep
    exact accounted_step hw hstep

/-- A round of an executor that finds its queue empty, with a task added between the end of
its processing loop and its clean-up loop. -/
def addedBetweenTheLoops (type : TaskType) (task : Task) : List Event :=
  let nothing : Event := .executor type ⟨none, none, false, false⟩
  let found : Event := .executor type ⟨some task, none, false, false⟩
  match type with
  | .promotion => [nothing, nothing, nothing, .addMultiTask type task, found]
  | .demotion => [nothing, nothing, nothing, nothing, nothing, nothing,
    .addMultiTask type task, found]

/-- Although nothing interrupts the executors, they drop such a task. -/
theorem task_between_the_loops :
    (Always (step ⟨.art, true⟩) (fun w => w.flags.canPromote ∧ w.flags.isRunning) .initial
        (addedBetweenTheLoops .promotion (1025, 2048)) ∧
      ¬ Always (step ⟨.art, true⟩) (Accounted .promotion) .initial
        (addedBetweenTheLoops .promotion (1025, 2048))) ∧
    (Always (step ⟨.art, true⟩) (fun w => w.flags.canDemote ∧ w.flags.isRunning) .initial
        (addedBetweenTheLoops .demotion (1025, 2048)) ∧
      ¬ Always (step ⟨.art, true⟩) (Accounted .demotion) .initial
        (addedBetweenTheLoops .demotion (1025, 2048))) := by
  decide

end Sidle.Worker
