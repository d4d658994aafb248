import Sidle.Worker.Tasks

/-!
# The clean-up of an interrupted demotion

When the demotion executor leaves its processing loop because demotion has been switched off,
it clears its queue, so that no address recorded before the interruption is used later.  The
clean-up loop dequeues pairs, whatever tree the executor serves; the tasks of a Masstree are
in the plain queue.  The promotion executor tells the two trees apart.

## Main definitions

* `NoDemotionQueued` — no demotion task of the tree is queued.
* `Undisturbed` — demotion stays switched off, and nobody adds a demotion task.
* `CleansUp` — the contents of the queues that the clean-up removes.

## Main results

* `no_demotion_queued_iff` — **what a clean-up removes**.
* `masstree_demotion_kept` — a Masstree whose queue is not cleared.
-/

namespace Sidle.Worker

open Trace

/-- No demotion task is queued for the tree that the workers serve. -/
def NoDemotionQueued (cfg : Config) (w : Workers) : Prop :=
  match cfg.tree with
  | .art => w.queue.pairs .demotion = []
  | .masstree => w.queue.tasks .demotion = []

/-- The step adds no demotion task; and when the demotion executor finds nothing to dequeue,
nothing is queued. -/
structure AddsNothing (w : Workers) (e : Event) (u : Workers) : Prop where
  pairs : (u.queue.pairs .demotion).length ≤ (w.queue.pairs .demotion).length
  tasks : (u.queue.tasks .demotion).length ≤ (w.queue.tasks .demotion).length
  found : ∀ r, e = .executor .demotion r →
    (r.pair = none → w.queue.pairs .demotion = []) ∧ (r.task = none → w.queue.tasks .demotion = [])

/-- Demotion is switched off all the time, and no step adds a demotion task. -/
structure Undisturbed (cfg : Config) (w : Workers) (es : List Event) : Prop where
  off : Always (step cfg) (fun w => w.flags.canDemote = false) w es
  steps : EachStep (step cfg) AddsNothing w es

/-- What the clean-up loop removes altogether: pairs that name a node, for a radix tree, or
one last pair; for a Masstree nothing. -/
def CleansUp (cfg : Config) (w : Workers) : Prop :=
  match cfg.tree with
  | .art =>
    (∀ task ∈ w.queue.pairs .demotion, task.1 ≠ 0) ∨ (w.queue.pairs .demotion).length ≤ 1
  | .masstree => w.queue.tasks .demotion = []

theorem Undisturbed.cons {cfg : Config} {w u : Workers} {e : Event} {es : List Event}
    (hoff : w.flags.canDemote = false) (hstep : step cfg w e = some u) (hadd : AddsNothing w e u)
    (h : Undisturbed cfg u es) : Undisturbed cfg w (e :: es) := by
  constructor
  · exact (always_cons_of_step hstep).mpr ⟨hoff, h.off⟩
  · have hsteps (t : Workers) (ht : step cfg w e = some t) :
        AddsNothing w e t ∧ EachStep (step cfg) AddsNothing t es := by
      rw [hstep] at ht
      cases ht
      exact ⟨hadd, h.steps⟩
    exact eachStep_cons.mpr hsteps

theorem Undisturbed.nil {cfg : Config} {w : Workers} (hoff : w.flags.canDemote = false) :
    Undisturbed cfg w [] := ⟨always_nil.mpr hoff, eachStep_nil⟩

/-! ### The radix tree -/

theorem executor_goto (w : Workers) (type : TaskType) (pc : ExecutorPc) :
    (w.goto type pc).executor type = pc := by
  show Function.update w.executor type pc type = pc
  exact Function.update_self ..

/-- What the others do leaves the demotion executor where it stands. -/
theorem executor_step {cfg : Config} {w u : Workers} {e : Event} (h : step cfg w e = some u)
    (he : ∀ r, e ≠ .executor .demotion r) : u.executor .demotion = w.executor .demotion := by
  have hcheck (w : Workers) (type : TaskType) : (w.checkExecute type).executor = w.executor := by
    unfold Workers.checkExecute
    split <;> rfl
  have hadd (w : Workers) (type : TaskType) (v : Visit) :
      (w.addCandidate cfg type v).executor = w.executor := by
    unfold Workers.addCandidate
    split <;> rfl
  cases e with
  | executor type r =>
    cases type with
    | demotion => exact absurd rfl (he r)
    | promotion =>
      have hgoto (w : Workers) (pc : ExecutorPc) :
          (w.goto .promotion pc).executor .demotion = w.executor .demotion := by
        show Function.update w.executor .promotion pc .demotion = _
        exact Function.update_of_ne (by decide) _ _
      have hact (w : Workers) (task : Task) (v : Verdict) :
          (w.act .promotion task v).executor .demotion = w.executor .demotion := by
        cases v <;> exact hgoto _ _
      simp only [step, stepExecutor] at h
      split at h
      case h_4 =>
        split at h
        all_goals
          obtain ⟨⟨task, q⟩, -, rfl⟩ := Option.map_eq_some_iff.mp h
          exact hact _ _ _
      case h_7 =>
        split at h
        all_goals
          obtain ⟨⟨task, q⟩, -, rfl⟩ := Option.map_eq_some_iff.mp h
          exact hgoto _ _
      all_goals
        cases h
        try exact hgoto _ _
  | trigger timeout visit =>
    simp only [step, stepTrigger] at h
    split at h
    · unfold wakeTrigger at h
      split at h
      · cases h
      · split at h
        · cases h
          rfl
        · split at h
          · cases h
            rfl
          · cases h
            rfl
    · split at h
      · cases h
        unfold triggerMigrationCb
        split
        · split
          · rfl
          · rw [hcheck, hadd]
        · split
          · split
            · rfl
            · rw [hcheck, hadd]
          · rfl
      · cases h
        rfl
    · cases h
      split
      · rw [hcheck]
      · rfl
    · cases h
      split
      · rw [hcheck]
      · rfl
    · cases h
      rfl
    · cases h
    · cases h
  | adjuster status =>
    simp only [step, stepAdjuster] at h
    split at h
    case h_7 =>
      split at h <;> cases h
      rfl
    all_goals
      cases h
      try rfl
  | addMultiTask type data =>
    cases h
    rfl
  | addTask type data =>
    cases h
    rfl
  | startUpdate status =>
    cases h
    unfold startUpdate
    split
    · rfl
    · split <;> rfl
  | finishUpdate =>
    simp only [step, finishUpdate] at h
    split at h <;> cases h
    rfl
  | stop =>
    cases h
    rfl

/-- The demotion executor stands between its two loops or in its clean-up loop. -/
def InCleanup : ExecutorPc → Prop
  | .leaving => True
  | .resting => True
  | .clearing => True
  | .checking => True
  | _ => False

/-- The queue of the radix tree is empty, or it is being cleared. -/
structure Clearing (w : Workers) : Prop where
  stage : w.queue.pairs .demotion = [] ∨ InCleanup (w.executor .demotion)
  named : (∀ task ∈ w.queue.pairs .demotion, task.1 ≠ 0) ∨ (w.queue.pairs .demotion).length ≤ 1

/-- What a step that adds nothing does to the queue. -/
theorem queued_step {sidleCheck : Bool} {w u : Workers} {e : Event}
    (h : step ⟨.art, sidleCheck⟩ w e = some u) (hadd : AddsNothing w e u) :
    u.queue.pairs .demotion = w.queue.pairs .demotion ∨
      ∃ task, u.queue.pairs .demotion = (w.queue.pairs .demotion).erase task := by
  obtain ⟨lost, hledger, -⟩ := ledger_step h .demotion
  generalize hl : w.ledger .demotion = l at hledger
  generalize hl' : u.ledger .demotion = l' at hledger
  have hq : l.queued = w.queue.pairs .demotion := hl ▸ rfl
  have hq' : l'.queued = u.queue.pairs .demotion := hl' ▸ rfl
  rw [← hq, ← hq']
  cases hledger with
  | same => exact Or.inl rfl
  | add task =>
    have hle := hadd.pairs
    rw [← hq, ← hq'] at hle
    simp at hle
  | hand handler task _ => exact Or.inr ⟨task, rfl⟩
  | lose task _ => exact Or.inr ⟨task, rfl⟩

/-- The clean-up goes on until the queue is empty. -/
theorem Clearing.of_step {sidleCheck : Bool} {w u : Workers} {e : Event} (h : Clearing w)
    (hoff : w.flags.canDemote = false) (hstep : step ⟨.art, sidleCheck⟩ w e = some u)
    (hadd : AddsNothing w e u) : Clearing u := by
  have hqueued := queued_step hstep hadd
  constructor
  · cases h.stage with
    | inl hnil =>
      left
      have hle := hadd.pairs
      rw [hnil] at hle
      exact List.length_eq_zero_iff.mp (Nat.le_zero.mp hle)
    | inr hin =>
      by_cases he : ∃ r, e = .executor .demotion r
      · obtain ⟨r, rfl⟩ := he
        simp only [step, stepExecutor] at hstep
        cases hpc : w.executor .demotion with
        | leaving =>
          simp only [hpc] at hstep
          cases hstep
          exact Or.inr (by rw [executor_goto]; trivial)
        | resting =>
          simp only [hpc] at hstep
          cases hstep
          exact Or.inr (by rw [executor_goto]; trivial)
        | clearing =>
          simp only [hpc, clearsPairs, BEq.rfl, Bool.true_or, if_true] at hstep
          obtain ⟨⟨task, q⟩, hget, rfl⟩ := Option.map_eq_some_iff.mp hstep
          obtain ⟨hnone, rfl, rfl⟩ | ⟨hgot, hmem, hpairs⟩ := getMultiTask_cases hget
          · exact Or.inl ((hadd.found r rfl).1 hnone)
          · by_cases hzero : task.1 = 0
            · -- a pair that names no node ends the loop; it was the last one
              left
              have hlen := h.named.resolve_left fun hall => hall task hmem hzero
              have herase := List.length_erase_of_mem hmem
              apply List.length_eq_zero_iff.mp
              change (q.pairs .demotion).length = 0
              rw [hpairs, Function.update_self]
              omega
            · right
              rw [executor_goto, if_pos hzero]
              trivial
        | checking =>
          simp only [hpc] at hstep
          cases hstep
          right
          rw [executor_goto, if_neg (show ¬w.flags.can .demotion = true by simp [Flags.can, hoff])]
          trivial
        | _ =>
          rw [hpc] at hin
          cases hin
      · right
        rw [executor_step hstep fun r hr => he ⟨r, hr⟩]
        exact hin
  · cases hqueued with
    | inl hsame => rw [hsame]; exact h.named
    | inr herase =>
      obtain ⟨task, heq⟩ := herase
      rw [heq]
      apply h.named.imp
      · intro hall task' hmem
        exact hall task' (List.mem_of_mem_erase hmem)
      · intro hlen
        exact Nat.le_trans (List.length_erase_le) hlen

/-- In a run of the radix tree that nobody disturbs, the clean-up loop leaves nothing. -/
theorem Clearing.of_run {sidleCheck : Bool} {w u : Workers} {es : List Event}
    (h : Undisturbed ⟨.art, sidleCheck⟩ w es) (hrun : run (step ⟨.art, sidleCheck⟩) w es = some u)
    (hw : Clearing w) : Clearing u := by
  induction es generalizing w with
  | nil =>
    cases hrun
    exact hw
  | cons e es ih =>
    rw [run_cons] at hrun
    obtain ⟨t, ht, hrun'⟩ := Option.bind_eq_some_iff.mp hrun
    have hoff := always_cons.mp h.off
    have hadd := eachStep_cons.mp h.steps t ht
    exact ih ⟨hoff.2 t ht, hadd.2⟩ hrun' (hw.of_step hoff.1 ht hadd.1)

/-! ### What is left behind -/

section Left

variable (cfg : Config) {w : Workers}

/-- The demotion executor takes a step; if it dequeues a pair, then this one. -/
def executorStep (pair : Option Task) : Event := .executor .demotion ⟨pair, some 0, false, false⟩

/-- A step of the demotion executor that leaves the queue alone adds nothing. -/
theorem addsNothing_of_queue {u : Workers} (task : Task) (h : u.queue = w.queue) :
    AddsNothing w (executorStep (some task)) u := by
  constructor
  · rw [h]
  · rw [h]
  · intro r hr
    cases hr
    constructor
    · intro hnone
      cases hnone
    · intro hnone
      cases hnone

/-- A dequeue adds nothing. -/
theorem addsNothing_of_getMultiTask {u : Workers} {pair : Option Task} {task : Task}
    (hget : w.queue.getMultiTask .demotion pair = some (task, u.queue))
    (hnone : pair = none → w.queue.pairs .demotion = []) :
    AddsNothing w (executorStep pair) u := by
  have htasks : u.queue.tasks = w.queue.tasks := getMultiTask_tasks hget
  constructor
  · obtain ⟨-, -, heq⟩ | ⟨-, -, hpairs⟩ := getMultiTask_cases hget
    · rw [heq]
    · rw [hpairs, Function.update_self]
      exact List.length_erase_le
  · rw [htasks]
  · intro r hr
    cases hr
    constructor
    · exact hnone
    · intro h
      cases h

/-- From the end of the processing loop the executor comes to the clean-up loop. -/
theorem exists_clearing (hpc : w.executor .demotion = .leaving) (hoff : w.flags.canDemote = false) :
    ∃ es u, run (step cfg) w es = some u ∧ u.executor .demotion = .clearing ∧
      u.flags.canDemote = false ∧ u.queue = w.queue ∧
      ∀ fs, Undisturbed cfg u fs → Undisturbed cfg w (es ++ fs) := by
  let v := { w with flags := w.flags.setNeed .demotion false }.goto .demotion .resting
  let u := { v with flags := { v.flags with isDemoting := false } }.goto .demotion .clearing
  have hv : step cfg w (executorStep (some (0, 0))) = some v := by
    simp only [step, executorStep, stepExecutor, hpc]
    rfl
  have hvpc : v.executor .demotion = .resting := executor_goto ..
  have hu : step cfg v (executorStep (some (0, 0))) = some u := by
    simp only [step, executorStep, stepExecutor, hvpc]
    rfl
  exists [executorStep (some (0, 0)), executorStep (some (0, 0))], u
  constructor
  · rw [run_cons_of_step hv, run_cons_of_step hu, run_nil]
  constructor
  · exact executor_goto ..
  constructor
  · exact hoff
  constructor
  · rfl
  · intro fs hfs
    exact Undisturbed.cons hoff hv (addsNothing_of_queue _ rfl)
      (Undisturbed.cons hoff hu (addsNothing_of_queue _ rfl) hfs)

/-- A dequeue of the clean-up loop. -/
theorem step_clearing {pair : Option Task} {task : Task} {q : MigrationQueue}
    (hpc : w.executor .demotion = .clearing)
    (hget : w.queue.getMultiTask .demotion pair = some (task, q)) :
    step cfg w (executorStep pair) = some
      ({ w with queue := q }.goto .demotion (if task.1 ≠ 0 then .checking else .ending)) := by
  have hclears : clearsPairs cfg .demotion = true := Bool.or_true _
  simp only [step, executorStep, stepExecutor, hpc, hclears, if_true, hget, Option.map_some]

/-- The clean-up loop of a Masstree takes pairs, and leaves the plain queue alone. -/
theorem exists_ending_of_clearing (hpc : w.executor .demotion = .clearing)
    (hoff : w.flags.canDemote = false) :
    ∃ es u, Undisturbed cfg w es ∧ run (step cfg) w es = some u ∧
      u.executor .demotion = .ending ∧ u.queue.tasks = w.queue.tasks := by
  -- by induction on the number of the pairs that are queued
  generalize hn : (w.queue.pairs .demotion).length = n
  induction n generalizing w with
  | zero =>
    have hnil := List.length_eq_zero_iff.mp hn
    have hget : w.queue.getMultiTask .demotion none = some ((0, 0), w.queue) := rfl
    have hstep := step_clearing cfg hpc hget
    refine ⟨[executorStep none], _, ?_, run_cons_of_step hstep [], ?_, rfl⟩
    · apply Undisturbed.cons hoff hstep
      · exact addsNothing_of_getMultiTask hget fun _ => hnil
      · exact Undisturbed.nil hoff
    · exact executor_goto ..
  | succ n ih =>
    obtain ⟨task, rest, hpairs⟩ := List.exists_cons_of_length_eq_add_one hn
    have hmem : task ∈ w.queue.pairs .demotion := by
      rw [hpairs]
      exact List.mem_cons_self
    obtain ⟨q, hget⟩ := exists_getMultiTask hmem
    have hstep := step_clearing cfg hpc hget
    have htasks := getMultiTask_tasks hget
    have hadd : AddsNothing w (executorStep (some task))
        ({ w with queue := q }.goto .demotion (if task.1 ≠ 0 then .checking else .ending)) :=
      addsNothing_of_getMultiTask hget (fun h => nomatch h)
    by_cases hzero : task.1 = 0
    · -- a pair that names no node ends the loop
      refine ⟨[executorStep (some task)], _, ?_, run_cons_of_step hstep [], ?_, htasks⟩
      · exact Undisturbed.cons hoff hstep hadd (Undisturbed.nil hoff)
      · rw [if_neg (not_not_intro hzero)]
        exact executor_goto ..
    · rw [if_pos hzero] at hstep hadd
      let v := { w with queue := q }.goto .demotion .checking
      have hvpc : v.executor .demotion = .checking := executor_goto ..
      have hcheck : step cfg v (executorStep (some task)) = some (v.goto .demotion .clearing) := by
        simp only [step, executorStep, stepExecutor, hvpc]
        rw [if_neg]
        simp [Flags.can, v, Workers.goto, hoff]
      have hlen : (q.pairs .demotion).length = n := by
        obtain ⟨hnone, -⟩ | ⟨-, -, hq⟩ := getMultiTask_cases hget
        · cases hnone
        · rw [hq, Function.update_self, List.length_erase_of_mem hmem, hn, Nat.add_sub_cancel]
      obtain ⟨es, u, hes, hrun, hend, hu⟩ :=
        ih (w := v.goto .demotion .clearing) (executor_goto ..) hoff hlen
      refine ⟨executorStep (some task) :: executorStep (some task) :: es, u, ?_, ?_, hend, ?_⟩
      · exact Undisturbed.cons hoff hstep hadd
          (Undisturbed.cons hoff hcheck (addsNothing_of_queue _ rfl) hes)
      · rw [run_cons_of_step hstep, run_cons_of_step hcheck, hrun]
      · rw [hu]
        exact htasks

/-- A radix tree keeps pairs behind one that names no node. -/
theorem exists_ending_of_null {task : Task} (hpc : w.executor .demotion = .clearing)
    (hoff : w.flags.canDemote = false) (hmem : task ∈ w.queue.pairs .demotion)
    (hnull : task.1 = 0) :
    ∃ es u, Undisturbed cfg w es ∧ run (step cfg) w es = some u ∧
      u.executor .demotion = .ending ∧
      u.queue.pairs .demotion = (w.queue.pairs .demotion).erase task := by
  obtain ⟨q, hget⟩ := exists_getMultiTask hmem
  have hstep := step_clearing cfg hpc hget
  rw [if_neg (not_not_intro hnull)] at hstep
  refine ⟨[executorStep (some task)], _, ?_, run_cons_of_step hstep [], executor_goto .., ?_⟩
  · apply Undisturbed.cons hoff hstep
    · exact addsNothing_of_getMultiTask hget (fun h => nomatch h)
    · exact Undisturbed.nil hoff
  · obtain ⟨hnone, -⟩ | ⟨-, -, hq⟩ := getMultiTask_cases hget
    · cases hnone
    · show q.pairs .demotion = _
      rw [hq, Function.update_self]

end Left

/-! ### The whole clean-up -/

/-- **What a clean-up removes.**  When the demotion executor leaves its processing loop with
demotion switched off, then every clean-up that nobody disturbs removes all demotion tasks of
the tree exactly when the queues are such as the loop empties. -/
theorem no_demotion_queued_iff (cfg : Config) (w : Workers) (hpc : w.executor .demotion = .leaving)
    (hoff : w.flags.canDemote = false) :
    (∀ es u, Undisturbed cfg w es → run (step cfg) w es = some u →
      u.executor .demotion = .ending → NoDemotionQueued cfg u) ↔ CleansUp cfg w := by
  obtain ⟨tree, sidleCheck⟩ := cfg
  obtain ⟨before, v, hrun, hvpc, hvoff, hvq, hbefore⟩ :=
    exists_clearing ⟨tree, sidleCheck⟩ hpc hoff
  cases tree with
  | art =>
    constructor
    · intro h
      by_contra hnot
      simp only [CleansUp, not_or, not_forall, not_not] at hnot
      obtain ⟨⟨task, hmem, hnull⟩, hlen⟩ := hnot
      rw [← hvq] at hmem
      obtain ⟨es, u, hes, hrun', hend, hpairs⟩ :=
        exists_ending_of_null ⟨.art, sidleCheck⟩ hvpc hvoff hmem hnull
      have hnil : u.queue.pairs .demotion = [] := by
        apply h (before ++ es) u (hbefore es hes) _ hend
        rw [run_append_of_run hrun, hrun']
      have hcount := List.length_erase_of_mem hmem
      rw [← hpairs, hnil, List.length_nil, hvq] at hcount
      omega
    · intro hclean es u hes hrun' hend
      have hstart : Clearing w := by
        constructor
        · right
          rw [hpc]
          trivial
        · exact hclean
      obtain hnil | hin := (hstart.of_run hes hrun').stage
      · exact hnil
      · rw [hend] at hin
        cases hin
  | masstree =>
    constructor
    · intro h
      obtain ⟨es, u, hes, hrun', hend, htasks⟩ :=
        exists_ending_of_clearing ⟨.masstree, sidleCheck⟩ hvpc hvoff
      have hnil : u.queue.tasks .demotion = [] := by
        apply h (before ++ es) u (hbefore es hes) _ hend
        rw [run_append_of_run hrun, hrun']
      rw [htasks, hvq] at hnil
      exact hnil
    · intro hclean es u hes hrun' hend
      -- nobody adds a task, so none is there at the end
      have hle : Always (step ⟨.masstree, sidleCheck⟩)
          (fun u => (u.queue.tasks .demotion).length = 0) w es := by
        have hkeep (t : Workers) (e : Event) (u : Workers)
            (ht : (t.queue.tasks .demotion).length = 0)
            (_ : step ⟨.masstree, sidleCheck⟩ t e = some u) (hadd : AddsNothing t e u) :
            (u.queue.tasks .demotion).length = 0 := Nat.le_zero.mp (ht ▸ hadd.tasks)
        exact always_of_eachStep (List.length_eq_zero_iff.mpr hclean) hkeep hes.steps
      exact List.length_eq_zero_iff.mp (hle es [] u (List.append_nil es).symm hrun')

/-- A radix tree whose demotion is interrupted with two leaves queued. -/
def interrupted : Workers :=
  { Workers.initial with
    flags := { Flags.initial with canDemote := false, isDemoting := true }
    queue := (MigrationQueue.empty.addMultiTask .demotion (65, 32)).addMultiTask .demotion (97, 32)
    executor := Function.update (fun _ => .waiting) .demotion .leaving }

theorem no_demotion_queued_of_named : CleansUp ⟨.art, false⟩ interrupted ∧
    ∀ es u, Undisturbed ⟨.art, false⟩ interrupted es →
      run (step ⟨.art, false⟩) interrupted es = some u → u.executor .demotion = .ending →
        NoDemotionQueued ⟨.art, false⟩ u := by
  have hclean : CleansUp ⟨.art, false⟩ interrupted := Or.inl (by decide)
  exact ⟨hclean, (no_demotion_queued_iff ⟨.art, false⟩ interrupted rfl rfl).mpr hclean⟩

/-- The executor of a Masstree has found a task queued when the adjuster switches the
demotion off. -/
def beforeCleanup : List Event :=
  .addTask .demotion 64 :: List.replicate 6 (.adjuster .tight) ++
    List.replicate 3 (executorStep none)

/-- **A Masstree whose queue is not cleared.** -/
theorem masstree_demotion_kept :
    ∃ w es u, run (step ⟨.masstree, false⟩) .initial beforeCleanup = some w ∧
      w.executor .demotion = .leaving ∧ w.flags.canDemote = false ∧
      Undisturbed ⟨.masstree, false⟩ w es ∧ run (step ⟨.masstree, false⟩) w es = some u ∧
      u.executor .demotion = .ending ∧ ¬NoDemotionQueued ⟨.masstree, false⟩ u := by
  obtain ⟨w, hw, hpc, hoff, htasks⟩ :
      ∃ w, run (step ⟨.masstree, false⟩) .initial beforeCleanup = some w ∧
        w.executor .demotion = .leaving ∧ w.flags.canDemote = false ∧
        w.queue.tasks .demotion = [64] := ⟨_, rfl, rfl, rfl, rfl⟩
  obtain ⟨before, v, hrun, hvpc, hvoff, hvq, hbefore⟩ :=
    exists_clearing ⟨.masstree, false⟩ hpc hoff
  obtain ⟨es, u, hes, hrun', hend, hu⟩ :=
    exists_ending_of_clearing ⟨.masstree, false⟩ hvpc hvoff
  refine ⟨w, before ++ es, u, hw, hpc, hoff, hbefore es hes, ?_, hend, ?_⟩
  · rw [run_append_of_run hrun, hrun']
  · intro hnil
    have hkept : u.queue.tasks .demotion = [64] := by rw [hu, hvq, htasks]
    rw [show u.queue.tasks .demotion = [] from hnil] at hkept
    cases hkept

end Sidle.Worker
