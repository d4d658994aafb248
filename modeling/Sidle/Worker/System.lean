import Sidle.Art.Memory
import Sidle.Prog.Trace
import Sidle.Worker.Histogram

/-!
# The background workers

The migration trigger, the two executors and the threshold adjuster run in threads of
their own and talk to each other, and to the threads that allocate nodes, through static
flags and through a queue of migration tasks.  Here each of them is a program counter over
the shared flags, and every access to a flag or to the queue is one step.  What the steps
do to the tree is left to the modules about the trees: what a worker reads off a node, and
the memory usage that an allocation finds, come with the event.

## Main definitions

* `MigrationQueue` — `migration_queue`; a dequeue may get any of the queued tasks, as the
  underlying queue only keeps the order of each single producer.
* `Flags` — the static flags of `art_worker_base`.
* `Workers`, `Event`, `step` — the transition system.
* `promotionVerdict`, `demotionVerdict` — what an executor does with a task.
-/

namespace Sidle.Worker

open Art

/-- `tree_type`. -/
inductive TreeType
  | art
  | masstree
  deriving DecidableEq, Repr, Inhabited

/-- `task_type`. -/
inductive TaskType
  | promotion
  | demotion
  deriving DecidableEq, Repr, Inhabited

/-- `node_pair`: the address of a node and, for a leaf of the radix tree, of its parent. -/
abbrev Task := ℕ × ℕ

instance : LawfulBEq Task := inferInstance

/-! ### The queue -/

/-- `migration_queue`: the plain and the pair queue of either task type, and the counter
that the two share. -/
structure MigrationQueue where
  tasks : TaskType → List ℕ
  pairs : TaskType → List Task
  length : TaskType → ℤ

namespace MigrationQueue

/-- The constructor. -/
def empty : MigrationQueue := ⟨fun _ => [], fun _ => [], fun _ => 0⟩

variable (q : MigrationQueue) (type : TaskType)

/-- `add_task`. -/
def addTask (data : ℕ) : MigrationQueue :=
  { q with
    tasks := Function.update q.tasks type (q.tasks type ++ [data])
    length := Function.update q.length type (q.length type + 1) }

/-- `add_multi_task`. -/
def addMultiTask (data : Task) : MigrationQueue :=
  { q with
    pairs := Function.update q.pairs type (q.pairs type ++ [data])
    length := Function.update q.length type (q.length type + 1) }

/-- `get_task`, where `got` is what `try_dequeue` has found. -/
def getTask (got : Option ℕ) : Option (ℕ × MigrationQueue) :=
  match got with
  | none => some (0, q)
  | some data =>
    if data ∈ q.tasks type then
      some (data,
        { q with
          tasks := Function.update q.tasks type ((q.tasks type).erase data)
          length := if data ≠ 0 then Function.update q.length type
            (q.length type - 1) else q.length })
    else none

/-- `get_multi_task`, where `got` is what `try_dequeue` has found. -/
def getMultiTask (got : Option Task) : Option (Task × MigrationQueue) :=
  match got with
  | none => some ((0, 0), q)
  | some data =>
    if data ∈ q.pairs type then
      some (data,
        { q with
          pairs := Function.update q.pairs type ((q.pairs type).erase data)
          length := if data.1 ≠ 0 then Function.update q.length type (q.length type - 1)
            else q.length })
    else none

/-- `get_promotion_queue_length` and `get_demotion_queue_length`. -/
def getQueueLength : ℕ := (q.length type).toNat

end MigrationQueue

/-! ### The flags -/

/-- The static flags of `art_worker_base`. -/
structure Flags where
  needDemotion : Bool
  needPromotion : Bool
  canTrigger : Bool
  canPromote : Bool
  canDemote : Bool
  isDemoting : Bool
  isTriggeringMigration : Bool
  needAdjustThreshold : Bool
  demotingComplete : Bool
  isRunning : Bool
  deriving DecidableEq, Repr, Inhabited

/-- The initial values of `sidle_worker.cc`; the constructor of a worker sets `is_running_`. -/
def Flags.initial : Flags where
  needDemotion := false
  needPromotion := false
  canTrigger := true
  canPromote := true
  canDemote := true
  isDemoting := false
  isTriggeringMigration := false
  needAdjustThreshold := false
  demotingComplete := false
  isRunning := true

namespace Flags

variable (f : Flags) (type : TaskType)

/-- `can_promote_` or `can_demote_`. -/
def can : Bool :=
  match type with
  | .promotion => f.canPromote
  | .demotion => f.canDemote

/-- `need_promotion_` or `need_demotion_`. -/
def need : Bool :=
  match type with
  | .promotion => f.needPromotion
  | .demotion => f.needDemotion

/-- `need_promotion_.store(b)` or `need_demotion_.store(b)`. -/
def setNeed (b : Bool) : Flags :=
  match type with
  | .promotion => { f with needPromotion := b }
  | .demotion => { f with needDemotion := b }

end Flags

/-! ### Program counters -/

/-- Where `art_promotion_executor::run_job` or `art_demotion_executor::run_job` stands. -/
inductive ExecutorPc
  /-- `wait_until` on the condition variable. -/
  | waiting
  /-- Before `is_demoting_.store(true)`. -/
  | starting
  /-- The condition of the processing loop. -/
  | testing
  /-- The dequeue of the processing loop. -/
  | taking
  /-- Before `need_demotion_.store(false)`. -/
  | leaving
  /-- Before `is_demoting_.store(false)`. -/
  | resting
  /-- The dequeue of the clean-up loop. -/
  | clearing
  /-- The flag in the condition of the clean-up loop. -/
  | checking
  /-- The last store of a round. -/
  | ending
  /-- The thread has left `run_job`. -/
  | stopped
  /-- A `SIDLE_CHECK` has thrown. -/
  | failed
  deriving DecidableEq, Repr, Inhabited

/-- Where `art_migration_trigger::run_job` stands. -/
inductive TriggerPc
  | waiting
  | traversing
  | checkPromotion
  | checkDemotion
  | ending
  | stopped
  | failed
  deriving DecidableEq, Repr, Inhabited

/-- Where `art_threshold_adjuster::run_job` stands.  The numbered steps are those of
`handle_local_mem_shortage`; `times` counts its rounds. -/
inductive AdjusterPc
  /-- `wait_until` on the condition variable. -/
  | idle
  /-- Before `check_memory_usage`. -/
  | awake
  /-- Step 1. -/
  | shortage
  /-- The condition of the loop. -/
  | looping (times : ℕ)
  /-- Step 3, the trigger. -/
  | stopTrigger (times : ℕ)
  /-- Step 3, the demotion executor. -/
  | stopDemotion (times : ℕ)
  /-- Step 5. -/
  | awaitDemotion (times : ℕ)
  /-- Step 6, the trigger. -/
  | allowTrigger (times : ℕ)
  /-- Step 6, the demotion executor. -/
  | allowDemotion (times : ℕ)
  /-- Step 7. -/
  | wakeTrigger (times : ℕ)
  /-- Step 8, before `demoting_complete_.store(false)`. -/
  | clearComplete (times : ℕ)
  /-- Step 8, the wait. -/
  | awaitComplete (times : ℕ)
  /-- Step 9. -/
  | recheck (times : ℕ)
  /-- Before `can_promote_.store(true)`. -/
  | restore
  /-- Before `need_adjust_threshold_.store(false)`. -/
  | ending
  /-- The thread has left `run_job`. -/
  | stopped
  deriving DecidableEq, Repr, Inhabited

/-! ### The state -/

/-- What the build and the caller fix: the tree the workers serve, and whether
`SIDLE_CHECK` is compiled in. -/
structure Config where
  tree : TreeType
  sidleCheck : Bool
  deriving DecidableEq, Repr

/-- The functions that an executor hands a task to. -/
inductive Handler
  | migrateLeaf
  | migrateInternode
  | findFirstLocalAncestor
  deriving DecidableEq, Repr

/-- The state of the workers.  `disabling` is the number of threads that stand in
`update_local_memory_usage` before `can_demote_.store(false)`; `added` and `handed` are
records of what has been put into the pair queues and of what has been handed on. -/
structure Workers where
  flags : Flags
  queue : MigrationQueue
  trigger : TriggerPc
  callByAdjuster : Bool
  executor : TaskType → ExecutorPc
  adjuster : AdjusterPc
  disabling : ℕ
  added : TaskType → List Task
  handed : TaskType → List (Handler × Task)

/-- All workers wait, and nothing is queued. -/
def Workers.initial : Workers where
  flags := .initial
  queue := .empty
  trigger := .waiting
  callByAdjuster := false
  executor := fun _ => .waiting
  adjuster := .idle
  disabling := 0
  added := fun _ => []
  handed := fun _ => []

namespace Workers

variable (w : Workers) (type : TaskType)

/-- The executor goes on at `pc`. -/
def goto (pc : ExecutorPc) : Workers := { w with executor := Function.update w.executor type pc }

/-- `queue_.add_multi_task`. -/
def addMultiTask (data : Task) : Workers :=
  { w with
    queue := w.queue.addMultiTask type data
    added := Function.update w.added type (w.added type ++ [data]) }

/-- `queue_.add_task`. -/
def addTask (data : ℕ) : Workers := { w with queue := w.queue.addTask type data }

/-- The call of a migration function. -/
def hand (handler : Handler) (task : Task) : Workers :=
  { w with handed := Function.update w.handed type (w.handed type ++ [(handler, task)]) }

end Workers

/-! ### The executors -/

/-- What the processing loop does with a task: it leaves the loop, a check throws, or the
task is handed on. -/
inductive Verdict
  | stop
  | fail
  | hand (handler : Handler)
  deriving DecidableEq, Repr

/-- What an executor reads while it takes a step: what `try_dequeue` finds, and, of the
node that a task names, whether it is a leaf and whether it is remote. -/
structure Reading where
  pair : Option Task
  task : Option ℕ
  isLeaf : Bool
  isRemote : Bool
  deriving DecidableEq, Repr

/-- The radix tree branch of the loop of `art_promotion_executor::run_job`. -/
def promotionVerdict (sidleCheck : Bool) (task : Task) : Verdict :=
  if task.1 = 0 ∨ task.2 = 0 then .stop
  else if sidleCheck && !Art.isLeaf task.1 then .fail
  else .hand .migrateLeaf

/-- The radix tree branch of the loop of `art_demotion_executor::run_job`. -/
def demotionVerdict (isRemote : Bool) (task : Task) : Verdict :=
  if task.1 = 0 then .stop
  else if task.2 = 0 then .hand .migrateInternode
  else if isRemote then .hand .findFirstLocalAncestor
  else .hand .migrateLeaf

/-- What either executor does with a pair. -/
def verdict (cfg : Config) (type : TaskType) (r : Reading) (task : Task) : Verdict :=
  match type with
  | .promotion => promotionVerdict cfg.sidleCheck task
  | .demotion => demotionVerdict r.isRemote task

/-- What either executor does with a task of a Masstree. -/
def masstreeVerdict (type : TaskType) (r : Reading) (task : ℕ) : Verdict :=
  if task = 0 then .stop
  else
    match type with
    | .promotion => .hand .migrateLeaf
    | .demotion => .hand (if r.isLeaf then .migrateLeaf else .migrateInternode)

/-- Where an executor goes on after the processing loop. -/
def afterLoop : TaskType → ExecutorPc
  | .promotion => .clearing
  | .demotion => .leaving

/-- The processing loop goes on, or ends, with the verdict on a task. -/
def Workers.act (w : Workers) (type : TaskType) (task : Task) : Verdict → Workers
  | .stop => w.goto type (afterLoop type)
  | .fail => w.goto type .failed
  | .hand handler => (w.hand type handler task).goto type .testing

/-- The clean-up loop dequeues pairs, and the one of the promotion executor plain tasks
when the tree is a Masstree. -/
def clearsPairs (cfg : Config) (type : TaskType) : Bool :=
  cfg.tree == .art || type == .demotion

/-- One step of an executor. -/
def stepExecutor (cfg : Config) (type : TaskType) (r : Reading) (w : Workers) : Option Workers :=
  match w.executor type with
  | .waiting =>
    -- a timeout sets the flag that a notification has found set
    some ({ w with flags := w.flags.setNeed type true }.goto type
      (match type with
        | .promotion => .testing
        | .demotion => .starting))
  | .starting => some ({ w with flags := { w.flags with isDemoting := true } }.goto type .testing)
  | .testing =>
    some (w.goto type (if w.flags.can type && w.flags.isRunning then .taking else afterLoop type))
  | .taking =>
    match cfg.tree with
    | .art =>
      (w.queue.getMultiTask type r.pair).map fun (task, q) =>
        { w with queue := q }.act type task (verdict cfg type r task)
    | .masstree =>
      (w.queue.getTask type r.task).map fun (task, q) =>
        { w with queue := q }.act type (task, 0) (masstreeVerdict type r task)
  | .leaving => some ({ w with flags := w.flags.setNeed type false }.goto type .resting)
  | .resting => some ({ w with flags := { w.flags with isDemoting := false } }.goto type .clearing)
  | .clearing =>
    if clearsPairs cfg type then
      (w.queue.getMultiTask type r.pair).map fun (task, q) =>
        { w with queue := q }.goto type (if task.1 ≠ 0 then .checking else .ending)
    else
      (w.queue.getTask type r.task).map fun (task, q) =>
        { w with queue := q }.goto type (if task ≠ 0 then .checking else .ending)
  | .checking => some (w.goto type (if w.flags.can type then .ending else .clearing))
  | .ending =>
    let flags :=
      match type with
      | .promotion => w.flags.setNeed .promotion false
      | .demotion => { w.flags with demotingComplete := true }
    some ({ w with flags := flags }.goto type (if w.flags.isRunning then .waiting else .stopped))
  | .stopped => none
  | .failed => none

/-! ### The migration trigger -/

/-- `queue_waiting_threshold`. -/
def queueWaitingThreshold : ℕ := 10

/-- `check_execute_promotion` and `check_execute_demotion`. -/
def Workers.checkExecute (w : Workers) (type : TaskType) : Workers :=
  if !w.flags.need type && decide (w.queue.getQueueLength type > queueWaitingThreshold) then
    { w with flags := w.flags.setNeed type true }
  else w

/-- A leaf as the trigger finds it: its address and its parent's, its memory type, and its
class in the histogram. -/
structure Visit where
  cur : ℕ
  parent : ℕ
  type : NodeMemType
  hotness : Hotness
  deriving DecidableEq, Repr

/-- A candidate for migration enters the queue of its tree. -/
def Workers.addCandidate (cfg : Config) (w : Workers) (type : TaskType) (v : Visit) : Workers :=
  match cfg.tree with
  | .art => w.addMultiTask type (makeLeaf (v.cur + 1), v.parent)
  | .masstree => w.addTask type v.cur

/-- `trigger_migration_cb`. -/
def triggerMigrationCb (cfg : Config) (v : Visit) (w : Workers) : Workers :=
  if w.flags.canPromote && v.type == .remote && v.hotness == .hot then
    if cfg.sidleCheck && v.parent == 0 then { w with trigger := .failed }
    else (w.addCandidate cfg .promotion v).checkExecute .promotion
  else if v.hotness == .cold && (v.type == .local_ || w.callByAdjuster) then
    if cfg.sidleCheck && v.parent == 0 then { w with trigger := .failed }
    else (w.addCandidate cfg .demotion v).checkExecute .demotion
  else w

/-- The end of a wait: `timeout` tells whether the time has run out before
`is_triggering_migration_` was set. -/
def wakeTrigger (timeout : Bool) (w : Workers) : Option Workers :=
  if timeout == w.flags.isTriggeringMigration then none
  else if !w.flags.canTrigger then
    some { w with trigger := if w.flags.isRunning then .waiting else .stopped }
  else if timeout then
    some { w with flags := { w.flags with isTriggeringMigration := true }, trigger := .traversing }
  else some { w with callByAdjuster := true, trigger := .traversing }

/-- One step of the migration trigger; while it traverses the tree, `visit` is the next
leaf, and `none` the end of the traversal. -/
def stepTrigger (cfg : Config) (timeout : Bool) (visit : Option Visit) (w : Workers) :
    Option Workers :=
  match w.trigger with
  | .waiting => wakeTrigger timeout w
  | .traversing =>
    match visit with
    | some v => some (triggerMigrationCb cfg v w)
    | none => some { w with trigger := .checkPromotion }
  | .checkPromotion =>
    let w' := { w with trigger := .checkDemotion }
    some (if decide (w.queue.getQueueLength .promotion > 0) && w.flags.canPromote then
      w'.checkExecute .promotion else w')
  | .checkDemotion =>
    let w' := { w with trigger := .ending }
    some (if w.queue.getQueueLength .demotion > 0 then w'.checkExecute .demotion else w')
  | .ending =>
    some
      { w with
        flags := { w.flags with isTriggeringMigration := false }
        trigger := if w.flags.isRunning then .waiting else .stopped }
  | .stopped => none
  | .failed => none

/-! ### The threshold adjuster -/

/-- `default_threshold_adjust_times`. -/
def defaultThresholdAdjustTimes : ℕ := 3

/-- One step of the threshold adjuster, which may read the memory usage status. -/
def stepAdjuster (status : MemUsageStatus) (w : Workers) : Option Workers :=
  let f := w.flags
  match w.adjuster with
  | .idle =>
    -- a timeout sets the flag that a notification has found set
    some { w with flags := { f with needAdjustThreshold := true }, adjuster := .awake }
  | .awake => some { w with adjuster := if status = .tight then .shortage else .ending }
  | .shortage => some { w with flags := { f with canPromote := false }, adjuster := .looping 0 }
  | .looping times =>
    some { w with
      adjuster := if times < defaultThresholdAdjustTimes then .stopTrigger times else .restore }
  | .stopTrigger times =>
    some { w with flags := { f with canTrigger := false }, adjuster := .stopDemotion times }
  | .stopDemotion times =>
    some { w with flags := { f with canDemote := false }, adjuster := .awaitDemotion (times + 1) }
  | .awaitDemotion times =>
    if f.isDemoting && f.isRunning then none else some { w with adjuster := .allowTrigger times }
  | .allowTrigger times =>
    some { w with flags := { f with canTrigger := true }, adjuster := .allowDemotion times }
  | .allowDemotion times =>
    some { w with flags := { f with canDemote := true }, adjuster := .wakeTrigger times }
  | .wakeTrigger times =>
    some { w with
      flags := { f with isTriggeringMigration := true }
      adjuster := .clearComplete times }
  | .clearComplete times =>
    some { w with flags := { f with demotingComplete := false }, adjuster := .awaitComplete times }
  | .awaitComplete times => some { w with adjuster := .recheck times }
  | .recheck times =>
    some { w with adjuster := if status = .tight then .looping times else .restore }
  | .restore => some { w with flags := { f with canPromote := true }, adjuster := .ending }
  | .ending =>
    some { w with
      flags := { f with needAdjustThreshold := false }
      adjuster := if f.isRunning then .idle else .stopped }
  | .stopped => none

/-! ### Allocations -/

/-- The flags that `update_local_memory_usage` reads, when the usage has `status`: it goes
on to disable the demotion, or wakes the adjuster, or leaves the flags alone. -/
def startUpdate (status : MemUsageStatus) (w : Workers) : Workers :=
  if w.flags.needAdjustThreshold && status == .sufficient then
    { w with disabling := w.disabling + 1 }
  else if status = .tight then
    { w with flags := { w.flags with needAdjustThreshold := true } }
  else w

/-- `can_demote_.store(false)` in `update_local_memory_usage`. -/
def finishUpdate (w : Workers) : Option Workers :=
  if w.disabling = 0 then none
  else
    some
      { w with flags := { w.flags with canDemote := false }, disabling := w.disabling - 1 }

/-! ### The system -/

/-- The steps of the system. -/
inductive Event
  /-- Some thread calls `add_multi_task`. -/
  | addMultiTask (type : TaskType) (data : Task)
  /-- Some thread calls `add_task`. -/
  | addTask (type : TaskType) (data : ℕ)
  | executor (type : TaskType) (r : Reading)
  | trigger (timeout : Bool) (visit : Option Visit)
  | adjuster (status : MemUsageStatus)
  | startUpdate (status : MemUsageStatus)
  | finishUpdate
  /-- `stop`. -/
  | stop
  deriving DecidableEq, Repr

/-- The transition function of the system. -/
def step (cfg : Config) (w : Workers) : Event → Option Workers
  | .addMultiTask type data => some (w.addMultiTask type data)
  | .addTask type data => some (w.addTask type data)
  | .executor type r => stepExecutor cfg type r w
  | .trigger timeout visit => stepTrigger cfg timeout visit w
  | .adjuster status => stepAdjuster status w
  | .startUpdate status => some (startUpdate status w)
  | .finishUpdate => finishUpdate w
  | .stop => some { w with flags := { w.flags with isRunning := false } }

end Sidle.Worker
