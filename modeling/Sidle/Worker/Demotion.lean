import Sidle.Art.Represents
import Sidle.Worker.Executor

/-!
# Runs of the demotion executor

The demotion executor of the radix tree as a transition system.  One of its steps is one
access to the memory of the tree; between any two of them other threads may change that
memory, and what they may do is left to the results.  A task is dequeued, the executor
decides what to demote for it, and then it migrates.

A record goes with the run that the code does not keep: which nodes the migration under way
has locked itself, which fresh copies have inherited the lock bit of their original, and
which originals have been copied and are not yet old.

## Main definitions

* `Locks`, `Locks.after` — the record, and what an access does to it.
* `Phase`, `DemotionState`, `DemotionEvent`, `demotionStep` — the transition system.
* `DemotionState.Copies` — the next access copies from a node.
-/

namespace Sidle.Worker

open Art Prog

/-! ### The record -/

/-- The nodes that a migration has locked, the copies that are locked because their original
was, and the originals between their copy and their `OLD_BIT`. -/
structure Locks where
  owned : Finset Addr
  inherited : Finset Addr
  copied : Finset Addr
  deriving DecidableEq

namespace Locks

/-- Nothing is locked and nothing has been copied. -/
def none : Locks := ⟨∅, ∅, ∅⟩

variable (l : Locks)

/-- The nodes whose lock bit this thread is to clear. -/
def held : Finset Addr := l.owned ∪ l.inherited

/-- The node is unlocked. -/
def drop (an : Addr) : Locks :=
  { l with owned := l.owned.erase an, inherited := l.inherited.erase an }

/-- The version word of `an` is overwritten with `version`. -/
def setVersion (an : Addr) (version : Version) : Locks :=
  let l := if isLocked version then l else l.drop an
  if isOld version then { l with copied := l.copied.erase an } else l

/-- A field of `src` has been copied to `dst`. -/
def copyFrom (src : Addr) : Locks := { l with copied := insert src l.copied }

/-- The version word has been copied. -/
def copyVersion (dst src : Addr) : Locks :=
  if src ∈ l.held then { l with inherited := insert dst l.inherited } else l.drop dst

/-- The record after an access. -/
def after : {β : Type} → ArtOp β → β → Locks → Locks
  | _, .casVersion an expected desired, true, l =>
    if isLocked expected then l.setVersion an desired
    else if isLocked desired then { l with owned := insert an l.owned }
    else l
  | _, .store an .version version, _, l => l.setVersion an version
  | _, .copy dst src .version, _, l => (l.copyVersion dst src).copyFrom src
  | _, .copy _ src _, _, l => l.copyFrom src
  | _, .free an, _, l => l.drop an
  | _, _, _, l => l

end Locks

/-! ### The transition system -/

/-- What the executor is doing. -/
inductive Phase
  | idle
  /-- It decides what to demote for a task. -/
  | choosing (task : Task) (p : ArtM (DemotionMap × Demotion))
  /-- It migrates. -/
  | migrating (task : Task) (d : Demotion) (p : ArtM Unit)

/-- The executor, the memory of the tree, and the record. -/
structure DemotionState where
  phase : Phase
  map : DemotionMap
  mem : Mem
  locks : Locks

/-- The steps of a run. -/
inductive DemotionEvent
  /-- A task is dequeued. -/
  | take (task : Task) (fuel : ℕ)
  /-- The executor performs its next access. -/
  | access
  /-- It has decided, and starts to migrate. -/
  | start (fuel : ℕ)
  /-- It has migrated. -/
  | finish
  /-- The loop is left, and `demotion_map_.clear()` is called. -/
  | endRound
  /-- Other threads change the memory. -/
  | others (mem : Mem)

variable (env : Env)

/-- One access of a program. -/
def accessStep {α : Type} (p : ArtM α) (mem : Mem) (l : Locks) : Option (ArtM α × Mem × Locks) :=
  match p with
  | .op o k =>
    match env.exec o mem with
    | .ok (b, mem') => some (k b, mem', Locks.after o b l)
    | .error _ => none
  | _ => none

/-- The transition function. -/
def demotionStep (s : DemotionState) : DemotionEvent → Option DemotionState
  | .take task fuel =>
    let g := s.mem.global
    match s.phase with
    | .idle =>
      if g.flags.canDemote ∧ g.flags.isRunning ∧ task ∈ g.demotionPairQueue then
        some
          { s with
            phase := .choosing task (chooseDemotion fuel s.map task)
            mem := { s.mem with
              global := { g with demotionPairQueue := g.demotionPairQueue.erase task } }
            locks := .none }
      else none
    | _ => none
  | .access =>
    match s.phase with
    | .idle => none
    | .choosing task p =>
      (accessStep env p s.mem s.locks).map fun (p', mem, l) =>
        { s with phase := .choosing task p', mem := mem, locks := l }
    | .migrating task d p =>
      (accessStep env p s.mem s.locks).map fun (p', mem, l) =>
        { s with phase := .migrating task d p', mem := mem, locks := l }
  | .start fuel =>
    match s.phase with
    | .choosing task (.ret (map, d)) =>
      some { s with phase := .migrating task d (d.run env fuel), map := map }
    | _ => none
  | .finish =>
    match s.phase with
    | .migrating task d (.ret ()) => some { s with phase := .idle, map := d.mapAfter s.map task }
    | _ => none
  | .endRound =>
    match s.phase with
    | .idle => some { s with map := .empty }
    | _ => none
  | .others mem => some { s with mem := mem }

namespace DemotionState

/-- The executor waits for its first task. -/
def initial (mem : Mem) : DemotionState := ⟨.idle, .empty, mem, .none⟩

variable (s : DemotionState)

/-- The executor migrates `node` because it was popped from the queue, or because
`find_first_local_ancestor` has found all its children recorded. -/
def DemotesInternode (node : Addr) : Prop :=
  ∃ task p, s.phase = .migrating task (.internode node) p

end DemotionState

/-- The next access of the program copies from the node `src`. -/
def CopiesFrom {α : Type} (src : Addr) : ArtM α → Prop
  | .op (.copy _ src' _) _ => src' = src
  | _ => False

/-- The next access of the executor copies from the node `src`: `internode_migration` is at
its `memcpy`. -/
def DemotionState.Copies (s : DemotionState) (src : Addr) : Prop :=
  match s.phase with
  | .idle => False
  | .choosing _ p => CopiesFrom src p
  | .migrating _ _ p => CopiesFrom src p

instance {α : Type} (src : Addr) (p : ArtM α) : Decidable (CopiesFrom src p) := by
  unfold CopiesFrom
  split <;> infer_instance

instance (s : DemotionState) (src : Addr) : Decidable (s.Copies src) := by
  unfold DemotionState.Copies
  split <;> infer_instance

end Sidle.Worker
