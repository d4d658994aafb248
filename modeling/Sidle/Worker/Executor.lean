import Mathlib.Data.Finset.Card
import Sidle.Art.Migration
import Sidle.Prog.Safe
import Sidle.Worker.System

/-!
# The migration executors

`art_executor_base` moves a leaf, or an internal node, and then climbs towards the root as
long as the nodes above are to be moved too.  It serves two trees through `tree_op`, so the
functions here are programs over whatever accesses the operations of the tree perform.

An iteration of the loop of `art_demotion_executor::run_job` is given in two parts: what it
decides to demote, and the demotion.

## Main definitions

* `TreeOp` — `tree_op`, and what the executors use besides it.
* `needContinueMigrate`, `migrateInternode`, `migrateLeaf` — `art_executor_base`.
* `DemotionMap`, `findFirstLocalAncestor` — the internal nodes whose children are recorded.
* `chooseDemotion`, `Demotion.run` — the loop of the demotion executor.
* `artOps` — the operations of the radix tree.
-/

universe u

namespace Sidle.Worker

open Art Prog

/-- `migration_state`. -/
inductive MigrationState
  | stop
  | proceed
  | delay
  deriving DecidableEq, Repr, Inhabited

/-- `tree_op`, and with it the metadata fields, the thresholds and the demotion queue that
the executors access. -/
structure TreeOp (Op : Type → Type u) (ε : Type) where
  type : TreeType
  leafMigration : Addr → Addr → NodeMemType → Prog Op ε Addr
  internodeMigration : Addr → NodeMemType → Bool → Prog Op ε Addr
  unlock : Addr → Prog Op ε Unit
  /-- The answer says that no callback has stopped the traversal. -/
  nodeTraverse : Addr → (Ptr → Prog Op ε Bool) → Prog Op ε Bool
  isLeaf : Ptr → Prog Op ε Bool
  getLeaf : Ptr → Addr
  /-- `sidle_meta` of an internal node. -/
  nodeMetadata : Addr → Prog Op ε NodeMetadata
  /-- `sidle_meta.metadata` of a leaf. -/
  leafMetadata : Addr → Prog Op ε NodeMetadata
  getDemotionDepthThreshold : Prog Op ε ℕ
  /-- `queue_.add_task(task_type::demotion, …)`. -/
  addTask : ℕ → Prog Op ε Unit
  /-- `queue_.add_multi_task(task_type::demotion, …)`. -/
  addMultiTask : Task → Prog Op ε Unit
  /-- `SIDLE_CHECK`. -/
  sidleCheck : Bool → Prog Op ε Unit

section Base

variable {Op : Type → Type u} {ε : Type} (x : TreeOp Op ε)

/-- What the traversal in `need_continue_migrate` asks of a child. -/
def isLocalChild (child : Ptr) : Prog Op ε Bool := do
  let leaf ← x.isLeaf child
  if leaf then do
    let m ← x.leafMetadata (x.getLeaf child)
    pure (decide (m.type = .local_))
  else do
    let m ← x.nodeMetadata child
    pure (decide (m.type = .local_))

/-- `need_continue_migrate`; `has_migrated` is `1` by default. -/
def needContinueMigrate (parentNode : Addr) (targetType : NodeMemType) (hasMigrated : ℕ) :
    Prog Op ε MigrationState :=
  if parentNode = 0 then pure .stop
  else match targetType with
    | .remote => do
      let m ← x.nodeMetadata parentNode
      let threshold ← x.getDemotionDepthThreshold
      let m' ← x.nodeMetadata parentNode
      if m.depth ≤ threshold ∨ m'.depth = 1 then pure .stop
      else do
        -- check whether there exists a local node in the child nodes
        let noLocal ← x.nodeTraverse parentNode fun child => do
          let l ← isLocalChild x child
          pure !l
        pure (if noLocal then .proceed else if hasMigrated = 0 then .stop else .delay)
    | .local_ => do
      let m ← x.nodeMetadata parentNode
      pure (if m.type ≠ .local_ then .proceed else .stop)
    | _ => pure .stop

/-- The task of a delayed internal node. -/
def addDelayed (node : Addr) : Prog Op ε Unit :=
  if x.type = .art then x.addMultiTask (node, 0) else x.addTask node

/-- The beginning of `migrate_internode`: whether a node that was popped from the queue is not
to be moved. -/
def stopsPopped (isNew : Bool) (originalNode : Addr) (targetType : NodeMemType)
    (hasMigrated : ℕ) : Prog Op ε Bool :=
  if isNew then do
    let state ← needContinueMigrate x originalNode targetType hasMigrated
    pure (decide (state = .stop))
  else pure false

/-- The end of `migrate_internode`: `migrate` goes on with the parent. -/
def continueWith (parent : Addr) (targetType : NodeMemType) (migrate : Prog Op ε Unit) :
    MigrationState → Prog Op ε Unit
  | .proceed => migrate
  | .delay => do
    x.sidleCheck (targetType == .remote)
    addDelayed x parent
  | .stop => pure ()

/-- `migrate_internode`.  The depth of its recursion is the length of the path to the root,
which the fuel bounds; `ti` is null and `has_migrated` is `1` by default. -/
def migrateInternode : (fuel : ℕ) → (originalNode : Addr) → (targetType : NodeMemType) →
    (ti : Addr) → (hasMigrated : ℕ) → Prog Op ε Unit
  | 0, _, _, _, _ => diverge
  | fuel + 1, originalNode, targetType, ti, hasMigrated => do
    x.sidleCheck (originalNode != 0)
    -- an internal node that was popped from the queue is checked before it is moved
    let isNew : Bool := hasMigrated == 0 && targetType == .remote
    let stopped ← stopsPopped x isNew originalNode targetType hasMigrated
    if stopped then pure ()
    else do
      let parent ← x.internodeMigration originalNode targetType isNew
      if parent = 0 then pure ()
      else do
        let state ← needContinueMigrate x parent targetType (hasMigrated + 1)
        continueWith x parent targetType
          (migrateInternode fuel parent targetType ti (hasMigrated + 1)) state
        x.unlock parent

/-- `migrate_leaf`. -/
def migrateLeaf (fuel : ℕ) (curNode parent : Addr) (targetType : NodeMemType) (ti : Addr) :
    Prog Op ε Unit := do
  let p ← x.leafMigration curNode parent targetType
  if p = 0 then pure ()
  else if targetType = .remote then do
    let status ← needContinueMigrate x p targetType 1
    if status = .proceed then migrateInternode x fuel p targetType ti 1
    else do
      if status = .delay then addDelayed x p else pure ()
      x.unlock p
  else migrateInternode x fuel p targetType ti 1

end Base

/-! ### The radix tree -/

/-- The operations of the radix tree. -/
def artOps (env : Env) (fuel : ℕ) : TreeOp ArtOp Fault where
  type := .art
  leafMigration := leafMigration env fuel
  internodeMigration := internodeMigration env fuel
  unlock := unlockNode
  nodeTraverse := artNodeTraverse
  isLeaf child := pure (Art.isLeaf child)
  getLeaf := Art.getLeaf
  nodeMetadata an := load an .sidleMeta
  leafMetadata l := loadLeaf l .metadata
  getDemotionDepthThreshold :=
    lift (.onGlobal fun g => some (g.threshold.demotionDepthThreshold, g))
  addTask _ := pure ()
  addMultiTask task := lift (.onGlobal fun g =>
    some ((), { g with demotionPairQueue := g.demotionPairQueue ++ [task] }))
  sidleCheck b := Art.sidleCheck env.build (pure b)

/-! ### The demotion executor -/

/-- `demotion_map_`: the children that are recorded for a node.  A node without an entry is
one without recorded children. -/
abbrev DemotionMap := Addr → Finset Addr

namespace DemotionMap

/-- No node has an entry. -/
def empty : DemotionMap := fun _ => ∅

variable (map : DemotionMap)

/-- `demotion_map_.erase`. -/
def erase (node : Addr) : DemotionMap := Function.update map node ∅

/-- `demotion_map_[node].insert(child)`. -/
def insert (node child : Addr) : DemotionMap :=
  Function.update map node (Insert.insert child (map node))

end DemotionMap

/-- What an iteration of the loop has decided to move to remote memory. -/
inductive Demotion
  | nothing
  /-- `migrate_internode(node, remote, 0)`. -/
  | internode (node : Addr)
  /-- `migrate_leaf(cur, parent, remote, ti)`. -/
  | leaf (cur parent : Addr)
  deriving DecidableEq, Repr

/-- `find_first_local_ancestor`, up to its call of `migrate_internode`. -/
def findFirstLocalAncestor : ℕ → DemotionMap → Addr → Addr → ArtM (DemotionMap × Demotion)
  | 0, _, _, _ => diverge
  | fuel + 1, map, node, child =>
    if node = 0 then pure (map, .nothing)
    else do
      let v ← artNodeGetVersion node
      if isOld v then pure (map.erase node, .nothing)
      else do
        let childCount := getCount v
        let m ← load node .sidleMeta
        if m.type = .local_ then
          pure (map.insert node child,
            if ((map.insert node child) node).card = childCount then .internode node else .nothing)
        else do
          let parent ← load node .parent
          findFirstLocalAncestor fuel map parent node

/-- The radix tree branch of the loop of `art_demotion_executor::run_job` for the task
`(addr, parentAddr)`, up to the migration. -/
def chooseDemotion (fuel : ℕ) (map : DemotionMap) (task : Task) : ArtM (DemotionMap × Demotion) :=
  if task.1 = 0 then pure (map, .nothing)
  else if task.2 = 0 then pure (map, .internode task.1)
  else do
    let cur := Art.getLeaf task.1
    let m ← loadLeaf cur .metadata
    if m.type = .remote then findFirstLocalAncestor fuel map task.2 cur
    else pure (map, .leaf cur task.2)

/-- The migration of the loop.  The third argument of `migrate_internode` is its `ti`, not its
`has_migrated`. -/
def Demotion.run (env : Env) (fuel : ℕ) : Demotion → ArtM Unit
  | .nothing => pure ()
  | .internode node => migrateInternode (artOps env fuel) fuel node .remote 0 1
  | .leaf cur parent => migrateLeaf (artOps env fuel) fuel cur parent .remote 0

/-- The map after the migration: `find_first_local_ancestor` ends with `demotion_map_.erase`.
A popped internal node has no entry that its own demotion completes. -/
def Demotion.mapAfter (map : DemotionMap) (task : Task) : Demotion → DemotionMap
  | .internode node => if task.2 = 0 then map else map.erase node
  | _ => map

end Sidle.Worker
