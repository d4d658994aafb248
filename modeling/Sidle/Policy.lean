import Mathlib.Tactic.Common
import Mathlib.Data.Nat.Notation
import Mathlib.Data.Int.Notation

/-!
# Placement policy

The part of `sidle_policy.hh` that decides where a node lives: the depth thresholds,
the strategy that picks a memory type for a new node, and the accounting of local
memory with the worker flags it sets.  The memory usage ratio is computed in floating
point by the source; the comparison of that ratio with the two watermarks is a
parameter here, so everything below holds for every rounding.

## Main definitions

* `NodeMemType`, `NodeMetadata`, `LeafMetadata` — the metadata of a node.
* `SidleThreshold` — the depth thresholds and the operations that move them.
* `Global` — the strategy manager, the worker flags and the task queues.
* `decideNewNodePosition`, `updateLocalMemoryUsage` — `sidle_strategy`.
-/

namespace Sidle

/-- `node_mem_type`. -/
inductive NodeMemType
  | remote
  | local_
  | unknown
  | debug
  deriving DecidableEq, Repr, Inhabited

/-- `node_metadata`: two bits of type and six bits of depth. -/
structure NodeMetadata where
  type : NodeMemType
  depth : ℕ
  deriving DecidableEq, Repr, Inhabited

/-- The constructor of `node_metadata`, which stores the depth in six bits. -/
def NodeMetadata.make (type : NodeMemType) (depth : ℕ) : NodeMetadata := ⟨type, depth % 64⟩

/-- `mem_usage_status`. -/
inductive MemUsageStatus
  | normal
  | tight
  | sufficient
  deriving DecidableEq, Repr, Inhabited

/-- `LEAF_DEPTH`. -/
def leafDepth : ℕ := 8

/-- `max_local_depth`. -/
def maxLocalDepth : ℕ := 8

/-! ### The depth thresholds -/

/-- The depth thresholds of `sidle_threshold`, bytes of the source. -/
structure SidleThreshold where
  localAllocationLayerThreshold : ℕ
  demotionDepthThreshold : ℕ
  defaultDemotionDepthThreshold : ℕ
  deriving DecidableEq, Repr, Inhabited

namespace SidleThreshold

variable (t : SidleThreshold)

/-- `get_allocation_position`. -/
def getAllocationPosition (curDepth : ℕ) : NodeMemType :=
  if curDepth ≤ t.localAllocationLayerThreshold then .local_ else .remote

/-- `correct_threshold_with_leaf_depth`. -/
def correctThresholdWithLeafDepth (leafDepth : ℕ) : SidleThreshold :=
  { t with
    localAllocationLayerThreshold := min t.localAllocationLayerThreshold leafDepth
    demotionDepthThreshold := min t.demotionDepthThreshold ((leafDepth + 255) % 256) }

/-- `adjust_local_allocation_threshold`. -/
def adjustLocalAllocationThreshold (isShrink : Bool) : SidleThreshold :=
  if isShrink then
    { t with
      localAllocationLayerThreshold :=
        if t.localAllocationLayerThreshold > 1 then t.localAllocationLayerThreshold - 1 else 1 }
  else
    { t with
      localAllocationLayerThreshold :=
        min ((t.localAllocationLayerThreshold + 1) % 256) maxLocalDepth }

/-- `adjust_demotion_depth_threshold`. -/
def adjustDemotionDepthThreshold (isShrink : Bool) : SidleThreshold :=
  if isShrink then
    { t with
      demotionDepthThreshold :=
        max ((t.demotionDepthThreshold + 255) % 256) t.defaultDemotionDepthThreshold }
  else
    { t with
      demotionDepthThreshold :=
        if t.demotionDepthThreshold = leafDepth then leafDepth
        else (t.demotionDepthThreshold + 1) % 256 }

end SidleThreshold

/-! ### The strategy manager -/

/-- The static flags of `art_worker_base` that the modelled code reads or sets. -/
structure WorkerFlags where
  needAdjustThreshold : Bool
  canPromote : Bool
  canDemote : Bool
  isRunning : Bool
  deriving DecidableEq, Repr, Inhabited

/-- The state shared by all threads apart from the tree itself: `strategy_manager`, the
worker flags, and the two queues of migration tasks of the radix tree. -/
structure Global where
  threshold : SidleThreshold
  maxLocalMemoryUsage : ℕ
  curLocalMemoryUsage : ℤ
  slowDownInLoad : Bool
  flags : WorkerFlags
  promotionPairQueue : List (ℕ × ℕ)
  demotionPairQueue : List (ℕ × ℕ)
  deriving DecidableEq, Inhabited

namespace Global

variable (g : Global)

/-- `sidle_strategy::decide_new_node_position`. -/
def decideNewNodePosition (parentType : NodeMemType) (curDepth : ℕ) : NodeMemType :=
  if parentType = .remote then .remote else g.threshold.getAllocationPosition curDepth

/-- The accounting and the threshold correction of `update_local_memory_usage`. -/
def accountLocalMemory (type : NodeMemType) (curDepth : ℕ) (nodeSize : ℤ)
    (isMigration isLeaf : Bool) : Global :=
  let usage :=
    if type = .local_ then g.curLocalMemoryUsage + nodeSize
    else if type = .remote && isMigration then g.curLocalMemoryUsage - nodeSize
    else g.curLocalMemoryUsage
  let threshold :=
    if isMigration && isLeaf && curDepth > 0 then
      g.threshold.correctThresholdWithLeafDepth curDepth
    else g.threshold
  { g with curLocalMemoryUsage := usage, threshold := threshold }

/-- The reaction of `update_local_memory_usage` to the memory usage status. -/
def reactToUsage (status : MemUsageStatus) : Global :=
  if g.flags.needAdjustThreshold && status == .sufficient then
    { g with flags := { g.flags with canDemote := false } }
  else if status = .tight then
    { g with flags := { g.flags with needAdjustThreshold := true } }
  else if !g.flags.isRunning && status == .normal && !g.slowDownInLoad then
    { g with
      slowDownInLoad := true
      threshold := g.threshold.adjustLocalAllocationThreshold true }
  else g

theorem curLocalMemoryUsage_reactToUsage (status : MemUsageStatus) :
    (g.reactToUsage status).curLocalMemoryUsage = g.curLocalMemoryUsage := by
  unfold Global.reactToUsage
  split_ifs <;> rfl

/-- `sidle_strategy::update_local_memory_usage`.  The status is what the source reads
off the floating point ratio; `none` is the failed `SIDLE_CHECK` on a negative usage. -/
def updateLocalMemoryUsage (sidleCheck : Bool) (checkMemoryUsage : ℤ → ℕ → MemUsageStatus)
    (type : NodeMemType) (curDepth : ℕ) (nodeSize : ℤ) (isMigration isLeaf : Bool) :
    Option Global :=
  let g' := g.accountLocalMemory type curDepth nodeSize isMigration isLeaf
  if sidleCheck && g'.curLocalMemoryUsage < 0 then none
  else some (g'.reactToUsage (checkMemoryUsage g'.curLocalMemoryUsage g'.maxLocalMemoryUsage))

/-- A migration into the local memory or out of it is accounted for. -/
theorem usage_ne_of_migration {g g' : Global} {sidleCheck : Bool}
    {checkMemoryUsage : ℤ → ℕ → MemUsageStatus} {type : NodeMemType} {curDepth : ℕ} {nodeSize : ℤ}
    {isLeaf : Bool} (ht : type = .local_ ∨ type = .remote) (hsize : nodeSize ≠ 0)
    (h : g.updateLocalMemoryUsage sidleCheck checkMemoryUsage type curDepth nodeSize true isLeaf =
      some g') : g'.curLocalMemoryUsage ≠ g.curLocalMemoryUsage := by
  simp only [updateLocalMemoryUsage] at h
  split at h
  · cases h
  · rw [← Option.some.inj h, curLocalMemoryUsage_reactToUsage]
    rcases ht with rfl | rfl
    · change g.curLocalMemoryUsage + nodeSize ≠ _
      omega
    · change g.curLocalMemoryUsage - nodeSize ≠ _
      omega

end Global

end Sidle
