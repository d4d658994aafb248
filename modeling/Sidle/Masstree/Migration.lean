import Sidle.Masstree.Split
import Sidle.Worker.Executor

/-!
# Migrations of leaves and internodes

`masstree_sidle.hh`: a node is copied to a block of the other memory, its parent is made to
point to the copy, and the original is retired.  A leaf is copied without what lies behind
its struct.

## Main definitions

* `leafMigration`, `internodeMigration` — the migrations of a single node.
* `masstreeOps` — the operations that the executors use.
-/

namespace Sidle.Masstree

open Art (Build Fault)
open Prog Worker

section Migrations

variable (env : Env)

/-- The loop of `masstree_leaf_migration` that waits for a version that stays. -/
def waitUnchanged (a : Addr) : ℕ → MtM Unit
  | 0 => diverge
  | fuel + 1 => do
    let v ← readVersion a
    let changed ← hasChanged a v true
    if changed then waitUnchanged a fuel else pure ()

/-- The position of `child` among the children of `p`: where the bound says, or else the first
place where it is found. -/
def Internode.childPosition (p : Internode) (ikey : ℕ) (child : Addr) : Option ℕ :=
  if p.child (p.upper ikey) = child then some (p.upper ikey)
  else (List.range (p.nkeys + 1)).find? fun i => p.child i == child

/-- `assign_copy(posi - 1, child)`. -/
def assignCopy (p : Addr) (posi : ℕ) (child : Addr) : MtM Unit := do
  setParent child p
  writeInternode p fun x => { x with child := Function.update x.child posi child }

/-- The locks are released, that of the parent last, after a migration that is given up. -/
def giveUp (a b p : Addr) : MtM Addr := do
  unlock env.build a
  unlock env.build b
  if p ≠ 0 then unlock env.build p else pure ()
  pure 0

/-- `n->unlock()` if the node is locked. -/
def unlockLocked (a : Addr) : MtM Unit := do
  let v ← readVersion a
  if v.locked then unlock env.build a else pure ()

/-- `memcpy` of a leaf: what lies behind the struct is not copied. -/
def memcpyLeaf (new_ cur : Addr) : MtM Unit := do
  let l ← readLeaf cur
  writeLeaf new_ fun r => { l with iksuf := r.iksuf }

/-- The part of `masstree_leaf_migration` that replaces the leaf, which is locked and marked,
by its copy. -/
def replaceLeaf (fuel : ℕ) (cur new_ : Addr) : MtM Addr := do
  let p ← lockedParent env.build cur fuel
  let v ← readVersion cur
  let invalid ←
    if p = 0 && !v.isRoot then pure true
    else do
      let pv ← readVersion p
      pure pv.deleted
  if invalid then giveUp env cur new_ p
  else do
    let l ← readLeaf cur
    let x ← readInternode p
    assert_ env.build (decide (x.upper (l.ikey0 0) ≤ width))
    match x.childPosition (l.ikey0 0) cur with
    | none => giveUp env cur new_ p
    | some posi => do
      assignCopy p posi new_
      changeLink fuel cur new_
      markLocked env.build cur NodeVersion.markDeleted
      deallocateLeaf cur
      unlockLocked env cur
      unlockLocked env new_
      pure p

/-- `masstree_leaf_migration`. -/
def leafMigration (fuel : ℕ) (cur _parent : Addr) (targetType : NodeMemType) : MtM Addr :=
  if cur = 0 then pure 0
  else do
    let v ← readVersion cur
    let l ← readLeaf cur
    if v.deleted || l.metadata.type == targetType then pure 0
    else do
      let v ← readVersion cur
      if v.migrating || v.inserting || v.splitting then pure 0
      else do
        waitUnchanged cur fuel
        let l ← readLeaf cur
        let b ← externalBag l
        let new_ ← makeLeaf env (l.ksufUsedCapacity b) l.metadata.depth targetType l.accessTime true
        let _ ← lock env.build fuel cur
        memcpyLeaf new_ cur
        writeLeaf new_ fun r => { r with metadata := { r.metadata with type := targetType } }
        writeVersion cur NodeVersion.markMigration
        replaceLeaf env fuel cur new_

/-- The part of `masstree_internode_migration` that replaces the internode, which is locked and
marked, by its copy. -/
def replaceInternode (fuel : ℕ) (original new_ : Addr) : MtM Addr := do
  let p ← lockedParent env.build original fuel
  let v ← readVersion original
  let invalid ←
    if p = 0 then pure (!v.isRoot)
    else do
      let pv ← readVersion p
      pure pv.deleted
  if invalid then giveUp env new_ original p
  else do
    let posi ←
      if p = 0 then do
        makeLayerRoot new_
        pure (some 0)
      else do
        let o ← readInternode original
        let x ← readInternode p
        assert_ env.build (decide (x.upper (o.ikey0 0) ≤ width))
        match x.childPosition (o.ikey0 0) original with
        | none => pure none
        | some posi => do
          assignCopy p posi new_
          pure (some posi)
    match posi with
    | none => giveUp env original new_ p
    | some _ => do
      let o ← readInternode original
      forRange 0 (o.nkeys + 1) fun i => setParent (o.child i) new_
      markLocked env.build original NodeVersion.markDeleted
      retireBlock original
      unlock env.build original
      unlock env.build new_
      pure p

/-- `masstree_internode_migration`. -/
def internodeMigration (fuel : ℕ) (original : Addr) (targetType : NodeMemType) (isNew : Bool) :
    MtM Addr := do
  if isNew then do
    let _ ← lock env.build fuel original
    pure ()
  else pure ()
  let v ← readVersion original
  masstreePrecondition env.build v.locked
  let o ← readInternode original
  if v.deleted || o.sidleMeta.type == targetType then do
    unlock env.build original
    pure 0
  else do
    assert_ env.build (o.sidleMeta.depth != 1 || targetType == .local_)
    let new_ ← makeInternode env o.height o.sidleMeta.depth targetType true
    let o ← readInternode original
    writeInternode new_ fun _ => o
    writeInternode new_ fun x => { x with sidleMeta := { x.sidleMeta with type := targetType } }
    writeVersion original NodeVersion.markMigration
    replaceInternode env fuel original new_

/-- `masstree_unlock`. -/
def masstreeUnlock (a : Addr) : MtM Unit :=
  if a = 0 then pure () else unlockLocked env a

/-- The children from the `i`-th on are visited until a callback stops the traversal. -/
def visitChildren (x : Internode) (cb : Addr → MtM Bool) : ℕ → ℕ → MtM Bool
  | 0, _ => pure true
  | n + 1, i => do
    let goOn ← cb (x.child i)
    if goOn then visitChildren x cb n (i + 1) else pure false

/-- `masstree_internode_traverse`. -/
def internodeTraverse (a : Addr) (cb : Addr → MtM Bool) : MtM Bool := do
  let x ← readInternode a
  visitChildren x cb (x.nkeys + 1) 0

/-- The operations of the Masstree. -/
def masstreeOps (fuel : ℕ) : TreeOp MtOp Fault where
  type := .masstree
  leafMigration := leafMigration env fuel
  internodeMigration := internodeMigration env fuel
  unlock := masstreeUnlock env
  nodeTraverse := internodeTraverse
  isLeaf child :=
    if child = 0 then pure false
    else do
      let v ← readVersion child
      pure v.isleaf
  getLeaf child := child
  nodeMetadata a := do
    let x ← readInternode a
    pure x.sidleMeta
  leafMetadata a := do
    let l ← readLeaf a
    pure l.metadata
  getDemotionDepthThreshold := onGlobal fun g => some (g.threshold.demotionDepthThreshold, g)
  addTask node := access some fun _ mem =>
    ((), { mem with demotionQueue := mem.demotionQueue ++ [node] })
  addMultiTask _ := pure ()
  sidleCheck b := if env.build.sidleCheck && !b then fail .thrown else pure ()

end Migrations

end Sidle.Masstree
